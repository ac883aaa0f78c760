/- GID: DragonsNet/Dataplane/L4Reactor
   source: migration/dataplane/host/src/l4_uring.rs
   digest: The ring pump of the layer-4 passthrough, with the pipes and sockets it moves. -/

import DragonsNet.Lib.Runs
import Mathlib.Data.List.Infix
import Mathlib.Logic.Function.Basic
import Mathlib.Tactic.Common

set_option autoImplicit false

namespace DragonsNet.Dataplane.L4Reactor

def SPLICE_CHUNK : ℕ := 64 * 1024

def EAGAIN : ℕ := 11

inductive Phase where
  | fill
  | drain
  deriving DecidableEq, Repr

structure Dir where
  phase : Phase
  pending : ℕ
  done : Bool
  deriving DecidableEq, Repr

/-- A flow. Its number stands for the sockets and pipes it owns, which no two flows share;
direction `false` is client to upstream, `true` upstream to client. -/
structure Flow where
  id : ℕ
  dirs : Bool → Dir

inductive Kind where
  | fill
  | drain (len : ℕ)
  deriving DecidableEq, Repr

/-- A submitted operation. The kernel moves octets of the flow it was made for, but all a
completion says of the flow is this slot. -/
structure Op where
  slot : ℕ
  kind : Kind
  deriving DecidableEq, Repr

/-- The octets of a direction: those taken from its source, in its pipe and delivered to its
destination, whether the source's end was read, and whether the destination's write half was
shut down. -/
structure Wire where
  taken : List UInt8
  pipe : List UInt8
  delivered : List UInt8
  ended : Bool
  shut : Bool
  deriving DecidableEq, Repr

def Wire.new : Wire := ⟨[], [], [], false, false⟩

/-- The reactor: its slab, with `free` as a stack; the operations submitted or in the backlog,
by flow and direction; and, as a record, the wires, the number of flows begun and the flows
freed. -/
structure Reactor where
  flows : List (Option Flow)
  free : List ℕ
  ops : ℕ → Bool → List Op
  wires : ℕ → Bool → Wire
  next : ℕ
  freed : List ℕ

def update2 {A : Type} (f : ℕ → Bool → A) (id : ℕ) (dir : Bool) (a : A) : ℕ → Bool → A :=
  Function.update f id (Function.update (f id) dir a)

def Dir.sqe (d : Dir) : Kind :=
  match d.phase with
  | .fill => .fill
  | .drain => .drain d.pending

/-- `on_flow` within one direction: the direction, the operation to submit, and whether the
destination's write half is shut down. -/
def Dir.onCompletion (d : Dir) (res : ℤ) : Dir × Option Kind × Bool :=
  if res = -EAGAIN then (d, some d.sqe, false)
  else match d.phase with
  | .fill =>
    if res = 0 then ({ d with done := true }, none, true)
    else if res < 0 then ({ d with done := true }, none, false)
    else ({ d with pending := res.toNat, phase := .drain }, some (.drain res.toNat), false)
  | .drain =>
    if res ≤ 0 then ({ d with done := true }, none, false)
    else if d.pending ≤ res.toNat then
      ({ d with pending := 0, phase := .fill }, some .fill, false)
    else
      ({ d with pending := d.pending - res.toNat }, some (.drain (d.pending - res.toNat)), false)

namespace Reactor

def insertFlow (s : Reactor) (flow : Flow) : Reactor × ℕ :=
  match s.free with
  | slot :: rest => ({ s with flows := s.flows.set slot (some flow), free := rest }, slot)
  | [] => ({ s with flows := s.flows ++ [some flow] }, s.flows.length)

def removeFlow (s : Reactor) (slot : ℕ) : Reactor :=
  match s.flows[slot]? with
  | some (some flow) =>
    { s with
      flows := s.flows.set slot none
      free := slot :: s.free
      freed := flow.id :: s.freed }
  | _ => s

/-- A submission for direction `dir` of the flow `id`, tagged with its slot. -/
def push (s : Reactor) (id : ℕ) (dir : Bool) (op : Op) : Reactor :=
  { s with ops := update2 s.ops id dir (s.ops id dir ++ [op]) }

/-- `begin_flow` once the upstream is dialled and both pipes are made; where one of these
fails the reactor is as before. -/
def beginFlow (s : Reactor) : Reactor :=
  let (t, slot) := s.insertFlow ⟨s.next, fun _ => ⟨.fill, 0, false⟩⟩
  (({ t with next := s.next + 1 }.push s.next false ⟨slot, .fill⟩).push s.next true ⟨slot, .fill⟩)

def shutdown (s : Reactor) (id : ℕ) (dir : Bool) : Reactor :=
  { s with wires := update2 s.wires id dir { s.wires id dir with shut := true } }

def onFlow (s : Reactor) (slot : ℕ) (dir : Bool) (res : ℤ) : Reactor :=
  match s.flows[slot]? with
  | some (some flow) =>
    if (flow.dirs dir).done then s
    else
      let (d, next, shut) := (flow.dirs dir).onCompletion res
      let flow' := { flow with dirs := Function.update flow.dirs dir d }
      let s := { s with flows := s.flows.set slot (some flow') }
      let s := if shut then s.shutdown flow.id dir else s
      let s := match next with
        | some kind => s.push flow.id dir ⟨slot, kind⟩
        | none => s
      if (flow'.dirs false).done && (flow'.dirs true).done then s.removeFlow slot else s
  | _ => s

end Reactor

/-- How an operation completes: with the octets it moved, or an error number. -/
inductive Completion where
  | moved (octets : List UInt8)
  | error (errno : ℕ)
  deriving DecidableEq, Repr

def Completion.res : Completion → ℤ
  | .moved octets => octets.length
  | .error errno => -errno

/-- What a splice can do: a fill takes at most a chunk from the source, nothing at its end; a
drain takes from the front of the pipe, at most what was asked. -/
def Wire.CanMove (w : Wire) : Kind → Completion → Prop
  | .fill, .moved octets => octets.length ≤ SPLICE_CHUNK
  | .drain len, .moved octets => octets.length ≤ len ∧ octets <+: w.pipe
  | _, .error errno => 0 < errno

instance (w : Wire) : ∀ kind c, Decidable (w.CanMove kind c)
  | .fill, .moved octets => inferInstanceAs (Decidable (octets.length ≤ SPLICE_CHUNK))
  | .drain len, .moved octets =>
    inferInstanceAs (Decidable (octets.length ≤ len ∧ octets <+: w.pipe))
  | .fill, .error errno => inferInstanceAs (Decidable (0 < errno))
  | .drain _, .error errno => inferInstanceAs (Decidable (0 < errno))

def Wire.move (w : Wire) : Kind → Completion → Wire
  | .fill, .moved octets =>
    { w with
      taken := w.taken ++ octets
      pipe := w.pipe ++ octets
      ended := w.ended || octets.isEmpty }
  | .drain _, .moved octets =>
    { w with pipe := w.pipe.drop octets.length, delivered := w.delivered ++ octets }
  | _, .error _ => w

/-- The shard adopts a connection, or reaps the completion of an operation in flight. -/
inductive Action where
  | accept
  | complete (id : ℕ) (dir : Bool) (op : Op) (c : Completion)
  deriving DecidableEq, Repr

def step (s : Reactor) : Action → Option Reactor
  | .accept => some s.beginFlow
  | .complete id dir op c =>
    if op ∈ s.ops id dir ∧ (s.wires id dir).CanMove op.kind c then
      some (Reactor.onFlow
        { s with
          ops := update2 s.ops id dir ((s.ops id dir).erase op)
          wires := update2 s.wires id dir ((s.wires id dir).move op.kind c) }
        op.slot dir c.res)
    else none

def start : Reactor := ⟨[], [], fun _ _ => [], fun _ _ => .new, 0, []⟩

section Lemmas

variable {A : Type} (f : ℕ → Bool → A) (id : ℕ) (dir : Bool) (a : A)

@[simp] theorem update2_self : update2 f id dir a id dir = a := by
  simp only [update2, Function.update_self]

theorem update2_of_ne {id' : ℕ} {dir' : Bool} (h : id' ≠ id ∨ dir' ≠ dir) :
    update2 f id dir a id' dir' = f id' dir' := by
  by_cases hid : id' = id
  · subst hid
    have hdir : dir' ≠ dir := h.resolve_left fun hne => hne rfl
    simp only [update2, Function.update_self, Function.update_of_ne hdir]
  · simp only [update2, Function.update_of_ne hid]

@[simp] theorem update2_update2 (b : A) :
    update2 (update2 f id dir a) id dir b = update2 f id dir b := by
  simp only [update2, Function.update_self, Function.update_idem]

end Lemmas

section Completions

variable {d : Dir} {errno n : ℕ}

theorem onCompletion_again : d.onCompletion (Completion.error EAGAIN).res =
    (d, some d.sqe, false) := by
  simp only [Dir.onCompletion, Completion.res, if_true]

theorem onCompletion_error (hpos : 0 < errno) (hne : errno ≠ EAGAIN) :
    d.onCompletion (Completion.error errno).res = ({ d with done := true }, none, false) := by
  have hagain : ¬ (-(errno : ℤ) = -(EAGAIN : ℤ)) := by omega
  have hzero : ¬ (-(errno : ℤ) = 0) := by omega
  have hneg : -(errno : ℤ) < 0 := by omega
  rw [Completion.res, Dir.onCompletion, if_neg hagain]
  split
  · rw [if_neg hzero, if_pos hneg]
  · rw [if_pos hneg.le]

private theorem length_ne_again (octets : List UInt8) :
    ¬ ((octets.length : ℤ) = -(EAGAIN : ℤ)) := by
  have hpos : 0 < EAGAIN := by decide
  omega

theorem onCompletion_fill (octets : List UInt8) (hd : d.phase = .fill) :
    d.onCompletion (Completion.moved octets).res =
      if octets.length = 0 then ({ d with done := true }, none, true)
      else ({ d with pending := octets.length, phase := .drain }, some (.drain octets.length),
        false) := by
  rw [Completion.res, Dir.onCompletion, if_neg (length_ne_again octets), hd]
  by_cases hnil : octets.length = 0
  · simp only [hnil, Nat.cast_zero, if_true]
  · have hneg : ¬ ((octets.length : ℤ) < 0) := by omega
    simp only [Int.natCast_eq_zero, hnil, if_false, hneg, Int.toNat_natCast]

theorem onCompletion_drain (octets : List UInt8) (hd : d.phase = .drain) :
    d.onCompletion (Completion.moved octets).res =
      if octets.length = 0 then ({ d with done := true }, none, false)
      else if d.pending ≤ octets.length then ({ d with pending := 0, phase := .fill },
        some .fill, false)
      else ({ d with pending := d.pending - octets.length },
        some (.drain (d.pending - octets.length)), false) := by
  rw [Completion.res, Dir.onCompletion, if_neg (length_ne_again octets), hd]
  by_cases hnil : octets.length = 0
  · simp only [hnil, Nat.cast_zero, le_refl, if_true]
  · have hpos : ¬ ((octets.length : ℤ) ≤ 0) := by omega
    simp only [hnil, if_false, hpos, Int.toNat_natCast]

end Completions

end DragonsNet.Dataplane.L4Reactor
