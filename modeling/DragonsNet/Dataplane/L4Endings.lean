/- GID: DragonsNet/Dataplane/L4Endings
   source: migration/dataplane/host/src/l4_uring.rs, l4.rs, proxy_dial.rs
   digest: How the ring pump ends a direction, against the blocking pump. -/

import DragonsNet.Dataplane.L4Flows
import DragonsNet.Lib.Progress

set_option autoImplicit false

namespace DragonsNet.Dataplane.L4Endings

open Lib.Runs (run run_cons run_append)
open Lib.Progress (Unending Ranked)
open Dataplane.L4Reactor
open Dataplane.L4Flows

def EINTR : ℕ := 4

def unsupported (errno : ℕ) : Bool := errno == 22 || errno == 38

/-- A thread of the blocking `splice`, between two of its system calls: in `drain` with octets
in the pipe, or about to fill, for the first time or not; `returned` once `pump_dir` is left
and the thread has shut down its destination's write half. -/
structure Blocking where
  first : Bool
  inPipe : ℕ
  returned : Bool
  wire : Wire
  deriving DecidableEq, Repr

def Blocking.new : Blocking := ⟨true, 0, false, .new⟩

/-- `pump_dir` returns, for whatever reason, and `splice` shuts the write half down. -/
def Blocking.leave (p : Blocking) : Blocking :=
  { p with returned := true, wire := { p.wire with shut := true } }

def Blocking.step (p : Blocking) (c : Completion) : Blocking :=
  if p.returned then p
  else
    match c with
    | .error errno =>
      -- `splice_once` retries; where nothing can be spliced `copy` moves the octets instead
      if errno = EINTR then p
      else if p.inPipe = 0 ∧ p.first ∧ unsupported errno then { p with first := false }
      else p.leave
    | .moved octets =>
      if p.inPipe = 0 then
        let p := { p with wire := p.wire.move .fill c }
        if octets = [] then p.leave else { p with first := false, inPipe := octets.length }
      else if octets = [] then p.leave
      else { p with
        inPipe := p.inPipe - octets.length, wire := p.wire.move (.drain p.inPipe) c }

/-- One direction of the blocking `splice`, over the results of its calls. -/
def splice (results : List Completion) : Blocking := results.foldl Blocking.step .new

/-- The results a run gives to the operations of a direction. Where a blocking call would
wait, the ring may also answer EAGAIN, and the operation is submitted again. -/
def resultOf (id : ℕ) (dir : Bool) : Action → Option Completion
  | .accept => none
  | .complete id' dir' _ c =>
    if id' = id ∧ dir' = dir ∧ c ≠ .error EAGAIN then some c else none

def results (id : ℕ) (dir : Bool) (as : List Action) : List Completion :=
  as.filterMap (resultOf id dir)

def Ended (s : Reactor) (id : ℕ) (dir : Bool) : Prop :=
  id ∈ s.freed ∨ ∃ (slot : ℕ) (flow : Flow), s.flows[slot]? = some (some flow) ∧
    flow.id = id ∧ (flow.dirs dir).done = true

/-- No operation fails, and no drain moves nothing. -/
def Unfailing : Action → Prop
  | .accept => True
  | .complete _ _ _ (.error errno) => errno = EAGAIN
  | .complete _ _ op (.moved octets) => op.kind = .fill ∨ octets ≠ []

instance : DecidablePred Unfailing
  | .accept => isTrue trivial
  | .complete _ _ _ (.error errno) => inferInstanceAs (Decidable (errno = EAGAIN))
  | .complete _ _ op (.moved octets) => inferInstanceAs (Decidable (op.kind = .fill ∨ octets ≠ []))

/-- An operation of the direction gets a result other than EAGAIN. -/
def Advances (id : ℕ) (dir : Bool) (a : Action) : Prop := resultOf id dir a ≠ none

def Finds (id : ℕ) (dir : Bool) (a : Action) : Prop :=
  ∃ op octets, a = .complete id dir op (.moved octets) ∧ op.kind = .fill ∧ octets ≠ []

/-- A run in which the peers read what they are sent, and a peer closes once its own input has
ended: from some time on a fill from it finds nothing more, and every fill returns. -/
structure Served (r : Unending step) : Prop where
  begins : r.state 0 = start
  reads : ∀ k id dir, ∀ op ∈ (r.state k).ops id dir, op.kind ≠ .fill →
    ∃ m, k ≤ m ∧ ∃ a ∈ r.acts m, Advances id dir a
  closes : ∀ k id dir, ((r.state k).wires id (!dir)).shut = true →
    (∃ m, ∀ l, m ≤ l → ∀ a ∈ r.acts l, ¬ Finds id dir a) ∧
      ∀ l, k ≤ l → (∃ op ∈ (r.state l).ops id dir, op.kind = .fill) →
        ∃ m, l ≤ m ∧ ∃ a ∈ r.acts m, Advances id dir a

section Frames

variable {s t : Reactor} {id : ℕ} {dir : Bool} {op : Op} {c : Completion} {flow : Flow}

private theorem removeFlow_frame (s : Reactor) (slot : ℕ) : (s.removeFlow slot).ops = s.ops ∧
    (s.removeFlow slot).wires = s.wires ∧ (s.removeFlow slot).next = s.next ∧
    s.freed ⊆ (s.removeFlow slot).freed := by
  unfold Reactor.removeFlow
  split
  · exact ⟨rfl, rfl, rfl, List.subset_cons_self _ _⟩
  · exact ⟨rfl, rfl, rfl, List.Subset.refl _⟩

theorem Completes.frame (h : Completes s t id dir op c flow) :
    t.ops = update2 s.ops id dir
        (submitted op.slot [] ((flow.dirs dir).onCompletion c.res).2.1) ∧
      t.wires = update2 s.wires id dir (Wire.after ((s.wires id dir).move op.kind c)
        ((flow.dirs dir).onCompletion c.res).2.2) ∧
      t.next = s.next ∧ s.freed ⊆ t.freed := by
  obtain ⟨-, rfl, -, -, -, hafter⟩ := h
  rw [hafter, reclaim]
  split_ifs
  · exact removeFlow_frame _ op.slot
  · exact ⟨rfl, rfl, rfl, List.Subset.refl _⟩

private theorem begin_frame (h : Sound s) :
    (∃ slot, s.beginFlow.ops s.next = fun _ => [⟨slot, .fill⟩]) ∧
      (∀ id, id ≠ s.next → s.beginFlow.ops id = s.ops id) ∧
      s.beginFlow.wires = s.wires ∧ s.beginFlow.next = s.next + 1 ∧
      s.beginFlow.freed = s.freed := by
  obtain ⟨slot, flows, free, -, heq⟩ := beginFlow_eq h
  rw [heq]
  refine ⟨⟨slot, Function.update_self ..⟩, fun id hid => Function.update_of_ne hid ..,
    rfl, rfl, rfl⟩

end Frames

/-- The blocking thread that has had the results of a direction: where the ring has nothing in
flight it is over, with the write half shut; otherwise it is in the same call. -/
inductive Follows : List Op → Wire → Blocking → Prop
  | returned {first : Bool} {n : ℕ} {w : Wire} (shut : w.shut = true) :
      Follows [] w ⟨first, n, true, w⟩
  | filling {slot : ℕ} {first : Bool} {w : Wire} :
      Follows [⟨slot, .fill⟩] w ⟨first, 0, false, w⟩
  | draining {slot n : ℕ} {first : Bool} {w : Wire} (pos : 0 < n) :
      Follows [⟨slot, .drain n⟩] w ⟨first, n, false, w⟩

variable {w : Wire} {octets : List UInt8} {op : Op} {slot : ℕ} {s : Reactor} {a : Action} {id : ℕ}
  {dir : Bool}

theorem Follows.wire {ops : List Op} {p : Blocking} (h : Follows ops w p) : p.wire = w := by
  cases h <;> rfl

theorem Follows.step {d : Dir} {p : Blocking} (h : Follows [op] w p) (hlane : Lane slot d [op] w)
    (hok : op.kind = .fill ∨ octets ≠ []) :
    Follows (submitted slot [] (d.onCompletion (Completion.moved octets).res).2.1)
      (Wire.after (w.move op.kind (.moved octets))
        (d.onCompletion (Completion.moved octets).res).2.2) (p.step (.moved octets)) := by
  cases hlane with
  | filling empty more =>
    cases h with
    | filling =>
      rw [onCompletion_fill octets rfl]
      cases octets with
      | nil => exact .returned rfl
      | cons b rest => exact .draining (Nat.succ_pos rest.length)
  | @draining n _ full pos more =>
    cases h with
    | draining =>
      have hnil : octets ≠ [] := hok.resolve_left fun hfill => nomatch hfill
      have hlen : octets.length ≠ 0 := fun h0 => hnil (List.eq_nil_of_length_eq_zero h0)
      rw [onCompletion_drain octets rfl, if_neg hlen]
      dsimp only
      simp only [Blocking.step, Bool.false_eq_true, if_false, pos.ne', if_neg hnil]
      by_cases hall : n ≤ octets.length
      · rw [if_pos hall, Nat.sub_eq_zero_of_le hall]
        exact .filling
      · rw [if_neg hall]
        exact .draining (by omega)

theorem Lane.again {d : Dir} (h : Lane slot d [op] w) :
    submitted slot [] (d.onCompletion (Completion.error EAGAIN).res).2.1 = [op] ∧
      Wire.after (w.move op.kind (.error EAGAIN))
        (d.onCompletion (Completion.error EAGAIN).res).2.2 = w := by
  rw [onCompletion_again]
  cases h with
  | filling => exact ⟨rfl, rfl⟩
  | draining => exact ⟨rfl, rfl⟩

private theorem resultOf_other {id id' : ℕ} {dir dir' : Bool} {c : Completion}
    (h : id ≠ id' ∨ dir ≠ dir') :
    resultOf id dir (.complete id' dir' op c) = none := by
  refine if_neg fun heq => ?_
  rcases h with hid | hdir
  · exact hid heq.1.symm
  · exact hdir heq.2.1.symm

private theorem splice_concat (cs : List Completion) (c : Completion) :
    splice (cs ++ [c]) = (splice cs).step c := by
  simp only [splice, List.foldl_append, List.foldl_cons, List.foldl_nil]

private theorem results_concat (id : ℕ) (dir : Bool) (as : List Action) (a : Action) :
    results id dir (as ++ [a]) = results id dir as ++ (resultOf id dir a).toList := by
  simp only [results, List.filterMap_append, List.filterMap_cons, List.filterMap_nil]
  cases resultOf id dir a <;> rfl

/-- In a run without failures, each direction is where the blocking thread is that has had the
same results. -/
theorem follows_run {as : List Action} (hrun : run step start as = some s)
    (hok : ∀ a ∈ as, Unfailing a) (id : ℕ) (dir : Bool) :
    (s.next ≤ id → results id dir as = []) ∧
      (id < s.next → Follows (s.ops id dir) (s.wires id dir) (splice (results id dir as))) := by
  induction as using List.reverseRecOn generalizing s with
  | nil =>
    obtain rfl := Option.some.inj hrun
    exact ⟨fun _ => rfl, fun hid => absurd hid (Nat.not_lt_zero id)⟩
  | append_singleton as a ih =>
    obtain ⟨m, hm, hlast⟩ := run_append.mp hrun
    obtain ⟨hsound, -⟩ := run_sound hm
    obtain ⟨hnew, hold⟩ := ih hm fun b hb => hok b (List.mem_append_left _ hb)
    obtain ⟨t, hstep, hend⟩ := run_cons hlast
    obtain rfl := Option.some.inj hend
    rw [results_concat]
    cases a with
    | accept =>
      obtain rfl := Option.some.inj hstep
      obtain ⟨⟨slot, hops⟩, hother, hwires, hnext, -⟩ := begin_frame hsound
      simp only [resultOf, Option.toList_none, List.append_nil, hwires, hnext]
      refine ⟨fun hid => hnew (Nat.le_of_succ_le hid), fun hid => ?_⟩
      rcases Nat.lt_succ_iff_lt_or_eq.mp hid with hlt | rfl
      · rw [hother id hlt.ne]
        exact hold hlt
      · rw [hops, hnew le_rfl, hsound.fresh m.next le_rfl dir]
        exact Follows.filling
    | complete id' dir' op c =>
      obtain ⟨flow, hc⟩ := hsound.completes hstep
      obtain ⟨hops, hwires, hnext, -⟩ := Completes.frame hc
      have hlt : id' < m.next := hc.own ▸ (hsound.begun hc.here).1
      rw [hnext, hops, hwires]
      by_cases hkey : id = id' ∧ dir = dir'
      · obtain ⟨rfl, rfl⟩ := hkey
        refine ⟨fun hid => absurd hlt (not_lt.mpr hid), fun _ => ?_⟩
        rw [update2_self, update2_self]
        have hlane := hsound.lane hc.here dir
        rw [hc.own, hc.only] at hlane
        have hfollows := hold hlt
        rw [hc.only] at hfollows
        have hunfailing := hok _ (List.mem_append_right as List.mem_cons_self)
        cases c with
        | error errno =>
          obtain rfl : errno = EAGAIN := hunfailing
          obtain ⟨h₁, h₂⟩ := Lane.again hlane
          rw [h₁, h₂]
          simpa only [resultOf, ne_eq, not_true_eq_false, and_false, if_false,
            Option.toList_none, List.append_nil] using hfollows
        | moved octets =>
          have hresult : resultOf id dir (.complete id dir op (.moved octets)) =
              some (.moved octets) := by
            simp only [resultOf, ne_eq, reduceCtorEq, not_false_eq_true, and_self, if_true]
          rw [hresult, Option.toList_some, splice_concat]
          exact hfollows.step hlane hunfailing
      · have hne := not_and_or.mp hkey
        rw [resultOf_other hne, Option.toList_none, List.append_nil, update2_of_ne _ _ _ _ hne,
          update2_of_ne _ _ _ _ hne]
        exact ⟨hnew, hold⟩

private theorem ended_iff (h : Sound s) (id : ℕ) (dir : Bool) :
    Ended s id dir ↔ id < s.next ∧ s.ops id dir = [] := by
  constructor
  · rintro (hin | ⟨slot, flow, hflow, rfl, hdone⟩)
    · exact ⟨h.freedBegun id hin, h.idle id (.inl hin) dir⟩
    · exact ⟨(h.begun hflow).1, (h.lane hflow dir).idle hdone⟩
  · rintro ⟨hlt, hops⟩
    by_cases hfreed : id ∈ s.freed
    · exact .inl hfreed
    · obtain ⟨slot, flow, hflow, rfl⟩ := h.kept id hlt hfreed
      refine .inr ⟨slot, flow, hflow, rfl, ?_⟩
      have hlane := h.lane hflow dir
      rw [hops] at hlane
      generalize flow.dirs dir = d at hlane
      cases hlane
      rfl

private theorem step_ops {s t : Reactor} (h : Sound s) (hstep : step s a = some t)
    (hid : id < s.next)
    (dir : Bool) : id < t.next ∧
      ((t.ops id dir = s.ops id dir ∧ resultOf id dir a = none) ∨
        ∃ op c flow, a = .complete id dir op c ∧ Completes s t id dir op c flow) := by
  cases a with
  | accept =>
    obtain rfl := Option.some.inj hstep
    obtain ⟨-, hother, -, hnext, -⟩ := begin_frame h
    exact ⟨hnext ▸ Nat.lt_succ_of_lt hid, .inl ⟨by rw [hother id hid.ne], rfl⟩⟩
  | complete id' dir' op c =>
    obtain ⟨flow, hc⟩ := h.completes hstep
    obtain ⟨hops, -, hnext, -⟩ := Completes.frame hc
    refine ⟨hnext ▸ hid, ?_⟩
    by_cases hkey : id = id' ∧ dir = dir'
    · obtain ⟨rfl, rfl⟩ := hkey
      exact .inr ⟨op, c, flow, rfl, hc⟩
    · exact .inl ⟨by rw [hops, update2_of_ne _ _ _ _ (not_and_or.mp hkey)],
        resultOf_other (not_and_or.mp hkey)⟩

private theorem step_idle {s t : Reactor}
    (h : (Sound s ∧ Reclaimed s) ∧ id < s.next ∧ s.ops id dir = [])
    (hstep : step s a = some t) : (Sound t ∧ Reclaimed t) ∧ id < t.next ∧ t.ops id dir = [] := by
  obtain ⟨hs, hid, hops⟩ := h
  obtain ⟨hlt, ⟨hsame, -⟩ | ⟨op, c, flow, -, hc⟩⟩ := step_ops hs.1 hstep hid dir
  · exact ⟨step_sound hs hstep, hlt, hsame.trans hops⟩
  · rw [hc.only] at hops
    cases hops

/-- The results still to come before a direction ends, once its source has closed. -/
def left : List Op → ℕ
  | [] => 0
  | ⟨_, .fill⟩ :: _ => 1
  | ⟨_, .drain n⟩ :: _ => n + 1

/-- The flow is there with its other direction done, and this many results to come. -/
def Within (id : ℕ) (dir : Bool) (p : ℕ) (s : Reactor) : Prop :=
  ((Sound s ∧ Reclaimed s) ∧ id < s.next ∧ s.ops id (!dir) = []) ∧ id ∉ s.freed ∧
    left (s.ops id dir) = p

private theorem freed_of_idle (h : Sound s ∧ Reclaimed s) (hid : id < s.next)
    (h₁ : s.ops id (!dir) = [])
    (h₂ : s.ops id dir = []) : id ∈ s.freed := by
  have hended : ∀ d, Ended s id d := by
    intro d
    refine (ended_iff h.1 id d).mpr ⟨hid, ?_⟩
    cases dir <;> cases d <;> assumption
  by_contra hfreed
  obtain ⟨slot, flow, hflow, rfl⟩ := h.1.kept id hid hfreed
  have hdone : ∀ d, (flow.dirs d).done = true := by
    intro d
    rcases hended d with hin | ⟨slot', flow', hflow', hid', hdone⟩
    · exact absurd hin hfreed
    · obtain rfl := h.1.alone hflow hflow' hid'.symm
      obtain rfl : flow = flow' := by simpa only [hflow, Option.some.injEq] using hflow'
      exact hdone
  have hopen := h.2 hflow
  rw [hdone false, hdone true] at hopen
  cases hopen

private theorem left_lt {d : Dir} (hlane : Lane slot d [op] w) (hok : op.kind = .fill ∨ octets ≠ [])
    (hclosed : op.kind = .fill → octets = []) :
    left (submitted slot [] (d.onCompletion (Completion.moved octets).res).2.1) < left [op] := by
  cases hlane with
  | filling =>
    obtain rfl := hclosed rfl
    rw [onCompletion_fill [] rfl]
    exact Nat.zero_lt_one
  | @draining n _ full pos more =>
    have hnil : octets ≠ [] := hok.resolve_left fun hfill => nomatch hfill
    have hlen : octets.length ≠ 0 := fun h0 => hnil (List.eq_nil_of_length_eq_zero h0)
    rw [onCompletion_drain octets rfl, if_neg hlen]
    dsimp only
    by_cases hall : n ≤ octets.length
    · rw [if_pos hall]
      simp only [submitted, List.nil_append, left]
      omega
    · rw [if_neg hall]
      simp only [submitted, List.nil_append, left]
      omega

/-- A step of the run, once the source of a direction has closed. -/
def Closed (id : ℕ) (dir : Bool) (a : Action) : Prop := Unfailing a ∧ ¬ Finds id dir a

private theorem within_step {p : ℕ} {s t : Reactor} (hok : Closed id dir a) (h : Within id dir p s)
    (hstep : step s a = some t) :
    (∃ q ≤ p, Within id dir q t ∧ (Advances id dir a → q < p)) ∨ id ∈ t.freed := by
  obtain ⟨hidle, hfreed, rfl⟩ := h
  have hidle' := step_idle hidle hstep
  by_cases hin : id ∈ t.freed
  · exact .inr hin
  refine .inl ⟨left (t.ops id dir), ?_⟩
  obtain ⟨-, ⟨hsame, hnone⟩ | ⟨op, c, flow, rfl, hc⟩⟩ := step_ops hidle.1.1 hstep hidle.2.1 dir
  · exact ⟨by rw [hsame], ⟨hidle', hin, rfl⟩, fun hadv => absurd hnone hadv⟩
  · obtain ⟨hops, -, -, -⟩ := Completes.frame hc
    have hlane := hidle.1.1.lane hc.here dir
    rw [hc.own, hc.only] at hlane
    cases c with
    | error errno =>
      obtain rfl : errno = EAGAIN := hok.1
      refine ⟨?_, ⟨hidle', hin, rfl⟩, fun hadv => ?_⟩
      · rw [hops, update2_self, (Lane.again hlane).1, hc.only]
      · simp only [Advances, resultOf, ne_eq, not_true_eq_false, and_false, if_false] at hadv
    | moved octets =>
      have hlt : left (t.ops id dir) < left (s.ops id dir) := by
        rw [hops, update2_self, hc.only]
        refine left_lt hlane hok.1 fun hfill => ?_
        by_contra hnil
        exact hok.2 ⟨op, octets, rfl, hfill, hnil⟩
      exact ⟨hlt.le, ⟨hidle', hin, rfl⟩, fun _ => hlt⟩

private theorem step_freed {s t : Reactor} (h : (Sound s ∧ Reclaimed s) ∧ id ∈ s.freed)
    (hstep : step s a = some t) : (Sound t ∧ Reclaimed t) ∧ id ∈ t.freed := by
  refine ⟨step_sound h.1 hstep, ?_⟩
  cases a with
  | accept =>
    obtain rfl := Option.some.inj hstep
    obtain ⟨-, -, -, -, hfreed⟩ := begin_frame h.1.1
    exact hfreed ▸ h.2
  | complete id' dir op c =>
    obtain ⟨flow, hc⟩ := h.1.1.completes hstep
    obtain ⟨-, -, -, hfreed⟩ := Completes.frame hc
    exact hfreed h.2

private theorem ranked (id : ℕ) (dir : Bool) :
    Ranked step (Closed id dir) (Advances id dir) (Within id dir)
      (fun s => (Sound s ∧ Reclaimed s) ∧ id ∈ s.freed) where
  keep hok h hstep := by
    rcases within_step hok h hstep with ⟨q, hq, hw, -⟩ | hin
    · exact .inl ⟨q, hq, hw⟩
    · exact .inr ⟨step_sound h.1.1 hstep, hin⟩
  drop hok hadv h hstep := by
    rcases within_step hok h hstep with ⟨q, -, hw, hlt⟩ | hin
    · exact .inl ⟨q, hlt hadv, hw⟩
    · exact .inr ⟨step_sound h.1.1 hstep, hin⟩
  stay _ h hstep := step_freed h hstep

private theorem shut_of_ended {as : List Action} (hrun : run step start as = some s)
    (hok : ∀ a ∈ as, Unfailing a) (hend : Ended s id dir) : (s.wires id dir).shut = true := by
  obtain ⟨hlt, hops⟩ := (ended_iff (run_sound hrun).1 id dir).mp hend
  have hfollows := (follows_run hrun hok id dir).2 hlt
  rw [hops] at hfollows
  generalize splice (results id dir as) = p at hfollows
  cases hfollows with
  | returned shut => exact shut

private theorem eventually_freed {r : Unending step} (h : Served r)
    (hok : ∀ k, ∀ a ∈ r.acts k, Unfailing a) {k id : ℕ} (dir : Bool)
    (hend : Ended (r.state k) id (!dir)) : ∃ m, k ≤ m ∧ id ∈ (r.state m).freed := by
  obtain ⟨as, hrun, hacts⟩ := r.reached k
  rw [h.begins] at hrun
  have hshut := shut_of_ended hrun (fun a ha => (hacts a ha).elim fun m hm => hok m a hm) hend
  obtain ⟨⟨m, hquiet⟩, hfills⟩ := h.closes k id dir hshut
  have hidle : ∀ l, k ≤ l → (Sound (r.state l) ∧ Reclaimed (r.state l)) ∧
      id < (r.state l).next ∧ (r.state l).ops id (!dir) = [] := fun l hl =>
    r.stays step_idle hl ⟨run_sound hrun, (ended_iff (run_sound hrun).1 id _).mp hend⟩
  have hk : k ≤ max k m := le_max_left k m
  by_cases hin : id ∈ (r.state (max k m)).freed
  · exact ⟨max k m, hk, hin⟩
  have hstart : Within id dir (left ((r.state (max k m)).ops id dir)) (r.state (max k m)) :=
    ⟨hidle _ hk, hin, rfl⟩
  -- while the flow is there this direction has an operation in flight, and it returns
  have hfair : ∀ l, max k m ≤ l → ∃ n, l ≤ n ∧
      ((∃ a ∈ r.acts n, Advances id dir a) ∨ ∀ p, ¬ Within id dir p (r.state n)) := by
    intro l hl
    by_cases hgone : id ∈ (r.state l).freed
    · exact ⟨l, le_rfl, .inr fun p hw => hw.2.1 hgone⟩
    obtain ⟨hs, hlt, hother⟩ := hidle l (hk.trans hl)
    obtain ⟨op, rest, hops⟩ : ∃ op rest, (r.state l).ops id dir = op :: rest :=
      List.exists_cons_of_ne_nil fun hnil => hgone (freed_of_idle hs hlt hother hnil)
    have hop : op ∈ (r.state l).ops id dir := hops ▸ List.mem_cons_self
    by_cases hfill : op.kind = .fill
    · obtain ⟨n, hn, hadv⟩ := hfills l (hk.trans hl) ⟨op, hop, hfill⟩
      exact ⟨n, hn, .inl hadv⟩
    · obtain ⟨n, hn, hadv⟩ := h.reads l id dir op hop hfill
      exact ⟨n, hn, .inl hadv⟩
  have hclosed : ∀ l, max k m ≤ l → ∀ a ∈ r.acts l, Closed id dir a := fun l hl a ha =>
    ⟨hok l a ha, hquiet l ((le_max_right k m).trans hl) a ha⟩
  obtain ⟨l, hl, hfreed⟩ := (ranked id dir).eventually r hclosed hfair hstart
  exact ⟨l, hk.trans hl, hfreed.2⟩

/-- Where no splice fails the ring pump ends a direction as the blocking pump does: in every
state reached, each wire is as the blocking thread leaves it that has had the same results,
with the write half shut where the direction has ended; so a flow with an ended direction is
freed, in every run in which each peer closes once its own input has ended. -/
theorem ring_ends_as_blocking (id : ℕ) (dir : Bool) :
    (∀ (as : List Action) (s : Reactor), run step start as = some s → (∀ a ∈ as, Unfailing a) →
      s.wires id dir = (splice (results id dir as)).wire ∧
        (Ended s id dir → (s.wires id dir).shut = true ∧
          (splice (results id dir as)).returned = true)) ∧
    ∀ r : Unending step, Served r → (∀ k, ∀ a ∈ r.acts k, Unfailing a) →
      ∀ k, Ended (r.state k) id dir → ∃ m, k ≤ m ∧ id ∈ (r.state m).freed := by
  refine ⟨fun as s hrun hok => ⟨?_, fun hend => ⟨shut_of_ended hrun hok hend, ?_⟩⟩,
    fun r hserved hok k hend => ?_⟩
  · obtain ⟨hnew, hold⟩ := follows_run hrun hok id dir
    rcases lt_or_ge id s.next with hlt | hge
    · exact (hold hlt).wire.symm
    · rw [hnew hge, (run_sound hrun).1.fresh id hge dir]
      rfl
  · obtain ⟨hlt, hops⟩ := (ended_iff (run_sound hrun).1 id dir).mp hend
    have hfollows := (follows_run hrun hok id dir).2 hlt
    rw [hops] at hfollows
    generalize splice (results id dir as) = p at hfollows
    cases hfollows with
    | returned => rfl
  · exact eventually_freed hserved hok (!dir) (by rwa [Bool.not_not])

def overAfter {s t : Reactor} {as bs : List Action} (has : run step start as = some s)
    (hbs : run step s bs = some t) : Unending step :=
  let rest : Unending step := ⟨fun _ => t, fun _ => [], fun _ => rfl⟩
  (rest.cons hbs).cons has

private theorem only_flow (h : Sound s) (hnext : s.next = 1) (hop : op ∈ s.ops id dir) : id = 0 :=
    by
  by_contra hid
  rw [h.idle id (.inr (by omega)) dir] at hop
  exact List.not_mem_nil hop

/-- The client sends an octet and closes; then the upstream does. -/
def clientFirst : List Action :=
  [.accept, .complete 0 false ⟨0, .fill⟩ (.moved [7]), .complete 0 false ⟨0, .drain 1⟩ (.moved [7]),
    .complete 0 false ⟨0, .fill⟩ (.moved [])]

def upstreamNext : List Action := [.complete 0 true ⟨0, .fill⟩ (.moved [])]

theorem clientFirst_ends : ∃ r : Unending step, Served r ∧ Ended (r.state 1) 0 false ∧
    0 ∉ (r.state 1).freed ∧ ((r.state 1).wires 0 false).shut = true ∧
    ∃ m, 1 ≤ m ∧ 0 ∈ (r.state m).freed := by
  have hfirst : ∃ s, run step start clientFirst = some s ∧ s.next = 1 ∧ s.freed = [] ∧
      s.ops 0 false = [] ∧ s.ops 0 true = [⟨0, .fill⟩] ∧
      ∃ t, run step s upstreamNext = some t ∧ t.next = 1 ∧ t.ops 0 false = [] ∧
        t.ops 0 true = [] := ⟨_, rfl, rfl, rfl, rfl, rfl, _, rfl, rfl, rfl, rfl⟩
  obtain ⟨s, has, hnext, hfreed, hdone, hflight, t, hbs, htnext, hidle₀, hidle₁⟩ := hfirst
  have hsound : Sound s := (run_sound has).1
  have hall : run step start (clientFirst ++ upstreamNext) = some t :=
    run_append.mpr ⟨s, has, hbs⟩
  have hlast : ∀ id dir, t.ops id dir = [] := by
    intro id dir
    refine List.eq_nil_iff_forall_not_mem.mpr fun op hop => ?_
    obtain rfl := only_flow (run_sound hall).1 htnext hop
    cases dir
    · exact List.not_mem_nil (hidle₀ ▸ hop)
    · exact List.not_mem_nil (hidle₁ ▸ hop)
  have hok : ∀ a ∈ clientFirst ++ upstreamNext, Unfailing a := by decide
  have hend : Ended s 0 false := (ended_iff hsound 0 false).mpr ⟨by omega, hdone⟩
  have hserved : Served (overAfter has hbs) := by
    refine ⟨rfl, fun k id dir op hop hkind => ?_, fun k id dir _ => ⟨⟨2, fun l hl a ha => ?_⟩,
      fun l _ ⟨op, hop, _⟩ => ?_⟩⟩
    · match k with
      | 0 => exact absurd hop List.not_mem_nil
      | 1 =>
        obtain rfl := only_flow hsound hnext hop
        cases dir
        · exact absurd (hdone ▸ hop) List.not_mem_nil
        · obtain rfl := List.mem_singleton.mp (hflight ▸ hop)
          exact absurd rfl hkind
      | k + 2 => exact absurd (hlast id dir ▸ hop) List.not_mem_nil
    · obtain ⟨l, rfl⟩ : ∃ n, l = n + 2 := ⟨l - 2, by omega⟩
      exact absurd ha List.not_mem_nil
    · match l with
      | 0 => exact absurd hop List.not_mem_nil
      | 1 =>
        obtain rfl := only_flow hsound hnext hop
        cases dir
        · exact absurd (hdone ▸ hop) List.not_mem_nil
        · exact ⟨1, le_rfl, _, List.mem_cons_self, Option.some_ne_none _⟩
      | l + 2 => exact absurd (hlast id dir ▸ hop) List.not_mem_nil
  have hacts : ∀ k, ∀ a ∈ (overAfter has hbs).acts k, Unfailing a := by
    intro k a ha
    match k with
    | 0 => exact hok a (List.mem_append_left _ ha)
    | 1 => exact hok a (List.mem_append_right _ ha)
    | k + 2 => exact absurd ha List.not_mem_nil
  have hshut := ((ring_ends_as_blocking 0 false).1 clientFirst s has
    fun a ha => hok a (List.mem_append_left _ ha)).2 hend
  refine ⟨overAfter has hbs, hserved, hend, ?_, hshut.1,
    (ring_ends_as_blocking 0 false).2 _ hserved hacts 1 hend⟩
  exact fun hin => List.not_mem_nil (hfreed ▸ hin)

def clientResets : List Action := [.accept, .complete 0 false ⟨0, .fill⟩ (.error 104)]

/-- The blocking pump tells the upstream; the ring pump does not, and where the upstream waits
for the end of its input the flow stays for ever. -/
theorem reset_leaves_flow :
    (∃ s, run step start clientResets = some s ∧ Ended s 0 false ∧
      (s.wires 0 false).shut = false ∧
      (splice (results 0 false clientResets)).wire.shut = true) ∧
    ∃ r : Unending step, Served r ∧ Ended (r.state 1) 0 false ∧ ∀ m, 0 ∉ (r.state m).freed := by
  have hrun : ∃ s, run step start clientResets = some s ∧ s.next = 1 ∧ s.freed = [] ∧
      s.ops 0 false = [] ∧ s.ops 0 true = [⟨0, .fill⟩] ∧ (s.wires 0 false).shut = false ∧
      (s.wires 0 true).shut = false := ⟨_, rfl, rfl, rfl, rfl, rfl, rfl, rfl⟩
  obtain ⟨s, has, hnext, hfreed, hdone, hflight, hopen₀, hopen₁⟩ := hrun
  have hsound : Sound s := (run_sound has).1
  have hend : Ended s 0 false := (ended_iff hsound 0 false).mpr ⟨by omega, hdone⟩
  have hnone : run step s [] = some s := rfl
  have hopen : ∀ id dir, (s.wires id dir).shut = false := by
    intro id dir
    by_cases hid : id = 0
    · subst hid
      cases dir
      · exact hopen₀
      · exact hopen₁
    · rw [hsound.fresh id (by omega) dir]
      rfl
  refine ⟨⟨s, has, hend, hopen₀, by decide⟩, overAfter has hnone, ⟨rfl, ?_, ?_⟩, hend, ?_⟩
  · intro k id dir op hop hkind
    have hop' : op ∈ s.ops id dir := by
      match k with
      | 0 => exact absurd hop List.not_mem_nil
      | 1 => exact hop
      | k + 2 => exact hop
    obtain rfl := only_flow hsound hnext hop'
    cases dir
    · exact absurd (hdone ▸ hop') List.not_mem_nil
    · obtain rfl := List.mem_singleton.mp (hflight ▸ hop')
      exact absurd rfl hkind
  · intro k id dir hshut
    match k with
    | 0 => exact absurd hshut Bool.false_ne_true
    | 1 | k + 2 => exact absurd ((hopen id (!dir)).symm.trans hshut) Bool.false_ne_true
  · intro m hin
    match m with
    | 0 => exact List.not_mem_nil hin
    | 1 | m + 2 => exact List.not_mem_nil (hfreed ▸ hin)

end DragonsNet.Dataplane.L4Endings
