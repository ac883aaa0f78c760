/- GID: DragonsNet/Dataplane/L4Flows
   source: migration/dataplane/host/src/l4_uring.rs
   digest: Which operation each direction of each flow has in flight, in every run of the pump. -/

import DragonsNet.Dataplane.L4Reactor
import Mathlib.Tactic.Push

set_option autoImplicit false

namespace DragonsNet.Dataplane.L4Flows

open Lib.Runs (run invariant_of_step)
open Dataplane.L4Reactor

/-- A direction, what it has in flight and its wire: it is done with nothing in flight, fills
an empty pipe, or drains what the pipe holds. -/
inductive Lane (slot : ℕ) : Dir → List Op → Wire → Prop
  | done {phase : Phase} {pending : ℕ} {w : Wire} : Lane slot ⟨phase, pending, true⟩ [] w
  | filling {w : Wire} (empty : w.pipe = []) (more : w.ended = false) :
      Lane slot ⟨.fill, 0, false⟩ [⟨slot, .fill⟩] w
  | draining {n : ℕ} {w : Wire} (full : w.pipe.length = n) (pos : 0 < n)
      (more : w.ended = false) : Lane slot ⟨.drain, n, false⟩ [⟨slot, .drain n⟩] w

/-- No octet is lost, added or reordered, and none is left in the pipe at the source's end. -/
structure Carries (w : Wire) : Prop where
  order : w.delivered ++ w.pipe = w.taken
  whole : w.ended = true → w.pipe = []

def Wire.after (w : Wire) (shut : Bool) : Wire := if shut then { w with shut := true } else w

def submitted (slot : ℕ) (ops : List Op) : Option Kind → List Op
  | some kind => ops ++ [⟨slot, kind⟩]
  | none => ops

variable {w : Wire} {d : Dir} {slot : ℕ} {c : Completion} {op : Op} {ops : List Op} {dir : Bool}
  {flow : Flow} {s : Reactor} {id : ℕ}

theorem Carries.after (h : Carries w) (shut : Bool) : Carries (Wire.after w shut) := by
  cases shut with
  | false => exact h
  | true => exact ⟨h.order, h.whole⟩

theorem Carries.filled (hw : Carries w) (empty : w.pipe = []) (more : w.ended = false)
    (octets : List UInt8) : Carries (w.move .fill (.moved octets)) := by
  refine ⟨?_, fun hend => ?_⟩
  · simp only [Wire.move, ← hw.order, List.append_assoc]
  · simp only [Wire.move, more, Bool.false_or, List.isEmpty_iff] at hend
    simp only [Wire.move, empty, hend, List.append_nil]

theorem Carries.drained (hw : Carries w) (more : w.ended = false) {octets : List UInt8}
    (hpre : octets <+: w.pipe) (n : ℕ) : Carries (w.move (.drain n) (.moved octets)) := by
  obtain ⟨rest, hrest⟩ := hpre
  refine ⟨?_, fun hend => ?_⟩
  · simp only [Wire.move, ← hw.order, ← hrest, List.drop_left, List.append_assoc]
  · simp only [Wire.move, more, Bool.false_eq_true] at hend

private theorem Lane.errs {errno : ℕ} (h : Lane slot d [⟨slot, d.sqe⟩] w) (hpos : 0 < errno) :
    Lane slot (d.onCompletion (Completion.error errno).res).1
      (submitted slot [] (d.onCompletion (Completion.error errno).res).2.1)
      (Wire.after w (d.onCompletion (Completion.error errno).res).2.2) := by
  by_cases hagain : errno = EAGAIN
  · rw [hagain, onCompletion_again]
    exact h
  · rw [onCompletion_error hpos hagain]
    exact Lane.done

private theorem Lane.fills (empty : w.pipe = []) (more : w.ended = false) (octets : List UInt8) :
    Lane slot (Dir.onCompletion ⟨.fill, 0, false⟩ (Completion.moved octets).res).1
      (submitted slot [] (Dir.onCompletion ⟨.fill, 0, false⟩ (Completion.moved octets).res).2.1)
      (Wire.after (w.move .fill (.moved octets))
        (Dir.onCompletion ⟨.fill, 0, false⟩ (Completion.moved octets).res).2.2) := by
  rw [onCompletion_fill octets rfl]
  by_cases hnil : octets.length = 0
  · rw [if_pos hnil]
    exact Lane.done
  · rw [if_neg hnil]
    refine Lane.draining ?_ (Nat.pos_of_ne_zero hnil) ?_
    · simp only [Wire.after, Wire.move, empty, List.nil_append, Bool.false_eq_true, if_false]
    · simp only [Wire.after, Wire.move, more, Bool.false_eq_true, if_false, Bool.false_or,
        List.isEmpty_eq_false_iff]
      exact fun h => hnil (congrArg List.length h)

theorem Lane.drains {slot n : ℕ} (full : w.pipe.length = n) (more : w.ended = false)
    (octets : List UInt8) :
    Lane slot (Dir.onCompletion ⟨.drain, n, false⟩ (Completion.moved octets).res).1
      (submitted slot [] (Dir.onCompletion ⟨.drain, n, false⟩ (Completion.moved octets).res).2.1)
      (Wire.after (w.move (.drain n) (.moved octets))
        (Dir.onCompletion ⟨.drain, n, false⟩ (Completion.moved octets).res).2.2) := by
  rw [onCompletion_drain octets rfl]
  by_cases hnil : octets.length = 0
  · rw [if_pos hnil]
    exact Lane.done
  · rw [if_neg hnil]
    dsimp only
    by_cases hall : n ≤ octets.length
    · rw [if_pos hall]
      refine Lane.filling ?_ more
      simp only [Wire.after, Wire.move, Bool.false_eq_true, if_false, List.drop_eq_nil_iff]
      omega
    · rw [if_neg hall]
      refine Lane.draining ?_ (by omega) more
      simp only [Wire.after, Wire.move, Bool.false_eq_true, if_false, List.length_drop, full]

theorem Lane.completes (h : Lane slot d ops w) (hw : Carries w) (hop : op ∈ ops)
    (hc : w.CanMove op.kind c) :
    op.slot = slot ∧ d.done = false ∧ Carries (w.move op.kind c) ∧
      Lane slot (d.onCompletion c.res).1
        (submitted slot (ops.erase op) (d.onCompletion c.res).2.1)
        (Wire.after (w.move op.kind c) (d.onCompletion c.res).2.2) := by
  cases h with
  | done => cases hop
  | filling empty more =>
    obtain rfl : op = ⟨slot, .fill⟩ := List.mem_singleton.mp hop
    rw [List.erase_cons_head]
    cases c with
    | error errno => exact ⟨rfl, rfl, hw, (Lane.filling empty more).errs hc⟩
    | moved octets => exact ⟨rfl, rfl, hw.filled empty more octets, .fills empty more octets⟩
  | @draining n _ full pos more =>
    obtain rfl : op = ⟨slot, .drain n⟩ := List.mem_singleton.mp hop
    rw [List.erase_cons_head]
    cases c with
    | error errno => exact ⟨rfl, rfl, hw, (Lane.draining full pos more).errs hc⟩
    | moved octets => exact ⟨rfl, rfl, hw.drained more hc.2 n, .drains full more octets⟩

/-- One direction of a flow replaced, with what it has in flight and its wire. -/
def put (s : Reactor) (slot : ℕ) (flow : Flow) (dir : Bool) (d : Dir) (ops : List Op) (w : Wire) :
    Reactor :=
  { s with
    flows := s.flows.set slot (some { flow with dirs := Function.update flow.dirs dir d })
    ops := update2 s.ops flow.id dir ops
    wires := update2 s.wires flow.id dir w }

def reclaim (s : Reactor) (slot : ℕ) (flow : Flow) : Reactor :=
  if (flow.dirs false).done && (flow.dirs true).done then s.removeFlow slot else s

private theorem onFlow_eq {res : ℤ} (ops : List Op) (w : Wire)
    (hflow : s.flows[slot]? = some (some flow))
    (hgoes : (flow.dirs dir).done = false) :
    Reactor.onFlow { s with
        ops := update2 s.ops flow.id dir ops, wires := update2 s.wires flow.id dir w }
        slot dir res =
      reclaim (put s slot flow dir ((flow.dirs dir).onCompletion res).1
          (submitted slot ops ((flow.dirs dir).onCompletion res).2.1)
          (Wire.after w ((flow.dirs dir).onCompletion res).2.2)) slot
        { flow with
          dirs := Function.update flow.dirs dir ((flow.dirs dir).onCompletion res).1 } := by
  unfold Reactor.onFlow
  simp only [hflow, hgoes, Bool.false_eq_true, if_false]
  generalize (flow.dirs dir).onCompletion res = out
  obtain ⟨d, next, shut⟩ := out
  cases shut <;> cases next <;>
    simp only [reclaim, put, Reactor.shutdown, Reactor.push, Wire.after, submitted,
      update2_self, update2_update2, Bool.false_eq_true, if_false, if_true]

/-- What the slab, the operations and the wires are to each other. -/
structure Sound (s : Reactor) : Prop where
  lane : ∀ {slot : ℕ} {flow : Flow}, s.flows[slot]? = some (some flow) →
    ∀ dir, Lane slot (flow.dirs dir) (s.ops flow.id dir) (s.wires flow.id dir)
  alone : ∀ {slot slot' : ℕ} {flow flow' : Flow}, s.flows[slot]? = some (some flow) →
    s.flows[slot']? = some (some flow') → flow.id = flow'.id → slot = slot'
  begun : ∀ {slot : ℕ} {flow : Flow}, s.flows[slot]? = some (some flow) →
    flow.id < s.next ∧ flow.id ∉ s.freed
  kept : ∀ id < s.next, id ∉ s.freed →
    ∃ (slot : ℕ) (flow : Flow), s.flows[slot]? = some (some flow) ∧ flow.id = id
  idle : ∀ id, id ∈ s.freed ∨ s.next ≤ id → ∀ dir, s.ops id dir = []
  carries : ∀ id dir, Carries (s.wires id dir)
  fresh : ∀ id, s.next ≤ id → ∀ dir, s.wires id dir = .new
  freedBegun : ∀ id ∈ s.freed, id < s.next
  freedOnce : s.freed.Nodup
  freeOnce : s.free.Nodup
  vacant : ∀ slot ∈ s.free, s.flows[slot]? = some none

def Reclaimed (s : Reactor) : Prop :=
  ∀ {slot : ℕ} {flow : Flow}, s.flows[slot]? = some (some flow) →
    ((flow.dirs false).done && (flow.dirs true).done) = false

private theorem start_sound : Sound start where
  lane h := by simp only [start, List.getElem?_nil, reduceCtorEq] at h
  alone h := by simp only [start, List.getElem?_nil, reduceCtorEq] at h
  begun h := by simp only [start, List.getElem?_nil, reduceCtorEq] at h
  kept id h := by simp only [start, Nat.not_lt_zero] at h
  idle _ _ _ := rfl
  carries _ _ := ⟨rfl, fun _ => rfl⟩
  fresh _ _ _ := rfl
  freedBegun id h := by simp only [start, List.not_mem_nil] at h
  freedOnce := List.nodup_nil
  freeOnce := List.nodup_nil
  vacant slot h := by simp only [start, List.not_mem_nil] at h

private theorem getElem?_set_some {flows : List (Option Flow)} {slot slot' : ℕ} {o : Option Flow}
    (h : (flows.set slot o)[slot']? = some (some flow)) :
    (slot' = slot ∧ o = some flow) ∨ (slot' ≠ slot ∧ flows[slot']? = some (some flow)) := by
  rw [List.getElem?_set] at h
  split_ifs at h with heq hlt
  · exact .inl ⟨heq.symm, Option.some.inj h⟩
  · exact .inr ⟨fun h' => heq h'.symm, h⟩

private theorem Sound.ne_of_gone {slot id : ℕ} (h : Sound s)
    (hflow : s.flows[slot]? = some (some flow))
    (hid : id ∈ s.freed ∨ s.next ≤ id) : id ≠ flow.id := by
  rintro rfl
  obtain ⟨hlt, hnot⟩ := h.begun hflow
  rcases hid with hin | hge
  · exact hnot hin
  · exact absurd hlt (not_lt.mpr hge)

theorem Sound.put (h : Sound s) (dir : Bool) (hflow : s.flows[slot]? = some (some flow))
    (hlane : Lane slot d ops w) (hw : Carries w) : Sound (put s slot flow dir d ops w) := by
  have hlt : slot < s.flows.length := (List.getElem?_eq_some_iff.mp hflow).1
  have hbegun := h.begun hflow
  -- another flow's lanes are elsewhere, since the flow sits in one slot only
  have hother : ∀ {slot' : ℕ} {flow' : Flow}, slot' ≠ slot →
      s.flows[slot']? = some (some flow') → flow'.id ≠ flow.id :=
    fun hne hflow' heq => hne (h.alone hflow' hflow heq)
  constructor
  case lane =>
    intro slot' flow' hflow' dir'
    rcases getElem?_set_some hflow' with ⟨rfl, heq⟩ | ⟨hne, hold⟩
    · obtain rfl := Option.some.inj heq
      dsimp only [L4Flows.put]
      by_cases hdir : dir' = dir
      · subst hdir
        rw [update2_self, update2_self, Function.update_self]
        exact hlane
      · rw [update2_of_ne _ _ _ _ (.inr hdir), update2_of_ne _ _ _ _ (.inr hdir),
          Function.update_of_ne hdir]
        exact h.lane hflow dir'
    · have hid := hother hne hold
      dsimp only [L4Flows.put]
      rw [update2_of_ne _ _ _ _ (.inl hid), update2_of_ne _ _ _ _ (.inl hid)]
      exact h.lane hold dir'
  case alone =>
    intro slot₁ slot₂ flow₁ flow₂ h₁ h₂ heq
    rcases getElem?_set_some h₁ with ⟨rfl, e₁⟩ | ⟨n₁, o₁⟩ <;>
      rcases getElem?_set_some h₂ with ⟨e, e₂⟩ | ⟨n₂, o₂⟩
    · exact e.symm
    · obtain rfl := Option.some.inj e₁
      exact absurd heq.symm (hother n₂ o₂)
    · subst e
      obtain rfl := Option.some.inj e₂
      exact absurd heq (hother n₁ o₁)
    · exact h.alone o₁ o₂ heq
  case begun =>
    intro slot' flow' hflow'
    rcases getElem?_set_some hflow' with ⟨-, heq⟩ | ⟨-, hold⟩
    · obtain rfl := Option.some.inj heq
      exact hbegun
    · exact h.begun hold
  case kept =>
    intro id hid hfreed
    obtain ⟨slot', flow', hflow', rfl⟩ := h.kept id hid hfreed
    by_cases hslot : slot' = slot
    · subst hslot
      obtain rfl : flow = flow' := by simpa only [hflow, Option.some.injEq] using hflow'
      exact ⟨slot', _, List.getElem?_set_self hlt, rfl⟩
    · exact ⟨slot', flow', by rw [← hflow']; exact List.getElem?_set_ne (Ne.symm hslot), rfl⟩
  case idle =>
    intro id hid dir'
    have hne := h.ne_of_gone hflow hid
    exact (update2_of_ne _ _ _ _ (.inl hne)).trans (h.idle id hid dir')
  case carries =>
    intro id dir'
    by_cases heq : id = flow.id ∧ dir' = dir
    · obtain ⟨rfl, rfl⟩ := heq
      dsimp only [L4Flows.put]
      rw [update2_self]
      exact hw
    · dsimp only [L4Flows.put]
      rw [update2_of_ne _ _ _ _ (not_and_or.mp heq)]
      exact h.carries id dir'
  case fresh =>
    intro id hid dir'
    have hne := h.ne_of_gone hflow (.inr hid)
    exact (update2_of_ne _ _ _ _ (.inl hne)).trans (h.fresh id hid dir')
  case freedBegun => exact h.freedBegun
  case freedOnce => exact h.freedOnce
  case freeOnce => exact h.freeOnce
  case vacant =>
    intro slot' hslot'
    have hne : slot ≠ slot' := by
      rintro rfl
      have := h.vacant slot hslot'
      simp only [hflow, Option.some.injEq, reduceCtorEq] at this
    exact (List.getElem?_set_ne hne).trans (h.vacant slot' hslot')

theorem Lane.idle (h : Lane slot d ops w) (hdone : d.done = true) : ops = [] := by
  cases h with
  | done => rfl
  | filling => cases hdone
  | draining => cases hdone

theorem Sound.removeFlow (h : Sound s) (hflow : s.flows[slot]? = some (some flow))
    (hdone : ((flow.dirs false).done && (flow.dirs true).done) = true) :
    Sound (s.removeFlow slot) := by
  have hlt : slot < s.flows.length := (List.getElem?_eq_some_iff.mp hflow).1
  obtain ⟨hdone₀, hdone₁⟩ := Bool.and_eq_true_iff.mp hdone
  have hbegun := h.begun hflow
  have heq : s.removeFlow slot = { s with
      flows := s.flows.set slot none, free := slot :: s.free, freed := flow.id :: s.freed } := by
    simp only [Reactor.removeFlow, hflow]
  have hold : ∀ {slot' : ℕ} {flow' : Flow},
      (s.flows.set slot none)[slot']? = some (some flow') →
        slot' ≠ slot ∧ s.flows[slot']? = some (some flow') := by
    intro slot' flow' h'
    rcases getElem?_set_some h' with ⟨-, hnone⟩ | hold
    · cases hnone
    · exact hold
  rw [heq]
  constructor
  case lane =>
    intro slot' flow' h' dir
    exact h.lane (hold h').2 dir
  case alone =>
    intro slot₁ slot₂ flow₁ flow₂ h₁ h₂
    exact h.alone (hold h₁).2 (hold h₂).2
  case begun =>
    intro slot' flow' h'
    obtain ⟨hne, hflow'⟩ := hold h'
    obtain ⟨hlt', hfreed⟩ := h.begun hflow'
    refine ⟨hlt', fun hin => ?_⟩
    rcases List.mem_cons.mp hin with hid | hin
    · exact hne (h.alone hflow' hflow hid)
    · exact hfreed hin
  case kept =>
    intro id hid hfreed
    obtain ⟨slot', flow', hflow', rfl⟩ :=
      h.kept id hid fun hin => hfreed (List.mem_cons_of_mem _ hin)
    have hne : slot ≠ slot' := by
      rintro rfl
      obtain rfl : flow = flow' := by simpa only [hflow, Option.some.injEq] using hflow'
      exact hfreed List.mem_cons_self
    exact ⟨slot', flow', (List.getElem?_set_ne hne).trans hflow', rfl⟩
  case idle =>
    intro id hid dir
    rcases hid with hin | hge
    · rcases List.mem_cons.mp hin with rfl | hin
      · cases dir with
        | false => exact (h.lane hflow false).idle hdone₀
        | true => exact (h.lane hflow true).idle hdone₁
      · exact h.idle id (.inl hin) dir
    · exact h.idle id (.inr hge) dir
  case carries => exact h.carries
  case fresh => exact h.fresh
  case freedBegun =>
    intro id hin
    rcases List.mem_cons.mp hin with rfl | hin
    · exact hbegun.1
    · exact h.freedBegun id hin
  case freedOnce => exact List.nodup_cons.mpr ⟨hbegun.2, h.freedOnce⟩
  case freeOnce =>
    refine List.nodup_cons.mpr ⟨fun hin => ?_, h.freeOnce⟩
    have := h.vacant slot hin
    simp only [hflow, Option.some.injEq, reduceCtorEq] at this
  case vacant =>
    intro slot' hin
    by_cases hne : slot' = slot
    · subst hne
      exact List.getElem?_set_self hlt
    · have hin' := (List.mem_cons.mp hin).resolve_left hne
      exact (List.getElem?_set_ne (Ne.symm hne)).trans (h.vacant slot' hin')

/-- The slab after an insertion: one slot more is taken, the others are as before. -/
structure Inserted (s : Reactor) (slot : ℕ) (flow : Flow) (flows : List (Option Flow))
    (free : List ℕ) : Prop where
  here : flows[slot]? = some (some flow)
  elsewhere : ∀ slot', slot' ≠ slot → flows[slot']? = s.flows[slot']?
  untaken : ∀ flow', s.flows[slot]? ≠ some (some flow')
  less : free.Sublist s.free
  taken : slot ∉ free

private theorem insertFlow_inserted (h : Sound s) (flow : Flow) :
    ∃ (slot : ℕ) (flows : List (Option Flow)) (free : List ℕ), Inserted s slot flow flows free ∧
      s.insertFlow flow = ({ s with flows := flows, free := free }, slot) := by
  cases hfree : s.free with
  | nil =>
    refine ⟨s.flows.length, s.flows ++ [some flow], [], ⟨?_, ?_, ?_, ?_, ?_⟩, ?_⟩
    · exact List.getElem?_concat_length
    · intro slot' hne
      by_cases hlt : slot' < s.flows.length
      · exact List.getElem?_append_left hlt
      · have hge : (s.flows ++ [some flow]).length ≤ slot' := by
          rw [List.length_append, List.length_singleton]
          omega
        rw [List.getElem?_eq_none hge, List.getElem?_eq_none (not_lt.mp hlt)]
    · intro flow'
      rw [List.getElem?_eq_none le_rfl]
      exact fun hnone => nomatch hnone
    · exact List.nil_sublist _
    · exact List.not_mem_nil
    · simp only [Reactor.insertFlow, hfree]
  | cons slot rest =>
    have hvacant : s.flows[slot]? = some none :=
      h.vacant slot (by rw [hfree]; exact List.mem_cons_self)
    have hlt : slot < s.flows.length := (List.getElem?_eq_some_iff.mp hvacant).1
    refine ⟨slot, s.flows.set slot (some flow), rest, ⟨?_, ?_, ?_, ?_, ?_⟩, ?_⟩
    · exact List.getElem?_set_self hlt
    · exact fun slot' hne => List.getElem?_set_ne (Ne.symm hne)
    · intro flow'
      rw [hvacant]
      exact fun hsome => nomatch Option.some.inj hsome
    · rw [hfree]
      exact List.sublist_cons_self slot rest
    · have hnodup := h.freeOnce
      rw [hfree] at hnodup
      exact (List.nodup_cons.mp hnodup).1
    · simp only [Reactor.insertFlow, hfree]

def opened (id : ℕ) : Flow := ⟨id, fun _ => ⟨.fill, 0, false⟩⟩

theorem beginFlow_eq (h : Sound s) :
    ∃ (slot : ℕ) (flows : List (Option Flow)) (free : List ℕ),
      Inserted s slot (opened s.next) flows free ∧
      s.beginFlow = { s with
        flows := flows
        free := free
        ops := Function.update s.ops s.next fun _ => [⟨slot, .fill⟩]
        next := s.next + 1 } := by
  obtain ⟨slot, flows, free, hins, heq⟩ := insertFlow_inserted h (opened s.next)
  refine ⟨slot, flows, free, hins, ?_⟩
  have hidle := h.idle s.next (.inr le_rfl)
  rw [opened] at heq
  simp only [Reactor.beginFlow, heq, Reactor.push, hidle, List.nil_append, Reactor.mk.injEq,
    true_and, and_true]
  funext id dir
  by_cases hid : id = s.next
  · subst hid
    cases dir <;> simp [update2, hidle]
  · rw [update2_of_ne _ _ _ _ (.inl hid), update2_of_ne _ _ _ _ (.inl hid),
      Function.update_of_ne hid]

theorem Sound.beginFlow (h : Sound s) : Sound s.beginFlow := by
  obtain ⟨slot, flows, free, hins, heq⟩ := beginFlow_eq h
  have hcases : ∀ {slot' : ℕ} {flow : Flow}, flows[slot']? = some (some flow) →
      (slot' = slot ∧ flow = opened s.next) ∨
        (slot' ≠ slot ∧ s.flows[slot']? = some (some flow) ∧ flow.id ≠ s.next) := by
    intro slot' flow hflow
    by_cases hslot : slot' = slot
    · subst hslot
      rw [hins.here] at hflow
      exact .inl ⟨rfl, (Option.some.inj (Option.some.inj hflow)).symm⟩
    · rw [hins.elsewhere slot' hslot] at hflow
      exact .inr ⟨hslot, hflow, (h.begun hflow).1.ne⟩
  have hold : ∀ {slot' : ℕ} {flow : Flow}, s.flows[slot']? = some (some flow) →
      flows[slot']? = some (some flow) := by
    intro slot' flow hflow
    have hne : slot' ≠ slot := by
      rintro rfl
      exact hins.untaken flow hflow
    rw [hins.elsewhere slot' hne, hflow]
  rw [heq]
  constructor
  case lane =>
    intro slot' flow hflow dir
    rcases hcases hflow with ⟨rfl, rfl⟩ | ⟨-, hflow', hid⟩
    · dsimp only [opened]
      rw [Function.update_self, h.fresh s.next le_rfl dir]
      exact Lane.filling rfl rfl
    · dsimp only
      rw [Function.update_of_ne hid]
      exact h.lane hflow' dir
  case alone =>
    intro slot₁ slot₂ flow₁ flow₂ h₁ h₂ hid
    rcases hcases h₁ with ⟨rfl, rfl⟩ | ⟨-, o₁, i₁⟩ <;>
      rcases hcases h₂ with ⟨e₂, rfl⟩ | ⟨-, o₂, i₂⟩
    · exact e₂.symm
    · exact absurd hid.symm i₂
    · exact absurd hid i₁
    · exact h.alone o₁ o₂ hid
  case begun =>
    intro slot' flow hflow
    rcases hcases hflow with ⟨-, rfl⟩ | ⟨-, hflow', -⟩
    · exact ⟨Nat.lt_succ_self s.next, fun hin => (h.freedBegun _ hin).ne rfl⟩
    · obtain ⟨hlt, hfreed⟩ := h.begun hflow'
      exact ⟨Nat.lt_succ_of_lt hlt, hfreed⟩
  case kept =>
    intro id hid hfreed
    rcases Nat.lt_succ_iff_lt_or_eq.mp hid with hlt | rfl
    · obtain ⟨slot', flow, hflow, hid'⟩ := h.kept id hlt hfreed
      exact ⟨slot', flow, hold hflow, hid'⟩
    · exact ⟨slot, opened s.next, hins.here, rfl⟩
  case idle =>
    intro id hid dir
    have hne : id ≠ s.next := by
      rcases hid with hin | hge
      · exact (h.freedBegun id hin).ne
      · exact (Nat.lt_of_succ_le hge).ne'
    dsimp only
    rw [Function.update_of_ne hne]
    exact h.idle id (hid.imp_right Nat.le_of_succ_le) dir
  case carries => exact h.carries
  case fresh => exact fun id hid dir => h.fresh id (Nat.le_of_succ_le hid) dir
  case freedBegun => exact fun id hin => Nat.lt_succ_of_lt (h.freedBegun id hin)
  case freedOnce => exact h.freedOnce
  case freeOnce => exact hins.less.nodup h.freeOnce
  case vacant =>
    intro slot' hin
    have hne : slot' ≠ slot := by
      rintro rfl
      exact hins.taken hin
    exact (hins.elsewhere slot' hne).trans (h.vacant slot' (hins.less.subset hin))

private theorem Sound.finds (h : Sound s) (hop : op ∈ s.ops id dir) :
    ∃ flow : Flow, s.flows[op.slot]? = some (some flow) ∧
      flow.id = id ∧ (flow.dirs dir).done = false ∧ s.ops id dir = [op] := by
  have hlive : ¬ (id ∈ s.freed ∨ s.next ≤ id) := by
    intro hgone
    rw [h.idle id hgone dir] at hop
    exact List.not_mem_nil hop
  obtain ⟨hfreed, hlt⟩ := not_or.mp hlive
  obtain ⟨slot, flow, hflow, rfl⟩ := h.kept id (not_le.mp hlt) hfreed
  have hlane := h.lane hflow dir
  generalize hd : flow.dirs dir = d at hlane
  generalize hops : s.ops flow.id dir = ops at hlane hop ⊢
  cases hlane with
  | done => cases hop
  | filling | draining =>
    obtain rfl := List.mem_singleton.mp hop
    exact ⟨flow, hflow, rfl, by rw [hd], rfl⟩

def Flow.turn (flow : Flow) (dir : Bool) (d : Dir) : Flow :=
  { flow with dirs := Function.update flow.dirs dir d }

structure Completes (s t : Reactor) (id : ℕ) (dir : Bool) (op : Op) (c : Completion)
    (flow : Flow) : Prop where
  here : s.flows[op.slot]? = some (some flow)
  own : flow.id = id
  goes : (flow.dirs dir).done = false
  only : s.ops id dir = [op]
  can : (s.wires id dir).CanMove op.kind c
  after : t = reclaim (put s op.slot flow dir ((flow.dirs dir).onCompletion c.res).1
      (submitted op.slot [] ((flow.dirs dir).onCompletion c.res).2.1)
      (Wire.after ((s.wires id dir).move op.kind c) ((flow.dirs dir).onCompletion c.res).2.2))
    op.slot (Flow.turn flow dir ((flow.dirs dir).onCompletion c.res).1)

theorem Sound.completes {s t : Reactor} (h : Sound s)
    (hstep : step s (.complete id dir op c) = some t) : ∃ flow, Completes s t id dir op c flow := by
  simp only [step] at hstep
  split_ifs at hstep with hop
  obtain ⟨flow, hflow, rfl, hgoes, honly⟩ := h.finds hop.1
  refine ⟨flow, hflow, rfl, hgoes, honly, hop.2, ?_⟩
  rw [onFlow_eq _ _ hflow hgoes, honly, List.erase_cons_head] at hstep
  exact (Option.some.inj hstep).symm

theorem Completes.lane {s t : Reactor} (h : Completes s t id dir op c flow) (hs : Sound s) :
    Carries ((s.wires id dir).move op.kind c) ∧
      Lane op.slot ((flow.dirs dir).onCompletion c.res).1
        (submitted op.slot [] ((flow.dirs dir).onCompletion c.res).2.1)
        (Wire.after ((s.wires id dir).move op.kind c)
          ((flow.dirs dir).onCompletion c.res).2.2) := by
  obtain ⟨hflow, rfl, -, honly, hcan, -⟩ := h
  have hlane := hs.lane hflow dir
  rw [honly] at hlane
  obtain ⟨-, -, hcarries, hlane'⟩ :=
    hlane.completes (hs.carries flow.id dir) List.mem_cons_self hcan
  rw [List.erase_cons_head] at hlane'
  exact ⟨hcarries, hlane'⟩

private theorem put_here (hflow : s.flows[slot]? = some (some flow)) :
    (put s slot flow dir d ops w).flows[slot]? = some (some (Flow.turn flow dir d)) :=
  List.getElem?_set_self (List.getElem?_eq_some_iff.mp hflow).1

theorem Completes.sound {s t : Reactor} (h : Completes s t id dir op c flow) (hs : Sound s) :
    Sound t := by
  obtain ⟨hcarries, hlane⟩ := h.lane hs
  have hput := hs.put dir h.here hlane (hcarries.after _)
  rw [h.after, reclaim]
  split_ifs with hdone
  · exact hput.removeFlow (put_here h.here) hdone
  · exact hput

private theorem Completes.reclaimed {s t : Reactor} (h : Completes s t id dir op c flow)
    (hs : Reclaimed s)
    :
    Reclaimed t := by
  intro slot' flow' hflow'
  rw [h.after, reclaim] at hflow'
  split_ifs at hflow' with hdone
  · simp only [Reactor.removeFlow, put_here h.here] at hflow'
    rcases getElem?_set_some hflow' with ⟨-, hnone⟩ | ⟨hne, hold⟩
    · cases hnone
    · exact hs ((List.getElem?_set_ne (Ne.symm hne)).symm.trans hold)
  · rcases getElem?_set_some hflow' with ⟨-, heq⟩ | ⟨-, hold⟩
    · obtain rfl := Option.some.inj heq
      exact Bool.not_eq_true _ ▸ hdone
    · exact hs hold

theorem Reclaimed.beginFlow (hs : Sound s) (h : Reclaimed s) : Reclaimed s.beginFlow := by
  obtain ⟨slot, flows, free, hins, heq⟩ := beginFlow_eq hs
  rw [heq]
  intro slot' flow' hflow'
  by_cases hslot : slot' = slot
  · subst hslot
    rw [hins.here] at hflow'
    obtain rfl := Option.some.inj (Option.some.inj hflow')
    rfl
  · rw [hins.elsewhere slot' hslot] at hflow'
    exact h hflow'

theorem step_sound {s t : Reactor} {a : Action} (h : Sound s ∧ Reclaimed s)
    (hstep : step s a = some t) : Sound t ∧ Reclaimed t := by
  cases a with
  | accept =>
    obtain rfl := Option.some.inj hstep
    exact ⟨h.1.beginFlow, Reclaimed.beginFlow h.1 h.2⟩
  | complete id dir op c =>
    obtain ⟨flow, hc⟩ := h.1.completes hstep
    exact ⟨hc.sound h.1, hc.reclaimed h.2⟩

private theorem start_reclaimed : Reclaimed start := by
  intro slot flow h
  simp only [start, List.getElem?_nil, reduceCtorEq] at h

theorem run_sound {as : List Action} (h : run step start as = some s) : Sound s ∧ Reclaimed s :=
  invariant_of_step step_sound ⟨start_sound, start_reclaimed⟩ h

structure Transparent (s : Reactor) : Prop where
  delivered : ∀ id dir, (s.wires id dir).delivered <+: (s.wires id dir).taken
  whole : ∀ id dir, (s.wires id dir).ended = true →
    (s.wires id dir).delivered = (s.wires id dir).taken
  lockstep : ∀ id dir, ∀ op ∈ s.ops id dir, op.kind = .fill → (s.wires id dir).pipe = []
  single : ∀ id dir, (s.ops id dir).length ≤ 1
  /-- A flow is freed once, and is in the slab until then. -/
  freedOnce : s.freed.Nodup
  kept : ∀ id < s.next, id ∈ s.freed ↔
    ∀ (slot : ℕ) (flow : Flow), s.flows[slot]? = some (some flow) → flow.id ≠ id
  reclaimed : Reclaimed s
  /-- So is a slot, which holds no flow while it is free. -/
  freeOnce : s.free.Nodup
  vacant : ∀ slot ∈ s.free, s.flows[slot]? = some none
  quiet : ∀ id ∈ s.freed, ∀ dir, s.ops id dir = []
  /-- A completion finds, in the slot it names, the flow its operation was submitted for. -/
  own : ∀ id dir, ∀ op ∈ s.ops id dir, ∃ flow : Flow,
    s.flows[op.slot]? = some (some flow) ∧ flow.id = id

theorem Carries.delivered (h : Carries w) :
    w.delivered <+: w.taken ∧ (w.ended = true → w.delivered = w.taken) := by
  refine ⟨⟨w.pipe, h.order⟩, fun hend => ?_⟩
  rw [← h.order, h.whole hend, List.append_nil]

private theorem Sound.transparent (h : Sound s) (hr : Reclaimed s) : Transparent s where
  delivered id dir := (h.carries id dir).delivered.1
  whole id dir := (h.carries id dir).delivered.2
  lockstep id dir op hop hfill := by
    obtain ⟨flow, hflow, rfl, -, honly⟩ := h.finds hop
    have hlane := h.lane hflow dir
    rw [honly] at hlane
    generalize flow.dirs dir = d at hlane
    obtain ⟨slot, kind⟩ := op
    cases hlane with
    | filling empty => exact empty
    | draining => cases hfill
  single id dir := by
    cases hops : s.ops id dir with
    | nil => exact Nat.zero_le 1
    | cons op rest =>
      obtain ⟨-, -, -, -, honly⟩ := h.finds (hops ▸ List.mem_cons_self : op ∈ s.ops id dir)
      rw [← hops, honly, List.length_singleton]
  freedOnce := h.freedOnce
  kept id hid := by
    constructor
    · rintro hin slot flow hflow rfl
      exact (h.begun hflow).2 hin
    · intro hnone
      by_contra hfreed
      obtain ⟨slot, flow, hflow, hid'⟩ := h.kept id hid hfreed
      exact hnone slot flow hflow hid'
  reclaimed := hr
  freeOnce := h.freeOnce
  vacant := h.vacant
  quiet id hin := h.idle id (.inl hin)
  own id dir op hop := by
    obtain ⟨flow, hflow, hid, -, -⟩ := h.finds hop
    exact ⟨flow, hflow, hid⟩

/-- In every run the pump delivers what it takes, in order and whole at the source's end, and
frees each flow once, with nothing of it in flight. -/
theorem passthrough_transparent (as : List Action) (s : Reactor)
    (h : run step start as = some s) : Transparent s :=
  (run_sound h).1.transparent (run_sound h).2

/-- A flow with a short drain, whose upstream fails, and another in the same slot. -/
def slotReused : List Action :=
  [.accept, .complete 0 false ⟨0, .fill⟩ (.moved [1, 2, 3]),
    .complete 0 false ⟨0, .drain 3⟩ (.moved [1]), .complete 0 true ⟨0, .fill⟩ (.error 104),
    .complete 0 false ⟨0, .drain 2⟩ (.error EAGAIN), .complete 0 false ⟨0, .drain 2⟩ (.moved [2, 3]),
    .complete 0 false ⟨0, .fill⟩ (.moved []), .accept, .complete 1 true ⟨0, .fill⟩ (.moved [4])]

theorem slotReused_transparent : ∃ s, run step start slotReused = some s ∧ Transparent s ∧
    (s.wires 0 false).delivered = [1, 2, 3] ∧ s.freed = [0] ∧ s.ops 1 true = [⟨0, .drain 1⟩] := by
  have hrun : ∃ s, run step start slotReused = some s ∧
      (s.wires 0 false).delivered = [1, 2, 3] ∧ s.freed = [0] ∧ s.ops 1 true = [⟨0, .drain 1⟩] :=
    ⟨_, rfl, rfl, rfl, rfl⟩
  obtain ⟨s, hrun, hrest⟩ := hrun
  exact ⟨s, hrun, passthrough_transparent slotReused s hrun, hrest⟩

end DragonsNet.Dataplane.L4Flows
