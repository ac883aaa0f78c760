/- GID: DragonsNet/Dataplane/Workers
   source: migration/dataplane/host/src/workers.rs
   digest: The worker supervisor's restart budget, and when it gives a slot up. -/

import Mathlib.Algebra.BigOperators.Group.Finset.Basic
import Mathlib.Algebra.Order.BigOperators.Group.Finset
import Mathlib.Algebra.Order.Ring.Nat
import Mathlib.Data.List.Induction
import Mathlib.Tactic.Common

set_option autoImplicit false

namespace DragonsNet.Dataplane.Workers

/-! ## The supervisor -/

/-- The constants of the restart budget; times are in nanoseconds. -/
structure Policy where
  maxRestarts : ℕ
  restartWindow : ℕ
  backoffMin : ℕ
  backoffMax : ℕ

def millis (n : ℕ) : ℕ := n * 1000000

/-- The constants as they stand in the source. -/
def deployed : Policy := ⟨10, millis 60000, millis 200, millis 30000⟩

def pollSleep : ℕ := millis 200

inductive Slot where
  | running
  | waiting (due : ℕ)
  | abandoned
  deriving DecidableEq, Repr

/-- The exits inside the window, oldest first, and the delay before the next respawn. -/
structure SlotState where
  exits : List ℕ
  backoff : ℕ
  deriving DecidableEq, Repr

def SlotState.new (p : Policy) : SlotState := ⟨[], p.backoffMin⟩

namespace Policy

variable (p : Policy)

def retained (now : ℕ) (exits : List ℕ) : List ℕ :=
  exits.filter fun t => now - t < p.restartWindow

def recordExit (now : ℕ) (st : SlotState) : SlotState where
  exits := p.retained now st.exits ++ [now]
  backoff := if p.retained now st.exits = [] then p.backoffMin else min (st.backoff * 2) p.backoffMax

def budgetExhausted (st : SlotState) : Bool := p.maxRestarts < st.exits.length

end Policy

inductive Wait where
  | exited
  | alive
  | failed

/-- What one round of the loop meets: the clock, the shutdown flag at its head, and for each slot the
answer of `try_wait`, the flag read again behind an exit, and whether a spawn succeeds. -/
structure Poll where
  now : ℕ
  shutdown : Bool
  wait : ℕ → Wait
  stopping : ℕ → Bool
  spawns : ℕ → Bool

structure Worker where
  slot : Slot
  state : SlotState
  deriving DecidableEq, Repr

structure Supervisor where
  workers : List Worker
  status : Option ℕ
  deriving DecidableEq, Repr

namespace Policy

variable (p : Policy)

/-- One slot's turn in a round. A failed spawn is recorded as an exit, without a look at the budget. -/
def pollSlot (q : Poll) (i : ℕ) (w : Worker) : Worker :=
  match w.slot with
  | .running =>
    match q.wait i with
    | .exited =>
      if q.stopping i then w
      else
        let st := p.recordExit q.now w.state
        if p.budgetExhausted st then ⟨.abandoned, st⟩ else ⟨.waiting (q.now + st.backoff), st⟩
    | .alive => w
    | .failed => w
  | .waiting due =>
    if due ≤ q.now then
      if q.spawns i then ⟨.running, w.state⟩
      else
        let st := p.recordExit q.now w.state
        ⟨.waiting (q.now + st.backoff), st⟩
    else w
  | .abandoned => w

def poll (q : Poll) (s : Supervisor) : Supervisor :=
  if s.status ≠ none then s
  else if q.shutdown then { s with status := some 0 }
  else
    let workers := s.workers.mapIdx (p.pollSlot q)
    { workers, status := if workers.all (·.slot = .abandoned) then some 70 else none }

def boot (spawned : List Bool) : Supervisor :=
  let n := spawned.count true
  { workers := List.replicate n ⟨.running, .new p⟩, status := if n = 0 then some 1 else none }

def supervise (spawned : List Bool) (polls : ℕ → Poll) : ℕ → Supervisor
  | 0 => p.boot spawned
  | k + 1 => p.poll (polls k) (supervise spawned polls k)

end Policy

variable {p : Policy} {polls : ℕ → Poll} {spawned : List Bool} {i : ℕ} {exits : List ℕ} {w : Worker}

/-! ## Runs -/

/-- No shutdown signal arrives. -/
structure Unstopped (polls : ℕ → Poll) : Prop where
  shutdown : ∀ k, (polls k).shutdown = false
  stopping : ∀ k i, (polls k).stopping i = false

/-- Rounds follow each other after the sleep at the earliest, and within `delay`. -/
structure Paced (delay : ℕ) (polls : ℕ → Poll) : Prop where
  slept : ∀ k, (polls k).now + pollSleep ≤ (polls (k + 1)).now
  prompt : ∀ k, (polls (k + 1)).now ≤ (polls k).now + delay

/-- A slot whose worker exits at once after each spawn. -/
structure Hopeless (polls : ℕ → Poll) (i : ℕ) : Prop where
  exits : ∀ k, (polls k).wait i = .exited
  spawns : ∀ k, (polls k).spawns i = true

/-- A supervisor with nothing to supervise exits before its loop. -/
theorem workers_ne_nil {k : ℕ} (h : (p.supervise spawned polls k).status = none) :
    (p.supervise spawned polls k).workers ≠ [] := by
  induction k with
  | zero =>
    rw [Policy.supervise, Policy.boot] at h ⊢
    dsimp only at h ⊢
    split at h
    · cases h
    · rename_i hn
      exact fun hnil => hn (List.length_replicate.symm.trans (congrArg List.length hnil))
  | succ k ih =>
    rw [Policy.supervise, Policy.poll] at h ⊢
    split at h
    · rename_i hended
      exact absurd h hended
    · rename_i hgoes
      split at h
      · cases h
      · rename_i hgo
        rw [if_neg hgoes, if_neg hgo]
        exact fun hnil => ih (not_not.mp hgoes) (List.mapIdx_eq_nil_iff.mp hnil)

/-! ## The budget -/

/-- The backoff behind the `j`-th of the exits retained, at least. -/
def Policy.delayAfter (p : Policy) (j : ℕ) : ℕ := min (p.backoffMin * 2 ^ j) p.backoffMax

private theorem delayAfter_mono (p : Policy) : Monotone p.delayAfter := by
  intro j k hjk
  exact min_le_min_right _ (Nat.mul_le_mul_left _ (Nat.pow_le_pow_right Nat.two_pos hjk))

private theorem delayAfter_succ_le {j b : ℕ} (h : p.delayAfter j ≤ b) :
    p.delayAfter (j + 1) ≤ min (b * 2) p.backoffMax := by
  have hpow : p.backoffMin * 2 ^ (j + 1) = p.backoffMin * 2 ^ j * 2 := by
    rw [Nat.pow_succ, Nat.mul_assoc]
  rw [Policy.delayAfter] at h ⊢
  omega

def Policy.dueAfter (p : Policy) (exits : List ℕ) : ℕ :=
  match exits.getLast? with
  | none => 0
  | some last => last + p.delayAfter (exits.length - 1)

private theorem dueAfter_snoc (exits : List ℕ) (t : ℕ) :
    p.dueAfter (exits ++ [t]) = t + p.delayAfter exits.length := by
  simp [Policy.dueAfter]

def Spread (p : Policy) (exits : List ℕ) : Prop :=
  ∀ before t after, exits = before ++ t :: after → p.dueAfter before ≤ t

private theorem spread_snoc {t : ℕ} : Spread p (exits ++ [t]) ↔ Spread p exits ∧ p.dueAfter exits ≤
    t := by
  constructor
  · intro h
    refine ⟨fun before u after heq => h before u (after ++ [t]) (by simp [heq]), h exits t [] rfl⟩
  · rintro ⟨h, ht⟩ before u after heq
    induction after using List.reverseRecOn with
    | nil =>
      obtain ⟨rfl, hu⟩ := List.append_inj' heq rfl
      exact (List.cons.inj hu).1 ▸ ht
    | append_singleton after v _ =>
      rw [← List.cons_append, ← List.append_assoc] at heq
      exact h before u after (List.append_inj' heq rfl).1

private theorem spread_filter (f : ℕ → Bool) (h : Spread p exits) :
    Spread p (exits.filter f) ∧ p.dueAfter (exits.filter f) ≤ p.dueAfter exits := by
  induction exits using List.reverseRecOn with
  | nil => exact ⟨h, le_rfl⟩
  | append_singleton exits t ih =>
    obtain ⟨hbefore, ht⟩ := spread_snoc.mp h
    obtain ⟨hfilter, hdue⟩ := ih hbefore
    rw [List.filter_append, dueAfter_snoc]
    cases hf : f t with
    | true =>
      rw [List.filter_cons_of_pos hf, List.filter_nil, spread_snoc, dueAfter_snoc]
      refine ⟨⟨hfilter, hdue.trans ht⟩, Nat.add_le_add_left ?_ t⟩
      exact delayAfter_mono p (List.length_filter_le f exits)
    | false =>
      rw [List.filter_cons_of_neg (by simp [hf]), List.filter_nil, List.append_nil]
      exact ⟨hfilter, hdue.trans (ht.trans (Nat.le_add_right _ _))⟩

private theorem sum_delays_le (h : Spread p exits) {first : ℕ} (hfirst : exits.head? = some first) :
    first + ∑ j ∈ Finset.range exits.length, p.delayAfter j ≤ p.dueAfter exits := by
  induction exits using List.reverseRecOn with
  | nil => cases hfirst
  | append_singleton exits t ih =>
    obtain ⟨hbefore, ht⟩ := spread_snoc.mp h
    rw [dueAfter_snoc, List.length_append, List.length_singleton, Finset.sum_range_succ,
      ← Nat.add_assoc]
    refine Nat.add_le_add_right ?_ _
    cases exits with
    | nil => exact (Option.some.inj hfirst).ge
    | cons u rest => exact (ih hbefore hfirst).trans ht

/-- A slot that keeps to its backoff, as the next round at `now` finds it. -/
structure Slow (p : Policy) (now : ℕ) (w : Worker) : Prop where
  spread : Spread p w.state.exits
  backoff : w.state.exits ≠ [] → p.delayAfter (w.state.exits.length - 1) ≤ w.state.backoff
  due : match w.slot with
    | .running => p.dueAfter w.state.exits ≤ now
    | .waiting due => p.dueAfter w.state.exits ≤ due
    | .abandoned => False

theorem Slow.later {now next : ℕ} (h : Slow p now w) (hle : now ≤ next) : Slow p next w := by
  obtain ⟨slot, st⟩ := w
  refine ⟨h.spread, h.backoff, ?_⟩
  cases slot with
  | running => exact h.due.trans hle
  | waiting due => exact h.due
  | abandoned => exact h.due

private theorem backoff_recordExit_ge {now : ℕ} {st : SlotState}
    (hbackoff : st.exits ≠ [] → p.delayAfter (st.exits.length - 1) ≤ st.backoff) :
    p.delayAfter (p.retained now st.exits).length ≤ (p.recordExit now st).backoff := by
  rw [Policy.recordExit]
  dsimp only
  split
  · rename_i hnone
    rw [hnone, List.length_nil, Policy.delayAfter, Nat.pow_zero, Nat.mul_one]
    exact Nat.min_le_left _ _
  · rename_i hsome
    have hpos := List.length_pos_iff.mpr hsome
    have hfew : (p.retained now st.exits).length ≤ st.exits.length := List.length_filter_le _ _
    have hne : st.exits ≠ [] := List.length_pos_iff.mp (hpos.trans_le hfew)
    have hstep := delayAfter_succ_le
      ((delayAfter_mono p (Nat.sub_le_sub_right hfew 1)).trans (hbackoff hne))
    rwa [Nat.sub_add_cancel hpos] at hstep

private theorem Slow.recordExit {now now' : ℕ} (h : Slow p now' w)
    (hdue : p.dueAfter w.state.exits ≤ now)
    (next : ℕ) :
    Slow p next ⟨.waiting (now + (p.recordExit now w.state).backoff), p.recordExit now w.state⟩ := by
  obtain ⟨hkept, hle⟩ := spread_filter (fun t => now - t < p.restartWindow) h.spread
  have hbackoff : p.delayAfter (p.retained now w.state.exits).length ≤
      (p.recordExit now w.state).backoff := backoff_recordExit_ge h.backoff
  refine ⟨spread_snoc.mpr ⟨hkept, hle.trans hdue⟩, fun _ => ?_, ?_⟩
  · simpa [Policy.recordExit] using hbackoff
  · exact (dueAfter_snoc (p.retained now w.state.exits) now).trans_le
      (Nat.add_le_add_left hbackoff now)

private theorem Slow.unspent {now now' : ℕ} (h : Slow p now' w)
    (hdue : p.dueAfter w.state.exits ≤ now)
    (hwindow : 0 < p.restartWindow)
    (hsum : p.restartWindow ≤ ∑ j ∈ Finset.range p.maxRestarts, p.delayAfter j) :
    p.budgetExhausted (p.recordExit now w.state) = false := by
  obtain ⟨hkept, hle⟩ := spread_filter (fun t => now - t < p.restartWindow) h.spread
  refine decide_eq_false fun hspent => ?_
  rw [Policy.recordExit, List.length_append, List.length_singleton] at hspent
  have hmore := Finset.sum_le_sum_of_subset (f := p.delayAfter)
    (Finset.range_mono (Nat.le_of_lt_succ hspent))
  cases hexits : p.retained now w.state.exits with
  | nil =>
    rw [hexits, List.length_nil, Finset.range_zero, Finset.sum_empty] at hmore
    omega
  | cons first rest =>
    have hfirst : first ∈ p.retained now w.state.exits := hexits ▸ List.mem_cons_self
    have hyoung := of_decide_eq_true (List.mem_filter.mp hfirst).2
    have hlong := sum_delays_le hkept (congrArg List.head? hexits)
    change first + ∑ j ∈ Finset.range (p.retained now w.state.exits).length, p.delayAfter j ≤ _
      at hlong
    omega

theorem Slow.step {q : Poll} {next : ℕ} (h : Slow p q.now w) (hnext : q.now ≤ next)
    (hwindow : 0 < p.restartWindow)
    (hsum : p.restartWindow ≤ ∑ j ∈ Finset.range p.maxRestarts, p.delayAfter j) :
    Slow p next (p.pollSlot q i w) := by
  obtain ⟨slot, st⟩ := w
  cases slot with
  | abandoned => exact h.due.elim
  | running =>
    have hstay : Slow p next ⟨.running, st⟩ := h.later hnext
    rw [Policy.pollSlot]
    dsimp only
    cases q.wait i with
    | alive => exact hstay
    | failed => exact hstay
    | exited =>
      dsimp only
      split
      · exact hstay
      · rw [h.unspent h.due hwindow hsum, if_neg Bool.false_ne_true]
        exact h.recordExit h.due next
  | waiting due =>
    rw [Policy.pollSlot]
    dsimp only
    split
    · rename_i hdue
      split
      · exact ⟨h.spread, h.backoff, h.due.trans (hdue.trans hnext)⟩
      · exact h.recordExit (h.due.trans hdue) next
    · exact ⟨h.spread, h.backoff, h.due⟩

section
variable (hwindow : 0 < p.restartWindow)
  (hsum : p.restartWindow ≤ ∑ j ∈ Finset.range p.maxRestarts, p.delayAfter j)
  (hclock : ∀ k, (polls k).now ≤ (polls (k + 1)).now)
include hwindow hsum hclock

private theorem slow_supervise (k : ℕ) : ∀ w ∈ (p.supervise spawned polls k).workers,
    Slow p (polls k).now w := by
  induction k with
  | zero =>
    intro w hw
    obtain rfl := List.eq_of_mem_replicate hw
    refine ⟨fun before t after heq => ?_, fun h => absurd rfl h, Nat.zero_le _⟩
    cases before <;> cases heq
  | succ k ih =>
    have hlater : ∀ w ∈ (p.supervise spawned polls k).workers, Slow p (polls (k + 1)).now w :=
      fun w hw => (ih w hw).later (hclock k)
    rw [Policy.supervise, Policy.poll]
    split
    · exact hlater
    · split
      · exact hlater
      · intro w hw
        obtain ⟨i, hi, rfl⟩ := List.mem_mapIdx.mp hw
        exact (ih _ (List.getElem_mem hi)).step (hclock k) hwindow hsum

private theorem never_abandoned (k : ℕ) :
    (∀ w ∈ (p.supervise spawned polls k).workers, w.slot ≠ .abandoned) ∧
      (p.supervise spawned polls k).status ≠ some 70 := by
  have hslots : ∀ k, ∀ w ∈ (p.supervise spawned polls k).workers, w.slot ≠ .abandoned := by
    intro k w hw habandoned
    have hdue := (slow_supervise hwindow hsum hclock k w hw).due
    rw [habandoned] at hdue
    exact hdue
  refine ⟨hslots k, ?_⟩
  induction k with
  | zero =>
    rw [Policy.supervise, Policy.boot]
    dsimp only
    split <;> decide
  | succ k ih =>
    have hnext := hslots (k + 1)
    rw [Policy.supervise, Policy.poll] at hnext ⊢
    split
    · exact ih
    · rename_i hgoes
      rw [if_neg hgoes] at hnext
      split
      · exact fun hzero => absurd (Option.some.inj hzero) (by decide)
      · rename_i hgo
        rw [if_neg hgo] at hnext
        obtain ⟨w, rest, hworkers⟩ :=
          List.exists_cons_of_ne_nil (workers_ne_nil (not_not.mp hgoes))
        have hfirst : p.pollSlot (polls k) 0 w ∈
            (p.supervise spawned polls k).workers.mapIdx (p.pollSlot (polls k)) := by
          rw [hworkers, List.mapIdx_cons]
          exact List.mem_cons_self
        dsimp only
        rw [if_neg]
        · exact fun hnone => by cases hnone
        · intro hall
          exact hnext _ hfirst (of_decide_eq_true (List.all_eq_true.mp hall _ hfirst))

end

/-- With the constants of the source no slot is ever given up, whatever its workers do, and the
process never exits with 70: the backoffs of ten restarts take longer than the window. -/
theorem deployed_never_gives_up (spawned : List Bool) (polls : ℕ → Poll)
    (hclock : ∀ k, (polls k).now ≤ (polls (k + 1)).now) (k : ℕ) :
    (∀ w ∈ (deployed.supervise spawned polls k).workers, w.slot ≠ .abandoned) ∧
      (deployed.supervise spawned polls k).status ≠ some 70 :=
  never_abandoned (by decide) (by decide) hclock k

def crashLoop (k : ℕ) : Poll where
  now := k * pollSleep
  shutdown := false
  wait := fun _ => .exited
  stopping := fun _ => false
  spawns := fun _ => true

private theorem crashLoop_paced : Paced pollSleep crashLoop :=
  ⟨fun k => (Nat.succ_mul k pollSleep).ge, fun k => (Nat.succ_mul k pollSleep).le⟩

private theorem crashLoop_unstopped : Unstopped crashLoop := ⟨fun _ => rfl, fun _ _ => rfl⟩

private theorem crashLoop_hopeless (i : ℕ) : Hopeless crashLoop i := ⟨fun _ => rfl, fun _ => rfl⟩

private theorem crashLoop_clock (k : ℕ) : (crashLoop k).now ≤ (crashLoop (k + 1)).now :=
  (Nat.le_add_right _ _).trans (crashLoop_paced.slept k)

theorem crashLoop_never_gives_up :
    (∀ k, (crashLoop k).now ≤ (crashLoop (k + 1)).now) ∧
    ∀ k, (∀ w ∈ (deployed.supervise [true, false, true] crashLoop k).workers,
        w.slot ≠ .abandoned) ∧
      (deployed.supervise [true, false, true] crashLoop k).status ≠ some 70 :=
  ⟨crashLoop_clock, deployed_never_gives_up [true, false, true] crashLoop crashLoop_clock⟩

private theorem crashLoop_kept (k : ℕ) :
    (∀ w ∈ (deployed.supervise [true] crashLoop k).workers, w.slot ≠ .abandoned) ∧
      (deployed.supervise [true] crashLoop k).status ≠ some 70 :=
  never_abandoned (by decide) (by decide) crashLoop_clock k

private theorem crashLoop_goes_on (k : ℕ) :
    (deployed.supervise [true] crashLoop k).workers.length = 1 ∧
      (deployed.supervise [true] crashLoop k).status = none := by
  induction k with
  | zero => decide
  | succ k ih =>
    have hnot := (crashLoop_kept (k + 1)).2
    rw [Policy.supervise, Policy.poll, if_neg (not_not.mpr ih.2)] at hnot ⊢
    rw [if_neg (show ¬(crashLoop k).shutdown = true from Bool.false_ne_true)] at hnot ⊢
    dsimp only at hnot ⊢
    refine ⟨List.length_mapIdx.trans ih.1, ?_⟩
    split
    · rename_i hall
      rw [if_pos hall] at hnot
      exact absurd rfl hnot
    · rfl

/-- The deployed budget is never spent: ten restarts take longer than the window. -/
theorem crashLoop_forever :
    Paced pollSleep crashLoop ∧ Unstopped crashLoop ∧ Hopeless crashLoop 0 ∧
      ∀ k, (∃ w, (deployed.supervise [true] crashLoop k).workers = [w] ∧ w.slot ≠ .abandoned) ∧
        (deployed.supervise [true] crashLoop k).status = none := by
  refine ⟨crashLoop_paced, crashLoop_unstopped, crashLoop_hopeless 0, fun k => ?_⟩
  obtain ⟨hlen, hstatus⟩ := crashLoop_goes_on k
  obtain ⟨w, hw⟩ := List.length_eq_one_iff.mp hlen
  exact ⟨⟨w, hw, (crashLoop_kept k).1 w (hw ▸ List.mem_singleton_self w)⟩, hstatus⟩

end DragonsNet.Dataplane.Workers
