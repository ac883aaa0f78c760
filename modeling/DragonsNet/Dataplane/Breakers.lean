/- GID: DragonsNet/Dataplane/Breakers
   source: migration/dataplane/host/src/proxy_dial.rs
   digest: The health mask of a fleet of backends and its circuit breakers, under any threads. -/

import DragonsNet.Lib.Runs
import Mathlib.Data.BitVec
import Mathlib.Tactic.IntervalCases

set_option autoImplicit false

namespace DragonsNet.Dataplane.Breakers

open Lib.Runs

universe u

/-- The configured backends, in the order a sweep goes through them. -/
structure Fleet where
  ids : List ℕ
  threshold : ℕ
  small : ∀ id ∈ ids, id < 8

/-- A call of `record_success`, of `record_failure` or of `probe_once`. -/
inductive Call where
  | success (id : ℕ)
  | failure (id : ℕ)
  | probe
  deriving DecidableEq, Repr

/-- Where a thread is in its call. A reset that is part of a sweep has the backends left to
probe beside it. -/
inductive Phase where
  | idle
  | resetting (id : ℕ) (sweep : Option (List ℕ))
  | raising (id : ℕ) (sweep : Option (List ℕ))
  | counting (id : ℕ)
  | lowering (id : ℕ)
  | sweeping (todo : List ℕ)
  | unreachable (id : ℕ) (todo : List ℕ)
  deriving DecidableEq, Repr

/-- The health word, the failure counts, who has the counts' lock across steps, and the
threads. -/
structure State (ι : Type u) where
  health : BitVec 32
  breaker : ℕ → Option ℕ
  lock : Option ι
  threads : ι → Phase

/-- One step of a thread: it begins a call, its sweep has tried to connect to the next backend,
or its call goes on. -/
inductive Action (ι : Type u) where
  | begin (t : ι) (c : Call)
  | connect (t : ι) (up : Bool)
  | advance (t : ι)
  deriving DecidableEq, Repr

def bit (id : ℕ) : BitVec 32 := 1 <<< id

def setUp (health : BitVec 32) (id : ℕ) (up : Bool) : BitVec 32 :=
  if up then health ||| bit id else health &&& ~~~(bit id)

def mask (health : BitVec 32) : BitVec 8 := (health &&& 0xff).setWidth 8

variable {ι : Type u}

def State.failures (s : State ι) (id : ℕ) : ℕ := (s.breaker id).getD 0

def start (ι : Type u) (F : Fleet) : State ι where
  health := F.ids.foldl (fun m id => m ||| bit id) 0
  breaker := fun _ => none
  lock := none
  threads := fun _ => .idle

def State.setCount (s : State ι) (id n : ℕ) : State ι :=
  { s with breaker := Function.update s.breaker id (some n) }

@[simp] theorem State.failures_setCount_self (s : State ι) (id n : ℕ) :
    (s.setCount id n).failures id = n := by
  show (Function.update s.breaker id (some n) id).getD 0 = n
  rw [Function.update_self, Option.getD_some]

private theorem State.failures_setCount_of_ne (s : State ι) {id j : ℕ} (n : ℕ) (hj : j ≠ id) :
    (s.setCount id n).failures j = s.failures j := by
  show (Function.update s.breaker id (some n) j).getD 0 = s.failures j
  rw [Function.update_of_ne hj, State.failures]

/-- A backend's id has to fit the health word, and the selector gives ids below 8. -/
def Call.first (F : Fleet) : Call → Option Phase
  | success id => if id < 8 then some (.resetting id none) else none
  | failure id => if id < 8 then some (.counting id) else none
  | probe => some (.sweeping F.ids)

/-- A `record_success` is over after it has set the bit, a sweep goes on. -/
def afterRaise : Option (List ℕ) → Phase
  | none => .idle
  | some todo => .sweeping todo

variable [DecidableEq ι] {F : Fleet} {s s' : State ι}

def State.move (s : State ι) (t : ι) (p : Phase) : State ι :=
  { s with threads := Function.update s.threads t p }

/-- A locked reset of a count is one step: nobody else comes to the counts in it. A failure has
the lock from the count to after the bit; the bits themselves are under no lock. -/
def advance (F : Fleet) (s : State ι) (t : ι) : Option (State ι) :=
  match s.threads t with
  | .resetting id sweep =>
    if s.lock = none then some ((s.setCount id 0).move t (.raising id sweep)) else none
  | .raising id sweep =>
    some ({ s with health := setUp s.health id true }.move t (afterRaise sweep))
  | .counting id =>
    -- the release build's counter wraps
    if s.lock = none then
      if F.threshold ≤ (s.failures id + 1) % 2 ^ 32 then
        some ({ s.setCount id ((s.failures id + 1) % 2 ^ 32) with lock := some t }.move t
          (.lowering id))
      else some ((s.setCount id ((s.failures id + 1) % 2 ^ 32)).move t .idle)
    else none
  | .lowering id =>
    some ({ s with health := setUp s.health id false, lock := none }.move t .idle)
  | .unreachable id todo =>
    some ({ s with health := setUp s.health id false }.move t (.sweeping todo))
  | .sweeping [] => some (s.move t .idle)
  | _ => none

def connect (s : State ι) (t : ι) (up : Bool) : Option (State ι) :=
  match s.threads t with
  | .sweeping (id :: todo) =>
    some (s.move t (if up then .resetting id (some todo) else .unreachable id todo))
  | _ => none

def step (F : Fleet) (s : State ι) : Action ι → Option (State ι)
  | .begin t c => if s.threads t = .idle then (c.first F).map (s.move t) else none
  | .connect t up => connect s t up
  | .advance t => advance F s t

def Phase.lowers : Phase → Option ℕ
  | lowering id => some id
  | _ => none

/-- The backend whose bit a success is about to set, its count already reset. -/
def Phase.raises : Phase → Option ℕ
  | raising id _ => some id
  | _ => none

/-- The breaker opens only while no success is between its two steps: no bit is cleared by a
failure when another call, its count reset before, is still to set that bit. -/
def Orderly (s : State ι) : Action ι → Prop
  | .advance t => ∀ id ∈ (s.threads t).lowers, ∀ u, (s.threads u).raises ≠ some id
  | _ => True

@[simp] theorem State.failures_move (s : State ι) (t : ι) (p : Phase) (id : ℕ) :
    (s.move t p).failures id = s.failures id := rfl

instance decidableOrderly [Fintype ι] (s : State ι) : ∀ a, Decidable (Orderly s a)
  | .advance t =>
    inferInstanceAs (Decidable (∀ id ∈ (s.threads t).lowers, ∀ u, (s.threads u).raises ≠ some id))
  | .begin _ _ => isTrue trivial
  | .connect _ _ => isTrue trivial

private theorem getLsbD_bit (id j : ℕ) (hj : j < 32) : (bit id).getLsbD j = decide (id = j) := by
  have htwo : bit id = BitVec.twoPow 32 id := rfl
  rw [htwo, BitVec.getLsbD_twoPow]
  by_cases h : id = j
  · simp [h, hj]
  · simp [h]

private theorem getLsbD_raise (health : BitVec 32) (id j : ℕ) (hj : j < 32) :
    (setUp health id true).getLsbD j = (health.getLsbD j || decide (id = j)) := by
  rw [setUp, if_pos rfl, BitVec.getLsbD_or, getLsbD_bit id j hj]

private theorem getLsbD_lower (health : BitVec 32) (id j : ℕ) (hj : j < 32) :
    (setUp health id false).getLsbD j = (health.getLsbD j && !decide (id = j)) := by
  rw [setUp, if_neg Bool.false_ne_true, BitVec.getLsbD_and, BitVec.getLsbD_not,
    getLsbD_bit id j hj]
  simp [hj]

private theorem getLsbD_mask (health : BitVec 32) (id : ℕ) (hid : id < 8) :
    (mask health).getLsbD id = health.getLsbD id := by
  have hbyte : (0xff : BitVec 32).getLsbD id = true := by
    interval_cases id <;> rfl
  rw [mask, BitVec.getLsbD_setWidth, BitVec.getLsbD_and, hbyte]
  simp [hid]

inductive Takes (F : Fleet) (s : State ι) : Action ι → State ι → Prop
  | begin {t : ι} {c : Call} {p : Phase} : s.threads t = .idle → c.first F = some p →
      Takes F s (.begin t c) (s.move t p)
  | connect {t : ι} {up : Bool} {id : ℕ} {todo : List ℕ} : s.threads t = .sweeping (id :: todo) →
      Takes F s (.connect t up)
        (s.move t (if up then .resetting id (some todo) else .unreachable id todo))
  | reset {t : ι} {id : ℕ} {sweep : Option (List ℕ)} : s.threads t = .resetting id sweep →
      s.lock = none → Takes F s (.advance t) ((s.setCount id 0).move t (.raising id sweep))
  | raise {t : ι} {id : ℕ} {sweep : Option (List ℕ)} : s.threads t = .raising id sweep →
      Takes F s (.advance t) ({ s with health := setUp s.health id true }.move t (afterRaise sweep))
  | trip {t : ι} {id n : ℕ} : s.threads t = .counting id → s.lock = none → F.threshold ≤ n →
      Takes F s (.advance t) ({ s.setCount id n with lock := some t }.move t (.lowering id))
  | count {t : ι} {id n : ℕ} : s.threads t = .counting id → s.lock = none → n < F.threshold →
      Takes F s (.advance t) ((s.setCount id n).move t .idle)
  | lower {t : ι} {id : ℕ} : s.threads t = .lowering id → Takes F s (.advance t)
      ({ s with health := setUp s.health id false, lock := none }.move t .idle)
  | gone {t : ι} {id : ℕ} {todo : List ℕ} : s.threads t = .unreachable id todo →
      Takes F s (.advance t) ({ s with health := setUp s.health id false }.move t (.sweeping todo))
  | swept {t : ι} : s.threads t = .sweeping [] → Takes F s (.advance t) (s.move t .idle)

private theorem takes_of_advance {t : ι} (h : advance F s t = some s') : Takes F s (.advance t)
    s' := by
  unfold advance at h
  split at h
  case h_1 id sweep hphase =>
    split at h
    case isTrue hlock =>
      cases h
      exact .reset hphase hlock
    case isFalse => cases h
  case h_2 id sweep hphase =>
    cases h
    exact .raise hphase
  case h_3 id hphase =>
    split at h
    case isTrue hlock =>
      split at h
      case isTrue hreached =>
        cases h
        exact .trip hphase hlock hreached
      case isFalse hbelow =>
        cases h
        exact .count hphase hlock (Nat.lt_of_not_le hbelow)
    case isFalse => cases h
  case h_4 id hphase =>
    cases h
    exact .lower hphase
  case h_5 id todo hphase =>
    cases h
    exact .gone hphase
  case h_6 hphase =>
    cases h
    exact .swept hphase
  case h_7 => cases h

theorem takes_of_step {a : Action ι} (h : step F s a = some s') : Takes F s a s' := by
  cases a with
  | begin t c =>
    rw [step] at h
    split at h
    case isTrue hidle =>
      obtain ⟨p, hp, rfl⟩ := Option.map_eq_some_iff.mp h
      exact .begin hidle hp
    case isFalse => cases h
  | connect t up =>
    rw [step, connect] at h
    split at h
    case h_1 id todo hphase =>
      cases h
      exact .connect hphase
    case h_2 => cases h
  | advance t => exact takes_of_advance h

/-- A failure that is about to clear a bit has the lock. An open breaker's backend is out and
nobody is about to bring it back, unless the failure that opened it has not cleared the bit yet. -/
structure Inv (F : Fleet) (s : State ι) : Prop where
  holder : ∀ t id, (s.threads t).lowers = some id → s.lock = some t
  opened : ∀ id < 8, F.threshold ≤ s.failures id →
    (∃ t, (s.threads t).lowers = some id) ∨
      s.health.getLsbD id = false ∧ ∀ t, (s.threads t).raises ≠ some id

omit [DecidableEq ι] in
theorem Inv.start (F : Fleet) (hpos : 0 < F.threshold) : Inv F (start ι F) where
  holder _ _ h := by cases h
  opened id _ h := by
    have hzero : F.threshold ≤ 0 := h
    omega

section Threads

variable {threads : ι → Phase} {t : ι} {p : Phase} {id : ℕ}

private theorem exists_lowers_update (hold : (threads t).lowers = none)
    (h : ∃ u, (threads u).lowers = some id) :
    ∃ u, (Function.update threads t p u).lowers = some id := by
  obtain ⟨u, hu⟩ := h
  have hne : u ≠ t := by
    rintro rfl
    rw [hold] at hu
    cases hu
  refine ⟨u, ?_⟩
  rwa [Function.update_of_ne hne]

omit [DecidableEq ι] in
private theorem raises_ne (h : p.raises = none) (id : ℕ) : p.raises ≠ some id := by
  rw [h]
  exact (Option.some_ne_none id).symm

private theorem raises_update (hp : p.raises ≠ some id) (h : ∀ u, (threads u).raises ≠ some id)
    (u : ι) :
    (Function.update threads t p u).raises ≠ some id := by
  by_cases hut : u = t
  · rw [hut, Function.update_self]
    exact hp
  · rw [Function.update_of_ne hut]
    exact h u

private theorem lowers_of_update (hp : p.lowers = none) {u : ι}
    (hu : (Function.update threads t p u).lowers = some id) :
    u ≠ t ∧ (threads u).lowers = some id := by
  by_cases hut : u = t
  · rw [hut, Function.update_self, hp] at hu
    cases hu
  · rw [Function.update_of_ne hut] at hu
    exact ⟨hut, hu⟩

end Threads

section Steps

variable {F : Fleet} {s : State ι} {t : ι} {p : Phase} {id n : ℕ}

omit [DecidableEq ι] in
private theorem Inv.not_lowers (h : Inv F s) (hlock : s.lock = none) (u : ι) (id : ℕ) :
    (s.threads u).lowers ≠ some id := by
  intro hu
  have hsome := h.holder u id hu
  rw [hlock] at hsome
  cases hsome

theorem Inv.move (h : Inv F s) (hold : (s.threads t).lowers = none) (hlowers : p.lowers = none)
    (hraises : p.raises = none) : Inv F (s.move t p) where
  holder u id hu := h.holder u id (lowers_of_update hlowers hu).2
  opened id hid hcount := by
    rcases h.opened id hid hcount with hlower | ⟨hclear, hnone⟩
    · exact .inl (exists_lowers_update hold hlower)
    · exact .inr ⟨hclear, raises_update (raises_ne hraises id) hnone⟩

private theorem Inv.setCount (h : Inv F s) (hlock : s.lock = none) (hn : n < F.threshold)
    (hlowers : p.lowers = none) (hraises : ∀ j ≠ id, p.raises ≠ some j) :
    Inv F ((s.setCount id n).move t p) where
  holder u j hu := h.holder u j (lowers_of_update hlowers hu).2
  opened j hj hcount := by
    by_cases hji : j = id
    · have hbelow : F.threshold ≤ n := by
        rwa [hji, State.failures_move, State.failures_setCount_self] at hcount
      omega
    · rw [State.failures_move, State.failures_setCount_of_ne s n hji] at hcount
      rcases h.opened j hj hcount with ⟨u, hu⟩ | ⟨hclear, hnone⟩
      · exact absurd hu (h.not_lowers hlock u j)
      · exact .inr ⟨hclear, raises_update (hraises j hji) hnone⟩

private theorem Inv.trip (h : Inv F s) (hlock : s.lock = none) :
    Inv F ({ s.setCount id n with lock := some t }.move t (.lowering id)) where
  holder u j hu := by
    by_cases hut : u = t
    · rw [hut]
      rfl
    · have hold : (s.threads u).lowers = some j := by
        have hthreads : (Function.update s.threads t (.lowering id) u).lowers = some j := hu
        rwa [Function.update_of_ne hut] at hthreads
      exact absurd hold (h.not_lowers hlock u j)
  opened j hj hcount := by
    by_cases hji : j = id
    · refine .inl ⟨t, ?_⟩
      have hself : Function.update s.threads t (.lowering id) t = .lowering id :=
        Function.update_self ..
      exact hji ▸ congrArg Phase.lowers hself
    · have hbefore : F.threshold ≤ s.failures j := by
        rw [← State.failures_setCount_of_ne s n hji]
        exact hcount
      rcases h.opened j hj hbefore with ⟨u, hu⟩ | ⟨hclear, hnone⟩
      · exact absurd hu (h.not_lowers hlock u j)
      · exact .inr ⟨hclear, raises_update (raises_ne rfl j) hnone⟩

private theorem Inv.raise (h : Inv F s) (hold : (s.threads t).raises = some id)
    (hidle : (s.threads t).lowers = none) (hlowers : p.lowers = none) (hraises : p.raises = none) :
    Inv F ({ s with health := setUp s.health id true }.move t p) where
  holder u j hu := h.holder u j (lowers_of_update hlowers hu).2
  opened j hj hcount := by
    rcases h.opened j hj hcount with hlower | ⟨hclear, hnone⟩
    · exact .inl (exists_lowers_update hidle hlower)
    · have hne : id ≠ j := by
        rintro rfl
        exact hnone t hold
      refine .inr ⟨?_, raises_update (raises_ne hraises j) hnone⟩
      show (setUp s.health id true).getLsbD j = false
      rw [getLsbD_raise s.health id j (by omega), hclear, decide_eq_false hne]
      rfl

theorem Inv.gone (h : Inv F s) (hold : (s.threads t).lowers = none) (hlowers : p.lowers = none)
    (hraises : p.raises = none) : Inv F ({ s with health := setUp s.health id false }.move t p) where
  holder u j hu := h.holder u j (lowers_of_update hlowers hu).2
  opened j hj hcount := by
    rcases h.opened j hj hcount with hlower | ⟨hclear, hnone⟩
    · exact .inl (exists_lowers_update hold hlower)
    · refine .inr ⟨?_, raises_update (raises_ne hraises j) hnone⟩
      show (setUp s.health id false).getLsbD j = false
      rw [getLsbD_lower s.health id j (by omega), hclear, Bool.false_and]

theorem Inv.lower (h : Inv F s) (hold : (s.threads t).lowers = some id)
    (horder : ∀ u, (s.threads u).raises ≠ some id) :
    Inv F ({ s with health := setUp s.health id false, lock := none }.move t .idle) where
  holder u j hu := by
    obtain ⟨hut, hlowers⟩ := lowers_of_update rfl hu
    have hsame := (h.holder u j hlowers).symm.trans (h.holder t id hold)
    exact absurd (Option.some.inj hsame) hut
  opened j hj hcount := by
    right
    have hbit : (setUp s.health id false).getLsbD j = (s.health.getLsbD j && !decide (id = j)) :=
      getLsbD_lower s.health id j (by omega)
    by_cases hij : id = j
    · refine ⟨?_, raises_update (raises_ne rfl j) (hij ▸ horder)⟩
      show (setUp s.health id false).getLsbD j = false
      rw [hbit, decide_eq_true hij, Bool.not_true, Bool.and_false]
    · rcases h.opened j hj hcount with ⟨u, hu⟩ | ⟨hclear, hnone⟩
      · have hsame := (h.holder u j hu).symm.trans (h.holder t id hold)
        rw [Option.some.inj hsame, hold] at hu
        exact absurd (Option.some.inj hu) hij
      · refine ⟨?_, raises_update (raises_ne rfl j) hnone⟩
        show (setUp s.health id false).getLsbD j = false
        rw [hbit, hclear, Bool.false_and]

end Steps

private theorem quiet_of_first {c : Call} {p : Phase} (h : c.first F = some p) :
    p.lowers = none ∧ p.raises = none := by
  cases c with
  | success id | failure id =>
    rw [Call.first] at h
    split at h <;> cases h
    exact ⟨rfl, rfl⟩
  | probe =>
    cases h
    exact ⟨rfl, rfl⟩

theorem Inv.step (hpos : 0 < F.threshold) {a : Action ι} (h : Inv F s) (horder : Orderly s a)
    (hstep : step F s a = some s') : Inv F s' := by
  cases takes_of_step hstep with
  | begin hidle hfirst =>
    obtain ⟨hlowers, hraises⟩ := quiet_of_first hfirst
    exact h.move (by rw [hidle]; rfl) hlowers hraises
  | @connect t up id todo hphase =>
    refine h.move (by rw [hphase]; rfl) ?_ ?_
    · cases up <;> rfl
    · cases up <;> rfl
  | @reset t id sweep hphase hlock =>
    refine h.setCount hlock hpos rfl ?_
    intro j hj hraises
    exact hj (Option.some.inj hraises).symm
  | @raise t id sweep hphase =>
    refine h.raise (by rw [hphase]; rfl) (by rw [hphase]; rfl) ?_ ?_
    · cases sweep <;> rfl
    · cases sweep <;> rfl
  | trip hphase hlock hreached => exact h.trip hlock
  | count hphase hlock hbelow =>
    exact h.setCount hlock hbelow rfl fun j _ => raises_ne rfl j
  | @lower t id hphase =>
    have hlowers : (s.threads t).lowers = some id := by rw [hphase]; rfl
    exact h.lower hlowers (horder id hlowers)
  | gone hphase => exact h.gone (by rw [hphase]; rfl) rfl rfl
  | swept hphase => exact h.move (by rw [hphase]; rfl) rfl rfl

theorem open_breaker_out (F : Fleet) (hpos : 0 < F.threshold) (acts : List (Action ι)) (s : State ι)
    (orderly : Meets (step F) Orderly (start ι F) acts) (hrun : run (step F) (start ι F) acts = some s)
    (rest : ∀ t, s.threads t = .idle) (id : ℕ) (hid : id < 8)
    (hcount : F.threshold ≤ s.failures id) : (mask s.health).getLsbD id = false := by
  have hinv : Inv F s := invariant_of_meets (Inv.step hpos) (Inv.start F hpos) orderly hrun
  rw [getLsbD_mask s.health id hid]
  rcases hinv.opened id hid hcount with ⟨t, hlowers⟩ | ⟨hclear, _⟩
  · rw [rest t] at hlowers
    cases hlowers
  · exact hclear

/-- Three backends, and the breaker the environment gives by default. -/
def three : Fleet := ⟨[0, 1, 2], 3, by decide⟩

def failsThrice : List (Action Bool) :=
  [.begin false (.success 0), .advance false, .advance false, .begin true (.failure 0),
    .advance true, .begin true (.failure 0), .advance true, .begin true (.failure 0),
    .advance true, .advance true]

/-- A success whose bit is set before the failures leaves the mask without the backend. -/
theorem failsThrice_out : ∃ s, run (step three) (start Bool three) failsThrice = some s ∧
    3 ≤ s.failures 0 ∧ (mask s.health).getLsbD 0 = false := by
  obtain ⟨s, hrun, rest, hcount⟩ : ∃ s, run (step three) (start Bool three) failsThrice = some s ∧
      (∀ t, s.threads t = .idle) ∧ 3 ≤ s.failures 0 := ⟨_, rfl, by decide, by decide⟩
  exact ⟨s, hrun, hcount, open_breaker_out three (by decide) failsThrice s (by decide +kernel) hrun
    rest 0 (by decide) hcount⟩

/-- A success resets the count; three failures open the breaker and clear the bit; then the
success sets the bit. -/
def raisesLate : List (Action Bool) :=
  [.begin false (.success 0), .advance false, .begin true (.failure 0), .advance true,
    .begin true (.failure 0), .advance true, .begin true (.failure 0), .advance true,
    .advance true, .advance false]

/-- No call is in progress, the breaker is open, and the selector is given the backend as up. With
a threshold of zero every breaker is open from the start. -/
theorem raisesLate_in :
    (∃ s, run (step three) (start Bool three) raisesLate = some s ∧
      (∀ t, s.threads t = .idle) ∧ three.threshold ≤ s.failures 0 ∧
      (mask s.health).getLsbD 0 = true) ∧
    ∃ F : Fleet, F.threshold ≤ (start Bool F).failures 0 ∧
      (mask (start Bool F).health).getLsbD 0 = true :=
  ⟨⟨_, rfl, by decide, by decide, by decide⟩, ⟨[0], 0, by decide⟩, by decide, by decide⟩

end DragonsNet.Dataplane.Breakers
