/- GID: DragonsNet/Models/Wake
   source: models/wake/src/lib.rs
   digest: The two-flag wakeup protocol, where it can strand an item and for how long. -/

import DragonsNet.Lib.Runs
import Mathlib.Tactic.Common

set_option autoImplicit false

namespace DragonsNet.Models.Wake

open Lib.Runs (run invariant_of_step sum_update)

/-- Where a producer stands. A producer makes an item visible, calls `publish` and
returns from it, any number of times. -/
inductive Publisher where
  | idle
  | visible (item : ℕ)
  | swapped (item : ℕ) (wasPending : Bool)
  | ringing (item : ℕ)
  deriving DecidableEq

/-- Where the consumer's loop stands: `take_pending`, the drain, then the store, the
re-check and the wait of `park_if_idle`. -/
inductive Consumer where
  | taking
  | draining (found : Bool)
  | announcing
  | rechecking
  | retracting
  | waiting
  | resuming
  deriving DecidableEq

/-- The two flags, the tokens of the doorbell and every thread's place. The last four
fields are a record of the run and are read by no step. -/
structure State (n : ℕ) where
  pending : Bool
  mightBlock : Bool
  tokens : ℕ
  queue : List ℕ
  publishers : Fin n → Publisher
  consumer : Consumer
  items : ℕ
  returned : List (ℕ × Bool)
  rings : ℕ
  clears : ℕ

/-- `WakeProtocol::new`, with every producer idle and the consumer at the loop's head. -/
def start (n : ℕ) : State n where
  pending := false
  mightBlock := false
  tokens := 0
  queue := []
  publishers := fun _ => .idle
  consumer := .taking
  items := 0
  returned := []
  rings := 0
  clears := 0

variable {n : ℕ} {i : Fin n} {s t : State n}

def State.setPublisher (s : State n) (i : Fin n) (p : Publisher) : State n :=
  { s with publishers := Function.update s.publishers i p }

/-- The producer makes its next item visible, before it calls `publish`. -/
def makeVisible (s : State n) (i : Fin n) : Option (State n) :=
  match s.publishers i with
  | .idle => some
      { s.setPublisher i (.visible s.items) with
        queue := s.queue ++ [s.items], items := s.items + 1 }
  | _ => none

/-- One atomic step of `publish`: the swap of `pending`, the load of `might_block` with
the two returns of false behind it, or the ring. -/
def publish (s : State n) (i : Fin n) : Option (State n) :=
  match s.publishers i with
  | .idle => none
  | .visible x => some { s.setPublisher i (.swapped x s.pending) with pending := true }
  | .swapped x wasPending =>
    if !s.mightBlock then
      some { s.setPublisher i .idle with returned := (x, false) :: s.returned }
    else if wasPending then
      some { s.setPublisher i .idle with returned := (x, false) :: s.returned }
    else some (s.setPublisher i (.ringing x))
  | .ringing x => some
      { s.setPublisher i .idle with
        tokens := s.tokens + 1, rings := s.rings + 1, returned := (x, true) :: s.returned }

def takePending (s : State n) : State n :=
  { s with
    pending := false
    clears := if s.pending then s.clears + 1 else s.clears
    consumer := .draining false }

/-- One item taken, or the end of the drain, which leads to `park_if_idle` when no item
was found. -/
def drain (s : State n) (found : Bool) : State n :=
  match s.queue with
  | _ :: rest => { s with queue := rest, consumer := .draining true }
  | [] => { s with consumer := if found then .taking else .announcing }

/-- One atomic step of the consumer. Only the wait can be disabled: it returns once there
is a token, and takes all of them. -/
def consume (s : State n) : Option (State n) :=
  match s.consumer with
  | .taking => some (takePending s)
  | .draining found => some (drain s found)
  | .announcing => some { s with mightBlock := true, consumer := .rechecking }
  | .rechecking => some { s with consumer := if s.pending then .retracting else .waiting }
  | .retracting => some { s with mightBlock := false, consumer := .taking }
  | .waiting => if s.tokens = 0 then none else some { s with tokens := 0, consumer := .resuming }
  | .resuming => some { s with mightBlock := false, consumer := .taking }

inductive Action (n : ℕ) where
  | makeVisible (i : Fin n)
  | publish (i : Fin n)
  | consume
  deriving DecidableEq

def step (s : State n) : Action n → Option (State n)
  | .makeVisible i => makeVisible s i
  | .publish i => publish s i
  | .consume => consume s

/-- The consumer blocked with no token, and an item whose `publish` returned undrained. -/
def Stranded (s : State n) : Prop :=
  s.consumer = .waiting ∧ s.tokens = 0 ∧ ∃ x ∈ s.queue, ∃ rang, (x, rang) ∈ s.returned

/-- A `publish` in progress made the false to true edge of `pending` and has not rung. -/
def Publisher.owes : Publisher → Bool
  | .swapped _ wasPending => !wasPending
  | .ringing _ => true
  | _ => false

/-- The item a producer has made visible and whose `publish` has not returned. -/
def Publisher.item : Publisher → Option ℕ
  | .idle => none
  | .visible x | .swapped x _ | .ringing x => some x

/-- The rings that are still to come from the calls in progress. -/
def due (publishers : Fin n → Publisher) : ℕ := ∑ i, (publishers i).owes.toNat

def Consumer.announced : Consumer → Bool
  | .rechecking | .retracting | .waiting | .resuming => true
  | _ => false

/-- Producers hold items of their own, and no item whose `publish` has returned. -/
structure Labelled (s : State n) : Prop where
  held : ∀ i x, (s.publishers i).item = some x → x < s.items
  apart : ∀ i j x, (s.publishers i).item = some x → (s.publishers j).item = some x → i = j
  done : ∀ x rang, (x, rang) ∈ s.returned →
    x < s.items ∧ ∀ i, (s.publishers i).item ≠ some x

/-- What holds between any two atomic steps. Outside the drain every undrained item that
was flagged keeps `pending` set; a consumer that waits with `pending` set has a token or is
owed one; and there is one ring at most for each edge of `pending`. -/
structure Inv (s : State n) : Prop where
  labelled : Labelled s
  blocks : s.mightBlock = s.consumer.announced
  flagged : (∀ found, s.consumer ≠ .draining found) → ∀ x ∈ s.queue,
    (∀ i, s.publishers i ≠ .visible x) → s.pending = true
  owed : s.consumer = .waiting → s.pending = true →
    0 < s.tokens ∨ ∃ i, (s.publishers i).owes = true
  edges : s.rings + due s.publishers ≤ s.clears + s.pending.toNat

theorem start_inv : Inv (start n) where
  labelled := ⟨by simp [start, Publisher.item], by simp [start, Publisher.item], by simp [start]⟩
  blocks := rfl
  flagged := by simp [start]
  owed := by simp [start]
  edges := by simp [start, due, Publisher.owes]

private theorem makeVisible_eq (h : makeVisible s i = some t) :
    s.publishers i = .idle ∧ t = { s.setPublisher i (.visible s.items) with
      queue := s.queue ++ [s.items], items := s.items + 1 } := by
  unfold makeVisible at h
  split at h
  · rename_i hi
    exact ⟨hi, (Option.some.inj h).symm⟩
  · cases h

private theorem publish_cases (h : publish s i = some t) :
    (∃ x, s.publishers i = .visible x ∧
      t = { s.setPublisher i (.swapped x s.pending) with pending := true }) ∨
    (∃ x was, s.publishers i = .swapped x was ∧ (s.mightBlock = false ∨ was = true) ∧
      t = { s.setPublisher i .idle with returned := (x, false) :: s.returned }) ∨
    (∃ x, s.publishers i = .swapped x false ∧ s.mightBlock = true ∧
      t = s.setPublisher i (.ringing x)) ∨
    (∃ x, s.publishers i = .ringing x ∧ t = { s.setPublisher i .idle with
      tokens := s.tokens + 1, rings := s.rings + 1, returned := (x, true) :: s.returned }) := by
  unfold publish at h
  split at h
  · cases h
  · rename_i x hi
    exact .inl ⟨x, hi, (Option.some.inj h).symm⟩
  · rename_i x was hi
    split_ifs at h with hb hw
    · exact .inr (.inl ⟨x, was, hi, .inl (by simpa using hb), (Option.some.inj h).symm⟩)
    · exact .inr (.inl ⟨x, was, hi, .inr hw, (Option.some.inj h).symm⟩)
    · obtain rfl : was = false := by simpa using hw
      exact .inr (.inr (.inl ⟨x, hi, by simpa using hb, (Option.some.inj h).symm⟩))
  · rename_i x hi
    exact .inr (.inr (.inr ⟨x, hi, (Option.some.inj h).symm⟩))

section Labels

variable {s t : State n} {i : Fin n}

private theorem Labelled.congr (h : Labelled s) (hp : t.publishers = s.publishers)
    (hi : t.items = s.items) (hr : t.returned = s.returned) : Labelled t :=
  ⟨by rw [hp, hi]; exact h.held, by rw [hp]; exact h.apart, by rw [hp, hi, hr]; exact h.done⟩

private theorem Labelled.take (h : Labelled s)
    (hp : t.publishers = Function.update s.publishers i (.visible s.items))
    (hi : t.items = s.items + 1) (hr : t.returned = s.returned) : Labelled t := by
  have fresh : ∀ j, (s.publishers j).item ≠ some s.items := fun j hj =>
    absurd (h.held j _ hj) (lt_irrefl _)
  refine ⟨fun j x hx => ?_, fun j k x hj hk => ?_, fun x rang hx => ?_⟩
  · rw [hi]
    rw [hp] at hx
    by_cases hj : j = i
    · obtain rfl : s.items = x := by simpa [hj, Publisher.item] using hx
      omega
    · have := h.held j x (by simpa [hj] using hx)
      omega
  · rw [hp] at hj hk
    by_cases hji : j = i <;> by_cases hki : k = i
    · rw [hji, hki]
    · obtain rfl : s.items = x := by simpa [hji, Publisher.item] using hj
      exact absurd (by simpa [hki] using hk) (fresh k)
    · obtain rfl : s.items = x := by simpa [hki, Publisher.item] using hk
      exact absurd (by simpa [hji] using hj) (fresh j)
    · exact h.apart j k x (by simpa [hji] using hj) (by simpa [hki] using hk)
  · rw [hr] at hx
    obtain ⟨hlt, hnot⟩ := h.done x rang hx
    refine ⟨by omega, fun j => ?_⟩
    rw [hp]
    by_cases hj : j = i
    · simpa [hj, Publisher.item] using hlt.ne'
    · simpa [hj] using hnot j

private theorem Labelled.keep (h : Labelled s) {p : Publisher}
    (hsame : p.item = (s.publishers i).item)
    (hp : t.publishers = Function.update s.publishers i p)
    (hi : t.items = s.items) (hr : t.returned = s.returned) : Labelled t := by
  have same : ∀ j, (t.publishers j).item = (s.publishers j).item := fun j => by
    by_cases hj : j = i
    · simp [hp, hj, hsame]
    · simp [hp, hj]
  refine ⟨fun j x hx => ?_, fun j k x hj hk => ?_, fun x rang hx => ?_⟩
  · rw [hi]
    exact h.held j x (by rw [← same j]; exact hx)
  · exact h.apart j k x (by rw [← same j]; exact hj) (by rw [← same k]; exact hk)
  · rw [hr] at hx
    obtain ⟨hlt, hnot⟩ := h.done x rang hx
    exact ⟨by omega, fun j => by rw [same j]; exact hnot j⟩

private theorem Labelled.drop (h : Labelled s) {x : ℕ} {rang : Bool}
    (hx : (s.publishers i).item = some x)
    (hp : t.publishers = Function.update s.publishers i .idle)
    (hi : t.items = s.items) (hr : t.returned = (x, rang) :: s.returned) : Labelled t := by
  have less : ∀ j y, (t.publishers j).item = some y →
      j ≠ i ∧ (s.publishers j).item = some y := fun j y hy => by
    by_cases hj : j = i
    · simp [hp, hj, Publisher.item] at hy
    · exact ⟨hj, by simpa [hp, hj] using hy⟩
  refine ⟨fun j y hy => ?_, fun j k y hj hk => ?_, fun y r hy => ?_⟩
  · rw [hi]
    exact h.held j y (less j y hy).2
  · exact h.apart j k y (less j y hj).2 (less k y hk).2
  · rw [hi]
    rw [hr, List.mem_cons] at hy
    rcases hy with hy | hy
    · obtain ⟨rfl, rfl⟩ := Prod.mk.inj hy
      exact ⟨h.held i _ hx, fun j hj =>
        (less j _ hj).1 (h.apart j i _ (less j _ hj).2 hx)⟩
    · obtain ⟨hlt, hnot⟩ := h.done y r hy
      exact ⟨hlt, fun j hj => hnot j (less j y hj).2⟩

end Labels

private theorem due_update {s : State n} {q : Publisher} (hi : s.publishers i = q) (p : Publisher) :
    due (Function.update s.publishers i p) + q.owes.toNat = due s.publishers + p.owes.toNat := by
  rw [← hi]
  exact sum_update (fun p => p.owes.toNat) s.publishers i p

private theorem owed_update {s : State n} {p : Publisher}
    (h : 0 < s.tokens ∨ ∃ j, (s.publishers j).owes = true)
    (hi : (s.publishers i).owes = true → p.owes = true) :
    0 < s.tokens ∨ ∃ j, (Function.update s.publishers i p j).owes = true := by
  refine h.imp id fun ⟨j, hj⟩ => ⟨j, ?_⟩
  by_cases hji : j = i
  · subst hji
    simpa using hi hj
  · simpa [hji] using hj

private theorem visible_update {s : State n} {p : Publisher} {x : ℕ}
    (hi : ∀ y, s.publishers i ≠ .visible y)
    (h : ∀ j, Function.update s.publishers i p j ≠ .visible x) :
    ∀ j, s.publishers j ≠ .visible x := fun j hj => by
  have hji : j ≠ i := fun e => hi x (e ▸ hj)
  exact h j (by simpa [hji] using hj)

theorem makeVisible_inv (h : Inv s) (hstep : makeVisible s i = some t) : Inv t := by
  obtain ⟨hi, rfl⟩ := makeVisible_eq hstep
  refine ⟨h.labelled.take rfl rfl rfl, h.blocks, fun hc x hx hvis => ?_, fun hc hpend => ?_, ?_⟩
  · have hx' : x ∈ s.queue ∨ x = s.items := by simpa using hx
    rcases hx' with hx' | rfl
    · exact h.flagged hc x hx' (visible_update (by simp [hi]) hvis)
    · exact absurd (by simp [State.setPublisher]) (hvis i)
  · exact owed_update (h.owed hc hpend) (by simp [hi, Publisher.owes])
  · have hdue := due_update hi (.visible s.items)
    have hedges := h.edges
    simp only [Publisher.owes, Bool.toNat_false] at hdue
    simp only [State.setPublisher]
    omega

theorem publish_inv (h : Inv s) (hstep : publish s i = some t) : Inv t := by
  have hedges := h.edges
  obtain ⟨x, hi, rfl⟩ | ⟨x, was, hi, hquiet, rfl⟩ | ⟨x, hi, hb, rfl⟩ | ⟨x, hi, rfl⟩ :=
    publish_cases hstep
  · have hdue := due_update hi (.swapped x s.pending)
    refine ⟨h.labelled.keep (by rw [hi]; rfl) rfl rfl rfl, h.blocks, fun _ _ _ _ => rfl,
      fun hc _ => ?_, ?_⟩
    · cases hp : s.pending with
      | false => exact .inr ⟨i, by simp [State.setPublisher, hp, Publisher.owes]⟩
      | true => exact owed_update (h.owed hc hp) (by simp [hi, Publisher.owes])
    · simp only [State.setPublisher, Bool.toNat_true]
      cases hp : s.pending <;> simp [hp, Publisher.owes] at hdue hedges ⊢ <;> omega
  · have hdue := due_update hi .idle
    refine ⟨h.labelled.drop (by rw [hi]; rfl) rfl rfl rfl, h.blocks, fun hc y hy hvis =>
      h.flagged hc y hy (visible_update (by simp [hi]) hvis), fun hc hpend => ?_, ?_⟩
    · refine owed_update (h.owed hc hpend) fun howes => ?_
      have hb : s.mightBlock = true := by
        rw [h.blocks, show s.consumer = .waiting from hc]
        rfl
      simp_all [Publisher.owes]
    · simp only [State.setPublisher, Publisher.owes, Bool.toNat_false] at hdue ⊢
      omega
  · have hdue := due_update hi (.ringing x)
    refine ⟨h.labelled.keep (by rw [hi]; rfl) rfl rfl rfl, h.blocks, fun hc y hy hvis =>
      h.flagged hc y hy (visible_update (by simp [hi]) hvis), fun hc hpend =>
      owed_update (h.owed hc hpend) (by simp [Publisher.owes]), ?_⟩
    simp only [State.setPublisher, Publisher.owes, Bool.not_false] at hdue ⊢
    omega
  · have hdue := due_update hi .idle
    refine ⟨h.labelled.drop (by rw [hi]; rfl) rfl rfl rfl, h.blocks, fun hc y hy hvis =>
      h.flagged hc y hy (visible_update (by simp [hi]) hvis), fun _ _ => .inl (by simp), ?_⟩
    simp only [State.setPublisher, Publisher.owes, Bool.toNat_true, Bool.toNat_false] at hdue ⊢
    omega

private theorem consume_cases (h : consume s = some t) :
    (s.consumer = .taking ∧ t = takePending s) ∨
    (∃ found, s.consumer = .draining found ∧ t = drain s found) ∨
    (s.consumer = .announcing ∧ t = { s with mightBlock := true, consumer := .rechecking }) ∨
    (s.consumer = .rechecking ∧
      t = { s with consumer := if s.pending then .retracting else .waiting }) ∨
    (s.consumer = .waiting ∧ 0 < s.tokens ∧ t = { s with tokens := 0, consumer := .resuming }) ∨
    ((s.consumer = .retracting ∨ s.consumer = .resuming) ∧
      t = { s with mightBlock := false, consumer := .taking }) := by
  unfold consume at h
  split at h <;> rename_i hc <;> simp only [hc]
  all_goals first
    | (split_ifs at h; simp_all [Nat.pos_iff_ne_zero]; done)
    | simp_all

theorem drain_inv {s : State n} {found : Bool} (h : Inv s)
    (hc : s.consumer = .draining found) : Inv (drain s found) := by
  have hb : s.mightBlock = false := by
    rw [h.blocks, hc]
    rfl
  unfold drain
  split
  · rename_i x rest hq
    exact ⟨h.labelled.congr rfl rfl rfl, hb, fun hd => absurd rfl (hd true), by simp, h.edges⟩
  · rename_i hq
    refine ⟨h.labelled.congr rfl rfl rfl, ?_, fun _ x hx => ?_, fun hw => ?_, h.edges⟩
    · cases found <;> exact hb
    · rw [hq] at hx
      cases hx
    · cases found <;> cases hw

theorem consume_inv (h : Inv s) (hstep : consume s = some t) : Inv t := by
  have hedges := h.edges
  obtain ⟨hc, rfl⟩ | ⟨found, hc, rfl⟩ | ⟨hc, rfl⟩ | ⟨hc, rfl⟩ | ⟨hc, htok, rfl⟩ | ⟨hc, rfl⟩ :=
    consume_cases hstep
  · have hb : s.mightBlock = false := by
      rw [h.blocks, hc]
      rfl
    refine ⟨h.labelled.congr rfl rfl rfl, hb, fun hd => absurd rfl (hd false),
      by simp [takePending], ?_⟩
    cases hp : s.pending <;> simp [takePending, hp] at hedges ⊢ <;> omega
  · exact drain_inv h hc
  · exact ⟨h.labelled.congr rfl rfl rfl, rfl, fun _ => h.flagged (by simp [hc]), by simp,
      hedges⟩
  · refine ⟨h.labelled.congr rfl rfl rfl, ?_, fun _ => h.flagged (by simp [hc]), ?_, hedges⟩
    · rw [h.blocks, hc]
      cases s.pending <;> rfl
    · cases hp : s.pending <;> simp
  · refine ⟨h.labelled.congr rfl rfl rfl, ?_, fun _ => h.flagged (by simp [hc]), by simp, hedges⟩
    rw [h.blocks, hc]
    rfl
  · refine ⟨h.labelled.congr rfl rfl rfl, rfl, fun _ => h.flagged ?_, by simp, hedges⟩
    rcases hc with hc | hc <;> simp [hc]

theorem step_inv {a : Action n} (h : Inv s) (hstep : step s a = some t) : Inv t := by
  cases a with
  | makeVisible i => exact makeVisible_inv h hstep
  | publish i => exact publish_inv h hstep
  | consume => exact consume_inv h hstep

private theorem publish_owes (hb : s.mightBlock = true) (hi : (s.publishers i).owes = true)
    (hstep : publish s i = some t) : (t.publishers i).owes = true ∨ 0 < t.tokens := by
  obtain ⟨x, hp, -⟩ | ⟨x, was, hp, hquiet, -⟩ | ⟨x, hp, -, rfl⟩ | ⟨x, hp, rfl⟩ :=
    publish_cases hstep
  · simp [hp, Publisher.owes] at hi
  · simp_all [Publisher.owes]
  · exact .inl (by simp [State.setPublisher, Publisher.owes])
  · exact .inr (by simp)

/-- In every run, an item whose `publish` returned is stranded only while the ring is still
to come from another `publish` in progress, which made the edge of `pending` and cannot
return before it has rung. And the rings exceed the edges cleared by one at most. -/
theorem stranded_only_while_ring_owed (n : ℕ) (acts : List (Action n)) (s : State n)
    (h : run step (start n) acts = some s) :
    (Stranded s → ∃ i, (s.publishers i).owes = true ∧ ∀ t, publish s i = some t →
      (t.publishers i).owes = true ∨ 0 < t.tokens) ∧
    s.rings ≤ s.clears + 1 := by
  have hinv : Inv s := invariant_of_step step_inv start_inv h
  refine ⟨fun ⟨hw, htok, x, hx, rang, hret⟩ => ?_, ?_⟩
  · have hb : s.mightBlock = true := by
      rw [hinv.blocks, hw]
      rfl
    have hpend : s.pending = true := hinv.flagged (by simp [hw]) x hx fun i hi =>
      (hinv.labelled.done x rang hret).2 i (by rw [hi]; rfl)
    obtain htok' | ⟨i, hi⟩ := hinv.owed hw hpend
    · omega
    · exact ⟨i, hi, fun t hstep => publish_owes hb hi hstep⟩
  · have hedges := hinv.edges
    have := Bool.toNat_le s.pending
    omega

/-- The consumer goes to wait; producer 0 makes the edge and stops before its load;
producer 1 publishes, finds `pending` set and returns. -/
def overtake : List (Action 2) :=
  [.consume, .consume, .consume, .consume, .makeVisible 0, .publish 0,
    .makeVisible 1, .publish 1, .publish 1]

theorem overtake_strands : ∃ s, run step (start 2) overtake = some s ∧ Stranded s :=
  ⟨_, rfl, rfl, rfl, 1, by decide, false, by decide⟩

theorem overtake_ring_owed : ∃ s, run step (start 2) overtake = some s ∧
    (s.publishers 0).owes = true ∧ s.rings ≤ s.clears + 1 ∧
    ∃ i, (s.publishers i).owes = true :=
  ⟨_, rfl, rfl, (stranded_only_while_ring_owed 2 overtake _ rfl).2,
    ((stranded_only_while_ring_owed 2 overtake _ rfl).1
      ⟨rfl, rfl, 1, by decide, false, by decide⟩).imp fun _ h => h.1⟩

end DragonsNet.Models.Wake
