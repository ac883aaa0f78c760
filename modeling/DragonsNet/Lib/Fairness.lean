/- GID: DragonsNet/Lib/Fairness
   generality: G
   digest: Unending runs action by action, strong fairness, and who gets a fair lock. -/

import DragonsNet.Lib.Runs
import Mathlib.Order.Nat

set_option autoImplicit false

namespace DragonsNet.Lib.Fairness

open Lib.Runs (run run_cons Meets)

universe u v w

variable {σ : Type u} {α : Type v} {step : σ → α → Option σ}

structure Trace (step : σ → α → Option σ) where
  state : ℕ → σ
  act : ℕ → α
  next : ∀ k, step (state k) (act k) = some (state (k + 1))

theorem Trace.invariant {Inv : σ → Prop} {ok : σ → α → Prop} (r : Trace step)
    (keep : ∀ {s t : σ} {a : α}, Inv s → ok s a → step s a = some t → Inv t)
    (start : Inv (r.state 0)) (allowed : ∀ k, ok (r.state k) (r.act k)) : ∀ k, Inv (r.state k)
  | 0 => start
  | k + 1 => keep (r.invariant keep start allowed k) (allowed k) (r.next k)

/-- Actions of a kind that are enabled again and again are taken again and again. -/
def StronglyFair (r : Trace step) (A : α → Prop) : Prop :=
  (∀ n, ∃ k, n ≤ k ∧ ∃ a, A a ∧ (step (r.state k) a).isSome) → ∀ n, ∃ k, n ≤ k ∧ A (r.act k)

theorem StronglyFair.of_still {r : Trace step} {A : α → Prop} {t : σ} {n : ℕ}
    (still : ∀ k, n ≤ k → r.state k = t) (hnone : ∀ a, A a → step t a = none) :
    StronglyFair r A := by
  intro henabled
  obtain ⟨k, hk, a, ha, hsome⟩ := henabled n
  rw [still k hk, hnone a ha] at hsome
  cases hsome

theorem eventually_of_rank (r : Trace step) (P Goal : σ → Prop) (rank : σ → ℕ)
    (falls : ∀ k, P (r.state k) → ∃ m, k ≤ m ∧ (Goal (r.state m) ∨
      P (r.state m) ∧ rank (r.state m) < rank (r.state k))) {k : ℕ} (start : P (r.state k)) :
    ∃ m, k ≤ m ∧ Goal (r.state m) := by
  induction hrank : rank (r.state k) using Nat.strong_induction_on generalizing k with
  | _ n ih =>
    subst hrank
    obtain ⟨m, hm, hgoal | ⟨hP, hlt⟩⟩ := falls k start
    · exact ⟨m, hm, hgoal⟩
    · obtain ⟨l, hl, hgoal⟩ := ih _ hlt hP rfl
      exact ⟨l, hm.trans hl, hgoal⟩

/-- A lock that passes from one holder to the next only by being free, and that every holder
gives up, is free again and again. -/
theorem free_again {ι : Type w} (r : Trace step) (holder : σ → Option ι)
    (passes : ∀ k i, holder (r.state k) = some i →
      holder (r.state (k + 1)) = some i ∨ holder (r.state (k + 1)) = none)
    (gives : ∀ k i, holder (r.state k) = some i → ∃ m, k ≤ m ∧ holder (r.state m) ≠ some i)
    (n : ℕ) : ∃ m, n ≤ m ∧ holder (r.state m) = none := by
  cases hholder : holder (r.state n) with
  | none => exact ⟨n, le_rfl, hholder⟩
  | some i =>
    by_contra hnever
    -- Then the holder keeps it for ever.
    obtain ⟨m, hm, hgiven⟩ := gives n i hholder
    refine hgiven ?_
    clear hgiven
    induction m, hm using Nat.le_induction with
    | base => exact hholder
    | succ m hm ih =>
      exact (passes m i ih).resolve_right fun hnone => hnever ⟨m + 1, hm.trans m.le_succ, hnone⟩

theorem exists_settling {ok : σ → α → Prop} {s t : σ} {as : List α} {a : α}
    (hrun : run step s as = some t) (allowed : Meets step ok s as) (still : step t a = some t)
    (hok : ok t a) :
    ∃ r : Trace step, r.state 0 = s ∧ (∀ k, ok (r.state k) (r.act k)) ∧
      (∀ k b, as[k]? = some b → r.act k = b) ∧ ∀ k, as.length ≤ k → r.state k = t := by
  induction as generalizing s with
  | nil =>
    obtain rfl : s = t := by simpa only [run, Option.some.injEq] using hrun
    refine ⟨⟨fun _ => s, fun _ => a, fun _ => still⟩, rfl, fun _ => hok, ?_, fun _ _ => rfl⟩
    intro k b hb
    cases hb
  | cons b as ih =>
    obtain ⟨m, hm, hrest⟩ := run_cons hrun
    obtain ⟨hb, hmeets⟩ := allowed
    rw [hm] at hmeets
    obtain ⟨r, rfl, hall, hacts, hend⟩ := ih hrest hmeets
    let later : Trace step :=
      { state := fun k => k.casesOn s r.state
        act := fun k => k.casesOn b r.act
        next := fun k => k.casesOn hm r.next }
    refine ⟨later, rfl, ?_, ?_, ?_⟩
    · intro k
      cases k with
      | zero => exact hb
      | succ k => exact hall k
    · intro k c hc
      cases k with
      | zero => exact Option.some.inj hc
      | succ k => exact hacts k c hc
    · intro k hk
      cases k with
      | zero => cases hk
      | succ k => exact hend k (Nat.le_of_succ_le_succ hk)

end DragonsNet.Lib.Fairness
