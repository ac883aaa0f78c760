/- GID: DragonsNet/Lib/Runs
   generality: G
   digest: Runs of a machine whose actions fix the next state, and their invariant rules. -/

import Mathlib.Algebra.BigOperators.Fin
import Mathlib.Data.Fintype.BigOperators

set_option autoImplicit false

namespace DragonsNet.Lib.Runs

universe u v w

/-- A constant, so that a numeral of `Fin 2` is one term wherever two threads are run. -/
instance neZeroTwo : NeZero 2 := ⟨two_ne_zero⟩

variable {σ : Type u} {α : Type v}

/-- The state a list of actions leads to. A machine is a function that gives the state
after an action, or none where the action is not enabled. -/
def run (step : σ → α → Option σ) : σ → List α → Option σ
  | s, [] => some s
  | s, a :: as => (step s a).bind fun t => run step t as

/-- Every action of the list is taken in a state in which `ok` allows it. -/
def Meets (step : σ → α → Option σ) (ok : σ → α → Prop) : σ → List α → Prop
  | _, [] => True
  | s, a :: as => ok s a ∧ match step s a with
    | some t => Meets step ok t as
    | none => True

instance decidableMeets (step : σ → α → Option σ) (ok : σ → α → Prop)
    [∀ s a, Decidable (ok s a)] : ∀ s as, Decidable (Meets step ok s as)
  | _, [] => isTrue trivial
  | s, a :: as =>
    have : Decidable (match step s a with | some t => Meets step ok t as | none => True) :=
      match step s a with
      | some t => decidableMeets step ok t as
      | none => isTrue trivial
    inferInstanceAs (Decidable (_ ∧ _))

theorem run_cons {step : σ → α → Option σ} {s t : σ} {a : α} {as : List α}
    (h : run step s (a :: as) = some t) : ∃ m, step s a = some m ∧ run step m as = some t := by
  simpa only [run, Option.bind_eq_some_iff] using h

theorem invariant_of_meets {step : σ → α → Option σ} {ok : σ → α → Prop} {Inv : σ → Prop}
    (keep : ∀ {s t : σ} {a : α}, Inv s → ok s a → step s a = some t → Inv t) {s t : σ}
    {as : List α} (start : Inv s) (allowed : Meets step ok s as)
    (h : run step s as = some t) : Inv t := by
  induction as generalizing s with
  | nil =>
    obtain rfl : s = t := by simpa only [run, Option.some.injEq] using h
    exact start
  | cons a as ih =>
    obtain ⟨m, hm, hrun⟩ := run_cons h
    obtain ⟨hok, hrest⟩ := allowed
    rw [hm] at hrest
    exact ih (keep start hok hm) hrest hrun

theorem invariant_of_step {step : σ → α → Option σ} {Inv : σ → Prop}
    (keep : ∀ {s t : σ} {a : α}, Inv s → step s a = some t → Inv t) {s t : σ}
    {as : List α} (start : Inv s) (h : run step s as = some t) : Inv t := by
  induction as generalizing s with
  | nil =>
    obtain rfl : s = t := by simpa only [run, Option.some.injEq] using h
    exact start
  | cons a as ih =>
    obtain ⟨m, hm, hrun⟩ := run_cons h
    exact ih (keep start hm) hrun

theorem Meets.and_forall {step : σ → α → Option σ} {ok : σ → α → Prop} {P : α → Prop} {s : σ}
    {as : List α} (h : Meets step ok s as) (hP : ∀ a ∈ as, P a) :
    Meets step (fun s a => ok s a ∧ P a) s as := by
  induction as generalizing s with
  | nil => trivial
  | cons a as ih =>
    obtain ⟨hok, hrest⟩ := h
    refine ⟨⟨hok, hP a List.mem_cons_self⟩, ?_⟩
    cases hm : step s a with
    | none => trivial
    | some m =>
      rw [hm] at hrest
      exact ih hrest fun b hb => hP b (List.mem_cons_of_mem a hb)

theorem run_append {step : σ → α → Option σ} {s t : σ} {as bs : List α} :
    run step s (as ++ bs) = some t ↔ ∃ m, run step s as = some m ∧ run step m bs = some t := by
  induction as generalizing s with
  | nil => simp [run]
  | cons a as ih =>
    simp only [List.cons_append, run, Option.bind_eq_some_iff, ih]
    constructor
    · rintro ⟨x, hx, m, hm, ht⟩
      exact ⟨m, ⟨x, hx, hm⟩, ht⟩
    · rintro ⟨m, ⟨x, hx, hm⟩, ht⟩
      exact ⟨x, hx, m, hm, ht⟩

theorem Meets.snoc {step : σ → α → Option σ} {ok : σ → α → Prop} {s m : σ} {as : List α} {a : α}
    (h : Meets step ok s as) (hrun : run step s as = some m) (hok : ok m a) :
    Meets step ok s (as ++ [a]) := by
  induction as generalizing s with
  | nil =>
    obtain rfl : s = m := Option.some.inj hrun
    refine ⟨hok, ?_⟩
    cases step s a <;> trivial
  | cons b as ih =>
    obtain ⟨x, hx, hrest⟩ := run_cons hrun
    obtain ⟨hokb, hmeets⟩ := h
    rw [hx] at hmeets
    refine ⟨hokb, ?_⟩
    rw [hx]
    exact ih hmeets hrest

section Threads

variable {n : ℕ} {P : Type u} {M : Type w} [AddCommMonoid M]

theorem sum_update (held : P → M) (pc : Fin n → P) (i : Fin n) (p : P) :
    ∑ j, held (Function.update pc i p j) + held (pc i) = ∑ j, held (pc j) + held p := by
  rw [← Finset.add_sum_erase _ _ (Finset.mem_univ i),
    ← Finset.add_sum_erase (Finset.univ) (fun j => held (pc j)) (Finset.mem_univ i)]
  have rest : ∑ j ∈ Finset.univ.erase i, held (Function.update pc i p j) =
      ∑ j ∈ Finset.univ.erase i, held (pc j) := by
    refine Finset.sum_congr rfl fun j hj => ?_
    rw [Function.update_of_ne (Finset.ne_of_mem_erase hj)]
  rw [rest, Function.update_self]
  simp only [add_comm, add_left_comm]

end Threads

/-- What at most one thread has is still had by at most one when a thread takes only what it had
or nobody had. -/
theorem unique_update {ι : Type w} {P : Type u} {τ : Type v} [DecidableEq ι] (tag : P → Option τ)
    {pc : ι → P} (h : ∀ i j x, tag (pc i) = some x → tag (pc j) = some x → i = j) {i : ι} {p : P}
    (hp : ∀ x, tag p = some x → tag (pc i) = some x ∨ ∀ j, tag (pc j) ≠ some x) (j k : ι) (x : τ)
    (hj : tag (Function.update pc i p j) = some x)
    (hk : tag (Function.update pc i p k) = some x) : j = k := by
  by_cases hji : j = i
  · by_cases hki : k = i
    · exact hji.trans hki.symm
    · rw [hji, Function.update_self] at hj
      rw [Function.update_of_ne hki] at hk
      rcases hp x hj with hi | hnone
      · exact hji.trans (h i k x hi hk)
      · exact absurd hk (hnone k)
  · rw [Function.update_of_ne hji] at hj
    by_cases hki : k = i
    · rw [hki, Function.update_self] at hk
      rcases hp x hk with hi | hnone
      · exact (h j i x hj hi).trans hki.symm
      · exact absurd hj (hnone j)
    · rw [Function.update_of_ne hki] at hk
      exact h j k x hj hk

end DragonsNet.Lib.Runs
