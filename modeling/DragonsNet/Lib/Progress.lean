/- GID: DragonsNet/Lib/Progress
   generality: G
   digest: Unending runs, how to build one from a cycle, and progress along one by a rank. -/

import DragonsNet.Lib.Runs
import Mathlib.Tactic.Choose

set_option autoImplicit false

namespace DragonsNet.Lib.Progress

open Lib.Runs (run run_cons run_append invariant_of_step)

universe u v

variable {σ : Type u} {α : Type v} {step : σ → α → Option σ}

/-- An unending run, cut into stretches of finitely many actions. -/
structure Unending (step : σ → α → Option σ) where
  state : ℕ → σ
  acts : ℕ → List α
  next : ∀ k, run step (state k) (acts k) = some (state (k + 1))

theorem Unending.invariant {Inv : σ → Prop} (r : Unending step)
    (keep : ∀ {s t : σ} {a : α}, Inv s → step s a = some t → Inv t) (start : Inv (r.state 0)) :
    ∀ k, Inv (r.state k)
  | 0 => start
  | k + 1 => invariant_of_step keep (r.invariant keep start k) (r.next k)

theorem Unending.reached (r : Unending step) (k : ℕ) :
    ∃ as, run step (r.state 0) as = some (r.state k) ∧ ∀ a ∈ as, ∃ m, a ∈ r.acts m := by
  induction k with
  | zero => exact ⟨[], rfl, fun a ha => absurd ha List.not_mem_nil⟩
  | succ k ih =>
    obtain ⟨as, hrun, hacts⟩ := ih
    refine ⟨as ++ r.acts k, run_append.mpr ⟨r.state k, hrun, r.next k⟩, fun a ha => ?_⟩
    rcases List.mem_append.mp ha with ha | ha
    · exact hacts a ha
    · exact ⟨k, ha⟩

theorem Unending.stays {Inv : σ → Prop} (r : Unending step)
    (keep : ∀ {s t : σ} {a : α}, Inv s → step s a = some t → Inv t) {k m : ℕ} (hk : k ≤ m)
    (h : Inv (r.state k)) : Inv (r.state m) := by
  induction m, hk using Nat.le_induction with
  | base => exact h
  | succ m _ ih => exact invariant_of_step keep ih (r.next m)

def Unending.cons (r : Unending step) {s : σ} {as : List α}
    (h : run step s as = some (r.state 0)) : Unending step where
  state
    | 0 => s
    | k + 1 => r.state k
  acts
    | 0 => as
    | k + 1 => r.acts k
  next
    | 0 => h
    | k + 1 => r.next k

/-- Where a stretch leads from any state of a kind back to one of the kind, it can be
followed by such a stretch for ever. -/
theorem exists_of_cycle {P : σ → Prop} {Q : List α → Prop}
    (cycle : ∀ s, P s → ∃ as t, Q as ∧ run step s as = some t ∧ P t) {s : σ} (start : P s) :
    ∃ r : Unending step, r.state 0 = s ∧ ∀ k, Q (r.acts k) ∧ P (r.state k) := by
  choose nextActs nextState hQ hrun hP using cycle
  let st : ℕ → {s // P s} := fun k =>
    Nat.rec ⟨s, start⟩ (fun _ x => ⟨nextState x.1 x.2, hP x.1 x.2⟩) k
  refine ⟨⟨fun k => (st k).1, fun k => nextActs (st k).1 (st k).2, fun k => ?_⟩, rfl,
    fun k => ⟨hQ _ _, (st k).2⟩⟩
  exact hrun (st k).1 (st k).2

/-- A ranked way to a goal: an allowed step does not raise the rank, a helpful one lowers it,
and the goal stays met. -/
structure Ranked (step : σ → α → Option σ) (ok helpful : α → Prop) (Within : ℕ → σ → Prop)
    (Goal : σ → Prop) : Prop where
  keep : ∀ {p : ℕ} {s t : σ} {a : α}, ok a → Within p s → step s a = some t →
    (∃ q ≤ p, Within q t) ∨ Goal t
  drop : ∀ {p : ℕ} {s t : σ} {a : α}, ok a → helpful a → Within p s → step s a = some t →
    (∃ q < p, Within q t) ∨ Goal t
  stay : ∀ {s t : σ} {a : α}, ok a → Goal s → step s a = some t → Goal t

section Progress

variable {ok helpful : α → Prop} {Within : ℕ → σ → Prop} {Goal : σ → Prop}

private theorem Ranked.stay_run (h : Ranked step ok helpful Within Goal) {as : List α} {s t : σ}
    (hok : ∀ a ∈ as, ok a) (hs : Goal s) (hrun : run step s as = some t) : Goal t := by
  induction as generalizing s with
  | nil =>
    obtain rfl : s = t := by simpa only [run, Option.some.injEq] using hrun
    exact hs
  | cons a as ih =>
    obtain ⟨m, hm, hrest⟩ := run_cons hrun
    exact ih (fun b hb => hok b (List.mem_cons_of_mem a hb))
      (h.stay (hok a List.mem_cons_self) hs hm) hrest

private theorem Ranked.keep_run (h : Ranked step ok helpful Within Goal) {as : List α} {p : ℕ}
    {s t : σ} (hok : ∀ a ∈ as, ok a) (hs : Within p s) (hrun : run step s as = some t) :
    (∃ q ≤ p, Within q t) ∨ Goal t := by
  induction as generalizing s p with
  | nil =>
    obtain rfl : s = t := by simpa only [run, Option.some.injEq] using hrun
    exact .inl ⟨p, le_rfl, hs⟩
  | cons a as ih =>
    obtain ⟨m, hm, hrest⟩ := run_cons hrun
    have hok' : ∀ b ∈ as, ok b := fun b hb => hok b (List.mem_cons_of_mem a hb)
    rcases h.keep (hok a List.mem_cons_self) hs hm with ⟨q, hq, hw⟩ | hg
    · refine (ih hok' hw hrest).imp_left ?_
      rintro ⟨r, hr, hw'⟩
      exact ⟨r, hr.trans hq, hw'⟩
    · exact .inr (h.stay_run hok' hg hrest)

private theorem Ranked.drop_run (h : Ranked step ok helpful Within Goal) {as : List α} {p : ℕ}
    {s t : σ} (hok : ∀ a ∈ as, ok a) (hhelp : ∃ a ∈ as, helpful a) (hs : Within p s)
    (hrun : run step s as = some t) : (∃ q < p, Within q t) ∨ Goal t := by
  obtain ⟨a, ha, hhelp⟩ := hhelp
  obtain ⟨before, after, rfl⟩ := List.append_of_mem ha
  obtain ⟨m, hm, hrest⟩ := run_append.mp hrun
  obtain ⟨x, hx, hafter⟩ := run_cons hrest
  have hoka' : ∀ b ∈ after, ok b := fun b hb =>
    hok b (List.mem_append_right _ (List.mem_cons_of_mem a hb))
  rcases h.keep_run (fun b hb => hok b (List.mem_append_left _ hb)) hs hm with ⟨q, hq, hw⟩ | hg
  · rcases h.drop (hok a ha) hhelp hw hx with ⟨r, hr, hw'⟩ | hg
    · exact (h.keep_run hoka' hw' hafter).imp_left fun ⟨l, hl, hw''⟩ =>
        ⟨l, by omega, hw''⟩
    · exact .inr (h.stay_run hoka' hg hafter)
  · exact .inr (h.stay_run hoka' (h.stay (hok a ha) hg hx) hafter)

private theorem Ranked.keep_cuts (h : Ranked step ok helpful Within Goal) (r : Unending step)
    {k p : ℕ} (hok : ∀ m, k ≤ m → ∀ a ∈ r.acts m, ok a) (hs : Within p (r.state k)) {m : ℕ}
    (hm : k ≤ m) : (∃ q ≤ p, Within q (r.state m)) ∨ Goal (r.state m) := by
  induction m, hm using Nat.le_induction with
  | base => exact .inl ⟨p, le_rfl, hs⟩
  | succ m hm ih =>
    rcases ih with ⟨q, hq, hw⟩ | hg
    · exact (h.keep_run (hok m hm) hw (r.next m)).imp_left fun ⟨l, hl, hw'⟩ =>
        ⟨l, hl.trans hq, hw'⟩
    · exact .inr (h.stay_run (hok m hm) hg (r.next m))

theorem Ranked.eventually (h : Ranked step ok helpful Within Goal) (r : Unending step) {k : ℕ}
    (hok : ∀ m, k ≤ m → ∀ a ∈ r.acts m, ok a)
    (fair : ∀ m, k ≤ m → ∃ l, m ≤ l ∧
      ((∃ a ∈ r.acts l, helpful a) ∨ ∀ p, ¬ Within p (r.state l)))
    {p : ℕ} (hs : Within p (r.state k)) : ∃ m, k ≤ m ∧ Goal (r.state m) := by
  induction p using Nat.strong_induction_on generalizing k with
  | _ p ih =>
    obtain ⟨l, hl, hfair⟩ := fair k le_rfl
    rcases h.keep_cuts r hok hs hl with ⟨q, hq, hw⟩ | hg
    · rcases hfair with hhelp | hnone
      · rcases h.drop_run (hok l hl) hhelp hw (r.next l) with ⟨d, hd, hw'⟩ | hg
        · obtain ⟨m, hm, hg⟩ := ih d (by omega)
            (fun m hm => hok m (by omega)) (fun m hm => fair m (by omega)) hw'
          exact ⟨m, by omega, hg⟩
        · exact ⟨l + 1, by omega, hg⟩
      · exact absurd hw (hnone q)
    · exact ⟨l, hl, hg⟩

end Progress

end DragonsNet.Lib.Progress
