/- GID: DragonsNet/Lib/Lists
   digest: Lists that lose or change the element at one position. -/

import Mathlib.Data.List.Basic
import Mathlib.Tactic.Common

set_option autoImplicit false

namespace DragonsNet.Lib.Lists

variable {α : Type} {l : List α} {n : ℕ} {a : α}

theorem exists_around (ha : l[n]? = some a) :
    ∃ before after, l = before ++ a :: after ∧ l.eraseIdx n = before ++ after ∧
      ∀ b, l.set n b = before ++ b :: after := by
  obtain ⟨hn, rfl⟩ := List.getElem?_eq_some_iff.mp ha
  refine ⟨l.take n, l.drop (n + 1), ?_, List.eraseIdx_eq_take_drop_succ .., ?_⟩
  · rw [List.getElem_cons_drop, List.take_append_drop]
  · intro b
    rw [List.set_eq_take_append_cons_drop, if_pos hn]

theorem countP_eraseIdx (ha : l[n]? = some a) (p : α → Bool) :
    l.countP p = (l.eraseIdx n).countP p + if p a then 1 else 0 := by
  obtain ⟨before, after, hl, herase, -⟩ := exists_around ha
  rw [herase, hl, List.countP_append, List.countP_append, List.countP_cons, Nat.add_assoc]

theorem countP_set (ha : l[n]? = some a) (b : α) (p : α → Bool) :
    (l.set n b).countP p = (l.eraseIdx n).countP p + if p b then 1 else 0 := by
  obtain ⟨before, after, -, herase, hset⟩ := exists_around ha
  rw [herase, hset, List.countP_append, List.countP_append, List.countP_cons, Nat.add_assoc]

theorem countP_set_add (ha : l[n]? = some a) (b : α) (p : α → Bool) :
    (l.set n b).countP p + (if p a then 1 else 0) = l.countP p + if p b then 1 else 0 := by
  rw [countP_set ha, countP_eraseIdx ha p, Nat.add_right_comm]

theorem filterMap_range_getElem? (l : List α) :
    (List.range l.length).filterMap (fun i => l[i]?) = l := by
  induction l with
  | nil => rfl
  | cons a l ih =>
    rw [List.length_cons, List.range_succ_eq_map, List.filterMap_cons, List.filterMap_map]
    exact congrArg (a :: ·) ih

theorem find?_range_eq {p : ℕ → Bool} {m k : ℕ} (hk : k < m) (hp : p k = true)
    (honly : ∀ k' < m, p k' = true → k' = k) : (List.range m).find? p = some k := by
  have hsome : ((List.range m).find? p).isSome = true := by
    rw [List.find?_isSome]
    exact ⟨k, List.mem_range.mpr hk, hp⟩
  obtain ⟨k', hk'⟩ := Option.isSome_iff_exists.mp hsome
  have hlt := List.mem_range.mp (List.mem_of_find?_eq_some hk')
  rw [hk', honly k' hlt (List.find?_some hk')]

theorem find?_range_eq_none {p : ℕ → Bool} {m : ℕ} (hnone : ∀ k < m, p k = false) :
    (List.range m).find? p = none := by
  rw [List.find?_eq_none]
  intro k hk
  rw [hnone k (List.mem_range.mp hk)]
  exact Bool.false_ne_true

end DragonsNet.Lib.Lists
