/- GID: DragonsNet/Lib/Pages
   generality: G
   digest: Items dealt in order onto pages of given rooms, each page taking what fits. -/

import Mathlib.Algebra.Ring.Nat
import Mathlib.Data.List.Basic
import Mathlib.Tactic.Common

set_option autoImplicit false

namespace DragonsNet.Lib.Pages

universe u

variable {α : Type u} (w : α → ℕ)

/-- How many of the items, from the first on, a page of some room takes. -/
def fits : ℕ → List α → ℕ
  | _, [] => 0
  | room, x :: xs => if w x ≤ room then fits (room - w x) xs + 1 else 0

def deal : List ℕ → List α → List (List α)
  | [], _ => []
  | room :: rooms, xs => xs.take (fits w room xs) :: deal rooms (xs.drop (fits w room xs))

theorem fits_le_length (room : ℕ) (xs : List α) : fits w room xs ≤ xs.length := by
  induction xs generalizing room with
  | nil => exact Nat.le_refl 0
  | cons x xs ih =>
    rw [fits]
    split
    case isTrue => exact Nat.succ_le_succ (ih _)
    case isFalse => exact Nat.zero_le _

theorem sum_take_fits_le (room : ℕ) (xs : List α) :
    ((xs.take (fits w room xs)).map w).sum ≤ room := by
  induction xs generalizing room with
  | nil => exact Nat.zero_le room
  | cons x xs ih =>
    rw [fits]
    split
    case isTrue hfits =>
      have hrest := ih (room - w x)
      rw [List.take_succ_cons, List.map_cons, List.sum_cons]
      omega
    case isFalse => exact Nat.zero_le room

theorem fits_pos {room : ℕ} {xs : List α} (hne : xs ≠ []) (hroom : ∀ x ∈ xs, w x ≤ room) :
    0 < fits w room xs := by
  cases xs with
  | nil => exact absurd rfl hne
  | cons x xs =>
    rw [fits, if_pos (hroom x List.mem_cons_self)]
    exact Nat.succ_pos _

theorem length_deal (rooms : List ℕ) (xs : List α) : (deal w rooms xs).length = rooms.length := by
  induction rooms generalizing xs with
  | nil => rfl
  | cons room rooms ih => rw [deal, List.length_cons, List.length_cons, ih]

theorem flatten_deal_prefix (rooms : List ℕ) (xs : List α) : (deal w rooms xs).flatten <+: xs := by
  induction rooms generalizing xs with
  | nil => exact List.nil_prefix
  | cons room rooms ih =>
    obtain ⟨rest, hrest⟩ := ih (xs.drop (fits w room xs))
    refine ⟨rest, ?_⟩
    rw [deal, List.flatten_cons, List.append_assoc, hrest, List.take_append_drop]

theorem take_append_eq_iff {n : ℕ} {xs ys : List α} : xs.take n ++ ys = xs ↔ ys = xs.drop n := by
  constructor
  · intro h
    exact List.append_cancel_left (h.trans (List.take_append_drop n xs).symm)
  · intro h
    rw [h, List.take_append_drop]

section Roomy

variable {w} {rooms : List ℕ} {xs : List α}

theorem page_nonempty_iff (hroom : ∀ room ∈ rooms, ∀ x ∈ xs, w x ≤ room) {i : ℕ} {page : List α}
    (hpage : (deal w rooms xs)[i]? = some page) :
    page ≠ [] ↔ ((deal w rooms xs).take i).flatten ≠ xs := by
  induction rooms generalizing xs i with
  | nil => cases hpage
  | cons room rooms ih =>
    cases i with
    | zero =>
      obtain rfl : xs.take (fits w room xs) = page := Option.some.inj hpage
      by_cases hxs : xs = []
      · rw [hxs]
        exact iff_of_false (fun h => h rfl) (fun h => h rfl)
      · have hpos : 0 < fits w room xs := fits_pos w hxs (hroom room List.mem_cons_self)
        refine iff_of_true ?_ (Ne.symm hxs)
        rw [ne_eq, List.take_eq_nil_iff, not_or]
        exact ⟨Nat.ne_of_gt hpos, hxs⟩
    | succ i =>
      have hrest : ∀ r ∈ rooms, ∀ x ∈ xs.drop (fits w room xs), w x ≤ r := by
        intro r hr x hx
        exact hroom r (List.mem_cons_of_mem room hr) x (List.mem_of_mem_drop hx)
      rw [ih hrest hpage, deal, List.take_succ_cons, List.flatten_cons, ne_eq, ne_eq,
        take_append_eq_iff]

theorem flatten_deal (hroom : ∀ room ∈ rooms, ∀ x ∈ xs, w x ≤ room)
    (henough : xs.length ≤ rooms.length) : (deal w rooms xs).flatten = xs := by
  induction rooms generalizing xs with
  | nil => exact (List.eq_nil_of_length_eq_zero (Nat.le_zero.mp henough)).symm
  | cons room rooms ih =>
    have hleft : (xs.drop (fits w room xs)).length ≤ rooms.length := by
      rw [List.length_drop]
      rw [List.length_cons] at henough
      by_cases hxs : xs = []
      · rw [hxs, List.length_nil, Nat.zero_sub]
        exact Nat.zero_le _
      · have hpos : 0 < fits w room xs := fits_pos w hxs (hroom room List.mem_cons_self)
        omega
    rw [deal, List.flatten_cons, take_append_eq_iff]
    refine ih ?_ hleft
    intro r hr x hx
    exact hroom r (List.mem_cons_of_mem room hr) x (List.mem_of_mem_drop hx)

end Roomy

end DragonsNet.Lib.Pages
