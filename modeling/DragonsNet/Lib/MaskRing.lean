/- GID: DragonsNet/Lib/MaskRing
   generality: G
   digest: Circular buffers of a power of two of cells, indexed by masked free-running words. -/

import DragonsNet.Lib.Cells
import DragonsNet.Lib.Position
import Mathlib.Algebra.Group.Nat.Defs

set_option autoImplicit false

namespace DragonsNet.Lib.MaskRing

open Lib.Cells

universe u

variable {α : Type u} {w k h t : ℕ}

theorem ofNat_succ (n : ℕ) : BitVec.ofNat w n + 1 = BitVec.ofNat w (n + 1) := by
  rw [BitVec.ofNat_add]
  rfl

theorem toNat_sub (hle : h ≤ t) (hlt : t - h < 2 ^ w) :
    (BitVec.ofNat w t - BitVec.ofNat w h).toNat = t - h := by
  have hsplit : BitVec.ofNat w t = BitVec.ofNat w (t - h) + BitVec.ofNat w h := by
    rw [← BitVec.ofNat_add]
    congr 1
    omega
  rw [hsplit, BitVec.add_sub_cancel, BitVec.toNat_ofNat, Nat.mod_eq_of_lt hlt]

theorem ofNat_eq_iff (hle : h ≤ t) (hlt : t - h < 2 ^ w) :
    BitVec.ofNat w h = BitVec.ofNat w t ↔ h = t := by
  constructor
  · intro heq
    have hdist := toNat_sub hle hlt
    rw [← heq, BitVec.sub_self, BitVec.toNat_zero] at hdist
    omega
  · rintro rfl
    rfl

theorem toNat_and_mask (hk : k ≤ w) (n : ℕ) :
    (BitVec.ofNat w n &&& BitVec.ofNat w (2 ^ k - 1)).toNat = n % 2 ^ k := by
  have hle : 2 ^ k ≤ 2 ^ w := Nat.pow_le_pow_right (by decide) hk
  have hpos : 0 < 2 ^ k := Nat.two_pow_pos k
  have hmask : (2 ^ k - 1) % 2 ^ w = 2 ^ k - 1 := Nat.mod_eq_of_lt (by omega)
  rw [BitVec.toNat_and, BitVec.toNat_ofNat, BitVec.toNat_ofNat, hmask,
    Nat.and_two_pow_sub_one_eq_mod, Nat.mod_mod_of_dvd _ (Nat.pow_dvd_pow 2 hk)]

/-- The cells hold these items, in order, from position `h` on and round the end. -/
structure Holds (k : ℕ) (cells : List α) (h : ℕ) (items : List α) : Prop where
  size : cells.length = 2 ^ k
  fits : items.length ≤ 2 ^ k
  cell : ∀ i, i < items.length → cells[(h + i) % 2 ^ k]? = items[i]?

namespace Holds

variable {cells items : List α} {x y : α}

theorem nil (hsize : cells.length = 2 ^ k) (h : ℕ) : Holds k cells h [] where
  size := hsize
  fits := Nat.zero_le _
  cell := by
    intro i hi
    exact absurd hi (Nat.not_lt_zero i)

theorem index_lt (H : Holds k cells h items) (n : ℕ) : n % 2 ^ k < cells.length := by
  rw [H.size]
  exact Nat.mod_lt n (Nat.two_pow_pos k)

theorem store_eq (H : Holds k cells h items) (n : ℕ) :
    store cells (n % 2 ^ k) [x] = some (cells.set (n % 2 ^ k) x) := by
  have hlt := H.index_lt n
  have hfits : n % 2 ^ k + [x].length ≤ cells.length := by
    rw [List.length_singleton]
    omega
  rw [store, if_pos hfits, List.set_eq_take_append_cons_drop, if_pos hlt, List.append_assoc]
  rfl

theorem push (H : Holds k cells h items) (hroom : items.length < 2 ^ k) (x : α) :
    Holds k (cells.set ((h + items.length) % 2 ^ k) x) h (items ++ [x]) where
  size := by rw [List.length_set, H.size]
  fits := by
    rw [List.length_append, List.length_singleton]
    omega
  cell := by
    intro i hi
    rw [List.length_append, List.length_singleton] at hi
    rcases Nat.lt_succ_iff_lt_or_eq.mp hi with hlt | rfl
    · have hne := Position.slot_ne (m := 2 ^ k) (i := h + i) (j := h + items.length)
        (by omega) (by omega)
      rw [List.getElem?_set_ne hne.symm, List.getElem?_append_left hlt]
      exact H.cell i hlt
    · rw [List.getElem?_set_self (H.index_lt _), List.getElem?_append_right le_rfl,
        Nat.sub_self, List.getElem?_singleton]
      rfl

theorem last (H : Holds k cells h (items ++ [x])) :
    cells[(h + items.length) % 2 ^ k]? = some x := by
  have hcell := H.cell items.length (by rw [List.length_append, List.length_singleton]; omega)
  rw [hcell, List.getElem?_append_right le_rfl, Nat.sub_self]
  rfl

theorem front (H : Holds k cells h (x :: items)) : cells[h % 2 ^ k]? = some x :=
  H.cell 0 (Nat.zero_lt_succ _)

theorem pop (H : Holds k cells h (x :: items)) : Holds k cells (h + 1) items where
  size := H.size
  fits := Nat.le_of_succ_le H.fits
  cell := by
    intro i hi
    have hcell := H.cell (i + 1) (Nat.succ_lt_succ hi)
    rw [List.getElem?_cons_succ] at hcell
    rw [← hcell]
    congr 2
    omega

theorem drop {n : ℕ} : ∀ {h : ℕ} {items : List α}, Holds k cells h items → n ≤ items.length →
    Holds k cells (h + n) (items.drop n) := by
  induction n with
  | zero =>
    intro h items H _
    exact H
  | succ n ih =>
    intro h items H hn
    cases items with
    | nil => exact absurd hn (Nat.not_succ_le_zero n)
    | cons x items =>
      rw [Nat.add_comm n 1, ← Nat.add_assoc, Nat.add_comm 1 n, List.drop_succ_cons]
      exact ih H.pop (Nat.le_of_succ_le_succ hn)

end Holds

end DragonsNet.Lib.MaskRing
