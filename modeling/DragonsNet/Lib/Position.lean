/- GID: DragonsNet/Lib/Position
   digest: Free-running positions in machine words, with a flag in the low bit, and the slots of
   a circular buffer they index. -/

import Mathlib.Data.Nat.ModEq
import Mathlib.Tactic.Common

set_option autoImplicit false

namespace DragonsNet.Lib.Position

/-- The word of an unbounded position: shifted left by one, with a flag in the low bit, cut to
the width of a word. -/
def word (w t : ℕ) (flag : Bool) : BitVec w := BitVec.ofNat w (2 * t + flag.toNat)

variable {w k h t : ℕ}

private theorem getLsbD_word (flag : Bool) (i : ℕ) :
    (word w t flag).getLsbD i = (decide (i < w) && (2 * t + flag.toNat).testBit i) := by
  simp [word, BitVec.getLsbD_ofNat]

private theorem testBit_zero (flag : Bool) : (2 * t + flag.toNat).testBit 0 = flag := by
  cases flag <;> simp [Nat.testBit_zero]

private theorem testBit_succ (flag : Bool) (i : ℕ) :
    (2 * t + flag.toNat).testBit (i + 1) = t.testBit i := by
  rw [Nat.testBit_succ]
  congr 1
  cases flag
  · simp
  · simp
    omega

private theorem getLsbD_one (i : ℕ) (hi : i < w) : (1#w).getLsbD i = decide (i = 0) := by
  simp [BitVec.getLsbD_one]
  omega

theorem word_or_one (flag : Bool) : word w t flag ||| 1#w = word w t true := by
  apply BitVec.eq_of_getLsbD_eq
  intro i hi
  rw [BitVec.getLsbD_or, getLsbD_word, getLsbD_word, getLsbD_one i hi]
  cases i with
  | zero => simp [hi]
  | succ i =>
    rw [testBit_succ, testBit_succ]
    simp

theorem word_and_not_one (flag : Bool) : word w t flag &&& ~~~(1#w) = word w t false := by
  apply BitVec.eq_of_getLsbD_eq
  intro i hi
  rw [BitVec.getLsbD_and, BitVec.getLsbD_not, getLsbD_word, getLsbD_word, getLsbD_one i hi]
  cases i with
  | zero => simp [Nat.testBit_zero]
  | succ i =>
    rw [testBit_succ, testBit_succ]
    simp [hi]

theorem word_and_one (hw : 0 < w) (flag : Bool) :
    word w t flag &&& 1#w ≠ 0#w ↔ flag = true := by
  have hbit : (word w t flag &&& 1#w).getLsbD 0 = flag := by
    rw [BitVec.getLsbD_and, getLsbD_word, getLsbD_one 0 hw, testBit_zero]
    simp [hw]
  constructor
  · intro hne
    by_contra hflag
    apply hne
    apply BitVec.eq_of_getLsbD_eq
    intro i hi
    rw [BitVec.getLsbD_and, getLsbD_word, getLsbD_one i hi]
    cases i with
    | zero =>
      rw [testBit_zero, Bool.eq_false_of_not_eq_true hflag]
      simp
    | succ i => simp
  · rintro rfl hzero
    rw [hzero] at hbit
    simp at hbit

theorem word_true_ne_false (hw : 0 < w) : word w t true ≠ word w t false := by
  intro heq
  have hflag := (word_and_one (t := t) hw true).mpr rfl
  rw [heq] at hflag
  exact absurd ((word_and_one hw false).mp hflag) (by decide)

theorem word_add_two : word w t false + 2#w = word w (t + 1) false := by
  simp only [word, ← BitVec.ofNat_add]
  congr 1

theorem toNat_word_sub (hle : h ≤ t) (hlt : 2 * (t - h) < 2 ^ w) :
    (word w t false - word w h false).toNat = 2 * (t - h) := by
  have hsplit : word w t false = BitVec.ofNat w (2 * (t - h)) + word w h false := by
    simp only [word, ← BitVec.ofNat_add]
    congr 1
    simp
    omega
  rw [hsplit, BitVec.add_sub_cancel, BitVec.toNat_ofNat, Nat.mod_eq_of_lt hlt]

theorem word_eq_iff (hle : h ≤ t) (hlt : 2 * (t - h) < 2 ^ w) :
    word w h false = word w t false ↔ h = t := by
  constructor
  · intro heq
    have hdist := toNat_word_sub hle hlt
    rw [← heq, BitVec.sub_self] at hdist
    simp at hdist
    omega
  · rintro rfl
    rfl

theorem toNat_slot (hk : k < w) :
    ((word w t false >>> 1) &&& BitVec.ofNat w (2 ^ k - 1)).toNat = t % 2 ^ k := by
  obtain ⟨v, rfl⟩ := Nat.exists_eq_add_of_lt hk
  have hmask : (2 ^ k - 1) % 2 ^ (k + v + 1) = 2 ^ k - 1 := by
    apply Nat.mod_eq_of_lt
    have := Nat.pow_le_pow_right (show 0 < 2 by decide) (show k ≤ k + v + 1 by omega)
    have := Nat.two_pow_pos k
    omega
  have hshift : 2 * t % 2 ^ (k + v + 1) / 2 = t % 2 ^ (k + v) := by
    rw [Nat.pow_succ, Nat.mul_comm (2 ^ (k + v)) 2, Nat.mul_mod_mul_left]
    omega
  rw [BitVec.toNat_and, BitVec.toNat_ushiftRight, BitVec.toNat_ofNat, hmask, word,
    BitVec.toNat_ofNat, Nat.shiftRight_one, Bool.toNat_false, Nat.add_zero, hshift,
    Nat.and_two_pow_sub_one_eq_mod, Nat.mod_mod_of_dvd _ (Nat.pow_dvd_pow 2 (by omega))]

theorem slot_ne {m i j : ℕ} (hij : i < j) (hji : j < i + m) : i % m ≠ j % m := by
  intro heq
  have hdvd : m ∣ j - i := (Nat.modEq_iff_dvd' hij.le).mp heq
  have := Nat.le_of_dvd (by omega) hdvd
  omega

end DragonsNet.Lib.Position
