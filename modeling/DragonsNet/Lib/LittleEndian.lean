/- GID: DragonsNet/Lib/LittleEndian
   generality: G
   digest: Numbers as octets of a fixed width, least or most significant first. -/

import Mathlib.Algebra.Order.Ring.Nat
import Mathlib.Tactic.Common
import Mathlib.Tactic.Ring

set_option autoImplicit false

namespace DragonsNet.Lib.LittleEndian

def toLe : ℕ → ℕ → List UInt8
  | 0, _ => []
  | width + 1, n => UInt8.ofNat n :: toLe width (n / 256)

def ofLe : List UInt8 → ℕ
  | [] => 0
  | b :: bs => b.toNat + 256 * ofLe bs

def toBe (width n : ℕ) : List UInt8 := (toLe width n).reverse

def ofBe (octets : List UInt8) : ℕ := ofLe octets.reverse

@[simp] theorem length_toLe (width n : ℕ) : (toLe width n).length = width := by
  induction width generalizing n with
  | zero => rfl
  | succ width ih => rw [toLe, List.length_cons, ih]

theorem ofLe_toLe (width n : ℕ) : ofLe (toLe width n) = n % 256 ^ width := by
  induction width generalizing n with
  | zero => rw [pow_zero, Nat.mod_one, toLe, ofLe]
  | succ width ih =>
    have hlow : (UInt8.ofNat n).toNat = n % 256 := UInt8.toNat_ofNat'
    rw [toLe, ofLe, ih, hlow, pow_succ', Nat.mod_mul]

theorem ofLe_toLe_of_lt {width n : ℕ} (h : n < 256 ^ width) : ofLe (toLe width n) = n := by
  rw [ofLe_toLe, Nat.mod_eq_of_lt h]

end DragonsNet.Lib.LittleEndian
