/- GID: DragonsNet/Lib/Mixing
   generality: G
   digest: The steps of word mixers undo, and two lossy mixes of one value still tell it. -/

import Mathlib.Algebra.Group.Units.Basic
import Mathlib.Data.BitVec
import Mathlib.Data.Fintype.EquivFin
import Mathlib.Tactic.Common

set_option autoImplicit false

namespace DragonsNet.Lib.Mixing

variable {w : ℕ}

def xorShift (k : ℕ) (x : BitVec w) : BitVec w := x ^^^ (x >>> k)

theorem eq_zero_of_eq_shift {k : ℕ} (hk : 0 < k) {x : BitVec w} (h : x = x >>> k) : x = 0 := by
  have hvalue : x.toNat = x.toNat / 2 ^ k := by
    have hshift := congrArg BitVec.toNat h
    rwa [BitVec.toNat_ushiftRight, Nat.shiftRight_eq_div_pow] at hshift
  have hbase : 1 < 2 ^ k := Nat.one_lt_two_pow hk.ne'
  have hzero : x.toNat = 0 := by
    by_contra hne
    have hless : x.toNat / 2 ^ k < x.toNat := Nat.div_lt_self (Nat.pos_of_ne_zero hne) hbase
    omega
  exact BitVec.eq_of_toNat_eq hzero

theorem xorShift_xor_shift (k : ℕ) (x : BitVec w) : xorShift k x ^^^ (x >>> k) = x := by
  rw [xorShift, BitVec.xor_assoc, BitVec.xor_self, BitVec.xor_zero]

theorem xorShift_injective {k : ℕ} (hk : 0 < k) :
    Function.Injective (xorShift k : BitVec w → BitVec w) := by
  intro x y h
  have hdiff : x ^^^ y = (x ^^^ y) >>> k := by
    calc x ^^^ y = xorShift k x ^^^ (x >>> k) ^^^ (xorShift k y ^^^ (y >>> k)) := by
          rw [xorShift_xor_shift, xorShift_xor_shift]
      _ = xorShift k x ^^^ xorShift k y ^^^ ((x >>> k) ^^^ (y >>> k)) := by ac_rfl
      _ = (x ^^^ y) >>> k := by
          rw [h, BitVec.xor_self, BitVec.zero_xor, BitVec.ushiftRight_xor_distrib]
  have hnone : x ^^^ y = 0 := eq_zero_of_eq_shift hk hdiff
  exact BitVec.xor_eq_zero_iff.mp hnone

theorem bijective_of_injective {f : BitVec w → BitVec w} (h : Function.Injective f) :
    Function.Bijective f := by
  have hfinite : Finite (BitVec w) := Finite.of_injective BitVec.toFin fun _ _ => BitVec.eq_of_toFin_eq
  exact Finite.injective_iff_bijective.mp h

section Pairs

variable {α β γ : Type*} {f : α → β} {t : α → α} {g : β → γ} {a b : β}

def OneCollision (g : β → γ) (a b : β) : Prop :=
  ∀ x y, g x = g y → x = y ∨ x = a ∧ y = b ∨ x = b ∧ y = a

theorem pair_absurd (hf : Function.Injective f) (ht : Function.Injective t) (hmoves : ∀ x, t x ≠ x)
    (hg : OneCollision g a b) (hab : ∀ x, f x = a → f (t x) ≠ b) {x y : α} (hne : x ≠ y)
    (hx : f x = a) (hsecond : g (f (t x)) = g (f (t y))) : False := by
  rcases hg _ _ hsecond with hsame | ⟨hfirst, _⟩ | ⟨hfirst, _⟩
  · exact hne (ht (hf hsame))
  · exact hmoves x (hf (hfirst.trans hx.symm))
  · exact hab x hx hfirst

/-- A value and its move by `t`, both through `f` and then through a `g` of one collision, tell the
value unless `t` leads from the one end of the collision to the other. -/
theorem pair_injective (hf : Function.Injective f) (ht : Function.Injective t)
    (hmoves : ∀ x, t x ≠ x) (hg : OneCollision g a b) (hab : ∀ x, f x = a → f (t x) ≠ b) :
    Function.Injective fun x => (g (f x), g (f (t x))) := by
  intro x y h
  obtain ⟨hfirst, hsecond⟩ := Prod.mk.inj h
  by_contra hne
  rcases hg _ _ hfirst with hsame | ⟨hx, _⟩ | ⟨_, hy⟩
  · exact hne (hf hsame)
  · exact pair_absurd hf ht hmoves hg hab hne hx hsecond
  · exact pair_absurd hf ht hmoves hg hab (Ne.symm hne) hy hsecond.symm

end Pairs

end DragonsNet.Lib.Mixing
