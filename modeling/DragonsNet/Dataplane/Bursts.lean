/- GID: DragonsNet/Dataplane/Bursts
   source: migration/dataplane/host/src/serve.rs, migration/dataplane/host/src/uring.rs
   digest: The burst reading of a connection, and how many of its requests it admits. -/

import DragonsNet.Dataplane.Config
import Mathlib.Algebra.Order.Ring.Nat
import Mathlib.Data.List.Induction
import Mathlib.Data.Nat.Bitwise

set_option autoImplicit false

namespace DragonsNet.Dataplane.Bursts

open Config (defaultBurstCap defaultBurstRefill)

/-- The clock in the high half of the word, the count in the low half, both clamped at the
configured capacity. -/
def packRateScalar (burstCap : UInt32) (count elapsedSecs : ℕ) : ℕ :=
  let cap := burstCap.toNat
  (min elapsedSecs cap) <<< 32 ||| min count cap

/-! ## The core, as the packing's documentation has it -/

def countOfPacked (word : ℕ) : ℕ := word % 2 ^ 32

def clockOfPacked (word : ℕ) : ℕ := word / 2 ^ 32

/-- There is a token once the standing ones are refilled for the elapsed time. -/
def admitsAt (cap refill : UInt32) (word : ℕ) : Bool :=
  1 ≤ min cap.toNat ((cap.toNat - countOfPacked word) + refill.toNat * clockOfPacked word)

/-! ## A connection -/

/-- Whether the request after `count` others, `secs` after the connection's start, is admitted. -/
def admitted (cap refill : UInt32) (count secs : ℕ) : Bool :=
  admitsAt cap refill (packRateScalar cap count secs)

/-- The requests of a connection at these seconds, the first with `count` others before it, that
are admitted up to second `t`. -/
def admittedUpTo (cap refill : UInt32) (t : ℕ) : ℕ → List ℕ → ℕ
  | _, [] => 0
  | count, secs :: rest =>
    (if secs ≤ t ∧ admitted cap refill count secs then 1 else 0) +
      admittedUpTo cap refill t (count + 1) rest

variable {cap refill : UInt32}

private theorem clamp_lt (cap : UInt32) (n : ℕ) : min n cap.toNat < 2 ^ 32 :=
  (Nat.min_le_right _ _).trans_lt cap.toNat_lt

private theorem unpack (cap : UInt32) (count secs : ℕ) :
    countOfPacked (packRateScalar cap count secs) = min count cap.toNat ∧
      clockOfPacked (packRateScalar cap count secs) = min secs cap.toNat := by
  have hword : packRateScalar cap count secs =
      2 ^ 32 * min secs cap.toNat + min count cap.toNat := by
    rw [packRateScalar, ← Nat.shiftLeft_add_eq_or_of_lt (clamp_lt cap count), Nat.shiftLeft_eq,
      Nat.mul_comm]
  rw [hword]
  refine ⟨?_, ?_⟩
  · rw [countOfPacked, Nat.mul_add_mod, Nat.mod_eq_of_lt (clamp_lt cap count)]
  · rw [clockOfPacked, Nat.mul_add_div (by decide), Nat.div_eq_of_lt (clamp_lt cap count),
      Nat.add_zero]

/-- A request is refused in the first second only, once the burst is spent: after that the refill
alone is a token, whatever the count. -/
theorem admitted_iff (hcap : 0 < cap.toNat) (hrefill : 0 < refill.toNat) (count secs : ℕ) :
    admitted cap refill count secs = true ↔ count < cap.toNat ∨ 1 ≤ secs := by
  obtain ⟨hcount, hclock⟩ := unpack cap count secs
  rw [admitted, admitsAt, hcount, hclock, decide_eq_true_eq]
  rcases Nat.eq_zero_or_pos secs with rfl | hsecs
  · rw [Nat.zero_min, Nat.mul_zero]
    omega
  · have hrefilled : 0 < refill.toNat * min secs cap.toNat :=
      Nat.mul_pos hrefill (Nat.lt_min.mpr ⟨hsecs, hcap⟩)
    omega

private theorem admittedUpTo_eq (hcap : 0 < cap.toNat) (hrefill : 0 < refill.toNat) (t count : ℕ)
    {times : List ℕ} (hord : times.Pairwise (· ≤ ·)) :
    admittedUpTo cap refill t count times = min (cap.toNat - count) (times.count 0) +
      times.countP fun secs => 1 ≤ secs && secs ≤ t := by
  induction times generalizing count with
  | nil => exact (Nat.min_zero _).symm
  | cons secs rest ih =>
    obtain ⟨hle, hrest⟩ := List.pairwise_cons.mp hord
    have hadmitted := admitted_iff hcap hrefill count secs
    rw [admittedUpTo, ih (count + 1) hrest, List.count_cons, List.countP_cons]
    rcases Nat.eq_zero_or_pos secs with rfl | hsecs
    · have hout : (decide (1 ≤ 0) && decide (0 ≤ t)) = false := rfl
      rw [hout, if_neg Bool.false_ne_true, if_pos (beq_self_eq_true 0)]
      by_cases hroom : count < cap.toNat
      · rw [if_pos ⟨Nat.zero_le t, hadmitted.mpr (.inl hroom)⟩]
        omega
      · rw [if_neg fun h => (hadmitted.mp h.2).elim hroom (Nat.not_succ_le_zero 0)]
        omega
    · -- no request of the first second comes after this one
      have hnone : rest.count 0 = 0 := by
        refine List.count_eq_zero.mpr fun hin => ?_
        have := hle 0 hin
        omega
      rw [hnone]
      by_cases hin : secs ≤ t
      · rw [if_pos ⟨hin, hadmitted.mpr (.inr hsecs)⟩]
        simp [hin, Nat.ne_of_gt hsecs, show 1 ≤ secs from hsecs]
        omega
      · rw [if_neg fun h => hin h.1]
        simp [hin, Nat.ne_of_gt hsecs]

/-- The bound holds exactly where the requests of the first second, as far as the burst goes, and
all those after it are within it. -/
theorem burst_held_iff (cap refill : UInt32) (hcap : 0 < cap.toNat) (hrefill : 0 < refill.toNat)
    (times : List ℕ) (hord : times.Pairwise (· ≤ ·)) (t : ℕ) :
    admittedUpTo cap refill t 0 times ≤ cap.toNat + refill.toNat * t ↔
      min cap.toNat (times.count 0) + (times.countP fun secs => 1 ≤ secs && secs ≤ t) ≤
        cap.toNat + refill.toNat * t := by
  rw [admittedUpTo_eq hcap hrefill t 0 hord, Nat.sub_zero]

theorem slow_requests_held :
    admittedUpTo 2 3 2 0 [0, 0, 0, 1, 2] ≤ (2 : UInt32).toNat + (3 : UInt32).toNat * 2 :=
  (burst_held_iff 2 3 (by decide) (by decide) [0, 0, 0, 1, 2] (by decide) 2).mpr (by decide)

/-- With the default settings, as many requests as are sent in one second are admitted: the refill
of a second is not spent by those before. -/
theorem second_refills_every_request :
    defaultBurstCap.toUInt32.toNat + defaultBurstRefill.toUInt32.toNat * 1 <
      admittedUpTo defaultBurstCap.toUInt32 defaultBurstRefill.toUInt32 1 0
        (List.replicate 577 1) := by
  have hord : (List.replicate 577 1).Pairwise (· ≤ ·) :=
    List.pairwise_replicate.mpr (.inr (Nat.le_refl 1))
  rw [admittedUpTo_eq (by decide) (by decide) 1 0 hord, List.countP_replicate]
  refine Nat.lt_of_lt_of_le ?_ (Nat.le_add_left _ _)
  decide

end DragonsNet.Dataplane.Bursts
