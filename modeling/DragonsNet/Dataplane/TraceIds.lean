/- GID: DragonsNet/Dataplane/TraceIds
   source: migration/dataplane/host/src/otel.rs
   digest: The trace and span ids a process gives its requests, by a counter mixed with a seed. -/

import DragonsNet.Lib.Mixing

set_option autoImplicit false

namespace DragonsNet.Dataplane.TraceIds

open Lib.Mixing

def splitmix64 (x : BitVec 64) : BitVec 64 :=
  let x := x + 0x9E3779B97F4A7C15
  let z := (x ^^^ (x >>> 30)) * 0xBF58476D1CE4E5B9
  let z := (z ^^^ (z >>> 27)) * 0x94D049BB133111EB
  z ^^^ (z >>> 31)

/-- The all-zero id is not valid. -/
def nz (x : BitVec 64) : BitVec 64 := if x = 0 then 1 else x

/-- What is mixed into the process's seed, from the clock and the process id. -/
def seed (nanos pid : BitVec 64) : BitVec 64 :=
  splitmix64 (nanos ^^^ (pid * 0x9E3779B97F4A7C15))

def hi (s n : BitVec 64) : BitVec 64 := nz (splitmix64 (s ^^^ n))

def lo (s n : BitVec 64) : BitVec 64 := nz (splitmix64 (s ^^^ n ^^^ 0xD1B54A32D192ED03))

def span (s n : BitVec 64) : BitVec 64 :=
  nz (splitmix64 (s ^^^ n.rotateLeft 17 ^^^ 0xA0761D6478BD642F))

/-- The two halves as one identifier of 128 bits. -/
def join (hi lo : BitVec 64) : BitVec 128 := (hi.setWidth 128 <<< 64) ||| lo.setWidth 128

structure Ids where
  trace : BitVec 128
  span : BitVec 64
  deriving DecidableEq, Repr

/-- One call: the ids for the counter's value, and the counter after it. -/
def freshIds (s counter : BitVec 64) : Ids × BitVec 64 :=
  (⟨join (hi s counter) (lo s counter), span s counter⟩, counter + 1)

/-- The ids of so many calls, whichever threads make them: the counter moves by one each. -/
def calls (s : BitVec 64) : ℕ → BitVec 64 → List Ids
  | 0, _ => []
  | k + 1, counter => (freshIds s counter).1 :: calls s k (freshIds s counter).2

private theorem splitmix64_eq : splitmix64 =
    xorShift 31 ∘ (· * 0x94D049BB133111EB) ∘ xorShift 27 ∘ (· * 0xBF58476D1CE4E5B9) ∘
      xorShift 30 ∘ (· + 0x9E3779B97F4A7C15) := rfl

private theorem mul_injective {a b : BitVec 64} (h : a * b = 1) :
    Function.Injective fun x : BitVec 64 => x * a :=
  (IsUnit.of_mul_eq_one b h).mul_left_injective

private theorem splitmix64_injective : Function.Injective splitmix64 := by
  rw [splitmix64_eq]
  have hfirst := mul_injective (a := 0xBF58476D1CE4E5B9) (b := 0x96DE1B173F119089) (by decide)
  have hsecond := mul_injective (a := 0x94D049BB133111EB) (b := 0x319642B2D24D8EC3) (by decide)
  have hadd : Function.Injective fun x : BitVec 64 => x + 0x9E3779B97F4A7C15 :=
    add_left_injective _
  refine (xorShift_injective (by decide)).comp (hsecond.comp ?_)
  refine (xorShift_injective (by decide)).comp (hfirst.comp ?_)
  exact (xorShift_injective (by decide)).comp hadd

private theorem nz_ne_zero (x : BitVec 64) : nz x ≠ 0 := by
  unfold nz
  split
  case isTrue => decide
  case isFalse h => exact h

private theorem nz_oneCollision : OneCollision nz 0 1 := by
  intro x y h
  unfold nz at h
  split at h
  case isTrue hx =>
    split at h
    case isTrue hy => exact .inl (hx.trans hy.symm)
    case isFalse => exact .inr (.inl ⟨hx, h.symm⟩)
  case isFalse =>
    split at h
    case isTrue hy => exact .inr (.inr ⟨h, hy⟩)
    case isFalse => exact .inl h

private theorem partner_ne_one (x : BitVec 64) (h : splitmix64 x = 0) :
    splitmix64 (x ^^^ 0xD1B54A32D192ED03) ≠ 1 := by
  have hzero : splitmix64 0x61C8864680B583EB = 0 := by decide
  have hx : x = 0x61C8864680B583EB := splitmix64_injective (h.trans hzero.symm)
  rw [hx]
  decide

private theorem xor_ne_self {c : BitVec 64} (hc : c ≠ 0) (x : BitVec 64) : x ^^^ c ≠ x := by
  intro h
  rw [BitVec.xor_comm] at h
  exact hc ((BitVec.xor_left_inj x).mp (h.trans BitVec.zero_xor.symm))

private theorem halves_injective (s : BitVec 64) : Function.Injective fun n => (hi s n, lo s n) :=
    by
  have hpair := pair_injective splitmix64_injective
    (fun x y => (BitVec.xor_left_inj 0xD1B54A32D192ED03).mp) (xor_ne_self (by decide))
    nz_oneCollision partner_ne_one
  have hseed : Function.Injective fun n : BitVec 64 => s ^^^ n :=
    fun x y => (BitVec.xor_right_inj s).mp
  exact hpair.comp hseed

private theorem high_join (hi lo : BitVec 64) : (join hi lo).extractLsb' 64 64 = hi := by
  ext i hbound
  have hwide : 64 + i < 128 := by omega
  simp [join, hwide, hbound]

private theorem low_join (hi lo : BitVec 64) : (join hi lo).setWidth 64 = lo := by
  ext i hbound
  simp [join]

private theorem join_injective {hi lo hi' lo' : BitVec 64} (h : join hi lo = join hi' lo') :
    (hi, lo) = (hi', lo') := by
  have hhigh : hi = hi' := by rw [← high_join hi lo, h, high_join]
  have hlow : lo = lo' := by rw [← low_join hi lo, h, low_join]
  rw [hhigh, hlow]

private theorem trace_injective (s : BitVec 64) :
    Function.Injective fun n => (freshIds s n).1.trace := by
  intro n m h
  exact halves_injective s (join_injective h)

private theorem calls_eq_map (s : BitVec 64) (k : ℕ) (counter : BitVec 64) :
    calls s k counter =
      (List.range k).map fun i => (freshIds s (counter + BitVec.ofNat 64 i)).1 := by
  induction k generalizing counter with
  | zero => rfl
  | succ k ih =>
    rw [calls, List.range_succ_eq_map, List.map_cons, List.map_map]
    have hnext : ∀ i, counter + 1 + BitVec.ofNat 64 i = counter + BitVec.ofNat 64 (i + 1) := by
      intro i
      rw [BitVec.add_assoc, Nat.add_comm i 1, BitVec.ofNat_add]
      rfl
    have hfirst : counter + BitVec.ofNat 64 0 = counter := BitVec.add_zero counter
    have hrest : calls s k (freshIds s counter).2 =
        (List.range k).map fun i => (freshIds s (counter + BitVec.ofNat 64 (i + 1))).1 := by
      simp only [← hnext]
      exact ih (counter + 1)
    rw [hfirst, hrest]
    rfl

theorem calls_nodup (s counter : BitVec 64) (k : ℕ) (hk : k ≤ 2 ^ 64) :
    ((calls s k counter).map Ids.trace).Nodup := by
  rw [calls_eq_map, List.map_map]
  refine List.Nodup.map_on ?_ List.nodup_range
  intro i hi j hj h
  rw [List.mem_range] at hi hj
  have hcounter := (BitVec.add_right_inj counter).mp (trace_injective s h)
  have hvalue := congrArg BitVec.toNat hcounter
  rw [BitVec.toNat_ofNat, BitVec.toNat_ofNat] at hvalue
  omega

theorem freshIds_distinct (s : BitVec 64) :
    Function.Bijective splitmix64 ∧
      (Function.Injective fun n => (freshIds s n).1.trace) ∧
      ∀ n, (freshIds s n).1.trace.extractLsb' 64 64 ≠ 0 ∧
        (freshIds s n).1.trace.setWidth 64 ≠ 0 := by
  refine ⟨bijective_of_injective splitmix64_injective, trace_injective s, ?_⟩
  intro n
  constructor
  · rw [freshIds, high_join]
    exact nz_ne_zero _
  · rw [freshIds, low_join]
    exact nz_ne_zero _

end DragonsNet.Dataplane.TraceIds
