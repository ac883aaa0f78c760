/- GID: DragonsNet/Models/RingFifo
   source: models/ring/src/lib.rs
   digest: The ring is a bounded closable FIFO, and no wake is lost. -/

import DragonsNet.Models.Ring
import Mathlib.Data.List.Infix
import Mathlib.Data.List.Nodup

set_option autoImplicit false

namespace DragonsNet.Models.RingFifo

open Lib.Runs (run invariant_of_step)
open Lib.Position
open Models.Ring

variable {w k : ℕ} {α : Type}

def written : Producer α → List (Item α)
  | .publishing _ x | .takingBack _ x => [x]
  | _ => []

def sawRoom : Producer α → Bool
  | .writing _ _ | .publishing _ _ | .takingBack _ _ => true
  | _ => false

/-- The item the consumer has read and not given back the slot of. -/
def taken : Consumer α → List (Item α)
  | .storing _ x => [x]
  | _ => []

def sawItem : Consumer α → Bool
  | .reading _ => true
  | _ => false

def closed (s : State w α) : Bool := s.closedTx || s.closedRx

/-- The words count what was published and popped, never more than the capacity apart. -/
structure Counted (k : ℕ) (s : State w α) : Prop where
  head : s.head = word w s.popped.length false
  cachedHead : s.cachedHead = word w s.popped.length false
  tail : s.tail = word w s.published.length (closed s)
  cachedTail : s.cachedTail = word w s.published.length false
  order : s.popped ++ taken s.consumer <+: s.published
  bound : s.published.length ≤ s.popped.length + 2 ^ k
  fits : 2 * (s.published.length - s.popped.length) < 2 ^ w
  room : sawRoom s.producer = true → s.published.length < s.popped.length + 2 ^ k ∧ k + 1 < w
  item : sawItem s.consumer = true → s.popped.length < s.published.length

section Words

variable {s t : State w α}

private theorem Counted.popped_le (h : Counted k s) : s.popped.length ≤ s.published.length := by
  have hle := h.order.length_le
  rw [List.length_append] at hle
  omega

theorem Counted.isClosed_eq (hk : k < w) (h : Counted k s) : isClosed s.tail = closed s := by
  have hbit := word_and_one (t := s.published.length) (Nat.zero_lt_of_lt hk) (closed s)
  rw [isClosed, h.tail]
  cases hc : closed s with
  | true | false => simpa [hc] using hbit

private theorem Counted.tail_eq_iff (hk : k < w) (h : Counted k s) :
    s.tail = s.cachedTail ↔ closed s = false := by
  rw [h.tail, h.cachedTail]
  cases hc : closed s with
  | true => simpa using word_true_ne_false (Nat.zero_lt_of_lt hk)
  | false => simp

theorem Counted.empty_iff (h : Counted k s) :
    s.cachedHead = s.tail &&& ~~~(1#w) ↔ s.popped.length = s.published.length := by
  rw [h.cachedHead, h.tail, word_and_not_one]
  exact word_eq_iff h.popped_le h.fits

private theorem Counted.room_of_not_full (hk : k < w) (h : Counted k s)
    (hroom : full k s.cachedTail s.head = false) :
    s.published.length < s.popped.length + 2 ^ k ∧ k + 1 < w := by
  have hle := h.popped_le
  have hdist := toNat_word_sub hle h.fits
  have hcap : (capacity w k * 2#w).toNat = 2 ^ (k + 1) % 2 ^ w := by
    rw [capacity, ← BitVec.ofNat_mul, BitVec.toNat_ofNat, Nat.pow_succ]
  have hlt : (s.cachedTail - s.head).toNat < (capacity w k * 2#w).toNat := by
    simpa [full, BitVec.lt_def] using hroom
  rw [h.cachedTail, h.head, hdist, hcap] at hlt
  rcases Nat.lt_or_ge (k + 1) w with hkw | hkw
  · rw [Nat.mod_eq_of_lt (Nat.pow_lt_pow_right (by decide) hkw), Nat.pow_succ] at hlt
    exact ⟨by omega, hkw⟩
  · obtain rfl : w = k + 1 := by omega
    rw [Nat.mod_self] at hlt
    omega

theorem Counted.full_iff (hkw : k + 1 < w) (h : Counted k s) :
    full k s.cachedTail s.head = true ↔ s.published.length = s.popped.length + 2 ^ k := by
  constructor
  · intro hfull
    have hdist := toNat_word_sub h.popped_le h.fits
    have hcap : (capacity w k * 2#w).toNat = 2 ^ (k + 1) := by
      rw [capacity, ← BitVec.ofNat_mul, BitVec.toNat_ofNat, ← Nat.pow_succ,
        Nat.mod_eq_of_lt (Nat.pow_lt_pow_right (by decide) hkw)]
    have hge : (capacity w k * 2#w).toNat ≤ (s.cachedTail - s.head).toNat := by
      simpa [full, BitVec.le_def] using hfull
    rw [h.cachedTail, h.head, hdist, hcap, Nat.pow_succ] at hge
    have hle := h.popped_le
    have hbound := h.bound
    omega
  · intro heq
    by_contra hroom
    have hlt := (h.room_of_not_full (by omega) (Bool.eq_false_of_not_eq_true hroom)).1
    omega

private theorem slot_word {v : BitVec w} {i : ℕ} (hk : k < w) (hv : v = word w i false) :
    slot k v = i % 2 ^ k := by
  rw [slot, mask, hv]
  exact toNat_slot hk

private theorem Counted.written_le (h : Counted k s) :
    (s.published ++ written s.producer).length ≤ s.popped.length + 2 ^ k := by
  rw [List.length_append]
  cases hp : s.producer
  case publishing | takingBack => exact (h.room (by rw [hp]; rfl)).1
  all_goals exact h.bound

private theorem Counted.quiet (h : Counted k s) (hhead : t.head = s.head)
    (hcachedHead : t.cachedHead = s.cachedHead) (htail : t.tail = s.tail)
    (hcachedTail : t.cachedTail = s.cachedTail) (hpopped : t.popped = s.popped)
    (hpublished : t.published = s.published) (hclosed : closed t = closed s)
    (htaken : taken t.consumer = taken s.consumer)
    (hroom : sawRoom t.producer = true → sawRoom s.producer = true)
    (hitem : sawItem t.consumer = true → sawItem s.consumer = true) : Counted k t where
  head := by rw [hhead, hpopped]; exact h.head
  cachedHead := by rw [hcachedHead, hpopped]; exact h.cachedHead
  tail := by rw [htail, hpublished, hclosed]; exact h.tail
  cachedTail := by rw [hcachedTail, hpublished]; exact h.cachedTail
  order := by rw [hpopped, htaken, hpublished]; exact h.order
  bound := by rw [hpopped, hpublished]; exact h.bound
  fits := by rw [hpopped, hpublished]; exact h.fits
  room := by rw [hpopped, hpublished]; exact fun hr => h.room (hroom hr)
  item := by rw [hpopped, hpublished]; exact fun hi => h.item (hitem hi)

end Words

/-- The slots hold what is published, or written, and not yet read, and nothing else; no slot
was read empty or written over. -/
structure Slots (k : ℕ) (s : State w α) : Prop where
  holds : ∀ i x, s.popped.length + (taken s.consumer).length ≤ i →
    (s.published ++ written s.producer)[i]? = some x → s.buffer (i % 2 ^ k) = some x
  within : ∀ j x, s.buffer j = some x → ∃ i, s.popped.length + (taken s.consumer).length ≤ i ∧
    i < (s.published ++ written s.producer).length ∧ i % 2 ^ k = j
  sound : s.fault = false

section Preservation

variable {s t : State w α} {c : PushCaller} {x : Item α}

private theorem publish_counted (h : Counted k { s with producer := .publishing c x }) (hk : k < w)
    (hopen : s.tail = s.cachedTail) :
    Counted k { s with
      tail := s.cachedTail + 2#w
      cachedTail := s.cachedTail + 2#w
      published := s.published ++ [x]
      producer := .waking c x .load } := by
  obtain ⟨hroom, hkw⟩ := h.room rfl
  have hstill : closed s = false := (h.tail_eq_iff hk).mp hopen
  have hnext : s.cachedTail + 2#w = word w (s.published ++ [x]).length false := by
    rw [show s.cachedTail = _ from h.cachedTail, word_add_two, List.length_append]
    rfl
  refine ⟨h.head, h.cachedHead, ?_, hnext, ?_, ?_, ?_, by simp [sawRoom], ?_⟩
  · show s.cachedTail + 2#w = word w (s.published ++ [x]).length (closed s)
    rw [hstill]
    exact hnext
  · exact h.order.trans (List.prefix_append _ _)
  · rw [List.length_append]
    exact hroom
  · have htwice : 2 ^ (k + 1) < 2 ^ w := Nat.pow_lt_pow_right (by decide) hkw
    rw [Nat.pow_succ] at htwice
    simp only [List.length_append, List.length_singleton] at hroom ⊢
    omega
  · intro hi
    have := h.item hi
    simp only [List.length_append, List.length_singleton]
    exact Nat.lt_succ_of_lt this

private theorem store_counted {c : PopCaller} (h : Counted k { s with consumer := .storing c x }) :
    Counted k { s with
      head := s.cachedHead + 2#w
      cachedHead := s.cachedHead + 2#w
      popped := s.popped ++ [x]
      consumer := .waking c .load } := by
  have hnext : s.cachedHead + 2#w = word w (s.popped ++ [x]).length false := by
    rw [show s.cachedHead = _ from h.cachedHead, word_add_two, List.length_append]
    rfl
  have hbound : s.published.length ≤ s.popped.length + 2 ^ k := h.bound
  have hfits : 2 * (s.published.length - s.popped.length) < 2 ^ w := h.fits
  refine ⟨hnext, hnext, h.tail, h.cachedTail, ?_, ?_, ?_, ?_, by simp [sawItem]⟩
  · simpa [taken] using h.order
  · simp only [List.length_append, List.length_singleton]
    omega
  · simp only [List.length_append, List.length_singleton]
    omega
  · intro hr
    obtain ⟨hroom, hkw⟩ := h.room hr
    simp only [List.length_append, List.length_singleton] at hroom ⊢
    exact ⟨by omega, hkw⟩

private theorem read_counted {c : PopCaller} {b : ℕ → Option (Item α)}
    (h : Counted k { s with consumer := .reading c }) (hx : s.published[s.popped.length]? = some x)
    :
    Counted k { s with buffer := b, consumer := .storing c x } := by
  refine ⟨h.head, h.cachedHead, h.tail, h.cachedTail, ?_, h.bound, h.fits, h.room,
    by simp [sawItem]⟩
  have hprefix : s.popped <+: s.published := (List.prefix_append _ _).trans h.order
  obtain ⟨rest, hrest⟩ := hprefix
  rw [← hrest, List.getElem?_append_right (le_refl _), Nat.sub_self] at hx
  cases rest with
  | nil => simp at hx
  | cons y rest =>
    obtain rfl : y = x := by simpa using hx
    exact ⟨rest, by simpa [taken] using hrest⟩

private theorem Slots.quiet (h : Slots k s) (hbuffer : t.buffer = s.buffer)
    (hfault : t.fault = s.fault)
    (hread : t.popped.length + (taken t.consumer).length =
      s.popped.length + (taken s.consumer).length)
    (hwritten : t.published ++ written t.producer = s.published ++ written s.producer) :
    Slots k t where
  holds := by rw [hbuffer, hread, hwritten]; exact h.holds
  within := by rw [hbuffer, hread, hwritten]; exact h.within
  sound := by rw [hfault]; exact h.sound

private theorem Slots.free (hk : k < w) (hc : Counted k { s with producer := .writing c x })
    (h : Slots k { s with producer := .writing c x }) : s.buffer (slot k s.cachedTail) = none := by
  rw [slot_word hk hc.cachedTail]
  by_contra hne
  obtain ⟨y, hy⟩ := Option.ne_none_iff_exists'.mp hne
  obtain ⟨i, hi, hlt, hslot⟩ := h.within _ y hy
  obtain ⟨hroom, -⟩ := hc.room rfl
  simp only [written, List.append_nil] at hi hlt hroom
  exact slot_ne hlt (by omega) hslot

private theorem write_slots (hk : k < w) (hc : Counted k { s with producer := .writing c x })
    (h : Slots k { s with producer := .writing c x }) :
    Slots k { s with
      buffer := Function.update s.buffer (slot k s.cachedTail) (some x)
      fault := s.fault || (s.buffer (slot k s.cachedTail)).isSome
      producer := .publishing c x } := by
  have hfree := h.free hk hc
  have hslot : slot k s.cachedTail = s.published.length % 2 ^ k := slot_word hk hc.cachedTail
  have hroom : s.published.length < s.popped.length + 2 ^ k := (hc.room rfl).1
  refine ⟨fun i y hi hy => ?_, fun j y hy => ?_, ?_⟩
  · simp only [written, hslot] at hy ⊢
    have hi' : s.popped.length ≤ i := (Nat.le_add_right _ _).trans hi
    rcases Nat.lt_trichotomy i s.published.length with hlt | rfl | hgt
    · rw [Function.update_of_ne (slot_ne hlt (by omega))]
      refine h.holds i y hi ?_
      simpa [written, List.getElem?_append_left hlt] using hy
    · simpa using hy
    · rw [List.getElem?_eq_none (by simpa using Nat.succ_le_of_lt hgt)] at hy
      cases hy
  · simp only [hslot] at hy
    rcases eq_or_ne j (s.published.length % 2 ^ k) with rfl | hne
    · have hle := hc.order.length_le
      rw [List.length_append] at hle
      exact ⟨s.published.length, hle, by simp [written], rfl⟩
    · rw [Function.update_of_ne hne] at hy
      obtain ⟨i, hi, hlt, hj⟩ := h.within j y hy
      exact ⟨i, hi, hlt.trans_le (by simp [written]), hj⟩
  · show (s.fault || (s.buffer (slot k s.cachedTail)).isSome) = false
    rw [hfree, show s.fault = false from h.sound]
    rfl

private theorem Slots.own {x y : Item α} (hk : k < w)
    (hc : Counted k { s with producer := .takingBack c x })
    (h : Slots k { s with producer := .takingBack c x })
    (hy : s.buffer (slot k s.cachedTail) = some y) : y = x := by
  have hle := hc.order.length_le
  rw [List.length_append] at hle
  have hx : s.buffer (s.published.length % 2 ^ k) = some x :=
    h.holds s.published.length x hle (by simp [written])
  rw [slot_word hk hc.cachedTail] at hy
  rw [hx] at hy
  exact (Option.some.inj hy).symm

private theorem takeBack_slots (hk : k < w) (hc : Counted k { s with producer := .takingBack c x })
    (h : Slots k { s with producer := .takingBack c x }) :
    Slots k { s with
      buffer := Function.update s.buffer (slot k s.cachedTail) none
      producer := .idle } := by
  have hslot : slot k s.cachedTail = s.published.length % 2 ^ k := slot_word hk hc.cachedTail
  have hroom : s.published.length < s.popped.length + 2 ^ k := (hc.room rfl).1
  refine ⟨fun i y hi hy => ?_, fun j y hy => ?_, h.sound⟩
  · simp only [written, List.append_nil] at hy
    have hlt : i < s.published.length := (List.getElem?_eq_some_iff.mp hy).1
    have hi' : s.popped.length ≤ i := (Nat.le_add_right _ _).trans hi
    simp only [hslot]
    rw [Function.update_of_ne (slot_ne hlt (by omega))]
    exact h.holds i y hi (by simpa [written, List.getElem?_append_left hlt] using hy)
  · simp only [hslot] at hy
    rcases eq_or_ne j (s.published.length % 2 ^ k) with rfl | hne
    · rw [Function.update_self] at hy
      cases hy
    · rw [Function.update_of_ne hne] at hy
      obtain ⟨i, hi, hlt, hj⟩ := h.within j y hy
      have hi' : i ≠ s.published.length := by
        rintro rfl
        exact hne hj.symm
      simp only [written, List.length_append, List.length_singleton] at hlt
      exact ⟨i, hi, by simp only [written, List.append_nil]; omega, hj⟩

private theorem Slots.oldest {c : PopCaller} (hk : k < w)
    (hc : Counted k { s with consumer := .reading c })
    (h : Slots k { s with consumer := .reading c }) :
    s.published[s.popped.length]? = s.buffer (slot k s.cachedHead) := by
  have hlt : s.popped.length < s.published.length := hc.item rfl
  have hget : s.published[s.popped.length]? = some s.published[s.popped.length] :=
    List.getElem?_eq_getElem hlt
  rw [slot_word hk hc.cachedHead, hget]
  refine (h.holds s.popped.length _ (le_refl _) ?_).symm
  rw [List.getElem?_append_left hlt]
  exact hget

private theorem read_slots {c : PopCaller} (hk : k < w)
    (hc : Counted k { s with consumer := .reading c })
    (h : Slots k { s with consumer := .reading c }) :
    Slots k { s with
      buffer := Function.update s.buffer (slot k s.cachedHead) none
      consumer := .storing c x } := by
  have hslot : slot k s.cachedHead = s.popped.length % 2 ^ k := slot_word hk hc.cachedHead
  have hle : (s.published ++ written s.producer).length ≤ s.popped.length + 2 ^ k := (hc.written_le :)
  refine ⟨fun i y hi hy => ?_, fun j y hy => ?_, h.sound⟩
  · have hi' : s.popped.length + 1 ≤ i := hi
    have hlt : i < (s.published ++ written s.producer).length :=
      (List.getElem?_eq_some_iff.mp hy).1
    simp only [hslot]
    rw [Function.update_of_ne (slot_ne hi' (by omega)).symm]
    exact h.holds i y (Nat.le_of_lt hi') hy
  · simp only [hslot] at hy
    rcases eq_or_ne j (s.popped.length % 2 ^ k) with rfl | hne
    · rw [Function.update_self] at hy
      cases hy
    · rw [Function.update_of_ne hne] at hy
      obtain ⟨i, hi, hlt, hj⟩ := h.within j y hy
      have hi' : s.popped.length ≤ i := hi
      have hine : i ≠ s.popped.length := by
        rintro rfl
        exact hne hj.symm
      exact ⟨i, Nat.lt_of_le_of_ne hi' hine.symm, hlt, hj⟩

theorem steps_counted (hk : k < w) (hc : Counted k s) (hs : Slots k s) (hstep : Steps k s t) :
    Counted k t := by
  have still : ∀ {p : Producer α} {P : Prop}, sawRoom p = false → sawRoom p = true → P := by
    intro p P hp hr
    rw [hp] at hr
    cases hr
  have none : ∀ {c : Consumer α} {P : Prop}, sawItem c = false → sawItem c = true → P := by
    intro c P hc hi
    rw [hc] at hi
    cases hi
  cases hstep
  case sawRoom s c x hroom =>
    have hlt := hc.room_of_not_full hk hroom
    exact ⟨hc.head, hc.cachedHead, hc.tail, hc.cachedTail, hc.order, hc.bound, hc.fits,
      fun _ => hlt, hc.item⟩
  case publish s c x hopen => exact publish_counted hc hk hopen
  case closedTx s =>
    refine ⟨hc.head, hc.cachedHead, ?_, hc.cachedTail, hc.order, hc.bound, hc.fits, still rfl,
      hc.item⟩
    show s.tail ||| 1#w = _
    rw [show s.tail = _ from hc.tail, word_or_one]
    rfl
  case closedRx s =>
    refine ⟨hc.head, hc.cachedHead, ?_, hc.cachedTail, hc.order, hc.bound, hc.fits, hc.room,
      none rfl⟩
    show s.tail ||| 1#w = word w s.published.length (s.closedTx || true)
    rw [show s.tail = _ from hc.tail, word_or_one, Bool.or_true]
  case sawItem s c hne =>
    refine ⟨hc.head, hc.cachedHead, hc.tail, hc.cachedTail, hc.order, hc.bound, hc.fits, hc.room,
      fun _ => Nat.lt_of_le_of_ne hc.popped_le fun heq => hne (hc.empty_iff.mpr heq)⟩
  case read s c x hx =>
    refine read_counted hc ?_
    rw [hs.oldest hk hc, hx]
  case store s c x => exact store_counted hc
  case sawClosed s c x _ | sawFull s c x _ | takeBack s c x y _ | pushWoke s c x v _ =>
    cases c <;> exact hc.quiet rfl rfl rfl rfl rfl rfl rfl rfl (still rfl) id
  case sawEmpty s c _ | popWoke s c v _ =>
    cases c <;> exact hc.quiet rfl rfl rfl rfl rfl rfl rfl rfl id (none rfl)
  all_goals exact hc.quiet rfl rfl rfl rfl rfl rfl rfl rfl id id

theorem steps_slots (hk : k < w) (hc : Counted k s) (hs : Slots k s) (hstep : Steps k s t) :
    Slots k t := by
  cases hstep
  case write s c x => exact write_slots hk hc hs
  case publish s c x _ => exact hs.quiet rfl rfl rfl (by simp [written])
  case takeBack s c x y _ => cases c <;> exact (takeBack_slots hk hc hs).quiet rfl rfl rfl rfl
  case takeBackFault s c x hnone =>
    have hx : s.buffer (s.published.length % 2 ^ k) = some x := by
      have hle := hc.order.length_le
      rw [List.length_append] at hle
      exact hs.holds s.published.length x hle (by simp [written])
    rw [slot_word hk hc.cachedTail, hx] at hnone
    cases hnone
  case read s c x hx => exact read_slots hk hc hs
  case readFault s c hnone =>
    have hlt : s.popped.length < s.published.length := hc.item rfl
    rw [← hs.oldest hk hc, List.getElem?_eq_getElem hlt] at hnone
    cases hnone
  case store s c x => exact hs.quiet rfl rfl (by simp [taken]) rfl
  case sawClosed s c x _ | sawFull s c x _ | pushWoke s c x v _ | sawEmpty s c _
    | popWoke s c v _ => cases c <;> exact hs.quiet rfl rfl rfl rfl
  all_goals exact hs.quiet rfl rfl rfl rfl

end Preservation

def inHand : Producer α → List (Item α)
  | .checkClosed _ x | .checkFull _ x | .writing _ x | .publishing _ x | .takingBack _ x
  | .parking x | .arming x | .disarmClosed x _ _ => [x]
  | _ => []

/-- The item of a push that has published it and not returned yet. Such a push can only return
`Ok`. -/
def unreturned : Producer α → List (Item α)
  | .waking _ x _ | .disarmOk x _ => [x]
  | _ => []

/-- Every item the ring was handed, but for those dropped with their send. -/
def items (s : State w α) : List (Item α) :=
  s.published ++ (inHand s.producer ++ (s.sendValue.toList ++ s.refused.map Prod.fst))

def Distinct (n : ℕ) (l : List (Item α)) : Prop :=
  (l.map Item.ticket).Nodup ∧ ∀ x ∈ l, x.ticket < n

private theorem Distinct.of_subperm {n : ℕ} {l l' : List (Item α)} (h : Distinct n l)
    (hl : l'.Subperm l) :
    Distinct n l' := by
  obtain ⟨m, hperm, hsub⟩ := hl
  refine ⟨?_, fun x hx => h.2 x (hsub.subset (hperm.mem_iff.mpr hx))⟩
  exact (hperm.map Item.ticket).nodup_iff.mp (h.1.sublist (hsub.map Item.ticket))

theorem Distinct.cons {n : ℕ} {l : List (Item α)} (h : Distinct n l) (v : α) :
    Distinct (n + 1) (⟨v, n⟩ :: l) := by
  refine ⟨List.nodup_cons.mpr ⟨fun hmem => ?_, h.1⟩, fun x hx => ?_⟩
  · obtain ⟨x, hx, hticket⟩ := List.mem_map.mp hmem
    exact (h.2 x hx).ne hticket
  · rcases List.mem_cons.mp hx with rfl | hx
    · exact Nat.lt_succ_self n
    · exact (h.2 x hx).trans (Nat.lt_succ_self n)

/-- What is published was returned `Ok` or is about to be; every item is in one place; and an
error holds the value it was given. -/
structure Kept (s : State w α) : Prop where
  calls : s.published = s.returnedOk ++ unreturned s.producer
  distinct : Distinct s.tickets (items s)
  refused : ∀ r ∈ s.refused, r.2 = r.1
  giving : ∀ x y v, s.producer = .disarmClosed x y v → y = x

section Items

variable {s t : State w α}

private theorem Kept.quiet (h : Kept s)
    (hcalls : t.published = s.published ∧ t.returnedOk = s.returnedOk ∧
      unreturned t.producer = unreturned s.producer)
    (hitems : (items t).Subperm (items s)) (htickets : t.tickets = s.tickets)
    (hrefused : t.refused = s.refused)
    (hgiving : ∀ x y v, t.producer = .disarmClosed x y v → y = x) : Kept t where
  calls := by rw [hcalls.1, hcalls.2.1, hcalls.2.2]; exact h.calls
  distinct := by rw [htickets]; exact h.distinct.of_subperm hitems
  refused := by rw [hrefused]; exact h.refused
  giving := hgiving

private theorem Kept.call {c : PushCaller} {v : α} {n : ℕ} {b : Bool}
    (h : Kept { s with producer := .idle }) :
    Kept { s with
      producer := .checkClosed c ⟨v, s.tickets⟩
      tickets := s.tickets + 1
      sendPoll := n
      sendWoken := b } where
  calls := h.calls
  distinct := (h.distinct.cons v).of_subperm List.perm_middle.subperm
  refused := h.refused
  giving := nofun

private theorem Kept.err {p : Producer α} {x y : Item α} {b : ℕ → Option (Item α)}
    {cell : WakeCell} {woken : Bool} (h : Kept { s with producer := p })
    (hp : inHand p = [x]) (hu : unreturned p = []) (hy : y = x) :
    Kept (State.returnErr { s with buffer := b, producerWaker := cell, sendWoken := woken } x y) := by
  refine ⟨?_, h.distinct.of_subperm ?_, ?_, nofun⟩
  · have hcalls : s.published = s.returnedOk ++ unreturned p := h.calls
    rw [hu] at hcalls
    exact hcalls
  · apply List.Perm.subperm
    show List.Perm
      (s.published ++ ([] ++ (s.sendValue.toList ++ (s.refused ++ [(x, y)]).map Prod.fst)))
      (s.published ++ (inHand p ++ (s.sendValue.toList ++ s.refused.map Prod.fst)))
    rw [hp, List.map_append, ← List.append_assoc s.sendValue.toList]
    exact (List.perm_append_singleton x _).append_left _
  · intro r hr
    rcases List.mem_append.mp hr with hr | hr
    · exact h.refused r hr
    · rw [List.mem_singleton.mp hr]
      exact hy

theorem steps_kept (hk : k < w) (hc : Counted k s) (hs : Slots k s) (h : Kept s)
    (hstep : Steps k s t) : Kept t := by
  cases hstep
  case tryPush s v => exact h.call
  case send s v _ => exact h.call
  case pollSend s x hx =>
    refine h.quiet ⟨rfl, rfl, rfl⟩ ?_ rfl rfl nofun
    simp only [items, inHand, hx]
    exact List.Subperm.refl _
  case dropSend s =>
    refine h.quiet ⟨rfl, rfl, rfl⟩ (List.Sublist.subperm ?_) rfl rfl nofun
    exact ((List.sublist_append_right _ _).append_left _).append_left _
  case sawClosed s c x _ =>
    cases c with
    | user | first => exact h.err rfl rfl rfl
    | recheck =>
      refine h.quiet ⟨rfl, rfl, rfl⟩ (List.Subperm.refl _) rfl rfl ?_
      rintro _ _ _ ⟨⟩
      rfl
  case takeBack s c x y hy =>
    have hyx := hs.own hk hc hy
    cases c with
    | user | first => exact h.err rfl rfl hyx
    | recheck =>
      refine h.quiet ⟨rfl, rfl, rfl⟩ (List.Subperm.refl _) rfl rfl ?_
      rintro _ _ _ ⟨⟩
      exact hyx
  case sawFull s c x _ =>
    cases c with
    | user => exact h.err rfl rfl rfl
    | first => exact h.quiet ⟨rfl, rfl, rfl⟩ (List.Subperm.refl _) rfl rfl nofun
    | recheck =>
      refine h.quiet ⟨rfl, rfl, rfl⟩ (List.Sublist.subperm ?_) rfl rfl nofun
      exact (((List.sublist_append_right _ _).append_left [x])).append_left _
  case publish s c x _ =>
    refine ⟨?_, ?_, h.refused, nofun⟩
    · have hcalls : s.published = s.returnedOk ++ [] := h.calls
      rw [hcalls, List.append_nil]
      rfl
    · refine h.distinct.of_subperm ?_
      simp only [items, inHand, List.append_assoc]
      exact List.Subperm.refl _
  case pushWoke s c x v _ =>
    cases c with
    | user | first => exact ⟨h.calls.trans (List.append_nil _).symm, h.distinct, h.refused, nofun⟩
    | recheck => exact h.quiet ⟨rfl, rfl, rfl⟩ (List.Subperm.refl _) rfl rfl nofun
  case disarmedOk s x v _ =>
    exact ⟨h.calls.trans (List.append_nil _).symm, h.distinct, h.refused, nofun⟩
  case disarmClosed s x y v v' _ =>
    refine h.quiet ⟨rfl, rfl, rfl⟩ (List.Subperm.refl _) rfl rfl ?_
    rintro _ _ _ ⟨⟩
    exact h.giving x y v rfl
  case disarmedClosed s x y v _ => exact h.err rfl rfl (h.giving x y v rfl)
  case sawEmpty s c _ | popWoke s c v _ =>
    cases c <;> exact h.quiet ⟨rfl, rfl, rfl⟩ (List.Subperm.refl _) rfl rfl h.giving
  all_goals
    first
    | exact h.quiet ⟨rfl, rfl, rfl⟩ (List.Subperm.refl _) rfl rfl h.giving
    | exact h.quiet ⟨rfl, rfl, rfl⟩ (List.Subperm.refl _) rfl rfl nofun

end Items

def sawClosed : Consumer α → Bool
  | .loading .drained | .loading .last | .disarmClosed _ => true
  | _ => false

/-- `recv` gives `None` only when the ring is closed and everything published is popped, and
then nothing is published again. -/
structure Drained (s : State w α) : Prop where
  saw : sawClosed s.consumer = true → closed s = true
  none : s.recvNone = true → closed s = true ∧ s.popped = s.published

section Closing

variable {s t : State w α}

private theorem Counted.popped_eq {c : PopCaller} (hc : Counted k { s with consumer := .loading c })
    (hempty : s.cachedHead = s.tail &&& ~~~(1#w)) : s.popped = s.published := by
  have hlen : s.popped.length = s.published.length := hc.empty_iff.mp hempty
  have hprefix : s.popped ++ [] <+: s.published := hc.order
  rw [List.append_nil] at hprefix
  exact hprefix.eq_of_length hlen

theorem steps_drained (hk : k < w) (hc : Counted k s) (h : Drained s) (hstep : Steps k s t) :
    Drained t := by
  cases hstep
  case publish s c x hopen =>
    refine ⟨h.saw, fun hnone => ?_⟩
    have hclosed := (h.none hnone).1
    rw [(hc.tail_eq_iff hk).mp hopen] at hclosed
    cases hclosed
  case closedTx s => exact ⟨fun _ => rfl, fun hnone => ⟨rfl, (h.none hnone).2⟩⟩
  case closedRx s =>
    exact ⟨fun _ => Bool.or_true _, fun hnone => ⟨Bool.or_true _, (h.none hnone).2⟩⟩
  case sawEmpty s c hempty =>
    have hall := hc.popped_eq hempty
    cases c with
    | user | first | recheck => exact ⟨nofun, h.none⟩
    | drained | last => exact ⟨nofun, fun _ => ⟨h.saw rfl, hall⟩⟩
  case store s c x =>
    refine ⟨nofun, fun hnone => ?_⟩
    have hall : s.popped = s.published := (h.none hnone).2
    have hlen := hc.order.length_le
    simp only [taken, List.length_append, List.length_singleton, hall] at hlen
    omega
  case recvClosed s hclosed | recheckedClosed s hclosed =>
    refine ⟨fun _ => ?_, h.none⟩
    have hbit := hc.isClosed_eq hk
    exact hbit.symm.trans hclosed
  case sawClosed s c x _ | sawFull s c x _ | takeBack s c x y _ | pushWoke s c x v _ =>
    cases c <;> exact ⟨h.saw, h.none⟩
  case popWoke s c v _ => cases c <;> exact ⟨nofun, h.none⟩
  all_goals
    first
    | exact ⟨h.saw, h.none⟩
    | exact ⟨nofun, h.none⟩

end Closing

end DragonsNet.Models.RingFifo
