/- GID: DragonsNet/Runtime/SlabMap
   source: crates/dn-runtime/src/slab.rs
   digest: The fixed-capacity slab and the finite map from tokens it stands for. -/

import Mathlib.Data.Finmap
import Mathlib.Data.List.Range
import Mathlib.Tactic.Common

set_option autoImplicit false

namespace DragonsNet.Runtime.SlabMap

universe u

/-- The name an insert returns: a slot, and the generation it had then. -/
structure Token where
  index : ℕ
  generation : UInt64
  deriving DecidableEq, Repr

structure Slot (T : Type u) where
  generation : UInt64
  value : Option T

/-- The slots, the one at index 0 never handed out, and the stack of free indexes, its top first. -/
structure Slab (T : Type u) where
  slots : List (Slot T)
  free : List ℕ

variable {T : Type u}

def Slab.new (capacity : ℕ) : Slab T where
  slots := List.replicate (capacity + 1) ⟨0, none⟩
  free := List.range' 1 capacity

def checkedAdd (g : UInt64) : Option UInt64 :=
  if g.toNat + 1 < 2 ^ 64 then some (g + 1) else none

/-- `insert`: the token, or the value back; none where the free list names a slot out of bounds, at
which the source stops. -/
def Slab.insert (s : Slab T) (value : T) : Option (Except T Token × Slab T) :=
  match s.free with
  | [] => some (.error value, s)
  | index :: free =>
    match s.slots[index]? with
    | none => none
    | some slot =>
      some (.ok ⟨index, slot.generation⟩,
        ⟨s.slots.set index { slot with value := some value }, free⟩)

def Slab.get (s : Slab T) (token : Token) : Option T :=
  match s.slots[token.index]? with
  | none => none
  | some slot => if slot.generation = token.generation then slot.value else none

/-- `get_mut`: the value the reference shows, and the slab once the caller has written through it. -/
def Slab.getMut (s : Slab T) (token : Token) (write : T → T) : Option T × Slab T :=
  match s.slots[token.index]? with
  | none => (none, s)
  | some slot =>
    if slot.generation = token.generation then
      (slot.value,
        { s with slots := s.slots.set token.index { slot with value := slot.value.map write } })
    else (none, s)

def Slab.remove (s : Slab T) (token : Token) : Option T × Slab T :=
  match s.slots[token.index]? with
  | none => (none, s)
  | some slot =>
    if slot.generation = token.generation then
      match slot.value with
      | none => (none, s)
      | some value =>
        match checkedAdd slot.generation with
        | some next => (some value, ⟨s.slots.set token.index ⟨next, none⟩, token.index :: s.free⟩)
        -- The generation is spent: the slot is never freed.
        | none => (some value, { s with slots := s.slots.set token.index ⟨slot.generation, none⟩ })
    else (none, s)

/-! ## Calls -/

inductive Call (T : Type u) where
  | insert (value : T)
  | get (token : Token)
  | getMut (token : Token) (write : T → T)
  | remove (token : Token)

inductive Answer (T : Type u) where
  | inserted (token : Except T Token)
  | value (found : Option T)

def Slab.call (s : Slab T) : Call T → Option (Answer T × Slab T)
  | .insert value => (s.insert value).map fun (token, s) => (.inserted token, s)
  | .get token => some (.value (s.get token), s)
  | .getMut token write =>
    let (found, s) := s.getMut token write
    some (.value found, s)
  | .remove token =>
    let (found, s) := s.remove token
    some (.value found, s)

def Slab.calls (s : Slab T) : List (Call T) → Option (List (Answer T) × Slab T)
  | [] => some ([], s)
  | c :: cs => do
    let (a, s) ← s.call c
    let (as, s) ← s.calls cs
    some (a :: as, s)

/-! ## The map -/

/-- What a slab is for: the entries, every token returned so far, and how many removes have spent a
slot's last generation. -/
structure TokenMap (T : Type u) where
  live : Finmap fun _ : Token => T
  issued : Finset Token
  retired : ℕ

def TokenMap.empty : TokenMap T := ⟨∅, ∅, 0⟩

def Token.last (token : Token) : Prop := token.generation.toNat = 2 ^ 64 - 1

instance (token : Token) : Decidable token.last := inferInstanceAs (Decidable (_ = _))

def TokenMap.written (m : TokenMap T) (token : Token) (write : T → T) : TokenMap T :=
  match m.live.lookup token with
  | none => m
  | some v => { m with live := m.live.insert token (write v) }

/-- The entry of a token gone, and the slot with it when the token was its last. -/
def TokenMap.removed (m : TokenMap T) (token : Token) : TokenMap T :=
  match m.live.lookup token with
  | none => m
  | some _ =>
    { m with
      live := m.live.erase token
      retired := if token.last then m.retired + 1 else m.retired }

/-- The answers a map of this capacity may give. An insert fails exactly when the entries and the
retired slots are as many as the capacity, and chooses any token never returned before. -/
inductive Answers (capacity : ℕ) : TokenMap T → Call T → Answer T → TokenMap T → Prop
  | inserted {m : TokenMap T} {token : Token} {v : T} (room : m.live.keys.card + m.retired ≠ capacity)
      (fresh : token ∉ m.issued) (low : 1 ≤ token.index) (high : token.index ≤ capacity) :
      Answers capacity m (.insert v) (.inserted (.ok token))
        { m with live := m.live.insert token v, issued := insert token m.issued }
  | full {m : TokenMap T} {v : T} (full : m.live.keys.card + m.retired = capacity) :
      Answers capacity m (.insert v) (.inserted (.error v)) m
  | get {m : TokenMap T} {token : Token} :
      Answers capacity m (.get token) (.value (m.live.lookup token)) m
  | getMut {m : TokenMap T} {token : Token} {write : T → T} :
      Answers capacity m (.getMut token write) (.value (m.live.lookup token)) (m.written token write)
  | remove {m : TokenMap T} {token : Token} :
      Answers capacity m (.remove token) (.value (m.live.lookup token)) (m.removed token)

inductive AnswersAll (capacity : ℕ) :
    TokenMap T → List (Call T) → List (Answer T) → TokenMap T → Prop
  | nil {m : TokenMap T} : AnswersAll capacity m [] [] m
  | cons {m m' m'' : TokenMap T} {c : Call T} {cs : List (Call T)} {a : Answer T}
      {as : List (Answer T)} (first : Answers capacity m c a m')
      (rest : AnswersAll capacity m' cs as m'') : AnswersAll capacity m (c :: cs) (a :: as) m''

theorem AnswersAll.gone {capacity : ℕ} {m m' : TokenMap T} {cs : List (Call T)}
    {as : List (Answer T)} {token : Token} (h : AnswersAll capacity m cs as m')
    (hissued : token ∈ m.issued) (hgone : m.live.lookup token = none) :
    m'.live.lookup token = none := by
  induction h with
  | nil => exact hgone
  | @cons m m₁ m₂ c cs a as first rest ih =>
    cases first with
    | @inserted token' v room fresh low high =>
      have hne : token ≠ token' := by
        intro heq
        exact fresh (heq ▸ hissued)
      apply ih
      · exact Finset.mem_insert_of_mem hissued
      · rw [Finmap.lookup_insert_of_ne _ hne]
        exact hgone
    | full _ | get => exact ih hissued hgone
    | @getMut token' write =>
      unfold TokenMap.written at ih
      cases hv : m.live.lookup token' with
      | none =>
        simp only [hv] at ih
        exact ih hissued hgone
      | some v =>
        simp only [hv] at ih
        have hne : token ≠ token' := by
          intro heq
          rw [heq, hv] at hgone
          cases hgone
        apply ih hissued
        rw [Finmap.lookup_insert_of_ne _ hne]
        exact hgone
    | @remove token' =>
      unfold TokenMap.removed at ih
      cases hv : m.live.lookup token' with
      | none =>
        simp only [hv] at ih
        exact ih hissued hgone
      | some v =>
        simp only [hv] at ih
        apply ih hissued
        by_cases heq : token = token'
        · rw [heq, Finmap.lookup_erase]
        · rw [Finmap.lookup_erase_ne heq]
          exact hgone

/-! ## The slab is such a map -/

/-- The slab's slots and free list stand for the map. A token returned before is below its slot's
generation, or at it and then the slot is not free. -/
structure Refines (capacity : ℕ) (s : Slab T) (m : TokenMap T) : Prop where
  length : s.slots.length = capacity + 1
  nodup : s.free.Nodup
  free : ∀ i ∈ s.free, 1 ≤ i ∧ i ≤ capacity ∧ ∃ g, s.slots[i]? = some ⟨g, none⟩
  reserved : ∃ g, s.slots[0]? = some ⟨g, none⟩
  live : ∀ token v, m.live.lookup token = some v ↔
    s.slots[token.index]? = some ⟨token.generation, some v⟩
  issued : ∀ token ∈ m.issued, ∃ slot, s.slots[token.index]? = some slot ∧
    (token.generation < slot.generation ∨
      token.generation = slot.generation ∧ token.index ∉ s.free)
  count : m.live.keys.card + m.retired + s.free.length = capacity

variable {capacity : ℕ} {s : Slab T} {m : TokenMap T}

theorem new_refines (capacity : ℕ) : Refines capacity (Slab.new capacity : Slab T) .empty := by
  refine ⟨List.length_replicate, List.nodup_range', ?_, ?_, ?_, nofun, ?_⟩
  · intro i hi
    obtain ⟨hlow, hhigh⟩ := List.mem_range'_1.mp hi
    refine ⟨hlow, by omega, 0, ?_⟩
    exact List.getElem?_replicate_of_lt (by omega)
  · exact ⟨0, List.getElem?_replicate_of_lt (by omega)⟩
  · intro token v
    constructor
    · intro h
      cases h
    · intro h
      have hvalue := congrArg Slot.value (List.eq_of_mem_replicate (List.mem_of_getElem? h))
      cases hvalue
  · simp [TokenMap.empty, Slab.new]

theorem Refines.get (h : Refines capacity s m) (token : Token) :
    s.get token = m.live.lookup token := by
  apply Option.ext
  intro v
  rw [h.live]
  unfold Slab.get
  cases hslot : s.slots[token.index]? with
  | none => simp
  | some slot =>
    obtain ⟨g, value⟩ := slot
    by_cases hg : g = token.generation
    · simp [hg]
    · simp [hg]

private theorem Refines.slot_of_live (h : Refines capacity s m) {token : Token} {slot : Slot T}
    (hslot : s.slots[token.index]? = some slot) (hgen : slot.generation = token.generation) :
    m.live.lookup token = slot.value := by
  rw [← h.get]
  simp only [Slab.get, hslot, hgen, if_true]

private theorem Refines.not_live (h : Refines capacity s m) {token : Token}
    (hslot : ∀ slot, s.slots[token.index]? = some slot → slot.generation ≠ token.generation) :
    m.live.lookup token = none := by
  rw [← h.get]
  unfold Slab.get
  cases hs : s.slots[token.index]? with
  | none => rfl
  | some slot => exact if_neg (hslot slot hs)

private theorem keys_insert (live : Finmap fun _ : Token => T) (token : Token) (v : T) :
    (live.insert token v).keys = insert token live.keys := by
  ext x
  simp only [Finmap.mem_keys, Finmap.mem_insert, Finset.mem_insert]

private theorem Refines.index_pos (h : Refines capacity s m) {i : ℕ} {g : UInt64} {v : T}
    (hslot : s.slots[i]? = some ⟨g, some v⟩) : 1 ≤ i ∧ i ≤ capacity ∧ i ∉ s.free := by
  have hlt : i < capacity + 1 := by
    rw [← h.length]
    exact (List.getElem?_eq_some_iff.mp hslot).1
  refine ⟨?_, by omega, ?_⟩
  · by_contra hzero
    obtain ⟨g', hg'⟩ := h.reserved
    obtain rfl : i = 0 := by omega
    rw [hg'] at hslot
    cases hslot
  · intro hfree
    obtain ⟨-, -, g', hg'⟩ := h.free i hfree
    rw [hg'] at hslot
    cases hslot

private theorem Refines.free_set (h : Refines capacity s m) {i : ℕ} {free : List ℕ}
    (hnot : i ∉ free)
    (hsub : free ⊆ s.free) (x : Slot T) :
    ∀ j ∈ free, 1 ≤ j ∧ j ≤ capacity ∧ ∃ g, (s.slots.set i x)[j]? = some ⟨g, none⟩ := by
  intro j hj
  have hne : i ≠ j := by
    intro heq
    exact hnot (heq ▸ hj)
  rw [List.getElem?_set_ne hne]
  exact h.free j (hsub hj)

private theorem Refines.live_put (h : Refines capacity s m) {i : ℕ} {g : UInt64} {x : Option T}
    (hslot : s.slots[i]? = some ⟨g, x⟩) (v : T) (token : Token) (w : T) :
    (m.live.insert ⟨i, g⟩ v).lookup token = some w ↔
      (s.slots.set i ⟨g, some v⟩)[token.index]? = some ⟨token.generation, some w⟩ := by
  have hlt : i < s.slots.length := (List.getElem?_eq_some_iff.mp hslot).1
  by_cases htoken : token = ⟨i, g⟩
  · rw [htoken, Finmap.lookup_insert, List.getElem?_set_self hlt]
    simp
  · rw [Finmap.lookup_insert_of_ne _ htoken, h.live]
    by_cases hindex : i = token.index
    · have hgen : g ≠ token.generation := by
        intro hgen
        exact htoken (by rw [hindex, hgen])
      rw [← hindex, hslot, List.getElem?_set_self hlt]
      simp [hgen]
    · rw [List.getElem?_set_ne hindex]

private theorem Refines.live_clear (h : Refines capacity s m) {token : Token} {v : T}
    (hslot : s.slots[token.index]? = some ⟨token.generation, some v⟩) (g : UInt64)
    (token' : Token) (w : T) :
    (m.live.erase token).lookup token' = some w ↔
      (s.slots.set token.index ⟨g, none⟩)[token'.index]? = some ⟨token'.generation, some w⟩ := by
  have hlt : token.index < s.slots.length := (List.getElem?_eq_some_iff.mp hslot).1
  by_cases htoken : token' = token
  · rw [htoken, Finmap.lookup_erase, List.getElem?_set_self hlt]
    simp
  · rw [Finmap.lookup_erase_ne htoken, h.live]
    by_cases hindex : token.index = token'.index
    · have hgen : token.generation ≠ token'.generation := by
        intro hgen
        apply htoken
        cases token
        cases token'
        simp_all
      rw [← hindex, hslot, List.getElem?_set_self hlt]
      simp [hgen]
    · rw [List.getElem?_set_ne hindex]

private theorem Refines.issued_put (h : Refines capacity s m) {i : ℕ} {g : UInt64} {x : Option T}
    (hslot : s.slots[i]? = some ⟨g, x⟩) {free : List ℕ} (hsub : free ⊆ s.free) (x' : Option T) :
    ∀ token ∈ m.issued, ∃ slot, (s.slots.set i ⟨g, x'⟩)[token.index]? = some slot ∧
      (token.generation < slot.generation ∨
        token.generation = slot.generation ∧ token.index ∉ free) := by
  intro token hissued
  obtain ⟨slot, hslot', hcase⟩ := h.issued token hissued
  have hcase' := hcase.imp id fun hat => And.intro hat.1 fun hfree => hat.2 (hsub hfree)
  by_cases hindex : i = token.index
  · rw [← hindex, hslot] at hslot'
    cases hslot'
    rw [← hindex] at hcase' ⊢
    exact ⟨_, List.getElem?_set_self (List.getElem?_eq_some_iff.mp hslot).1, hcase'⟩
  · rw [List.getElem?_set_ne hindex]
    exact ⟨slot, hslot', hcase'⟩

theorem Refines.insert (h : Refines capacity s m) (v : T) :
    ∃ token s' m', s.insert v = some (token, s') ∧
      Answers capacity m (.insert v) (.inserted token) m' ∧ Refines capacity s' m' := by
  unfold Slab.insert
  cases hfree : s.free with
  | nil =>
    refine ⟨.error v, s, m, rfl, .full ?_, h⟩
    have hcount := h.count
    rw [hfree, List.length_nil] at hcount
    omega
  | cons i free =>
    have hi : i ∈ s.free := by
      rw [hfree]
      exact List.mem_cons_self
    have hsub : free ⊆ s.free := by
      rw [hfree]
      exact List.subset_cons_self i free
    obtain ⟨hlow, hhigh, g, hslot⟩ := h.free i hi
    have hnodup := h.nodup
    rw [hfree, List.nodup_cons] at hnodup
    obtain ⟨hnot, hnodup⟩ := hnodup
    have hfresh : (⟨i, g⟩ : Token) ∉ m.issued := by
      intro hissued
      obtain ⟨slot, hslot', hbelow | ⟨-, hnotFree⟩⟩ := h.issued _ hissued
      · rw [hslot] at hslot'
        cases hslot'
        exact absurd hbelow (UInt64.lt_irrefl g)
      · exact hnotFree hi
    have hcard : (m.live.insert ⟨i, g⟩ v).keys.card = m.live.keys.card + 1 := by
      rw [keys_insert, Finset.card_insert_of_notMem]
      rw [Finmap.mem_keys, ← Finmap.lookup_eq_none]
      exact @Refines.slot_of_live _ _ _ _ h ⟨i, g⟩ _ hslot rfl
    have hcount := h.count
    rw [hfree, List.length_cons] at hcount
    simp only [hslot]
    refine ⟨_, _, _, rfl, .inserted (by omega) hfresh hlow hhigh, ?_⟩
    constructor
    · rw [List.length_set]
      exact h.length
    · exact hnodup
    · exact h.free_set hnot hsub _
    · rw [List.getElem?_set_ne (by omega)]
      exact h.reserved
    · exact h.live_put hslot v
    · intro token htoken
      obtain rfl | hissued := Finset.mem_insert.mp htoken
      · exact ⟨_, List.getElem?_set_self (List.getElem?_eq_some_iff.mp hslot).1, .inr ⟨rfl, hnot⟩⟩
      · exact h.issued_put hslot hsub (some v) token hissued
    · dsimp only
      rw [hcard]
      omega

theorem Refines.write (h : Refines capacity s m) {token : Token} {v : T}
    (hslot : s.slots[token.index]? = some ⟨token.generation, some v⟩) (w : T) :
    Refines capacity { s with slots := s.slots.set token.index ⟨token.generation, some w⟩ }
      { m with live := m.live.insert token w } := by
  obtain ⟨hpos, -, hnotFree⟩ := h.index_pos hslot
  constructor
  · rw [List.length_set]
    exact h.length
  · exact h.nodup
  · exact h.free_set hnotFree (List.Subset.refl s.free) _
  · rw [List.getElem?_set_ne (by omega)]
    exact h.reserved
  · exact h.live_put hslot w
  · exact h.issued_put hslot (List.Subset.refl s.free) (some w)
  · have hmem : token ∈ m.live.keys := by
      rw [Finmap.mem_keys]
      exact Finmap.mem_of_lookup_eq_some ((h.live token v).mpr hslot)
    dsimp only
    rw [keys_insert, Finset.insert_eq_of_mem hmem]
    exact h.count

private theorem Refines.getMut (h : Refines capacity s m) (token : Token) (write : T → T) :
    (s.getMut token write).1 = m.live.lookup token ∧
      Refines capacity (s.getMut token write).2 (m.written token write) := by
  unfold Slab.getMut TokenMap.written
  cases hslot : s.slots[token.index]? with
  | none =>
    rw [h.not_live (by simp [hslot])]
    exact ⟨rfl, h⟩
  | some slot =>
    by_cases hgen : slot.generation = token.generation
    · have hvalue := h.slot_of_live hslot hgen
      obtain ⟨g, value⟩ := slot
      obtain rfl : g = token.generation := hgen
      simp only [if_true, hvalue, true_and]
      cases value with
      | none =>
        have hsame : s.slots.set token.index ⟨token.generation, Option.map write none⟩ = s.slots := by
          obtain ⟨hlt, hget⟩ := List.getElem?_eq_some_iff.mp hslot
          rw [Option.map_none, ← hget, List.set_getElem_self]
        rw [hsame]
        exact h
      | some v => exact h.write hslot (write v)
    · have hnone : m.live.lookup token = none := h.not_live (by simp [hslot, hgen])
      simp only [hnone, hgen, if_false, true_and]
      exact h

/-! ## Removing -/

private theorem checkedAdd_some {g next : UInt64} (h : checkedAdd g = some next) :
    g.toNat ≠ 2 ^ 64 - 1 ∧ next.toNat = g.toNat + 1 := by
  unfold checkedAdd at h
  split at h
  · rename_i hlt
    cases h
    constructor
    · omega
    · rw [UInt64.toNat_add]
      exact Nat.mod_eq_of_lt hlt
  · cases h

private theorem checkedAdd_none {g : UInt64} (h : checkedAdd g = none) : g.toNat = 2 ^ 64 - 1 := by
  have hlt := g.toNat_lt
  unfold checkedAdd at h
  split at h
  · cases h
  · omega

private theorem card_erase (live : Finmap fun _ : Token => T) {token : Token} {v : T}
    (h : live.lookup token = some v) : (live.erase token).keys.card + 1 = live.keys.card := by
  rw [Finmap.keys_erase]
  apply Finset.card_erase_add_one
  rw [Finmap.mem_keys]
  exact Finmap.mem_of_lookup_eq_some h

theorem Refines.release (h : Refines capacity s m) {token : Token} {v : T} {next : UInt64}
    (hslot : s.slots[token.index]? = some ⟨token.generation, some v⟩)
    (hnext : next.toNat = token.generation.toNat + 1) :
    Refines capacity ⟨s.slots.set token.index ⟨next, none⟩, token.index :: s.free⟩
      { m with live := m.live.erase token } := by
  have hlt : token.index < s.slots.length := (List.getElem?_eq_some_iff.mp hslot).1
  obtain ⟨hlow, hhigh, hnotFree⟩ := h.index_pos hslot
  constructor
  · rw [List.length_set]
    exact h.length
  · exact List.nodup_cons.mpr ⟨hnotFree, h.nodup⟩
  · intro i hi
    obtain rfl | hi := List.mem_cons.mp hi
    · exact ⟨hlow, hhigh, next, List.getElem?_set_self hlt⟩
    · exact h.free_set hnotFree (List.Subset.refl s.free) _ i hi
  · rw [List.getElem?_set_ne (by omega)]
    exact h.reserved
  · exact h.live_clear hslot next
  · intro token' hissued
    obtain ⟨slot, hslot', hcase⟩ := h.issued token' hissued
    by_cases hindex : token.index = token'.index
    -- The slot's generation was the removed token's, and every token for it is now below.
    · rw [← hindex, hslot] at hslot'
      cases hslot'
      refine ⟨⟨next, none⟩, ?_, .inl ?_⟩
      · rw [← hindex]
        exact List.getElem?_set_self hlt
      · dsimp only at hcase ⊢
        rw [UInt64.lt_iff_toNat_lt] at hcase ⊢
        obtain hbelow | ⟨hat, -⟩ := hcase
        · omega
        · rw [hat]
          omega
    · refine ⟨slot, ?_, hcase.imp id fun hat => ⟨hat.1, ?_⟩⟩
      · rw [List.getElem?_set_ne hindex]
        exact hslot'
      · rw [List.mem_cons, not_or]
        exact ⟨fun heq => hindex heq.symm, hat.2⟩
  · have hcard := card_erase m.live ((h.live token v).mpr hslot)
    have hcount := h.count
    rw [List.length_cons]
    dsimp only
    omega

theorem Refines.retire (h : Refines capacity s m) {token : Token} {v : T}
    (hslot : s.slots[token.index]? = some ⟨token.generation, some v⟩) :
    Refines capacity { s with slots := s.slots.set token.index ⟨token.generation, none⟩ }
      { m with live := m.live.erase token, retired := m.retired + 1 } := by
  obtain ⟨hlow, -, hnotFree⟩ := h.index_pos hslot
  constructor
  · rw [List.length_set]
    exact h.length
  · exact h.nodup
  · exact h.free_set hnotFree (List.Subset.refl s.free) _
  · rw [List.getElem?_set_ne (by omega)]
    exact h.reserved
  · exact h.live_clear hslot token.generation
  · exact h.issued_put hslot (List.Subset.refl s.free) none
  · have hcard := card_erase m.live ((h.live token v).mpr hslot)
    have hcount := h.count
    dsimp only
    omega

theorem Refines.remove (h : Refines capacity s m) (token : Token) :
    (s.remove token).1 = m.live.lookup token ∧
      Refines capacity (s.remove token).2 (m.removed token) := by
  unfold Slab.remove TokenMap.removed
  cases hslot : s.slots[token.index]? with
  | none =>
    rw [h.not_live (by simp [hslot])]
    exact ⟨rfl, h⟩
  | some slot =>
    by_cases hgen : slot.generation = token.generation
    · have hvalue := h.slot_of_live hslot hgen
      obtain ⟨g, value⟩ := slot
      obtain rfl : g = token.generation := hgen
      simp only [if_true, hvalue]
      cases value with
      | none => exact ⟨rfl, h⟩
      | some v =>
        cases hnext : checkedAdd token.generation with
        | some next =>
          obtain ⟨hnotLast, hnext⟩ := checkedAdd_some hnext
          have hlast : ¬ token.last := hnotLast
          simp only [if_neg hlast, true_and]
          exact h.release hslot hnext
        | none =>
          have hlast : token.last := checkedAdd_none hnext
          simp only [if_pos hlast, true_and]
          exact h.retire hslot
    · have hnone : m.live.lookup token = none := h.not_live (by simp [hslot, hgen])
      simp only [hnone, hgen, if_false, true_and]
      exact h

/-! ## Whole runs -/

theorem Refines.call (h : Refines capacity s m) (c : Call T) :
    ∃ a s' m', s.call c = some (a, s') ∧ Answers capacity m c a m' ∧ Refines capacity s' m' := by
  cases c with
  | insert v =>
    obtain ⟨token, s', m', hinsert, hanswers, h'⟩ := h.insert v
    refine ⟨.inserted token, s', m', ?_, hanswers, h'⟩
    simp only [Slab.call, hinsert, Option.map_some]
  | get token =>
    refine ⟨.value (m.live.lookup token), s, m, ?_, .get, h⟩
    simp only [Slab.call, h.get]
  | getMut token write =>
    obtain ⟨hfound, h'⟩ := h.getMut token write
    refine ⟨.value (m.live.lookup token), _, _, ?_, .getMut, h'⟩
    simp only [Slab.call, hfound]
  | remove token =>
    obtain ⟨hfound, h'⟩ := h.remove token
    refine ⟨.value (m.live.lookup token), _, _, ?_, .remove, h'⟩
    simp only [Slab.call, hfound]

theorem Refines.calls (h : Refines capacity s m) (cs : List (Call T)) :
    ∃ as s' m', s.calls cs = some (as, s') ∧ AnswersAll capacity m cs as m' ∧
      Refines capacity s' m' := by
  induction cs generalizing s m with
  | nil => exact ⟨[], s, m, rfl, .nil, h⟩
  | cons c cs ih =>
    obtain ⟨a, s₁, m₁, hcall, hanswers, h₁⟩ := h.call c
    obtain ⟨as, s₂, m₂, hcalls, hall, h₂⟩ := ih h₁
    refine ⟨a :: as, s₂, m₂, ?_, .cons hanswers hall, h₂⟩
    simp only [Slab.calls, hcall, hcalls, Option.bind_eq_bind, Option.bind_some]

/-- Whatever is asked of a new slab, it answers every call, and its answers are those of a map from
tokens: each insert that succeeds returns a token never returned before, of an index from 1 to the
capacity; an entry is found from its insert to its remove; and an insert fails, with its value back,
exactly when the entries and the slots retired at their last generation fill the capacity. -/
theorem slab_is_token_map (capacity : ℕ) (cs : List (Call T)) :
    ∃ as s m, (Slab.new capacity).calls cs = some (as, s) ∧
      AnswersAll capacity TokenMap.empty cs as m := by
  obtain ⟨as, s, m, hcalls, hanswers, -⟩ := (new_refines capacity).calls cs
  exact ⟨as, s, m, hcalls, hanswers⟩

end DragonsNet.Runtime.SlabMap
