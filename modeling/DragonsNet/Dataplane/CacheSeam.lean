/- GID: DragonsNet/Dataplane/CacheSeam
   source: migration/dataplane/host/src/cache.rs
   digest: The response cache as the effect seam uses it, and how many lead a cold key. -/

import DragonsNet.Dataplane.Cache

set_option autoImplicit false

namespace DragonsNet.Dataplane.CacheSeam

open Cache (Bytes ascii stamp hit)
open Lib.Runs (run Meets invariant_of_meets unique_update)

/-! ## The hot tier -/

structure Entry (ρ : Type) where
  body : Bytes
  storedAt : ℕ
  maxAge : ℕ
  origin : ρ

/-- The store; the in-flight map, whose markers are numbered as they are made; and what has been
published on each of them, with its origin. -/
structure Hot (ρ : Type) where
  store : Bytes → Option (Entry ρ)
  inflight : Bytes → Option ℕ
  done : ℕ → Option (Bytes × ρ)
  flights : ℕ

namespace Hot

variable {ρ : Type}

def cold : Hot ρ := ⟨fun _ => none, fun _ => none, fun _ => none, 0⟩

def age (now : ℕ) (e : Entry ρ) : ℕ := (now - e.storedAt) / 10 ^ 9

def drop (h : Hot ρ) (key : Bytes) : Hot ρ :=
  { h with store := Function.update h.store key none }

/-- `try_hit`: a fresh entry is replayed with its age, a stale one dropped. -/
def tryHit (h : Hot ρ) (now : ℕ) (key : Bytes) : Hot ρ × Option (Bytes × ρ) :=
  match h.store key with
  | none => (h, none)
  | some e =>
    if age now e < e.maxAge then (h, some (stamp e.body hit (some (age now e)), e.origin))
    else (h.drop key, none)

def mark (h : Hot ρ) (key : Bytes) : Hot ρ :=
  { h with inflight := Function.update h.inflight key (some h.flights), flights := h.flights + 1 }

def insert (h : Hot ρ) (now : ℕ) (key resp : Bytes) (lifetime : ℕ) (origin : ρ) : Hot ρ :=
  if lifetime ≠ 0 then
    { h with store := Function.update h.store key (some ⟨resp, now, lifetime, origin⟩) }
  else h

/-- The second half of `store`: the marker is removed and its waiters get the response. -/
def publish (h : Hot ρ) (key resp : Bytes) (origin : ρ) : Hot ρ :=
  match h.inflight key with
  | none => h
  | some flight =>
    { h with
      inflight := Function.update h.inflight key none
      done := if h.done flight = none then Function.update h.done flight (some (resp, origin))
        else h.done }

def purgeAll (h : Hot ρ) : Hot ρ := { h with store := fun _ => none }

end Hot

/-- Where a lookup stands: before the store's lock, before the in-flight lock, waiting for what is
published on a marker, and before the store's lock again after a wait that timed out. -/
inductive Lookup where
  | looking
  | electing
  | waiting (flight : ℕ)
  | rechecking
  deriving DecidableEq, Repr

inductive Probe (ρ : Type) where
  | hit (answer : Bytes) (origin : ρ)
  | leader
  | waiter

variable {ρ : Type}

/-- One critical section of `lookup_coalescing`, which blocks, or of `lookup_effect_nb`. A wait ends
with a publication, or, if it has timed out without one, in a second look at the store. -/
def Hot.lookup (h : Hot ρ) (now : ℕ) (key : Bytes) (blocking timedOut : Bool) :
    Lookup → Option (Hot ρ × (Lookup ⊕ Probe ρ))
  | .looking =>
    match h.tryHit now key with
    | (h, some (answer, origin)) => some (h, .inr (.hit answer origin))
    | (h, none) => some (h, .inl .electing)
  | .electing =>
    match h.inflight key with
    | some flight => some (h, if blocking then .inl (.waiting flight) else .inr .waiter)
    | none => some (h.mark key, .inr .leader)
  | .waiting flight =>
    match h.done flight with
    | some (resp, origin) => some (h, .inr (.hit (stamp resp hit (some 0)) origin))
    | none => if timedOut then some (h, .inl .rechecking) else none
  | .rechecking =>
    match h.tryHit now key with
    | (h, some (answer, origin)) => some (h, .inr (.hit answer origin))
    | (h, none) => some (h, .inr .leader)

inductive Missed (h : Hot ρ) (now : ℕ) (key : Bytes) : Hot ρ → Prop where
  | absent (habsent : h.store key = none) : Missed h now key h
  | stale (e : Entry ρ) (he : h.store key = some e) (hold : ¬Hot.age now e < e.maxAge) :
    Missed h now key (h.drop key)

private theorem tryHit_cases (h : Hot ρ) (now : ℕ) (key : Bytes) :
    (∃ e, h.store key = some e ∧ Hot.age now e < e.maxAge ∧
      h.tryHit now key = (h, some (stamp e.body hit (some (Hot.age now e)), e.origin))) ∨
    ∃ h', Missed h now key h' ∧ h.tryHit now key = (h', none) := by
  rw [Hot.tryHit]
  cases he : h.store key with
  | none => exact .inr ⟨h, .absent he, rfl⟩
  | some e =>
    by_cases hfresh : Hot.age now e < e.maxAge
    · exact .inl ⟨e, rfl, hfresh, if_pos hfresh⟩
    · exact .inr ⟨h.drop key, .stale e he hfresh, if_neg hfresh⟩

inductive Looks (h : Hot ρ) (now : ℕ) (key : Bytes) (blocking timedOut : Bool) :
    Lookup → Hot ρ → Lookup ⊕ Probe ρ → Prop where
  | hit {stage : Lookup} (e : Entry ρ) (hstage : stage = .looking ∨ stage = .rechecking)
    (he : h.store key = some e) (hfresh : Hot.age now e < e.maxAge) :
    Looks h now key blocking timedOut stage h
      (.inr (.hit (stamp e.body Cache.hit (some (Hot.age now e))) e.origin))
  | miss {h' : Hot ρ} (hmiss : Missed h now key h') :
    Looks h now key blocking timedOut .looking h' (.inl .electing)
  | remiss {h' : Hot ρ} (hmiss : Missed h now key h') :
    Looks h now key blocking timedOut .rechecking h' (.inr .leader)
  | join (flight : ℕ) (hflight : h.inflight key = some flight) (hblocking : blocking = true) :
    Looks h now key blocking timedOut .electing h (.inl (.waiting flight))
  | report (flight : ℕ) (hflight : h.inflight key = some flight) (hblocking : blocking = false) :
    Looks h now key blocking timedOut .electing h (.inr .waiter)
  | lead (hnone : h.inflight key = none) :
    Looks h now key blocking timedOut .electing (h.mark key) (.inr .leader)
  | wake (flight : ℕ) (resp : Bytes) (origin : ρ) (hdone : h.done flight = some (resp, origin)) :
    Looks h now key blocking timedOut (.waiting flight) h
      (.inr (.hit (stamp resp Cache.hit (some 0)) origin))
  | timeOut (flight : ℕ) (hdone : h.done flight = none) (htime : timedOut = true) :
    Looks h now key blocking timedOut (.waiting flight) h (.inl .rechecking)

theorem looks_of_lookup {h h' : Hot ρ} {now : ℕ} {key : Bytes} {blocking timedOut : Bool}
    {stage : Lookup} {r : Lookup ⊕ Probe ρ}
    (hlookup : h.lookup now key blocking timedOut stage = some (h', r)) :
    Looks h now key blocking timedOut stage h' r := by
  cases stage with
  | looking =>
    rw [Hot.lookup] at hlookup
    obtain ⟨e, he, hfresh, heq⟩ | ⟨h'', hmiss, heq⟩ := tryHit_cases h now key
    · rw [heq] at hlookup
      cases hlookup
      exact .hit e (.inl rfl) he hfresh
    · rw [heq] at hlookup
      cases hlookup
      exact .miss hmiss
  | rechecking =>
    rw [Hot.lookup] at hlookup
    obtain ⟨e, he, hfresh, heq⟩ | ⟨h'', hmiss, heq⟩ := tryHit_cases h now key
    · rw [heq] at hlookup
      cases hlookup
      exact .hit e (.inr rfl) he hfresh
    · rw [heq] at hlookup
      cases hlookup
      exact .remiss hmiss
  | electing =>
    rw [Hot.lookup] at hlookup
    cases hflight : h.inflight key with
    | none =>
      rw [hflight] at hlookup
      cases hlookup
      exact .lead hflight
    | some flight =>
      rw [hflight] at hlookup
      cases hblocking : blocking with
      | true =>
        rw [hblocking] at hlookup
        cases hlookup
        exact .join flight hflight rfl
      | false =>
        rw [hblocking] at hlookup
        cases hlookup
        exact .report flight hflight rfl
  | waiting flight =>
    rw [Hot.lookup] at hlookup
    cases hdone : h.done flight with
    | none =>
      rw [hdone] at hlookup
      cases htime : timedOut with
      | true =>
        rw [htime] at hlookup
        cases hlookup
        exact .timeOut flight hdone rfl
      | false =>
        rw [htime] at hlookup
        cases hlookup
    | some published =>
      obtain ⟨resp, origin⟩ := published
      rw [hdone] at hlookup
      cases hlookup
      exact .wake flight resp origin hdone

/-- Markers are numbered apart, and nothing is published on one that is still in the map. -/
structure Hot.Sound (h : Hot ρ) : Prop where
  made : ∀ {key flight}, h.inflight key = some flight → flight < h.flights
  undone : ∀ {key flight}, h.inflight key = some flight → h.done flight = none
  key_inj : ∀ {key key' flight}, h.inflight key = some flight → h.inflight key' = some flight →
    key = key'
  unmade : ∀ {flight}, h.flights ≤ flight → h.done flight = none

namespace Hot

variable {h : Hot ρ}

theorem sound_cold : (cold : Hot ρ).Sound where
  made := fun hf => (Option.some_ne_none _ hf.symm).elim
  undone := fun hf => (Option.some_ne_none _ hf.symm).elim
  key_inj := fun hf => (Option.some_ne_none _ hf.symm).elim
  unmade := fun _ => rfl

theorem Sound.of_eq {h' : Hot ρ} (hs : h.Sound) (hinflight : h'.inflight = h.inflight)
    (hdone : h'.done = h.done) (hflights : h'.flights = h.flights) : h'.Sound := by
  obtain ⟨store, inflight, done, flights⟩ := h'
  cases hinflight
  cases hdone
  cases hflights
  exact ⟨hs.made, hs.undone, hs.key_inj, hs.unmade⟩

theorem insert_inflight (h : Hot ρ) (now : ℕ) (key resp : Bytes) (lifetime : ℕ) (origin : ρ) :
    (h.insert now key resp lifetime origin).inflight = h.inflight ∧
      (h.insert now key resp lifetime origin).done = h.done ∧
      (h.insert now key resp lifetime origin).flights = h.flights := by
  rw [insert]
  split
  · exact ⟨rfl, rfl, rfl⟩
  · exact ⟨rfl, rfl, rfl⟩

theorem Sound.insert (hs : h.Sound) (now : ℕ) (key resp : Bytes) (lifetime : ℕ) (origin : ρ) :
    (h.insert now key resp lifetime origin).Sound :=
  have hsame := insert_inflight h now key resp lifetime origin
  hs.of_eq hsame.1 hsame.2.1 hsame.2.2

theorem mark_inflight (h : Hot ρ) (key key' : Bytes) :
    (h.mark key).inflight key' = if key' = key then some h.flights else h.inflight key' :=
  Function.update_apply ..

theorem Sound.mark (hs : h.Sound) (key : Bytes) : (h.mark key).Sound where
  made := by
    intro key' flight hf
    rw [mark_inflight] at hf
    split at hf
    · exact Option.some.inj hf ▸ Nat.lt_succ_self _
    · exact Nat.lt_succ_of_lt (hs.made hf)
  undone := by
    intro key' flight hf
    rw [mark_inflight] at hf
    split at hf
    · exact hs.unmade (Option.some.inj hf).le
    · exact hs.undone hf
  key_inj := by
    intro key₁ key₂ flight h₁ h₂
    rw [mark_inflight] at h₁ h₂
    split at h₁
    · split at h₂
      · rename_i heq₁ heq₂
        exact heq₁.trans heq₂.symm
      · exact absurd (hs.made h₂) (Option.some.inj h₁ ▸ Nat.lt_irrefl _)
    · split at h₂
      · exact absurd (hs.made h₁) (Option.some.inj h₂ ▸ Nat.lt_irrefl _)
      · exact hs.key_inj h₁ h₂
  unmade := fun hle => hs.unmade (Nat.le_of_succ_le hle)

theorem publish_inflight (h : Hot ρ) (key resp : Bytes) (origin : ρ) (key' : Bytes) :
    (h.publish key resp origin).inflight key' = if key' = key then none else h.inflight key' := by
  rw [publish]
  cases hf : h.inflight key with
  | none =>
    dsimp only
    by_cases heq : key' = key
    · rw [if_pos heq, heq, hf]
    · rw [if_neg heq]
  | some flight => exact Function.update_apply ..

theorem publish_done (hs : h.Sound) (key resp : Bytes) (origin : ρ) (flight : ℕ) :
    (h.publish key resp origin).done flight =
      if h.inflight key = some flight then some (resp, origin) else h.done flight := by
  rw [publish]
  cases hf : h.inflight key with
  | none => rfl
  | some f =>
    dsimp only
    rw [if_pos (hs.undone hf), Function.update_apply]
    simp only [Option.some.injEq, eq_comm]

theorem publish_flights (h : Hot ρ) (key resp : Bytes) (origin : ρ) :
    (h.publish key resp origin).flights = h.flights ∧
      (h.publish key resp origin).store = h.store := by
  rw [publish]
  cases h.inflight key with
  | none => exact ⟨rfl, rfl⟩
  | some flight => exact ⟨rfl, rfl⟩

theorem Sound.publish (hs : h.Sound) (key resp : Bytes) (origin : ρ) :
    (h.publish key resp origin).Sound := by
  have hin := publish_inflight h key resp origin
  have hdone := publish_done hs key resp origin
  obtain ⟨hflights, -⟩ := publish_flights h key resp origin
  have hold : ∀ {key' flight}, (h.publish key resp origin).inflight key' = some flight →
      key' ≠ key ∧ h.inflight key' = some flight := by
    intro key' flight hf
    rw [hin] at hf
    split at hf
    · cases hf
    · rename_i hne
      exact ⟨hne, hf⟩
  refine ⟨fun hf => hflights ▸ hs.made (hold hf).2, fun {key' flight} hf => ?_,
    fun h₁ h₂ => hs.key_inj (hold h₁).2 (hold h₂).2, fun {flight} hle => ?_⟩
  · obtain ⟨hne, hf⟩ := hold hf
    rw [hdone, if_neg fun hkey => hne (hs.key_inj hf hkey)]
    exact hs.undone hf
  · rw [hflights] at hle
    rw [hdone, if_neg fun hkey => absurd (hs.made hkey) (Nat.not_lt.mpr hle)]
    exact hs.unmade hle

end Hot

theorem Missed.sound {h h' : Hot ρ} {now : ℕ} {key : Bytes} (hmiss : Missed h now key h')
    (hs : h.Sound) : h'.Sound := by
  cases hmiss with
  | absent => exact hs
  | stale e he hold => exact hs.of_eq rfl rfl rfl

/-! ## Callers of one cache -/

variable {ι : Type}

/-- A call of one of the two lookups, and, where it is told to lead, of `store` after it. -/
inductive Call (ι : Type) where
  | idle
  | looking (key : Bytes) (blocking : Bool) (stage : Lookup)
  | led (key : Bytes)
  | inserting (key resp : Bytes) (lifetime : ℕ)
  | publishing (key resp : Bytes)
  | stored (key resp : Bytes)
  | answered (key answer : Bytes) (origin : ι)
  | waiter (key : Bytes)

structure State (ι : Type) where
  hot : Hot ι
  now : ℕ
  calls : ι → Call ι

def start : State ι := ⟨.cold, 0, fun _ => .idle⟩

inductive Action (ι : Type) where
  | lookup (i : ι) (key : Bytes) (blocking : Bool)
  | go (i : ι) (timedOut : Bool)
  | store (i : ι) (resp : Bytes) (lifetime : ℕ)
  | tick (nanos : ℕ)
  | purge

def Call.after (key : Bytes) (blocking : Bool) : Lookup ⊕ Probe ι → Call ι
  | .inl stage => .looking key blocking stage
  | .inr (.hit answer origin) => .answered key answer origin
  | .inr .leader => .led key
  | .inr .waiter => .waiter key

variable [DecidableEq ι]

def State.move (s : State ι) (i : ι) (hot : Hot ι) (call : Call ι) : State ι :=
  { s with hot, calls := Function.update s.calls i call }

def go (s : State ι) (i : ι) (timedOut : Bool) : Option (State ι) :=
  match s.calls i with
  | .looking key blocking stage =>
    (s.hot.lookup s.now key blocking timedOut stage).map fun (hot, r) =>
      s.move i hot (.after key blocking r)
  | .inserting key resp lifetime =>
    some (s.move i (s.hot.insert s.now key resp lifetime i) (.publishing key resp))
  | .publishing key resp => some (s.move i (s.hot.publish key resp i) (.stored key resp))
  | _ => none

def step (s : State ι) : Action ι → Option (State ι)
  | .lookup i key blocking =>
    match s.calls i with
    | .idle => some (s.move i s.hot (.looking key blocking .looking))
    | _ => none
  | .go i timedOut => go s i timedOut
  | .store i resp lifetime =>
    match s.calls i with
    | .led key => some (s.move i s.hot (.inserting key resp lifetime))
    | _ => none
  | .tick nanos => some { s with now := s.now + nanos }
  | .purge => some { s with hot := s.hot.purgeAll }

/-! ## One leader -/

def Call.leads : Call ι → Option Bytes
  | .led key | .inserting key _ _ | .publishing key _ | .stored key _ => some key
  | _ => none

def Call.pending : Call ι → Option Bytes
  | .led key | .inserting key _ _ | .publishing key _ => some key
  | _ => none

def Call.Holds (c : Call ι) (key resp : Bytes) : Prop :=
  c = .publishing key resp ∨ c = .stored key resp

/-- No entry found is expired, and no wait times out. -/
def UndisturbedLookup (h : Hot ι) (now : ℕ) (key : Bytes) (timedOut : Bool) : Lookup → Prop
  | .looking => ∀ e ∈ h.store key, Hot.age now e < e.maxAge
  | .electing => True
  | .waiting _ => timedOut = false
  | .rechecking => False

instance decidableUndisturbedLookup (h : Hot ι) (now : ℕ) (key : Bytes) (timedOut : Bool) :
    ∀ stage, Decidable (UndisturbedLookup h now key timedOut stage)
  | .looking => inferInstanceAs (Decidable (∀ e ∈ h.store key, Hot.age now e < e.maxAge))
  | .electing => isTrue trivial
  | .waiting _ => inferInstanceAs (Decidable (timedOut = false))
  | .rechecking => isFalse id

/-- A lookup that finds no marker finds nothing in the store either. -/
def RecheckedLookup (h : Hot ι) (key : Bytes) (stage : Lookup) : Prop :=
  stage = .electing → h.inflight key = none → (h.store key).isNone

def Call.Meeting (P : Bytes → Lookup → Prop) : Call ι → Prop
  | .looking key _ stage => P key stage
  | _ => True

instance decidableMeeting (P : Bytes → Lookup → Prop) [∀ key stage, Decidable (P key stage)] :
    ∀ c : Call ι, Decidable (c.Meeting P)
  | .looking key _ stage => inferInstanceAs (Decidable (P key stage))
  | .idle => isTrue trivial
  | .led _ => isTrue trivial
  | .inserting _ _ _ => isTrue trivial
  | .publishing _ _ => isTrue trivial
  | .stored _ _ => isTrue trivial
  | .answered _ _ _ => isTrue trivial
  | .waiter _ => isTrue trivial

/-- Nothing expires, times out or is purged, and what is stored has a lifetime. -/
def Undisturbed (s : State ι) : Action ι → Prop
  | .go i timedOut => (s.calls i).Meeting (UndisturbedLookup s.hot s.now · timedOut ·)
  | .store _ _ lifetime => lifetime ≠ 0
  | .purge => False
  | .lookup _ _ _ => True
  | .tick _ => True

instance decidableUndisturbed (s : State ι) : ∀ a, Decidable (Undisturbed s a)
  | .go i timedOut =>
    inferInstanceAs (Decidable ((s.calls i).Meeting (UndisturbedLookup s.hot s.now · timedOut ·)))
  | .store _ _ lifetime => inferInstanceAs (Decidable (lifetime ≠ 0))
  | .purge => isFalse id
  | .lookup _ _ _ => isTrue trivial
  | .tick _ => isTrue trivial

/-- Every election that finds no marker finds the store empty. -/
def Rechecked (s : State ι) : Action ι → Prop
  | .go i _ => (s.calls i).Meeting (RecheckedLookup s.hot)
  | _ => True

instance decidableRechecked (s : State ι) : ∀ a, Decidable (Rechecked s a)
  | .go i _ => inferInstanceAs (Decidable ((s.calls i).Meeting fun key stage =>
      stage = .electing → s.hot.inflight key = none → (s.hot.store key).isNone))
  | .store _ _ _ => isTrue trivial
  | .purge => isTrue trivial
  | .lookup _ _ _ => isTrue trivial
  | .tick _ => isTrue trivial

structure Inv (s : State ι) : Prop where
  sound : s.hot.Sound
  one : ∀ i j key, (s.calls i).leads = some key → (s.calls j).leads = some key → i = j
  entry : ∀ key e, s.hot.store key = some e → (s.calls e.origin).Holds key e.body
  filled : ∀ i key resp, (s.calls i).Holds key resp → (s.hot.store key).isSome
  marked : ∀ i key, (s.calls i).pending = some key → (s.hot.inflight key).isSome
  lifetime : ∀ i key resp lifetime, s.calls i = .inserting key resp lifetime → lifetime ≠ 0
  waiting : ∀ i key blocking flight, s.calls i = .looking key blocking (.waiting flight) →
    s.hot.inflight key = some flight ∨
      ∃ resp o, s.hot.done flight = some (resp, o) ∧ (s.calls o).Holds key resp
  answered : ∀ i key answer o, s.calls i = .answered key answer o →
    ∃ resp age, answer = stamp resp hit (some age) ∧ (s.calls o).Holds key resp

omit [DecidableEq ι] in
theorem start_inv : Inv (start : State ι) where
  sound := Hot.sound_cold
  one := fun _ _ _ h => by cases h
  entry := fun _ _ h => by cases h
  filled := fun _ _ _ h => by rcases h with h | h <;> cases h
  marked := fun _ _ h => by cases h
  lifetime := fun _ _ _ _ h => by cases h
  waiting := fun _ _ _ _ h => by cases h
  answered := fun _ _ _ _ h => by cases h

omit [DecidableEq ι] in
private theorem Call.leads_of_pending {c : Call ι} {key : Bytes} (h : c.pending = some key) :
    c.leads = some key := by
  cases c with
  | led => exact h
  | inserting => exact h
  | publishing => exact h
  | _ => cases h

omit [DecidableEq ι] in
private theorem Call.pending_or_stored {c : Call ι} {key : Bytes} (h : c.leads = some key) :
    c.pending = some key ∨ ∃ resp, c = .stored key resp := by
  cases c with
  | led => exact .inl h
  | inserting => exact .inl h
  | publishing => exact .inl h
  | stored key' resp => exact .inr ⟨resp, by cases h; rfl⟩
  | _ => cases h

omit [DecidableEq ι] in
private theorem Call.leads_of_holds {c : Call ι} {key resp : Bytes} (h : c.Holds key resp) :
    c.leads = some key := by
  rcases h with rfl | rfl <;> rfl

private theorem State.move_calls (s : State ι) (i : ι) (hot : Hot ι) (c : Call ι) (j : ι) :
    j = i ∧ (s.move i hot c).calls j = c ∨ j ≠ i ∧ (s.move i hot c).calls j = s.calls j := by
  by_cases hji : j = i
  · subst hji
    exact .inl ⟨rfl, Function.update_self ..⟩
  · exact .inr ⟨hji, Function.update_of_ne hji ..⟩

theorem Inv.move {s : State ι} (h : Inv s) {i : ι} {hot : Hot ι} {c : Call ι}
    (hsound : hot.Sound)
    (hkept : ∀ key resp, (s.calls i).Holds key resp → c.Holds key resp)
    (hone : ∀ key, c.leads = some key →
      (s.calls i).leads = some key ∨ ∀ j, (s.calls j).leads ≠ some key)
    (hentry : ∀ key e, hot.store key = some e →
      s.hot.store key = some e ∨ e.origin = i ∧ c.Holds key e.body)
    (hstore : ∀ key, (s.hot.store key).isSome → (hot.store key).isSome)
    (hfilled : ∀ key resp, c.Holds key resp → (hot.store key).isSome)
    (hmarks : ∀ key, (s.hot.inflight key).isSome → (hot.inflight key).isSome ∨
      (s.calls i).leads = some key ∧ c.pending = none)
    (hmarked : ∀ key, c.pending = some key → (hot.inflight key).isSome)
    (hlifetime : ∀ key resp lifetime, c = .inserting key resp lifetime → lifetime ≠ 0)
    (hflights : ∀ key flight, s.hot.inflight key = some flight → hot.inflight key = some flight ∨
      ∃ resp, hot.done flight = some (resp, i) ∧ c.Holds key resp)
    (hdone : ∀ flight published, s.hot.done flight = some published →
      hot.done flight = some published)
    (hwaiting : ∀ key blocking flight, c = .looking key blocking (.waiting flight) →
      s.hot.inflight key = some flight)
    (hanswered : ∀ key answer o, c = .answered key answer o →
      ∃ resp age, answer = stamp resp hit (some age) ∧ (s.calls o).Holds key resp) :
    Inv (s.move i hot c) := by
  have hcalls := s.move_calls i hot c
  have hself : (s.move i hot c).calls i = c := Function.update_self ..
  have hholds : ∀ o key resp, (s.calls o).Holds key resp →
      ((s.move i hot c).calls o).Holds key resp := by
    intro o key resp ho
    rcases hcalls o with ⟨rfl, hc⟩ | ⟨-, hc⟩ <;> rw [hc]
    · exact hkept key resp ho
    · exact ho
  have hstays : ∀ key flight, s.hot.inflight key = some flight ∨
      (∃ resp o, s.hot.done flight = some (resp, o) ∧ (s.calls o).Holds key resp) →
      hot.inflight key = some flight ∨
        ∃ resp o, hot.done flight = some (resp, o) ∧ ((s.move i hot c).calls o).Holds key resp := by
    rintro key flight (hf | ⟨resp, o, hd, ho⟩)
    · refine (hflights key flight hf).imp_right ?_
      rintro ⟨resp, hd, hc⟩
      exact ⟨resp, i, hd, hself.symm ▸ hc⟩
    · exact .inr ⟨resp, o, hdone flight _ hd, hholds o key resp ho⟩
  refine ⟨hsound, unique_update Call.leads h.one hone, fun key e he => ?_, fun j key resp hj => ?_,
    fun j key hj => ?_, fun j key resp lifetime hj => ?_, fun j key blocking flight hj => ?_,
    fun j key answer o hj => ?_⟩
  · rcases hentry key e he with hold | ⟨ho, hc⟩
    · exact hholds _ _ _ (h.entry key e hold)
    · rw [ho, hself]
      exact hc
  · rcases hcalls j with ⟨rfl, hc⟩ | ⟨-, hc⟩ <;> rw [hc] at hj
    · exact hfilled key resp hj
    · exact hstore key (h.filled j key resp hj)
  · rcases hcalls j with ⟨rfl, hc⟩ | ⟨hji, hc⟩ <;> rw [hc] at hj
    · exact hmarked key hj
    · rcases hmarks key (h.marked j key hj) with hm | ⟨hi, hnone⟩
      · exact hm
      · exact absurd (h.one j i key (Call.leads_of_pending hj) hi) hji
  · rcases hcalls j with ⟨rfl, hc⟩ | ⟨-, hc⟩ <;> rw [hc] at hj
    · exact hlifetime key resp lifetime hj
    · exact h.lifetime j key resp lifetime hj
  · refine hstays key flight ?_
    rcases hcalls j with ⟨rfl, hc⟩ | ⟨-, hc⟩ <;> rw [hc] at hj
    · exact .inl (hwaiting key blocking flight hj)
    · exact h.waiting j key blocking flight hj
  · obtain ⟨resp, age, ha, ho⟩ : ∃ resp age, answer = stamp resp hit (some age) ∧
        (s.calls o).Holds key resp := by
      rcases hcalls j with ⟨rfl, hc⟩ | ⟨-, hc⟩ <;> rw [hc] at hj
      · exact hanswered key answer o hj
      · exact h.answered j key answer o hj
    exact ⟨resp, age, ha, hholds o key resp ho⟩

theorem Inv.think {s : State ι} (h : Inv s) {i : ι} {c : Call ι} (hi : (s.calls i).leads = none)
    (hc : c.leads = none)
    (hwaiting : ∀ key blocking flight, c = .looking key blocking (.waiting flight) →
      s.hot.inflight key = some flight)
    (hanswered : ∀ key answer o, c = .answered key answer o →
      ∃ resp age, answer = stamp resp hit (some age) ∧ (s.calls o).Holds key resp) :
    Inv (s.move i s.hot c) := by
  have hnoLead : ∀ key, c.leads ≠ some key := fun key => by simp [hc]
  have hnoHold : ∀ key resp, ¬c.Holds key resp := fun key resp hh =>
    hnoLead key (Call.leads_of_holds hh)
  refine h.move h.sound (fun key resp hh => ?_) (fun key hl => absurd hl (hnoLead key))
    (fun _ _ he => .inl he) (fun _ hs => hs) (fun key resp hh => absurd hh (hnoHold key resp))
    (fun _ hm => .inl hm) (fun key hp => absurd (Call.leads_of_pending hp) (hnoLead key)) ?_
    (fun _ _ hf => .inl hf) (fun _ _ hd => hd) hwaiting hanswered
  · have hleads := Call.leads_of_holds hh
    rw [hi] at hleads
    cases hleads
  · rintro key resp lifetime rfl
    cases hc

theorem Inv.lead {s : State ι} (h : Inv s) {i : ι} {key : Bytes} (hi : (s.calls i).leads = none)
    (hmarker : s.hot.inflight key = none) (hcold : s.hot.store key = none) :
    Inv (s.move i (s.hot.mark key) (.led key)) := by
  have hnobody : ∀ j, (s.calls j).leads ≠ some key := by
    intro j hj
    rcases Call.pending_or_stored hj with hpending | ⟨resp, hstored⟩
    · have hmarked := h.marked j key hpending
      rw [hmarker] at hmarked
      cases hmarked
    · have hfilled := h.filled j key resp (.inr hstored)
      rw [hcold] at hfilled
      cases hfilled
  have hsame : ∀ key' flight, s.hot.inflight key' = some flight →
      (s.hot.mark key).inflight key' = some flight := by
    intro key' flight hf
    rw [Hot.mark_inflight, if_neg]
    · exact hf
    · rintro rfl
      rw [hmarker] at hf
      cases hf
  refine h.move (h.sound.mark key) (fun key' resp hh => ?_) (fun key' hl => .inr ?_)
    (fun _ _ he => .inl he) (fun _ hs => hs) (fun _ _ hh => by rcases hh with hh | hh <;> cases hh)
    (fun key' hm => .inl ?_) (fun key' hp => ?_) (fun _ _ _ hc => by cases hc)
    (fun key' flight hf => .inl (hsame key' flight hf)) (fun _ _ hd => hd)
    (fun _ _ _ hc => by cases hc) (fun _ _ _ hc => by cases hc)
  · have hleads := Call.leads_of_holds hh
    rw [hi] at hleads
    cases hleads
  · cases hl
    exact hnobody
  · obtain ⟨flight, hf⟩ := Option.isSome_iff_exists.mp hm
    rw [hsame key' flight hf]
    rfl
  · cases hp
    rw [Hot.mark_inflight, if_pos rfl]
    rfl

theorem Inv.begin {s : State ι} (h : Inv s) {i : ι} {key resp : Bytes} {lifetime : ℕ}
    (hi : s.calls i = .led key) (hlifetime : lifetime ≠ 0) :
    Inv (s.move i s.hot (.inserting key resp lifetime)) := by
  refine h.move h.sound (fun _ _ hh => ?_) (fun key' hl => .inl (by rw [hi]; exact hl))
    (fun _ _ he => .inl he) (fun _ hs => hs) (fun _ _ hh => by rcases hh with hh | hh <;> cases hh)
    (fun _ hm => .inl hm) (fun key' hp => h.marked i key' (by rw [hi]; exact hp)) ?_
    (fun _ _ hf => .inl hf) (fun _ _ hd => hd) (fun _ _ _ hc => by cases hc)
    (fun _ _ _ hc => by cases hc)
  · rw [hi] at hh
    rcases hh with hh | hh <;> cases hh
  · rintro _ _ _ hc
    cases hc
    exact hlifetime

theorem Inv.insert {s : State ι} (h : Inv s) {i : ι} {key resp : Bytes} {lifetime : ℕ}
    (hi : s.calls i = .inserting key resp lifetime) :
    Inv (s.move i (s.hot.insert s.now key resp lifetime i) (.publishing key resp)) := by
  have hstore : ∀ key', (s.hot.insert s.now key resp lifetime i).store key' =
      if key' = key then some ⟨resp, s.now, lifetime, i⟩ else s.hot.store key' := by
    intro key'
    rw [Hot.insert, if_pos (h.lifetime i key resp lifetime hi)]
    exact Function.update_apply ..
  obtain ⟨hin, hdone, -⟩ := Hot.insert_inflight s.hot s.now key resp lifetime i
  refine h.move (h.sound.insert ..) (fun _ _ hh => ?_) (fun key' hl => .inl (by rw [hi]; exact hl))
    (fun key' e he => ?_) (fun key' hs => ?_) (fun key' resp' hh => ?_)
    (fun _ hm => .inl (by rw [hin]; exact hm))
    (fun key' hp => by rw [hin]; exact h.marked i key' (by rw [hi]; exact hp))
    (fun _ _ _ hc => by cases hc) (fun _ _ hf => .inl (by rw [hin]; exact hf))
    (fun _ _ hd => by rw [hdone]; exact hd) (fun _ _ _ hc => by cases hc)
    (fun _ _ _ hc => by cases hc)
  · rw [hi] at hh
    rcases hh with hh | hh <;> cases hh
  · rw [hstore] at he
    split at he
    · rename_i heq
      cases he
      exact .inr ⟨rfl, .inl (by rw [heq])⟩
    · exact .inl he
  · rw [hstore]
    split
    · rfl
    · exact hs
  · rw [hstore]
    rcases hh with hh | hh
    · cases hh
      rw [if_pos rfl]
      rfl
    · cases hh

theorem Inv.publish {s : State ι} (h : Inv s) {i : ι} {key resp : Bytes}
    (hi : s.calls i = .publishing key resp) :
    Inv (s.move i (s.hot.publish key resp i) (.stored key resp)) := by
  have hin := Hot.publish_inflight s.hot key resp i
  have hdone := Hot.publish_done h.sound key resp i
  obtain ⟨-, hstore⟩ := Hot.publish_flights s.hot key resp i
  refine h.move (h.sound.publish ..) (fun key' resp' hh => ?_)
    (fun key' hl => .inl (by rw [hi]; exact hl)) (fun key' e he => .inl (hstore ▸ he))
    (fun key' hs => hstore ▸ hs) (fun key' resp' hh => ?_) (fun key' hm => ?_)
    (fun _ hp => by cases hp) (fun _ _ _ hc => by cases hc) (fun key' flight hf => ?_)
    (fun flight published hd => ?_) (fun _ _ _ hc => by cases hc) (fun _ _ _ hc => by cases hc)
  · rw [hi] at hh
    rcases hh with hh | hh
    · cases hh
      exact .inr rfl
    · cases hh
  · rw [hstore]
    rcases hh with hh | hh
    · cases hh
    · cases hh
      exact h.filled i key resp (.inl hi)
  · by_cases heq : key' = key
    · exact .inr ⟨by rw [hi, heq]; rfl, rfl⟩
    · rw [hin, if_neg heq]
      exact .inl hm
  · by_cases heq : key' = key
    · refine .inr ⟨resp, ?_, .inr (by rw [heq])⟩
      rw [hdone, if_pos (heq ▸ hf)]
    · rw [hin, if_neg heq]
      exact .inl hf
  · -- nothing was published on a marker that is still in the map
    rw [hdone, if_neg]
    · exact hd
    · intro hf
      rw [h.sound.undone hf] at hd
      cases hd

theorem lookup_inv {s : State ι} (h : Inv s) {i : ι} {key : Bytes} {blocking timedOut : Bool}
    {stage : Lookup} {hot : Hot ι} {r : Lookup ⊕ Probe ι}
    (hi : s.calls i = .looking key blocking stage)
    (hok : UndisturbedLookup s.hot s.now key timedOut stage)
    (hrechecked : RecheckedLookup s.hot key stage)
    (hlooks : Looks s.hot s.now key blocking timedOut stage hot r) :
    Inv (s.move i hot (.after key blocking r)) := by
  have hleads : (s.calls i).leads = none := by rw [hi]; rfl
  cases hlooks with
  | hit e hstage he hfresh =>
    refine h.think hleads rfl (fun _ _ _ hc => by cases hc) fun _ _ _ hc => ?_
    cases hc
    exact ⟨e.body, _, rfl, h.entry key e he⟩
  | miss hmiss =>
    cases hmiss with
    | absent => exact h.think hleads rfl (fun _ _ _ hc => by cases hc) fun _ _ _ hc => by cases hc
    | stale e he hold => exact absurd (hok e he) hold
  | remiss hmiss => exact hok.elim
  | join flight hflight hblocking =>
    refine h.think hleads rfl (fun _ _ _ hc => ?_) fun _ _ _ hc => by cases hc
    cases hc
    exact hflight
  | report flight hflight hblocking =>
    exact h.think hleads rfl (fun _ _ _ hc => by cases hc) fun _ _ _ hc => by cases hc
  | lead hnone =>
    exact h.lead hleads hnone (Option.isNone_iff_eq_none.mp (hrechecked rfl hnone))
  | wake flight resp origin hdone =>
    refine h.think hleads rfl (fun _ _ _ hc => by cases hc) fun _ _ _ hc => ?_
    cases hc
    rcases h.waiting i key blocking flight hi with hf | ⟨resp', o, hd, ho⟩
    · rw [h.sound.undone hf] at hdone
      cases hdone
    · rw [hdone] at hd
      cases hd
      exact ⟨resp, 0, rfl, ho⟩
  | timeOut flight hdone htime =>
    rw [hok] at htime
    cases htime

theorem step_inv {s t : State ι} {a : Action ι} (h : Inv s)
    (hok : Undisturbed s a ∧ Rechecked s a) (hstep : step s a = some t) : Inv t := by
  cases a with
  | lookup i key blocking =>
    simp only [step] at hstep
    cases hi : s.calls i with
    | idle =>
      rw [hi] at hstep
      cases hstep
      exact h.think (by rw [hi]; rfl) rfl (fun _ _ _ hc => by cases hc) fun _ _ _ hc => by cases hc
    | _ =>
      rw [hi] at hstep
      cases hstep
  | go i timedOut =>
    simp only [step, go] at hstep
    obtain ⟨hcalm, hrechecked⟩ := hok
    rw [Undisturbed] at hcalm
    rw [Rechecked] at hrechecked
    cases hi : s.calls i with
    | looking key blocking stage =>
      rw [hi] at hstep hcalm hrechecked
      obtain ⟨⟨hot, r⟩, hlookup, rfl⟩ := Option.map_eq_some_iff.mp hstep
      exact lookup_inv h hi hcalm hrechecked (looks_of_lookup hlookup)
    | inserting key resp lifetime =>
      rw [hi] at hstep
      cases hstep
      exact h.insert hi
    | publishing key resp =>
      rw [hi] at hstep
      cases hstep
      exact h.publish hi
    | _ =>
      rw [hi] at hstep
      cases hstep
  | store i resp lifetime =>
    simp only [step] at hstep
    cases hi : s.calls i with
    | led key =>
      rw [hi] at hstep
      cases hstep
      exact h.begin hi hok.1
    | _ =>
      rw [hi] at hstep
      cases hstep
  | tick nanos =>
    cases hstep
    exact ⟨h.sound, h.one, h.entry, h.filled, h.marked, h.lifetime, h.waiting, h.answered⟩
  | purge => exact hok.1.elim

def keyA : Bytes := ascii "GET /a"

def okA : Bytes := ascii "HTTP/1.1 200 OK\r\n\r\na"

end DragonsNet.Dataplane.CacheSeam
