/- GID: DragonsNet/Dataplane/EffectServe
   source: migration/dataplane/host/src/interp.rs, migration/dataplane/host/src/cache_disk.rs,
     migration/dataplane/host/src/admin.rs
   digest: The effect interpreter's requests over both cache tiers, and the markers they leave. -/

import DragonsNet.Dataplane.CacheSeam
import DragonsNet.Dataplane.DiskCache

set_option autoImplicit false

namespace DragonsNet.Dataplane.EffectServe

open Cache (Bytes ascii stamp hit)
open CacheSeam (Hot Lookup Probe Looks looks_of_lookup)
open DiskCache (DiskEntry Path)
open Lib.FileSystem (Files)
open Lib.LittleEndian (ofBe toBe)
open Lib.Runs (run Meets invariant_of_meets)

/-! ## What the core answers -/

inductive Effect where
  | done (resp : Bytes)
  | proxyDial (backend : UInt8) (forward : Bytes)
  | cacheLookup (key : Bytes)
  | cacheStore (lifetime : ℕ) (key resp : Bytes)
  /-- An empty answer, an unknown tag, or a frame too short for it. -/
  | fallThrough
  deriving DecidableEq, Repr

def parseStore (cur : Bytes) : Effect :=
  if cur.length < 9 then .fallThrough
  else
    let lifetime := ofBe ((cur.drop 1).take 4)
    let keyEnd := 9 + ofBe ((cur.drop 5).take 4)
    if cur.length < keyEnd then .fallThrough
    else .cacheStore lifetime ((cur.take keyEnd).drop 9) (cur.drop keyEnd)

def parseStep (cur : Bytes) : Effect :=
  match cur with
  | [] => .fallThrough
  | tag :: rest =>
    if tag = 0 then .done rest
    else if tag = 1 then
      match rest with
      | backend :: forward => .proxyDial backend forward
      | [] => .fallThrough
    else if tag = 2 then .cacheLookup rest
    else if tag = 3 then parseStore cur
    else .fallThrough

/-! ## A request -/

structure Config where
  diskEnabled : Bool
  fleet : Bool

/-- Where a thread stands: a request before an answer of the core, in a dial, in a lookup, in a read
of the disk tier and the promotion of what it found, in the two halves of a store and in the put
behind it, with the results recorded so far; or a purge. A lookup carries the stores that its answer
must not come from, a store its number, a purge the stores completed before it. -/
inductive Request where
  | idle
  | asking (results : List Bytes)
  | dialing (results : List Bytes)
  | looking (key : Bytes) (stage : Lookup) (ban : List ℕ) (results : List Bytes)
  | promoting (key : Bytes) (wall : UInt64) (disk : DiskCache.Phase) (ban : List ℕ)
    (results : List Bytes)
  | refilling (key body : Bytes) (age remaining : ℕ) (origin : Option ℕ) (inserted : Bool)
    (ban : List ℕ) (results : List Bytes)
  | storing (key resp : Bytes) (lifetime number : ℕ) (inserted : Bool) (results : List Bytes)
  | putting (disk : DiskCache.Phase) (number : ℕ) (results : List Bytes)
  | returned (answer : Option Bytes)
  | purging (before : List ℕ)
  | purged (before : List ℕ)
  | purgeReturned
  deriving DecidableEq, Repr

/-- A lookup answered, with the stores it must not be answered from and the one it was. -/
structure Answer where
  ban : List ℕ
  origin : Option ℕ
  deriving DecidableEq, Repr

/-- Both tiers and the clock; the threads; and, as a record of the run, who made each marker, the
keys each request was elected for and has not stored since, the numbers of the stores begun and
completed, the entries they put on disk, the stores completed before a purge that has returned,
and the lookups answered. -/
structure State (ι : Type) where
  hot : Hot (Option ℕ)
  fs : Files Path
  now : ℕ
  requests : ι → Request
  owner : ℕ → Option ι
  elected : ι → List Bytes
  stores : ℕ
  completed : List ℕ
  puts : List (DiskEntry × ℕ)
  banned : List ℕ
  answers : List Answer

variable {ι : Type}

def start : State ι where
  hot := .cold
  fs := .none
  now := 0
  requests := fun _ => .idle
  owner := fun _ => none
  elected := fun _ => []
  stores := 0
  completed := []
  puts := []
  banned := []
  answers := []

inductive Action (ι : Type) where
  | serve (i : ι)
  /-- The answer at the step or resume seam, none where the seam is gone. -/
  | core (i : ι) (reply : Option Bytes)
  | upstream (i : ι) (resp : Bytes)
  | go (i : ι) (timedOut : Bool) (wall : UInt64)
  | disk (i : ι) (n : ℕ)
  | diskFail (i : ι)
  | purge (i : ι)
  | tick (nanos : ℕ)

variable [DecidableEq ι] {cfg : Config} {s t : State ι} {i : ι} {r : Request} {results : List Bytes}

def State.set (s : State ι) (i : ι) (r : Request) : State ι :=
  { s with requests := Function.update s.requests i r }

def answered (cfg : Config) (s : State ι) (i : ι) (results : List Bytes) (reply : Option Bytes) :
    State ι :=
  match reply.map parseStep with
  | none => s.set i (.returned none)
  | some (.done resp) => s.set i (.returned (some resp))
  | some (.proxyDial _ _) => s.set i (if cfg.fleet then .dialing results else .returned none)
  | some (.cacheLookup key) => s.set i (.looking key .looking s.banned results)
  | some (.cacheStore lifetime key resp) =>
    { s.set i (.storing key resp lifetime s.stores false results) with stores := s.stores + 1 }
  | some .fallThrough => s.set i (.returned none)

def missed (cfg : Config) (key : Bytes) (wall : UInt64) (ban : List ℕ) (results : List Bytes) :
    Request :=
  if cfg.diskEnabled then
    .promoting key wall ((DiskCache.Op.getFresh key wall).begin true) ban results
  else .asking (results ++ [[]])

def looked (cfg : Config) (s : State ι) (i : ι) (key : Bytes) (stage : Lookup) (wall : UInt64)
    (ban : List ℕ) (results : List Bytes) (hot : Hot (Option ℕ)) :
    Lookup ⊕ Probe (Option ℕ) → State ι
  | .inl stage => { s.set i (.looking key stage ban results) with hot }
  | .inr (.hit answer origin) =>
    { s.set i (.asking (results ++ [answer])) with hot, answers := ⟨ban, origin⟩ :: s.answers }
  | .inr _ =>
    if stage = .electing then
      { s.set i (missed cfg key wall ban results) with
        hot
        owner := Function.update s.owner s.hot.flights (some i)
        elected := Function.update s.elected i (key :: s.elected i) }
    else { s.set i (missed cfg key wall ban results) with hot }

def State.settled (s : State ι) (i : ι) (key : Bytes) : ι → List Bytes :=
  Function.update s.elected i ((s.elected i).filter (· ≠ key))

def State.putBy (s : State ι) (e : DiskEntry) : Option ℕ :=
  (s.puts.find? (·.1 = e)).map (·.2)

def promoted (s : State ι) (i : ι) (key : Bytes) (wall : UInt64) (ban : List ℕ)
    (results : List Bytes) : Option DiskEntry → State ι
  | none => s.set i (.asking (results ++ [[]]))
  | some e =>
    let age := wall.toNat - e.storedAt.toNat
    let remaining := e.maxAge.toNat - age
    s.set i (.refilling key e.body age (max remaining 1) (s.putBy e) false ban results)

/-- Behind the store of the hot tier: the disk tier gets the response too, where there is one. -/
def published (cfg : Config) (s : State ι) (i : ι) (key resp : Bytes) (lifetime number : ℕ)
    (wall : UInt64) (results : List Bytes) : State ι :=
  if cfg.diskEnabled && lifetime ≠ 0 then
    let e : DiskEntry := ⟨key, wall, .ofNat lifetime, resp⟩
    { s.set i (.putting ((DiskCache.Op.put e).begin true) number results) with
      puts := (e, number) :: s.puts }
  else
    { s.set i (.asking (results ++ [[]])) with completed := number :: s.completed }

/-- One critical section, or the end of a call of the disk tier. -/
def go (cfg : Config) (s : State ι) (i : ι) (timedOut : Bool) (wall : UInt64) : Option (State ι) :=
  match s.requests i with
  | .looking key stage ban results =>
    (s.hot.lookup s.now key true timedOut stage).map fun (hot, r) =>
      looked cfg s i key stage wall ban results hot r
  | .promoting key wall (.returned _ result) ban results =>
    some (promoted s i key wall ban results result)
  | .refilling key body age remaining origin false ban results =>
    some { s.set i (.refilling key body age remaining origin true ban results) with
      hot := s.hot.insert s.now key body remaining origin }
  | .refilling key body age _ origin true ban results =>
    some { s.set i (.asking (results ++ [stamp body hit (some age)])) with
      hot := s.hot.publish key body origin
      elected := s.settled i key
      answers := ⟨ban, origin⟩ :: s.answers }
  | .storing key resp lifetime number false results =>
    some { s.set i (.storing key resp lifetime number true results) with
      hot := s.hot.insert s.now key resp lifetime (some number) }
  | .storing key resp lifetime number true results =>
    some (published cfg { s with
      hot := s.hot.publish key resp (some number)
      elected := s.settled i key } i key resp lifetime number wall results)
  | .putting (.putReturned _) number results =>
    some { s.set i (.asking (results ++ [[]])) with completed := number :: s.completed }
  | .purging before => some { s.set i (.purged before) with hot := s.hot.purgeAll }
  | .purged before => some { s.set i .purgeReturned with banned := before ++ s.banned }
  | _ => none

def Request.withDisk (phase : DiskCache.Phase) : Request → Request
  | .promoting key wall _ ban results => .promoting key wall phase ban results
  | .putting _ number results => .putting phase number results
  | r => r

def Request.disk? : Request → Option DiskCache.Phase
  | .promoting _ _ phase _ _ | .putting phase _ _ => some phase
  | _ => none

def step (cfg : Config) (s : State ι) : Action ι → Option (State ι)
  | .serve i =>
    match s.requests i with
    | .idle => some (s.set i (.asking []))
    | _ => none
  | .core i reply =>
    match s.requests i with
    | .asking results => some (answered cfg s i results reply)
    | _ => none
  | .upstream i resp =>
    match s.requests i with
    | .dialing results => some (s.set i (.asking (results ++ [resp])))
    | _ => none
  | .go i timedOut wall => go cfg s i timedOut wall
  | .disk i n =>
    ((s.requests i).disk?.bind (DiskCache.io s.fs n)).map fun (fs, phase) =>
      { s.set i ((s.requests i).withDisk phase) with fs }
  | .diskFail i =>
    ((s.requests i).disk?.bind DiskCache.fail).map fun phase =>
      s.set i ((s.requests i).withDisk phase)
  | .purge i =>
    match s.requests i with
    | .idle => some (s.set i (.purging s.completed))
    | _ => none
  | .tick nanos => some { s with now := s.now + nanos }

inductive Takes (cfg : Config) (s : State ι) : Action ι → State ι → Prop
  | serve {i : ι} (idle : s.requests i = .idle) : Takes cfg s (.serve i) (s.set i (.asking []))
  | core {i : ι} {results : List Bytes} {reply : Option Bytes}
      (asking : s.requests i = .asking results) :
      Takes cfg s (.core i reply) (answered cfg s i results reply)
  | upstream {i : ι} {resp : Bytes} {results : List Bytes}
      (dialing : s.requests i = .dialing results) :
      Takes cfg s (.upstream i resp) (s.set i (.asking (results ++ [resp])))
  | go {i : ι} {timedOut : Bool} {wall : UInt64} {t : State ι}
      (goes : EffectServe.go cfg s i timedOut wall = some t) : Takes cfg s (.go i timedOut wall) t
  | disk {i : ι} {n : ℕ} {disk phase : DiskCache.Phase} {fs : Files Path}
      (disk : (s.requests i).disk? = some disk) :
      Takes cfg s (.disk i n) { s.set i ((s.requests i).withDisk phase) with fs }
  | diskFail {i : ι} {disk phase : DiskCache.Phase} (disk : (s.requests i).disk? = some disk) :
      Takes cfg s (.diskFail i) (s.set i ((s.requests i).withDisk phase))
  | purge {i : ι} (idle : s.requests i = .idle) :
      Takes cfg s (.purge i) (s.set i (.purging s.completed))
  | tick {nanos : ℕ} : Takes cfg s (.tick nanos) { s with now := s.now + nanos }

theorem takes_of_step {a : Action ι} (h : step cfg s a = some t) : Takes cfg s a t := by
  cases a <;> simp only [step] at h
  case serve i =>
    split at h
    case h_1 hidle =>
      cases h
      exact .serve hidle
    case h_2 => cases h
  case core i reply =>
    split at h
    case h_1 results hasking =>
      cases h
      exact .core hasking
    case h_2 => cases h
  case upstream i resp =>
    split at h
    case h_1 results hdialing =>
      cases h
      exact .upstream hdialing
    case h_2 => cases h
  case go i timedOut wall => exact .go h
  case disk i n =>
    obtain ⟨⟨fs, phase⟩, hio, rfl⟩ := Option.map_eq_some_iff.mp h
    obtain ⟨disk, hdisk, -⟩ := Option.bind_eq_some_iff.mp hio
    exact .disk hdisk
  case diskFail i =>
    obtain ⟨phase, hfail, rfl⟩ := Option.map_eq_some_iff.mp h
    obtain ⟨disk, hdisk, -⟩ := Option.bind_eq_some_iff.mp hfail
    exact .diskFail hdisk
  case purge i =>
    split at h
    case h_1 hidle =>
      cases h
      exact .purge hidle
    case h_2 => cases h
  case tick nanos =>
    cases h
    exact .tick

/-! ## Markers of requests that are gone -/

def Request.isReturned : Request → Bool
  | .returned _ => true
  | _ => false

/-- A request returns only when it has stored every key it was elected for. -/
def Settles (cfg : Config) (s : State ι) : Action ι → Prop
  | .core i reply => ∀ t ∈ step cfg s (.core i reply),
      (t.requests i).isReturned = true → s.elected i = []
  | _ => True

instance decidableSettles (cfg : Config) (s : State ι) : ∀ a, Decidable (Settles cfg s a)
  | .core i reply => inferInstanceAs (Decidable (∀ t ∈ step cfg s (.core i reply),
      (t.requests i).isReturned = true → s.elected i = []))
  | .serve _ => isTrue trivial
  | .upstream _ _ => isTrue trivial
  | .go _ _ _ => isTrue trivial
  | .disk _ _ => isTrue trivial
  | .diskFail _ => isTrue trivial
  | .purge _ => isTrue trivial
  | .tick _ => isTrue trivial

/-- Every marker in the map is one for which its maker still has the key to store, and every other
marker made has been published on. -/
structure Tended (s : State ι) : Prop where
  sound : s.hot.Sound
  owned : ∀ {key flight}, s.hot.inflight key = some flight →
    ∃ i, s.owner flight = some i ∧ key ∈ s.elected i
  flown : ∀ {flight}, flight < s.hot.flights →
    (∃ key, s.hot.inflight key = some flight) ∨ (s.hot.done flight).isSome
  settled : ∀ {i answer}, s.requests i = .returned answer → s.elected i = []
  waiting : ∀ {i key flight ban results}, s.requests i = .looking key (.waiting flight) ban results →
    flight < s.hot.flights

omit [DecidableEq ι] in
private theorem start_tended : Tended (start : State ι) where
  sound := Hot.sound_cold
  owned := fun h => by cases h
  flown := fun h => absurd h (Nat.not_lt_zero _)
  settled := fun h => by cases h
  waiting := fun h => by cases h

/-- A request that has returned has nothing left to store, and one that waits does so for a marker
that was made. -/
def Request.Fits (s : State ι) (i : ι) : Request → Prop
  | .returned _ => s.elected i = []
  | .looking _ (.waiting flight) _ _ => flight < s.hot.flights
  | _ => True

theorem Tended.requests (h : Tended s) (hrequests : t.requests = Function.update s.requests i r)
    (hflights : s.hot.flights ≤ t.hot.flights) (helected : ∀ j, j ≠ i → t.elected j = s.elected j)
    (hr : r.Fits t i) :
    (∀ {j answer}, t.requests j = .returned answer → t.elected j = []) ∧
      ∀ {j key flight ban results}, t.requests j = .looking key (.waiting flight) ban results →
        flight < t.hot.flights := by
  rw [hrequests]
  refine ⟨fun {j answer} hj => ?_, fun {j key flight ban results} hj => ?_⟩
  · by_cases hji : j = i
    · rw [hji, Function.update_self] at hj
      rw [hj] at hr
      exact hji ▸ hr
    · rw [Function.update_of_ne hji] at hj
      exact (helected j hji).trans (h.settled hj)
  · by_cases hji : j = i
    · rw [hji, Function.update_self] at hj
      rw [hj] at hr
      exact hr
    · rw [Function.update_of_ne hji] at hj
      exact (h.waiting hj).trans_le hflights

theorem Tended.think (h : Tended s) (hrequests : t.requests = Function.update s.requests i r)
    (hinflight : t.hot.inflight = s.hot.inflight) (hdone : t.hot.done = s.hot.done)
    (hflights : t.hot.flights = s.hot.flights) (howner : t.owner = s.owner)
    (helected : t.elected = s.elected) (hr : r.Fits t i) : Tended t := by
  obtain ⟨hsettled, hwaits⟩ :=
    h.requests hrequests hflights.ge (fun j _ => congrFun helected j) hr
  refine ⟨h.sound.of_eq hinflight hdone hflights, fun {key flight} hf => ?_, fun {flight} hf => ?_,
    hsettled, hwaits⟩
  · rw [howner, helected]
    exact h.owned (hinflight ▸ hf)
  · rw [hinflight, hdone]
    exact h.flown (hflights ▸ hf)

theorem Tended.mark (h : Tended s) {key : Bytes} (hnone : s.hot.inflight key = none)
    (hrequests : t.requests = Function.update s.requests i r) (hhot : t.hot = s.hot.mark key)
    (howner : t.owner = Function.update s.owner s.hot.flights (some i))
    (helected : t.elected = Function.update s.elected i (key :: s.elected i)) (hr : r.Fits t i) :
    Tended t := by
  have hmark := Hot.mark_inflight s.hot key
  have hflights : t.hot.flights = s.hot.flights + 1 := by rw [hhot]; rfl
  have hself : t.elected i = key :: s.elected i := by rw [helected, Function.update_self]
  have hother : ∀ j, j ≠ i → t.elected j = s.elected j := fun j hj => by
    rw [helected, Function.update_of_ne hj]
  obtain ⟨hsettled, hwaits⟩ := h.requests hrequests (hflights ▸ Nat.le_succ _) hother hr
  refine ⟨hhot ▸ h.sound.mark key, fun {key' flight} hf => ?_, fun {flight} hf => ?_, hsettled,
    hwaits⟩
  · rw [hhot, hmark] at hf
    split at hf
    · rename_i heq
      cases hf
      refine ⟨i, by rw [howner, Function.update_self], ?_⟩
      rw [hself, heq]
      exact List.mem_cons_self
    · obtain ⟨j, hj, hmem⟩ := h.owned hf
      refine ⟨j, ?_, ?_⟩
      · rw [howner, Function.update_of_ne (Nat.ne_of_lt (h.sound.made hf)), hj]
      · by_cases hji : j = i
        · rw [hji, hself]
          exact List.mem_cons_of_mem _ (hji ▸ hmem)
        · rwa [hother j hji]
  · rw [hflights] at hf
    rw [hhot]
    rcases Nat.lt_succ_iff_lt_or_eq.mp hf with hold | rfl
    · refine (h.flown hold).imp_left ?_
      rintro ⟨key', hf'⟩
      refine ⟨key', ?_⟩
      rw [hmark, if_neg]
      · exact hf'
      · rintro rfl
        rw [hnone] at hf'
        cases hf'
    · exact .inl ⟨key, by rw [hmark, if_pos rfl]⟩

theorem Tended.publish (h : Tended s) {key resp : Bytes} {origin : Option ℕ}
    (hrequests : t.requests = Function.update s.requests i r)
    (hhot : t.hot = s.hot.publish key resp origin) (howner : t.owner = s.owner)
    (helected : t.elected = s.settled i key) (hr : r.Fits t i) : Tended t := by
  have hin := Hot.publish_inflight s.hot key resp origin
  have hdone := Hot.publish_done h.sound key resp origin
  obtain ⟨hflights, -⟩ := Hot.publish_flights s.hot key resp origin
  have hself : t.elected i = (s.elected i).filter (· ≠ key) := by
    rw [helected, State.settled, Function.update_self]
  have hother : ∀ j, j ≠ i → t.elected j = s.elected j := fun j hj => by
    rw [helected, State.settled, Function.update_of_ne hj]
  obtain ⟨hsettled, hwaits⟩ := h.requests hrequests (hhot ▸ hflights.ge) hother hr
  refine ⟨hhot ▸ h.sound.publish .., fun {key' flight} hf => ?_, fun {flight} hf => ?_, hsettled,
    hwaits⟩
  · rw [hhot, hin] at hf
    split at hf
    · cases hf
    · rename_i hne
      obtain ⟨j, hj, hmem⟩ := h.owned hf
      refine ⟨j, by rw [howner, hj], ?_⟩
      by_cases hji : j = i
      · rw [hji, hself]
        exact List.mem_filter.mpr ⟨hji ▸ hmem, decide_eq_true hne⟩
      · rwa [hother j hji]
  · rw [hhot, hflights] at hf
    rw [hhot]
    rcases h.flown hf with ⟨key', hf'⟩ | hd
    · by_cases heq : key' = key
      · refine .inr ?_
        rw [hdone, if_pos (heq ▸ hf')]
        rfl
      · exact .inl ⟨key', by rw [hin, if_neg heq, hf']⟩
    · refine .inr ?_
      rw [hdone]
      split
      · rfl
      · exact hd

omit [DecidableEq ι] in
private theorem missed_fits (cfg : Config) (s : State ι) (i : ι) (key : Bytes) (wall : UInt64)
    (ban : List ℕ) (results : List Bytes) : (missed cfg key wall ban results).Fits s i := by
  rw [missed]
  split
  · trivial
  · trivial

private theorem looked_tended {s : State ι} (h : Tended s) {key : Bytes} {stage : Lookup}
    {timedOut : Bool}
    {wall : UInt64} {ban : List ℕ} {hot : Hot (Option ℕ)} {r : Lookup ⊕ Probe (Option ℕ)}
    (hlooks : Looks s.hot s.now key true timedOut stage hot r) :
    Tended (looked cfg s i key stage wall ban results hot r) := by
  cases hlooks with
  | hit e hstage he hfresh => exact h.think rfl rfl rfl rfl rfl rfl trivial
  | miss hmiss =>
    cases hmiss with
    | absent habsent | stale e he hold => exact h.think rfl rfl rfl rfl rfl rfl trivial
  | remiss hmiss =>
    cases hmiss with
    | absent habsent | stale e he hold => exact h.think rfl rfl rfl rfl rfl rfl (missed_fits ..)
  | join flight hflight hblocking => exact h.think rfl rfl rfl rfl rfl rfl (h.sound.made hflight)
  | report flight hflight hblocking => cases hblocking
  | lead hnone => exact h.mark hnone rfl rfl rfl rfl (missed_fits ..)
  | wake flight resp origin hdone | timeOut flight hdone htime =>
    exact h.think rfl rfl rfl rfl rfl rfl trivial

private theorem go_tended (h : Tended s) {timedOut : Bool} {wall : UInt64}
    (hgo : go cfg s i timedOut wall = some t) : Tended t := by
  rw [go] at hgo
  split at hgo
  · obtain ⟨⟨hot, r⟩, hlookup, rfl⟩ := Option.map_eq_some_iff.mp hgo
    exact looked_tended h (looks_of_lookup hlookup)
  · rename_i result ban results hi
    cases hgo
    cases result with
    | none | some e => exact h.think rfl rfl rfl rfl rfl rfl trivial
  · cases hgo
    obtain ⟨hin, hdone, hflights⟩ := Hot.insert_inflight s.hot s.now _ _ _ _
    exact h.think rfl hin hdone hflights rfl rfl trivial
  · cases hgo
    exact h.publish rfl rfl rfl rfl trivial
  · cases hgo
    obtain ⟨hin, hdone, hflights⟩ := Hot.insert_inflight s.hot s.now _ _ _ _
    exact h.think rfl hin hdone hflights rfl rfl trivial
  · cases hgo
    rw [published]
    split
    · exact h.publish rfl rfl rfl rfl trivial
    · exact h.publish rfl rfl rfl rfl trivial
  · cases hgo
    exact h.think rfl rfl rfl rfl rfl rfl trivial
  · cases hgo
    exact h.think rfl rfl rfl rfl rfl rfl trivial
  · cases hgo
    exact h.think rfl rfl rfl rfl rfl rfl trivial
  · cases hgo

private theorem set_isReturned (s : State ι) (i : ι) (answer : Option Bytes) :
    ((s.set i (.returned answer)).requests i).isReturned = true :=
  congrArg Request.isReturned (Function.update_self i _ s.requests)

private theorem answered_tended {s : State ι} (h : Tended s) {reply : Option Bytes}
    (hok : ((answered cfg s i results reply).requests i).isReturned = true → s.elected i = []) :
    Tended (answered cfg s i results reply) := by
  rw [answered] at hok ⊢
  split at hok
  · exact h.think rfl rfl rfl rfl rfl rfl (hok (set_isReturned s i none))
  · exact h.think rfl rfl rfl rfl rfl rfl (hok (set_isReturned s i _))
  · by_cases hfleet : cfg.fleet = true
    · rw [if_pos hfleet]
      exact h.think rfl rfl rfl rfl rfl rfl trivial
    · rw [if_neg hfleet] at hok ⊢
      exact h.think rfl rfl rfl rfl rfl rfl (hok (set_isReturned s i none))
  · exact h.think rfl rfl rfl rfl rfl rfl trivial
  · exact h.think rfl rfl rfl rfl rfl rfl trivial
  · exact h.think rfl rfl rfl rfl rfl rfl (hok (set_isReturned s i none))

omit [DecidableEq ι] in
private theorem withDisk_fits {phase : DiskCache.Phase} (hr : r.disk? = some phase)
    (phase' : DiskCache.Phase) (s : State ι) (i : ι) : (r.withDisk phase').Fits s i := by
  cases r with
  | promoting key wall disk ban results => trivial
  | putting disk number results => trivial
  | _ => cases hr

private theorem step_tended {a : Action ι} (h : Tended s) (hok : Settles cfg s a)
    (hstep : step cfg s a = some t) : Tended t := by
  cases takes_of_step hstep with
  | core => exact answered_tended h (hok _ hstep)
  | go goes => exact go_tended h goes
  | disk hdisk | diskFail hdisk => exact h.think rfl rfl rfl rfl rfl rfl (withDisk_fits hdisk _ _ _)
  | serve | upstream | purge => exact h.think rfl rfl rfl rfl rfl rfl trivial
  | tick => exact ⟨h.sound, h.owned, h.flown, h.settled, h.waiting⟩

/-- A request that has returned leaves no marker behind, and nobody waits for one it made, where
it has stored every key it was elected for. -/
theorem returned_leaves_no_marker (cfg : Config) (acts : List (Action ι)) (s : State ι)
    (hok : Meets (step cfg) (Settles cfg) start acts) (hrun : run (step cfg) start acts = some s)
    (i : ι) (answer : Option Bytes) (hi : s.requests i = .returned answer) :
    (∀ key flight, s.hot.inflight key = some flight → s.owner flight ≠ some i) ∧
      ∀ j key flight ban results, s.requests j = .looking key (.waiting flight) ban results →
        s.owner flight = some i → s.hot.done flight ≠ none := by
  have htended : Tended s := invariant_of_meets step_tended start_tended hok hrun
  have hgone : ∀ key flight, s.hot.inflight key = some flight → s.owner flight ≠ some i := by
    intro key flight hf howner
    obtain ⟨j, hj, hmem⟩ := htended.owned hf
    obtain rfl : j = i := Option.some.inj (hj.symm.trans howner)
    rw [htended.settled hi] at hmem
    exact List.not_mem_nil hmem
  refine ⟨hgone, fun j key flight ban results hj howner hnone => ?_⟩
  rcases htended.flown (htended.waiting hj) with ⟨key', hf⟩ | hdone
  · exact hgone key' flight hf howner
  · rw [hnone] at hdone
    cases hdone

def keyA : Bytes := ascii "GET /a"

def okA : Bytes := ascii "HTTP/1.1 200 OK\r\n\r\na"

def lookupFrame (key : Bytes) : Bytes := 2 :: key

def doneFrame (resp : Bytes) : Bytes := 0 :: resp

def storeFrame (lifetime : ℕ) (key resp : Bytes) : Bytes :=
  3 :: toBe 4 lifetime ++ toBe 4 key.length ++ key ++ resp

def leads (i : ℕ) : List (Action ℕ) :=
  [.serve i, .core i (some (lookupFrame keyA)), .go i false 0, .go i false 0]

/-- The elected request stores, without a disk tier, and is done. -/
def storesThenReturns : List (Action ℕ) :=
  leads 0 ++ [.core 0 (some (storeFrame 60 keyA okA)), .go 0 false 0, .go 0 false 0,
    .core 0 (some (doneFrame okA))]

theorem storesThenReturns_leaves_none :
    ∃ s, run (step ⟨false, false⟩) start storesThenReturns = some s ∧
    s.requests 0 = .returned (some okA) ∧
      ∀ key flight, s.hot.inflight key = some flight → s.owner flight ≠ some 0 := by
  have hrun : (run (step ⟨false, false⟩) start storesThenReturns).map (·.requests 0) =
      some (.returned (some okA)) := by decide +kernel
  have hok : Meets (step ⟨false, false⟩) (Settles ⟨false, false⟩) start storesThenReturns := by
    decide +kernel
  obtain ⟨s, hs, hreturned⟩ := Option.map_eq_some_iff.mp hrun
  exact ⟨s, hs, hreturned,
    (returned_leaves_no_marker ⟨false, false⟩ storesThenReturns s hok hs 0 _ hreturned).1⟩

/-- The core answers the elected request with a response it does not store. The marker stays, and
the next lookup of the key waits for nobody. -/
theorem done_without_store_leaves_marker : ∃ s, run (step ⟨false, false⟩) start
      (leads 0 ++ .core 0 (some (doneFrame okA)) :: leads 1) = some s ∧
    s.requests 0 = .returned (some okA) ∧ s.hot.inflight keyA = some 0 ∧ s.owner 0 = some 0 ∧
    s.requests 1 = .looking keyA (.waiting 0) [] [] ∧ s.hot.done 0 = none :=
  ⟨_, rfl, rfl, rfl, rfl, rfl, rfl⟩

end DragonsNet.Dataplane.EffectServe
