/- GID: DragonsNet/Dataplane/LeafFiles
   source: migration/dataplane/host/src/tls/ondemand.rs
   digest: The on-demand leaves by the file steps of their calls and of the issuer. -/

import DragonsNet.Lib.Runs
import Mathlib.Tactic.Common

set_option autoImplicit false

namespace DragonsNet.Dataplane.LeafFiles

abbrev Bytes := List UInt8

abbrev Sni := List UInt8

def isAsciiAlphanumeric (b : UInt8) : Bool :=
  (48 ≤ b && b ≤ 57) || (65 ≤ b && b ≤ 90) || (97 ≤ b && b ≤ 122)

/-- Letters, digits, `-`, `.`, `*`, `_`; 1 to 253 bytes; no `..`. -/
def validHost (h : Sni) : Bool :=
  !h.isEmpty && h.length ≤ 253 && !(h.zip h.tail).any (fun p => p.1 == 46 && p.2 == 46) &&
    h.all fun b => isAsciiAlphanumeric b || b == 45 || b == 46 || b == 42 || b == 95

/-! ## The files of an SNI -/

structure Stamped where
  octets : Bytes
  run : ℕ
  deriving DecidableEq, Repr

/-- `ecdsa-cert.der`, and `ecdsa-key.bin` with its modification time. -/
structure Dir where
  cert : Option Stamped
  key : Option (Stamped × ℕ)
  deriving DecidableEq, Repr

/-- What a call on a file of the directory finds: a call that fails finds none. -/
def Dir.seen (d : Dir) (ok : Bool) : Dir := if ok then d else ⟨none, none⟩

def keyMtime (d : Dir) : Option ℕ := d.key.map Prod.snd

/-- Has a newer leaf landed on disk since the cached one was loaded? -/
def diskIsNewer (d : Dir) (stored : Option ℕ) : Bool :=
  match keyMtime d, stored with
  | some disk, some cur => cur < disk
  | some _, none => true
  | none, _ => false

structure Leaf where
  cert : Stamped
  key : Stamped
  deriving DecidableEq, Repr

/-- Structurally usable: some certificate, and a scalar of 32 octets. -/
def Leaf.usable (leaf : Leaf) : Bool :=
  !(leaf.cert.octets.isEmpty || leaf.key.octets.length ≠ 32)

inductive Entry where
  | ready (leaf : Leaf) (mtime : Option ℕ)
  | denied (until_ : ℕ)
  | failed (until_ : ℕ)
  deriving DecidableEq, Repr

def Entry.isReady : Option Entry → Bool
  | some (.ready _ _) => true
  | _ => false

/-- Of the configuration, what `resolve` reads: whether there is one, whether it names an
authorizer, and the cooldown. -/
structure Cfg where
  enabled : Bool
  asks : Bool
  cooldown : ℕ

/-! ## The calls, step by step -/

inductive Outcome where
  | serve (leaf : Leaf)
  | refuse
  | passthrough
  | reloaded (fresh : Bool)
  deriving DecidableEq, Repr

/-- Why the leaf is loaded: in `serve_cached` to replace the cached one, in `reload_sni`, in
`resolve` before a mint, or in `mint`. -/
inductive Purpose where
  | refresh (cached : Leaf)
  | sweep
  | reuse
  | minted
  deriving DecidableEq, Repr

/-- Where a call stands. `probing` and `statting` are of `serve_cached`, without the SNI's
lock or under it; `awaiting` is before the lock of `reload_into_cache`, in a thread that may
hold it already, and `locking` before the lock of `resolve`; `readingCert`, `readingKey` and
`tagging` are of `load_from_disk`, `preparing` and `minting` of `mint`. -/
inductive Phase where
  | idle
  | probing (sni : Sni) (locked : Bool)
  | statting (sni : Sni) (locked : Bool) (cached : Leaf) (mtime : Option ℕ)
  | awaiting (sni : Sni) (locked : Bool) (purpose : Purpose)
  | locking (sni : Sni)
  | asking (sni : Sni)
  | readingCert (sni : Sni) (purpose : Purpose)
  | readingKey (sni : Sni) (purpose : Purpose) (cert : Stamped)
  | tagging (sni : Sni) (purpose : Purpose) (leaf : Leaf)
  | inserting (sni : Sni) (purpose : Purpose) (leaf : Leaf) (mtime : Option ℕ)
  | preparing (sni : Sni)
  | minting (sni : Sni) (r : ℕ)
  | negating (sni : Sni) (denied : Bool)
  | leaving (sni : Sni) (outcome : Outcome)
  | returned (sni : Sni) (outcome : Outcome)
  deriving DecidableEq, Repr

inductive Stage where
  | begun
  | certWritten
  | keyWritten
  | exited (success : Bool)
  deriving DecidableEq, Repr

/-- The cache, the locks by SNI, the disk, the issuer runs, the clock and the threads. -/
structure State (ι : Type) where
  cache : Sni → Option Entry
  holder : Sni → Option ι
  disk : Sni → Dir
  runs : ℕ → Option (Sni × Stage)
  nextRun : ℕ
  now : ℕ
  threads : ι → Phase

/-- The files an earlier process left: run 0 is the last of the SNI before this process. -/
def leftOver (left : Option (Bytes × Bytes × ℕ)) : Dir where
  cert := left.map fun l => ⟨l.1, 0⟩
  key := left.map fun l => (⟨l.2.1, 0⟩, l.2.2)

def start (ι : Type) (left : Sni → Option (Bytes × Bytes × ℕ)) : State ι where
  cache := fun _ => none
  holder := fun _ => none
  disk := fun sni => leftOver (left sni)
  runs := fun _ => none
  nextRun := 1
  now := 0
  threads := fun _ => .idle

inductive Effect where
  | nothing
  | remember (sni : Sni) (e : Option Entry)
  | acquire (sni : Sni)
  | release (sni : Sni)
  | spawn (sni : Sni)

section Calls

variable {ι : Type} [DecidableEq ι]

def State.goto (s : State ι) (i : ι) (p : Phase) : State ι :=
  { s with threads := Function.update s.threads i p }

def State.begin (s : State ι) (sni : Sni) : State ι :=
  { s with
    runs := Function.update s.runs s.nextRun (some (sni, .begun))
    nextRun := s.nextRun + 1 }

def Effect.on (s : State ι) (i : ι) : Effect → State ι
  | .nothing => s
  | .remember sni e => { s with cache := Function.update s.cache sni e }
  | .acquire sni => { s with holder := Function.update s.holder sni (some i) }
  | .release sni => { s with holder := Function.update s.holder sni none }
  | .spawn sni => s.begin sni

def finish (sni : Sni) (locked : Bool) (outcome : Outcome) : Phase :=
  if locked then .leaving sni outcome else .returned sni outcome

/-- The end of `serve_cached` without one: take the lock, or, under it, go on to the
authorizer, where one is configured, and to the disk. -/
def proceed (cfg : Cfg) (sni : Sni) (locked : Bool) : Phase :=
  if !locked then .locking sni else if cfg.asks then .asking sni else .readingCert sni .reuse

def unloaded (sni : Sni) : Purpose → Phase
  | .refresh cached => .leaving sni (.serve cached)
  | .sweep => .leaving sni (.reloaded false)
  | .reuse => .preparing sni
  | .minted => .negating sni false

def loaded (leaf : Leaf) : Purpose → Outcome
  | .sweep => .reloaded true
  | _ => .serve leaf

/-- The next step of a call; `ok` is whether a call on the file system or a spawn succeeds. -/
def work (cfg : Cfg) (s : State ι) (ok : Bool) : Phase → Option (Effect × Phase)
  | .probing sni locked =>
    match s.cache sni with
    | some (.ready leaf mtime) => some (.nothing, .statting sni locked leaf mtime)
    | some (.denied until_) | some (.failed until_) =>
      if s.now < until_ then some (.nothing, finish sni locked .refuse)
      else some (.remember sni none, proceed cfg sni locked)
    | none => some (.nothing, proceed cfg sni locked)
  | .statting sni locked cached mtime =>
    if diskIsNewer ((s.disk sni).seen ok) mtime then
      some (.nothing, .awaiting sni locked (.refresh cached))
    else some (.nothing, finish sni locked (.serve cached))
  | .awaiting sni _ purpose =>
    -- The lock is not reentrant: a thread that holds it is not let in again.
    if (s.holder sni).isNone then some (.acquire sni, .readingCert sni purpose) else none
  | .locking sni =>
    if (s.holder sni).isNone then some (.acquire sni, .probing sni true) else none
  | .readingCert sni purpose =>
    match ((s.disk sni).seen ok).cert with
    | some cert => some (.nothing, .readingKey sni purpose cert)
    | none => some (.nothing, unloaded sni purpose)
  | .readingKey sni purpose cert =>
    match ((s.disk sni).seen ok).key with
    | some (key, _) =>
      if Leaf.usable ⟨cert, key⟩ then some (.nothing, .tagging sni purpose ⟨cert, key⟩)
      else some (.nothing, unloaded sni purpose)
    | none => some (.nothing, unloaded sni purpose)
  | .tagging sni purpose leaf =>
    some (.nothing, .inserting sni purpose leaf (keyMtime ((s.disk sni).seen ok)))
  | .inserting sni purpose leaf mtime =>
    some (.remember sni (some (.ready leaf mtime)), .leaving sni (loaded leaf purpose))
  | .preparing sni =>
    if ok then some (.spawn sni, .minting sni s.nextRun)
    else some (.nothing, .negating sni false)
  | .minting sni r =>
    match s.runs r with
    | some (_, .exited true) => some (.nothing, .readingCert sni .minted)
    | some (_, .exited false) => some (.nothing, .negating sni false)
    | _ => none
  | .negating sni denied =>
    let until_ := s.now + cfg.cooldown
    some (.remember sni (some (if denied then .denied until_ else .failed until_)),
      .leaving sni .refuse)
  | .leaving sni outcome => some (.release sni, .returned sni outcome)
  | .idle | .asking _ | .returned _ _ => none

def advance (cfg : Cfg) (s : State ι) (i : ι) (ok : Bool) : Option (State ι) :=
  (work cfg s ok (s.threads i)).map fun w => (w.1.on s i).goto i w.2

/-- Where `ask_site_exists` leaves `resolve`: yes, no, or not reached. -/
def answered (sni : Sni) : Option Bool → Phase
  | some true => .readingCert sni .reuse
  | some false => .negating sni true
  | none => .negating sni false

def Phase.ended : Phase → Bool
  | .idle | .returned _ _ => true
  | _ => false

def resolve (cfg : Cfg) (sni : Sni) : Phase :=
  if cfg.enabled && validHost sni then .probing sni false else .returned sni .passthrough

def reloadSni (cfg : Cfg) (sni : Sni) : Phase :=
  if cfg.enabled && validHost sni then .awaiting sni false .sweep
  else .returned sni (.reloaded false)

/-- Threads call `resolve` and `reload_sni` and take their steps; the authorizer answers;
issuers are run, here or elsewhere, write the two files and exit; time passes. -/
inductive Action (ι : Type) where
  | resolve (i : ι) (sni : Sni)
  | reloadSni (i : ι) (sni : Sni)
  | advance (i : ι) (ok : Bool)
  | answer (i : ι) (reply : Option Bool)
  | issue (sni : Sni)
  | writeCert (r : ℕ) (octets : Bytes)
  | writeKey (r : ℕ) (octets : Bytes) (mtime : ℕ)
  | exit (r : ℕ) (success : Bool)
  | tick (d : ℕ)

/-- An issuer run of the SNI goes on to a stage, with the SNI's files then. -/
def State.issuer (s : State ι) (r : ℕ) (sni : Sni) (stage : Stage) (d : Dir) : State ι :=
  { s with
    disk := Function.update s.disk sni d
    runs := Function.update s.runs r (some (sni, stage)) }

def step (cfg : Cfg) (s : State ι) : Action ι → Option (State ι)
  | .resolve i sni =>
    if (s.threads i).ended then some (s.goto i (LeafFiles.resolve cfg sni)) else none
  | .reloadSni i sni =>
    if (s.threads i).ended then some (s.goto i (LeafFiles.reloadSni cfg sni)) else none
  | .advance i ok => advance cfg s i ok
  | .answer i reply =>
    match s.threads i with
    | .asking sni => some (s.goto i (answered sni reply))
    | _ => none
  | .issue sni => some (s.begin sni)
  | .writeCert r octets =>
    match s.runs r with
    | some (sni, .begun) =>
      some (s.issuer r sni .certWritten { s.disk sni with cert := some ⟨octets, r⟩ })
    | _ => none
  | .writeKey r octets mtime =>
    match s.runs r with
    | some (sni, .certWritten) =>
      some (s.issuer r sni .keyWritten { s.disk sni with key := some (⟨octets, r⟩, mtime) })
    | _ => none
  | .exit r success =>
    match s.runs r with
    | some (_, .exited _) => none
    | some (sni, _) => some (s.issuer r sni (.exited success) (s.disk sni))
    | none => none
  | .tick d => some { s with now := s.now + d }

end Calls

/-! ## What a step can do -/

variable {ι : Type}

theorem goto_threads [DecidableEq ι] {s : State ι} {i j : ι} {q : Phase} :
    (s.goto i q).threads j = if j = i then q else s.threads j :=
  Function.update_apply s.threads i q j

theorem on_threads {s : State ι} {i : ι} {e : Effect} : (e.on s i).threads = s.threads := by
  cases e <;> rfl

inductive Does (cfg : Cfg) (s : State ι) (ok : Bool) : Phase → Effect → Phase → Prop
  | refused {sni : Sni} {locked : Bool} :
      Does cfg s ok (.probing sni locked) .nothing (finish sni locked .refuse)
  | elapsed {sni : Sni} {locked : Bool} (undecided : Entry.isReady (s.cache sni) = false) :
      Does cfg s ok (.probing sni locked) (.remember sni none) (proceed cfg sni locked)
  | missed {sni : Sni} {locked : Bool} (undecided : Entry.isReady (s.cache sni) = false) :
      Does cfg s ok (.probing sni locked) .nothing (proceed cfg sni locked)
  | found {sni : Sni} {locked : Bool} {leaf : Leaf} {mtime : Option ℕ}
      (ready : s.cache sni = some (.ready leaf mtime)) :
      Does cfg s ok (.probing sni locked) .nothing (.statting sni locked leaf mtime)
  | newer {sni : Sni} {locked : Bool} {cached : Leaf} {mtime : Option ℕ}
      (newer : diskIsNewer ((s.disk sni).seen ok) mtime = true) :
      Does cfg s ok (.statting sni locked cached mtime) .nothing
        (.awaiting sni locked (.refresh cached))
  | current {sni : Sni} {locked : Bool} {cached : Leaf} {mtime : Option ℕ} :
      Does cfg s ok (.statting sni locked cached mtime) .nothing (finish sni locked (.serve cached))
  | reloads {sni : Sni} {locked : Bool} {purpose : Purpose} (free : s.holder sni = none) :
      Does cfg s ok (.awaiting sni locked purpose) (.acquire sni) (.readingCert sni purpose)
  | locks {sni : Sni} (free : s.holder sni = none) :
      Does cfg s ok (.locking sni) (.acquire sni) (.probing sni true)
  | readsCert {sni : Sni} {purpose : Purpose} {cert : Stamped} :
      Does cfg s ok (.readingCert sni purpose) .nothing (.readingKey sni purpose cert)
  | noCert {sni : Sni} {purpose : Purpose} :
      Does cfg s ok (.readingCert sni purpose) .nothing (unloaded sni purpose)
  | readsKey {sni : Sni} {purpose : Purpose} {cert key : Stamped} {mtime : ℕ}
      (present : (s.disk sni).key = some (key, mtime)) :
      Does cfg s ok (.readingKey sni purpose cert) .nothing (.tagging sni purpose ⟨cert, key⟩)
  | noKey {sni : Sni} {purpose : Purpose} {cert : Stamped} :
      Does cfg s ok (.readingKey sni purpose cert) .nothing (unloaded sni purpose)
  | tags {sni : Sni} {purpose : Purpose} {leaf : Leaf} {mtime : Option ℕ} :
      Does cfg s ok (.tagging sni purpose leaf) .nothing (.inserting sni purpose leaf mtime)
  | inserts {sni : Sni} {purpose : Purpose} {leaf : Leaf} {mtime : Option ℕ} :
      Does cfg s ok (.inserting sni purpose leaf mtime) (.remember sni (some (.ready leaf mtime)))
        (.leaving sni (loaded leaf purpose))
  | spawns {sni : Sni} : Does cfg s ok (.preparing sni) (.spawn sni) (.minting sni s.nextRun)
  | unspawned {sni : Sni} : Does cfg s ok (.preparing sni) .nothing (.negating sni false)
  | minted {sni : Sni} {r : ℕ} :
      Does cfg s ok (.minting sni r) .nothing (.readingCert sni .minted)
  | unminted {sni : Sni} {r : ℕ} : Does cfg s ok (.minting sni r) .nothing (.negating sni false)
  | negates {sni : Sni} {denied : Bool} {until_ : ℕ} :
      Does cfg s ok (.negating sni denied)
        (.remember sni (some (if denied then .denied until_ else .failed until_)))
        (.leaving sni .refuse)
  | leaves {sni : Sni} {outcome : Outcome} :
      Does cfg s ok (.leaving sni outcome) (.release sni) (.returned sni outcome)

private theorem seen_key {d : Dir} {ok : Bool} {k : Stamped × ℕ} (h : (d.seen ok).key = some k) :
    d.key = some k := by
  cases ok with
  | false => cases h
  | true => exact h

private theorem does_of_work {cfg : Cfg} {s : State ι} {ok : Bool} {p q : Phase} {e : Effect}
    (h : work cfg s ok p = some (e, q)) : Does cfg s ok p e q := by
  cases p <;> simp only [work] at h
  case probing sni locked =>
    split at h
    case h_1 leaf mtime hready =>
      cases h
      exact .found hready
    case h_2 hnot | h_3 hnot =>
      split at h <;> cases h
      · exact .refused
      · exact .elapsed (by rw [hnot]; rfl)
    case h_4 hnone =>
      cases h
      exact .missed (by rw [hnone]; rfl)
  case statting sni locked cached mtime =>
    split at h <;> cases h
    case isTrue hnewer => exact .newer hnewer
    case isFalse => exact .current
  case awaiting sni locked purpose =>
    split at h <;> cases h
    case isTrue hfree => exact .reloads (Option.isNone_iff_eq_none.mp hfree)
  case locking sni =>
    split at h <;> cases h
    case isTrue hfree => exact .locks (Option.isNone_iff_eq_none.mp hfree)
  case readingCert sni purpose =>
    split at h <;> cases h
    · exact .readsCert
    · exact .noCert
  case readingKey sni purpose cert =>
    split at h
    case h_1 key mtime hkey =>
      split at h <;> cases h
      · exact .readsKey (seen_key hkey)
      · exact .noKey
    case h_2 =>
      cases h
      exact .noKey
  case tagging sni purpose leaf =>
    cases h
    exact .tags
  case inserting sni purpose leaf mtime =>
    cases h
    exact .inserts
  case preparing sni =>
    split at h <;> cases h
    · exact .spawns
    · exact .unspawned
  case minting sni r =>
    split at h <;> cases h
    · exact .minted
    · exact .unminted
  case negating sni denied =>
    cases h
    exact .negates
  case leaving sni outcome =>
    cases h
    exact .leaves
  case idle | asking | returned => cases h

inductive Takes [DecidableEq ι] (cfg : Cfg) (s : State ι) : Action ι → State ι → Prop
  | resolve {i : ι} {sni : Sni} (ended : (s.threads i).ended = true) :
      Takes cfg s (.resolve i sni) (s.goto i (LeafFiles.resolve cfg sni))
  | reloadSni {i : ι} {sni : Sni} (ended : (s.threads i).ended = true) :
      Takes cfg s (.reloadSni i sni) (s.goto i (LeafFiles.reloadSni cfg sni))
  | advance {i : ι} {ok : Bool} {e : Effect} {q : Phase}
      (does : Does cfg s ok (s.threads i) e q) :
      Takes cfg s (.advance i ok) ((e.on s i).goto i q)
  | answer {i : ι} {sni : Sni} {reply : Option Bool} (asking : s.threads i = .asking sni) :
      Takes cfg s (.answer i reply) (s.goto i (answered sni reply))
  | issue {sni : Sni} : Takes cfg s (.issue sni) (s.begin sni)
  | writeCert {r : ℕ} {sni : Sni} {octets : Bytes} (begun : s.runs r = some (sni, .begun)) :
      Takes cfg s (.writeCert r octets)
        (s.issuer r sni .certWritten { s.disk sni with cert := some ⟨octets, r⟩ })
  | writeKey {r mtime : ℕ} {sni : Sni} {octets : Bytes}
      (halfway : s.runs r = some (sni, .certWritten)) :
      Takes cfg s (.writeKey r octets mtime)
        (s.issuer r sni .keyWritten { s.disk sni with key := some (⟨octets, r⟩, mtime) })
  | exit {r : ℕ} {sni : Sni} {stage : Stage} {success : Bool}
      (runs : s.runs r = some (sni, stage)) :
      Takes cfg s (.exit r success) (s.issuer r sni (.exited success) (s.disk sni))
  | tick {d : ℕ} : Takes cfg s (.tick d) { s with now := s.now + d }

theorem takes_of_step [DecidableEq ι] {cfg : Cfg} {s t : State ι} {a : Action ι}
    (h : step cfg s a = some t) : Takes cfg s a t := by
  cases a <;> simp only [step] at h
  case resolve i sni =>
    split at h
    case isTrue hended =>
      cases h
      exact .resolve hended
    case isFalse => cases h
  case reloadSni i sni =>
    split at h
    case isTrue hended =>
      cases h
      exact .reloadSni hended
    case isFalse => cases h
  case advance i ok =>
    obtain ⟨⟨e, q⟩, hwork, rfl⟩ := Option.map_eq_some_iff.mp h
    exact .advance (does_of_work hwork)
  case answer i reply =>
    split at h
    case h_1 sni hasking =>
      cases h
      exact .answer hasking
    case h_2 => cases h
  case issue sni =>
    cases h
    exact .issue
  case writeCert r octets =>
    split at h
    case h_1 sni hbegun =>
      cases h
      exact .writeCert hbegun
    case h_2 => cases h
  case writeKey r octets mtime =>
    split at h
    case h_1 sni hhalfway =>
      cases h
      exact .writeKey hhalfway
    case h_2 => cases h
  case exit r success =>
    split at h
    case h_1 => cases h
    case h_2 sni stage _ hruns =>
      cases h
      exact .exit hruns
    case h_3 => cases h
  case tick d =>
    cases h
    exact .tick

/-! ## A setting -/

def allowAll : Cfg := ⟨true, false, 300⟩

def scalar (b : UInt8) : Bytes := List.replicate 32 b

def oldLeaf : Sni → Option (Bytes × Bytes × ℕ) := fun _ => some ([48], scalar 0, 10)

def renewal : List (Action ℕ) :=
  [.issue [97], .writeCert 1 [49], .writeKey 1 (scalar 1) 20, .exit 1 true]

end DragonsNet.Dataplane.LeafFiles
