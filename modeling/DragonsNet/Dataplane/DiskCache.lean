/- GID: DragonsNet/Dataplane/DiskCache
   source: migration/dataplane/host/src/cache_disk.rs
   digest: The disk tier of the response cache by its file steps, and whose entry a read finds. -/

import DragonsNet.Dataplane.Cache
import DragonsNet.Lib.FileSystem
import DragonsNet.Lib.LittleEndian

set_option autoImplicit false

namespace DragonsNet.Dataplane.DiskCache

open Cache (Bytes ascii)
open Lib.FileSystem (Files overwrite overwrite_end)
open Lib.LittleEndian (toLe ofLe length_toLe ofLe_toLe_of_lt)
open Lib.Runs (run Meets invariant_of_meets unique_update)

/-! ## The format -/

def magic : Bytes := ascii "DKCH"

def version : ℕ := 1

structure DiskEntry where
  key : Bytes
  storedAt : UInt64
  maxAge : UInt64
  body : Bytes
  deriving DecidableEq, Repr

/-- The subtraction saturates at zero. -/
def DiskEntry.fresh (e : DiskEntry) (now : UInt64) : Bool :=
  now.toNat - e.storedAt.toNat < e.maxAge.toNat

/-- The key's length is cut to 32 bits. -/
def encode (key resp : Bytes) (storedAt maxAge : UInt64) : Bytes :=
  magic ++ (toLe 4 version ++ (toLe 8 storedAt.toNat ++ (toLe 8 maxAge.toNat ++
    (toLe 4 (key.length % 2 ^ 32) ++ (key ++ resp)))))

def decode (data : Bytes) : Option DiskEntry :=
  if data.length < 28 ∨ data.take 4 ≠ magic then none
  else if ofLe ((data.drop 4).take 4) ≠ version then none
  else
    let keyEnd := 28 + ofLe ((data.drop 24).take 4)
    if data.length < keyEnd then none
    else some {
      key := (data.take keyEnd).drop 28
      storedAt := .ofNat (ofLe ((data.drop 8).take 8))
      maxAge := .ofNat (ofLe ((data.drop 16).take 8))
      body := data.drop keyEnd }

def fnv1a (data : Bytes) (basis : UInt64) : UInt64 :=
  data.foldl (fun h b => (h ^^^ b.toUInt64) * 0x100000001b3) basis

def hexDigits : List Char := "0123456789abcdef".toList

def hexDigit (n : ℕ) : Char := hexDigits.getD n '0'

def hexOctet (b : UInt8) : List Char := [hexDigit (b.toNat / 16), hexDigit (b.toNat % 16)]

def hashHex (key : Bytes) : List Char :=
  let a := fnv1a key 0xcbf29ce484222325
  let b := fnv1a key (0x100000001b3 ^^^ 0xcbf29ce484222325)
  ((toLe 8 a.toNat).reverse ++ (toLe 8 b.toNat).reverse).flatMap hexOctet

/-- A file below the root, by the name that its two directories are parts of. -/
structure Path where
  hex : List Char
  tmp : Bool
  deriving DecidableEq, Repr

def entryPath (key : Bytes) : Path := ⟨hashHex key, false⟩

def tmpPath (key : Bytes) : Path := ⟨hashHex key, true⟩

private theorem field_at {data field rest : Bytes} {off n : ℕ} (h : data.drop off = field ++ rest)
    (hn : field.length = n) : (data.drop off).take n = field ∧ data.drop (off + n) = rest := by
  rw [← List.drop_drop, h]
  exact ⟨List.take_left' hn, List.drop_left' hn⟩

theorem length_encode (key resp : Bytes) (storedAt maxAge : UInt64) :
    (encode key resp storedAt maxAge).length = 28 + (key.length + resp.length) := by
  have hmagic : magic.length = 4 := rfl
  simp only [encode, List.length_append, length_toLe, hmagic]
  omega

private theorem decode_encode {e : DiskEntry} (hkey : e.key.length < 2 ^ 32) :
    decode (encode e.key e.body e.storedAt e.maxAge) = some e := by
  have hdata := length_encode e.key e.body e.storedAt e.maxAge
  have hmagic : (encode e.key e.body e.storedAt e.maxAge).take 4 = magic := rfl
  have h4 : (encode e.key e.body e.storedAt e.maxAge).drop 4 = _ := List.drop_left' rfl
  generalize encode e.key e.body e.storedAt e.maxAge = data at hdata hmagic h4 ⊢
  obtain ⟨hversion, h8⟩ := field_at h4 (length_toLe 4 version)
  obtain ⟨hstored, h16⟩ := field_at h8 (length_toLe 8 e.storedAt.toNat)
  obtain ⟨hage, h24⟩ := field_at h16 (length_toLe 8 e.maxAge.toNat)
  obtain ⟨hlen, h28⟩ := field_at h24 (length_toLe 4 (e.key.length % 2 ^ 32))
  obtain ⟨hkeyIs, hbody⟩ := field_at h28 rfl
  have hversionIs : ofLe (toLe 4 version) = version := rfl
  have hstoredIs : ofLe (toLe 8 e.storedAt.toNat) = e.storedAt.toNat :=
    ofLe_toLe_of_lt e.storedAt.toNat_lt
  have hageIs : ofLe (toLe 8 e.maxAge.toNat) = e.maxAge.toNat := ofLe_toLe_of_lt e.maxAge.toNat_lt
  have hlenIs : ofLe (toLe 4 (e.key.length % 2 ^ 32)) = e.key.length := by
    rw [Nat.mod_eq_of_lt hkey, ofLe_toLe_of_lt hkey]
  simp only [decode, hmagic, hversion, hstored, hage, hlen, hversionIs, hstoredIs, hageIs, hlenIs,
    hbody, UInt64.ofNat_toNat, List.drop_take, Nat.add_sub_cancel_left, hkeyIs]
  have hhead : ¬(data.length < 28 ∨ magic ≠ magic) := by
    rintro (hshort | hne)
    · omega
    · exact hne rfl
  rw [if_neg hhead, if_neg (fun hne => hne rfl), if_neg (by omega)]

/-! ## The calls, step by step -/

inductive Op where
  | put (e : DiskEntry)
  | getEntry (key : Bytes)
  | getFresh (key : Bytes) (now : UInt64)
  /-- The paths are what the walk of the directories gives. -/
  | reap (now : UInt64) (paths : List Path)

/-- Where a call stands: before which file step, or what it returned. -/
inductive Phase where
  | idle
  | making (e : DiskEntry)
  | opening (e : DiskEntry)
  | writing (e : DiskEntry) (file offset : ℕ)
  | publishing (e : DiskEntry)
  | putReturned (ok : Bool)
  | reading (key : Bytes) (now : Option UInt64)
  | removingStale (key : Bytes)
  | returned (key : Bytes) (result : Option DiskEntry)
  | sweeping (now : UInt64) (todo : List Path) (removed : ℕ)
  | removing (now : UInt64) (path : Path) (data : Bytes) (todo : List Path) (removed : ℕ)
  | reaped (removed : ℕ)
  deriving DecidableEq, Repr

def Phase.ended : Phase → Bool
  | .idle | .putReturned _ | .returned _ _ | .reaped _ => true
  | _ => false

def Op.begin (enabled : Bool) : Op → Phase
  | .put e => if !enabled || e.maxAge == 0 then .putReturned true else .making e
  | .getEntry key => if !enabled then .returned key none else .reading key none
  | .getFresh key now => if !enabled then .returned key none else .reading key (some now)
  | .reap now paths =>
    if !enabled then .reaped 0 else .sweeping now (paths.filter fun path => !path.tmp) 0

def DiskEntry.encoded (e : DiskEntry) : Bytes := encode e.key e.body e.storedAt e.maxAge

/-- `get_entry` once the file is read: only this key's file may serve this key. -/
def entryOf (key : Bytes) (data : Option Bytes) : Option DiskEntry :=
  (data.bind decode).filter (·.key = key)

def keeps (now : UInt64) (data : Bytes) : Bool := (decode data).any (·.fresh now)

/-- The next file step of a call succeeds; a write takes `n` octets. -/
def io (fs : Files Path) (n : ℕ) : Phase → Option (Files Path × Phase)
  | .making e => some (fs, .opening e)
  | .opening e =>
    let (fs, file) := fs.create (tmpPath e.key)
    some (fs, .writing e file 0)
  | .writing e file offset =>
    if 0 < n ∧ offset + n ≤ e.encoded.length then
      let fs := fs.writeAt file offset ((e.encoded.drop offset).take n)
      if offset + n = e.encoded.length then some (fs, .publishing e)
      else some (fs, .writing e file (offset + n))
    else none
  | .publishing e => (fs.rename (tmpPath e.key) (entryPath e.key)).map (·, .putReturned true)
  | .reading key now =>
    let found := entryOf key (fs.read (entryPath key))
    match now, found with
    | some now, some e =>
      if e.fresh now then some (fs, .returned key (some e)) else some (fs, .removingStale key)
    | _, _ => some (fs, .returned key found)
  | .removingStale key => (fs.remove (entryPath key)).map (·, .returned key none)
  | .sweeping _ [] removed => some (fs, .reaped removed)
  | .sweeping now (path :: todo) removed =>
    (fs.read path).map fun data =>
      (fs, if keeps now data then .sweeping now todo removed
        else .removing now path data todo removed)
  | .removing now path _ todo removed =>
    (fs.remove path).map (·, .sweeping now todo (removed + 1))
  | _ => none

def fail : Phase → Option Phase
  | .making _ | .opening _ | .writing _ _ _ | .publishing _ => some (.putReturned false)
  | .reading key _ | .removingStale key => some (.returned key none)
  | .sweeping now (_ :: todo) removed | .removing now _ _ todo removed =>
    some (.sweeping now todo removed)
  | _ => none

/-! ## Any number of threads -/

variable {ι : Type}

/-- The files, the threads' calls, the puts called so far, and what sweeps have removed, each with
the time the sweep was given. -/
structure State (ι : Type) where
  fs : Files Path
  phases : ι → Phase
  puts : List DiskEntry
  swept : List (UInt64 × Bytes)

def start : State ι := ⟨.none, fun _ => .idle, [], []⟩

inductive Action (ι : Type) where
  | call (i : ι) (op : Op)
  | io (i : ι) (n : ℕ)
  | fail (i : ι)

def sweptBy (fs : Files Path) : Phase → List (UInt64 × Bytes)
  | .removing now path _ _ _ => ((fs.read path).map (now, ·)).toList
  | _ => []

def Op.puts : Op → List DiskEntry
  | .put e => [e]
  | _ => []

variable [DecidableEq ι]

def step (enabled : Bool) (s : State ι) : Action ι → Option (State ι)
  | .call i op =>
    if (s.phases i).ended then
      some { s with
        phases := Function.update s.phases i (op.begin enabled)
        puts := op.puts ++ s.puts }
    else none
  | .io i n =>
    (io s.fs n (s.phases i)).map fun (fs, phase) =>
      { s with
        fs
        phases := Function.update s.phases i phase
        swept := sweptBy s.fs (s.phases i) ++ s.swept }
  | .fail i =>
    (fail (s.phases i)).map fun phase => { s with phases := Function.update s.phases i phase }

/-! ## Entries that are whole -/

def Phase.tmpHeld : Phase → Option (List Char)
  | .writing e _ _ | .publishing e => some (hashHex e.key)
  | _ => none

/-- Puts to one path do not overlap from the opening of the temporary file to its renaming, and a
sweep removes the file it has read. -/
def CarefulIo (s : State ι) : Phase → Prop
  | .opening e => ∀ j, (s.phases j).tmpHeld ≠ some (hashHex e.key)
  | .removing _ path data _ _ => ∀ found ∈ s.fs.read path, found = data
  | _ => True

instance decidableCarefulIo [Fintype ι] (s : State ι) : ∀ phase, Decidable (CarefulIo s phase)
  | .opening e => inferInstanceAs (Decidable (∀ j, (s.phases j).tmpHeld ≠ some (hashHex e.key)))
  | .removing _ path data _ _ =>
    inferInstanceAs (Decidable (∀ found ∈ s.fs.read path, found = data))
  | .idle => isTrue trivial
  | .making _ => isTrue trivial
  | .writing _ _ _ => isTrue trivial
  | .publishing _ => isTrue trivial
  | .putReturned _ => isTrue trivial
  | .reading _ _ => isTrue trivial
  | .removingStale _ => isTrue trivial
  | .returned _ _ => isTrue trivial
  | .sweeping _ _ _ => isTrue trivial
  | .reaped _ => isTrue trivial

/-- With it, a key's length fits its field. -/
def Careful (s : State ι) : Action ι → Prop
  | .call _ op => ∀ e ∈ op.puts, e.key.length < 2 ^ 32
  | .io i _ => CarefulIo s (s.phases i)
  | .fail _ => True

instance decidableCareful [Fintype ι] (s : State ι) : ∀ a, Decidable (Careful s a)
  | .call _ op => inferInstanceAs (Decidable (∀ e ∈ op.puts, e.key.length < 2 ^ 32))
  | .io i _ => inferInstanceAs (Decidable (CarefulIo s (s.phases i)))
  | .fail _ => isTrue trivial

/-- What the files are to a call that stands before its next step. -/
def PhaseOk (fs : Files Path) (puts : List DiskEntry) : Phase → Prop
  | .making e | .opening e => e ∈ puts
  | .writing e file offset =>
    e ∈ puts ∧ fs.names (tmpPath e.key) = some file ∧ offset ≤ e.encoded.length ∧
      fs.read (tmpPath e.key) = some (e.encoded.take offset)
  | .publishing e => e ∈ puts ∧ fs.read (tmpPath e.key) = some e.encoded
  | .returned key (some e) => e ∈ puts ∧ e.key = key
  | .sweeping _ todo _ => ∀ path ∈ todo, path.tmp = false
  | .removing now path data todo _ =>
    path.tmp = false ∧ keeps now data = false ∧ ∀ path ∈ todo, path.tmp = false
  | _ => True

structure Inv (s : State ι) : Prop where
  sound : s.fs.Sound
  keys : ∀ e ∈ s.puts, e.key.length < 2 ^ 32
  entries : ∀ hex data, s.fs.read ⟨hex, false⟩ = some data →
    ∃ e ∈ s.puts, hashHex e.key = hex ∧ data = e.encoded
  phases : ∀ i, PhaseOk s.fs s.puts (s.phases i)
  alone : ∀ i j hex, (s.phases i).tmpHeld = some hex → (s.phases j).tmpHeld = some hex → i = j
  swept : ∀ now data, (now, data) ∈ s.swept → keeps now data = false

theorem PhaseOk.frame {fs fs' : Files Path} {puts : List DiskEntry} {phase : Phase}
    (h : PhaseOk fs puts phase)
    (hsame : ∀ hex, phase.tmpHeld = some hex → fs'.names ⟨hex, true⟩ = fs.names ⟨hex, true⟩ ∧
      fs'.read ⟨hex, true⟩ = fs.read ⟨hex, true⟩) :
    PhaseOk fs' puts phase := by
  cases phase with
  | writing e file offset =>
    obtain ⟨hnames, hread⟩ := hsame _ rfl
    obtain ⟨he, hname, hoff, hcontent⟩ := h
    exact ⟨he, hnames.trans hname, hoff, hread.trans hcontent⟩
  | publishing e => exact ⟨h.1, (hsame _ rfl).2.trans h.2⟩
  | returned key result =>
    cases result with
    | none => trivial
    | some e => exact h
  | _ => exact h

private theorem PhaseOk.mono {fs : Files Path} {puts puts' : List DiskEntry} {phase : Phase}
    (h : PhaseOk fs puts phase) (hsub : ∀ e ∈ puts, e ∈ puts') : PhaseOk fs puts' phase := by
  cases phase with
  | making e => exact hsub e h
  | opening e => exact hsub e h
  | writing e file offset | publishing e => exact ⟨hsub e h.1, h.2⟩
  | returned key result =>
    cases result with
    | none => trivial
    | some e => exact ⟨hsub e h.1, h.2⟩
  | _ => exact h

omit [DecidableEq ι] in
theorem start_inv : Inv (start : State ι) where
  sound := Lib.FileSystem.Files.sound_none
  keys := fun _ he => absurd he List.not_mem_nil
  entries := fun _ _ h => by cases h
  phases := fun _ => trivial
  alone := fun _ _ _ h => by cases h
  swept := fun _ _ h => absurd h List.not_mem_nil

theorem Inv.move {s : State ι} (h : Inv s) {i : ι} {fs : Files Path} {phase : Phase}
    {swept : List (UInt64 × Bytes)} (hsound : fs.Sound)
    (hentries : ∀ hex data, fs.read ⟨hex, false⟩ = some data →
      ∃ e ∈ s.puts, hashHex e.key = hex ∧ data = e.encoded)
    (hphase : PhaseOk fs s.puts phase)
    (hothers : ∀ j, j ≠ i → ∀ hex, (s.phases j).tmpHeld = some hex →
      phase.tmpHeld ≠ some hex ∧ fs.names ⟨hex, true⟩ = s.fs.names ⟨hex, true⟩ ∧
        fs.read ⟨hex, true⟩ = s.fs.read ⟨hex, true⟩)
    (hswept : ∀ now data, (now, data) ∈ swept → keeps now data = false) :
    Inv { s with fs, phases := Function.update s.phases i phase, swept } where
  sound := hsound
  keys := h.keys
  entries := hentries
  phases := by
    intro j
    by_cases hj : j = i
    · rw [hj]
      simpa only [Function.update_self] using hphase
    · simp only [Function.update_of_ne hj]
      exact (h.phases j).frame fun hex hheld => (hothers j hj hex hheld).2
  alone := by
    refine unique_update Phase.tmpHeld h.alone fun hex hheld => ?_
    by_cases hself : (s.phases i).tmpHeld = some hex
    · exact .inl hself
    · refine .inr fun j hj => ?_
      have hji : j ≠ i := fun heq => hself (heq ▸ hj)
      exact (hothers j hji hex hj).1 hheld
  swept := hswept

theorem Inv.think {s : State ι} (h : Inv s) {i : ι} {phase : Phase}
    (hphase : PhaseOk s.fs s.puts phase) (hnone : phase.tmpHeld = none) :
    Inv { s with phases := Function.update s.phases i phase } :=
  h.move h.sound h.entries hphase (fun _ _ _ _ => ⟨by simp [hnone], rfl, rfl⟩) h.swept

private theorem tmpPath_ne {hex : List Char} {key : Bytes} (h : hex ≠ hashHex key) :
    (⟨hex, true⟩ : Path) ≠ tmpPath key := by
  simpa [tmpPath] using h

omit [DecidableEq ι] in
private theorem Inv.hex_ne {s : State ι} (h : Inv s) {i j : ι} {hex : List Char} {key : Bytes}
    (hji : j ≠ i) (hi : (s.phases i).tmpHeld = some (hashHex key))
    (hj : (s.phases j).tmpHeld = some hex) : hex ≠ hashHex key := by
  rintro rfl
  exact hji (h.alone j i _ hj hi)

theorem Inv.create {s : State ι} (h : Inv s) {i : ι} {e : DiskEntry} (hi : s.phases i = .opening e)
    (halone : ∀ j, (s.phases j).tmpHeld ≠ some (hashHex e.key)) :
    Inv { s with
      fs := (s.fs.create (tmpPath e.key)).1
      phases := Function.update s.phases i (.writing e (s.fs.create (tmpPath e.key)).2 0) } := by
  have he : PhaseOk s.fs s.puts (.opening e) := hi ▸ h.phases i
  have hname := s.fs.names_create_self (tmpPath e.key)
  refine h.move (h.sound.create _) (fun hex data hread => ?_) ⟨he, hname, Nat.zero_le _, ?_⟩
    (fun j _ hex hheld => ?_) h.swept
  · rw [Files.read_create_of_ne h.sound (by simp [tmpPath])] at hread
    exact h.entries hex data hread
  · rw [Files.read, hname, Option.map_some, Files.content_create_self, List.take_zero]
  · have hne : hex ≠ hashHex e.key := fun heq => halone j (heq ▸ hheld)
    exact ⟨by simpa [Phase.tmpHeld] using hne.symm, Files.names_create_of_ne (tmpPath_ne hne),
      Files.read_create_of_ne h.sound (tmpPath_ne hne)⟩

private theorem overwrite_take (data : Bytes) {offset n : ℕ} (hle : offset + n ≤ data.length) :
    overwrite (data.take offset) offset ((data.drop offset).take n) = data.take (offset + n) := by
  have hlen : (data.take offset).length = offset := List.length_take_of_le (by omega)
  nth_rewrite 2 [← hlen]
  rw [overwrite_end, List.take_add]

theorem Inv.write {s : State ι} (h : Inv s) {i : ι} {e : DiskEntry} {file offset n : ℕ}
    (hi : s.phases i = .writing e file offset) (hn : offset + n ≤ e.encoded.length) {phase : Phase}
    (hphase : phase = .publishing e ∧ offset + n = e.encoded.length ∨
      phase = .writing e file (offset + n)) :
    Inv { s with
      fs := s.fs.writeAt file offset ((e.encoded.drop offset).take n)
      phases := Function.update s.phases i phase } := by
  obtain ⟨he, hname, hoff, hread⟩ : PhaseOk s.fs s.puts (.writing e file offset) := hi ▸ h.phases i
  have hcontent : s.fs.content file = e.encoded.take offset := by
    rw [Files.read, hname] at hread
    exact Option.some.inj hread
  have hwritten : (s.fs.writeAt file offset ((e.encoded.drop offset).take n)).read (tmpPath e.key) =
      some (e.encoded.take (offset + n)) := by
    rw [Files.read_writeAt_self hname, hcontent, overwrite_take _ hn]
  have hheld : phase.tmpHeld = some (hashHex e.key) := by
    rcases hphase with ⟨rfl, -⟩ | rfl <;> rfl
  refine h.move (h.sound.writeAt _ _ _) (fun hex data hdata => ?_) ?_ (fun j hj hex hother => ?_)
    h.swept
  · rw [Files.read_writeAt_of_ne h.sound hname (by simp [tmpPath])] at hdata
    exact h.entries hex data hdata
  · rcases hphase with ⟨rfl, hall⟩ | rfl
    · exact ⟨he, hwritten.trans (by rw [hall, List.take_length])⟩
    · exact ⟨he, hname, hn, hwritten⟩
  · have hne : hex ≠ hashHex e.key := h.hex_ne hj (by rw [hi]; rfl) hother
    exact ⟨by simpa [hheld] using hne.symm, rfl,
      Files.read_writeAt_of_ne h.sound hname (tmpPath_ne hne)⟩

theorem Inv.publish {s : State ι} (h : Inv s) {i : ι} {e : DiskEntry} {fs : Files Path}
    (hi : s.phases i = .publishing e)
    (hfs : s.fs.rename (tmpPath e.key) (entryPath e.key) = some fs) :
    Inv { s with fs, phases := Function.update s.phases i (.putReturned true) } := by
  obtain ⟨he, htmp⟩ : PhaseOk s.fs s.puts (.publishing e) := hi ▸ h.phases i
  have hread := Files.read_rename hfs
  refine h.move (h.sound.rename hfs) (fun hex data hdata => ?_) trivial (fun j hj hex hother => ?_)
    h.swept
  · rw [hread] at hdata
    split at hdata
    · rename_i heq
      exact ⟨e, he, (congrArg Path.hex heq).symm, Option.some.inj (hdata.symm.trans htmp)⟩
    split at hdata
    · cases hdata
    · exact h.entries hex data hdata
  · have hpath : (⟨hex, true⟩ : Path) ≠ tmpPath e.key :=
      tmpPath_ne (h.hex_ne hj (by rw [hi]; rfl) hother)
    have hentry : (⟨hex, true⟩ : Path) ≠ entryPath e.key := by simp [entryPath]
    refine ⟨by simp [Phase.tmpHeld], ?_, ?_⟩
    · rw [Files.names_rename hfs, if_neg hentry, if_neg hpath]
    · rw [hread, if_neg hentry, if_neg hpath]

theorem Inv.remove {s : State ι} (h : Inv s) {i : ι} {path : Path} {fs : Files Path} {phase : Phase}
    {swept : List (UInt64 × Bytes)} (hfs : s.fs.remove path = some fs) (hpath : path.tmp = false)
    (hphase : PhaseOk fs s.puts phase) (hnone : phase.tmpHeld = none)
    (hswept : ∀ now data, (now, data) ∈ swept → keeps now data = false) :
    Inv { s with fs, phases := Function.update s.phases i phase, swept } := by
  have hread := Files.read_remove hfs
  refine h.move (h.sound.remove hfs) (fun hex data hdata => ?_) hphase (fun j hj hex hother => ?_)
    hswept
  · rw [hread] at hdata
    split at hdata
    · cases hdata
    · exact h.entries hex data hdata
  · have hne : (⟨hex, true⟩ : Path) ≠ path := by
      rintro rfl
      cases hpath
    refine ⟨by simp [hnone], ?_, ?_⟩
    · rw [Files.names_remove hfs, if_neg hne]
    · rw [hread, if_neg hne]

omit [DecidableEq ι] in
private theorem Inv.entryOf {s : State ι} (h : Inv s) {key : Bytes} {e : DiskEntry}
    (he : entryOf key (s.fs.read (entryPath key)) = some e) : e ∈ s.puts ∧ e.key = key := by
  obtain ⟨hdecode, hkey⟩ := Option.filter_eq_some_iff.mp he
  obtain ⟨data, hdata, hdecode⟩ := Option.bind_eq_some_iff.mp hdecode
  obtain ⟨put, hput, -, rfl⟩ := h.entries _ data hdata
  have hwhole := decode_encode (h.keys put hput)
  rw [DiskEntry.encoded, hwhole] at hdecode
  exact ⟨Option.some.inj hdecode ▸ hput, of_decide_eq_true hkey⟩

theorem read_inv {s : State ι} (h : Inv s) {i : ι} {n : ℕ} {key : Bytes} {now : Option UInt64}
    {fs : Files Path} {phase : Phase} (hio : io s.fs n (.reading key now) = some (fs, phase)) :
    Inv { s with fs, phases := Function.update s.phases i phase } := by
  simp only [io] at hio
  split at hio
  · rename_i e hfound
    split at hio
    · cases hio
      exact h.think (h.entryOf hfound) rfl
    · cases hio
      exact h.think trivial rfl
  · cases hio
    refine h.think ?_ rfl
    cases hfound : entryOf key (s.fs.read (entryPath key)) with
    | none => trivial
    | some e => exact h.entryOf hfound

theorem sweep_inv {s : State ι} (h : Inv s) {i : ι} {n removed : ℕ} {now : UInt64}
    {todo : List Path} {fs : Files Path} {phase : Phase} (htodo : ∀ path ∈ todo, path.tmp = false)
    (hio : io s.fs n (.sweeping now todo removed) = some (fs, phase)) :
    Inv { s with fs, phases := Function.update s.phases i phase } := by
  cases todo with
  | nil =>
    cases hio
    exact h.think trivial rfl
  | cons path todo =>
    obtain ⟨data, -, hpair⟩ := Option.map_eq_some_iff.mp hio
    obtain ⟨hpath, htodo⟩ := List.forall_mem_cons.mp htodo
    cases hpair
    split
    · exact h.think htodo rfl
    · rename_i hkeeps
      exact h.think ⟨hpath, Bool.eq_false_of_not_eq_true hkeeps, htodo⟩ rfl

theorem removing_inv {s : State ι} (h : Inv s) {i : ι} {n removed : ℕ} {now : UInt64} {path : Path}
    {data : Bytes} {todo : List Path} {fs : Files Path} {phase : Phase}
    (hi : s.phases i = .removing now path data todo removed)
    (hok : ∀ found ∈ s.fs.read path, found = data)
    (hio : io s.fs n (.removing now path data todo removed) = some (fs, phase)) :
    Inv { s with
      fs
      phases := Function.update s.phases i phase
      swept := sweptBy s.fs (.removing now path data todo removed) ++ s.swept } := by
  obtain ⟨hpath, hkeeps, htodo⟩ : PhaseOk s.fs s.puts (.removing now path data todo removed) :=
    hi ▸ h.phases i
  obtain ⟨fs', hfs, hpair⟩ := Option.map_eq_some_iff.mp hio
  cases hpair
  refine h.remove hfs hpath htodo rfl fun now' data' hmem => ?_
  rcases List.mem_append.mp hmem with hnew | hold
  · obtain ⟨found, hfound, hpair⟩ := Option.map_eq_some_iff.mp (Option.mem_toList.mp hnew)
    cases hpair
    rwa [hok _ hfound]
  · exact h.swept now' data' hold

theorem io_inv {s : State ι} (h : Inv s) {i : ι} {n : ℕ} (hok : Careful s (.io i n))
    {fs : Files Path} {phase : Phase} (hio : io s.fs n (s.phases i) = some (fs, phase)) :
    Inv { s with
      fs
      phases := Function.update s.phases i phase
      swept := sweptBy s.fs (s.phases i) ++ s.swept } := by
  have hi := h.phases i
  rw [Careful] at hok
  cases hphase : s.phases i with
  | making e =>
    rw [hphase] at hio hi
    cases hio
    exact h.think hi rfl
  | opening e =>
    rw [hphase] at hio hok
    cases hio
    exact h.create hphase hok
  | writing e file offset =>
    rw [hphase] at hio
    simp only [io] at hio
    split at hio
    · rename_i hn
      split at hio
      · rename_i hall
        cases hio
        exact h.write hphase hn.2 (.inl ⟨rfl, hall⟩)
      · cases hio
        exact h.write hphase hn.2 (.inr rfl)
    · cases hio
  | publishing e =>
    rw [hphase] at hio
    obtain ⟨fs', hfs, hpair⟩ := Option.map_eq_some_iff.mp hio
    cases hpair
    exact h.publish hphase hfs
  | reading key now =>
    rw [hphase] at hio
    exact read_inv h hio
  | removingStale key =>
    rw [hphase] at hio
    obtain ⟨fs', hfs, hpair⟩ := Option.map_eq_some_iff.mp hio
    cases hpair
    exact h.remove hfs rfl trivial rfl h.swept
  | sweeping now todo removed =>
    rw [hphase] at hio hi
    exact sweep_inv h hi hio
  | removing now path data todo removed =>
    rw [hphase] at hio hok
    exact removing_inv h hphase hok hio
  | _ =>
    rw [hphase] at hio
    cases hio

theorem fail_inv {s : State ι} (h : Inv s) {i : ι} {phase : Phase}
    (hfail : fail (s.phases i) = some phase) :
    Inv { s with phases := Function.update s.phases i phase } := by
  have hi := h.phases i
  cases hphase : s.phases i with
  | sweeping now todo removed =>
    rw [hphase] at hfail hi
    cases todo with
    | nil => cases hfail
    | cons path todo =>
      cases hfail
      exact h.think (List.forall_mem_cons.mp hi).2 rfl
  | removing now path data todo removed =>
    rw [hphase] at hfail hi
    cases hfail
    exact h.think hi.2.2 rfl
  | _ =>
    rw [hphase] at hfail
    cases hfail <;> exact h.think trivial rfl

omit [DecidableEq ι] in
theorem Inv.record {s : State ι} (h : Inv s) {op : Op}
    (hkeys : ∀ e ∈ op.puts, e.key.length < 2 ^ 32) : Inv { s with puts := op.puts ++ s.puts } where
  sound := h.sound
  keys := fun e he => (List.mem_append.mp he).elim (hkeys e) (h.keys e)
  entries := by
    intro hex data hread
    obtain ⟨e, he, hrest⟩ := h.entries hex data hread
    exact ⟨e, List.mem_append_right _ he, hrest⟩
  phases := fun i => (h.phases i).mono fun e he => List.mem_append_right _ he
  alone := h.alone
  swept := h.swept

private theorem begin_ok (enabled : Bool) (op : Op) (fs : Files Path) (puts : List DiskEntry) :
    PhaseOk fs (op.puts ++ puts) (op.begin enabled) ∧ (op.begin enabled).tmpHeld = none := by
  cases op with
  | put e =>
    rw [Op.begin]
    split
    · exact ⟨trivial, rfl⟩
    · exact ⟨List.mem_cons_self, rfl⟩
  | reap now paths =>
    rw [Op.begin]
    split
    · exact ⟨trivial, rfl⟩
    · refine ⟨fun path hpath => ?_, rfl⟩
      simpa using (List.mem_filter.mp hpath).2
  | _ =>
    rw [Op.begin]
    split <;> exact ⟨trivial, rfl⟩

theorem step_inv {enabled : Bool} {s t : State ι} {a : Action ι} (h : Inv s) (hok : Careful s a)
    (hstep : step enabled s a = some t) : Inv t := by
  cases a with
  | call i op =>
    simp only [step] at hstep
    split at hstep
    · cases hstep
      obtain ⟨hphase, hnone⟩ := begin_ok enabled op s.fs s.puts
      exact (h.record hok).think hphase hnone
    · cases hstep
  | io i n =>
    obtain ⟨⟨fs, phase⟩, hio, rfl⟩ := Option.map_eq_some_iff.mp hstep
    exact io_inv h hok hio
  | fail i =>
    obtain ⟨phase, hfail, rfl⟩ := Option.map_eq_some_iff.mp hstep
    exact fail_inv h hfail

/-- An entry read is one put's, whole, and no sweep removes one that is fresh at its time, where puts
to a path keep apart and no sweep loses its file to a put. -/
theorem entries_whole (enabled : Bool) (acts : List (Action ι)) (s : State ι)
    (hcareful : Meets (step enabled) Careful start acts)
    (hrun : run (step enabled) start acts = some s) :
    (∀ i key e, s.phases i = .returned key (some e) → e ∈ s.puts ∧ e.key = key) ∧
      ∀ now data, (now, data) ∈ s.swept → ∀ e, decode data = some e → e.fresh now = false := by
  have hinv : Inv s := invariant_of_meets step_inv start_inv hcareful hrun
  refine ⟨fun i key e hi => ?_, fun now data hmem e he => ?_⟩
  · have hphase : PhaseOk s.fs s.puts (.returned key (some e)) := hi ▸ hinv.phases i
    exact hphase
  · have hkeeps := hinv.swept now data hmem
    rwa [keeps, he] at hkeeps

def entryA (body : Bytes) : DiskEntry := ⟨ascii "GET /a", 1, 60, body⟩

def putThenRead : List (Action Bool) :=
  [.call true (.put (entryA (ascii "one"))), .io true 0, .io true 0, .io true 20, .io true 17,
    .io true 0, .call false (.getEntry (ascii "GET /a")), .io false 0]

theorem putThenRead_whole : ∃ s, run (step true) start putThenRead = some s ∧
    s.phases false = .returned (ascii "GET /a") (some (entryA (ascii "one"))) ∧
    entryA (ascii "one") ∈ s.puts ∧ (entryA (ascii "one")).key = ascii "GET /a" := by
  have hrun : (run (step true) start putThenRead).map (·.phases false) =
      some (.returned (ascii "GET /a") (some (entryA (ascii "one")))) := by decide +kernel
  have hcareful : Meets (step true) Careful start putThenRead := by decide +kernel
  obtain ⟨s, hs, hphase⟩ := Option.map_eq_some_iff.mp hrun
  exact ⟨s, hs, hphase, (entries_whole true putThenRead s hcareful hs).1 false _ _ hphase⟩

/-- Two puts of a key share its temporary file: the one renames what the other has written so far,
and a read finds a response that neither put; and a sweep that has read an expired entry removes the
fresh one that a put has renamed into its place meanwhile. -/
theorem overlapping_puts_mix :
    (run (step true) (start : State ℕ)
      [.call 0 (.put (entryA (ascii "one"))), .io 0 0, .io 0 0, .io 0 37,
        .call 1 (.put (entryA (ascii "other"))), .io 1 0, .io 1 0, .io 1 34, .io 0 0,
        .call 2 (.getEntry (ascii "GET /a")), .io 2 0]).map (fun s => s.phases 2) =
      some (.returned (ascii "GET /a") (some (entryA []))) ∧
    (run (step true) (start : State ℕ)
      [.call 0 (.put (entryA (ascii "one"))), .io 0 0, .io 0 0, .io 0 37, .io 0 0,
        .call 2 (.reap 100 [entryPath (ascii "GET /a")]), .io 2 0,
        .call 1 (.put ⟨ascii "GET /a", 90, 60, ascii "two"⟩), .io 1 0, .io 1 0, .io 1 37, .io 1 0,
        .io 2 0]).map (fun s => s.swept.map fun p => (p.1, decode p.2)) =
      some [(100, some ⟨ascii "GET /a", 90, 60, ascii "two"⟩)] ∧
    (⟨ascii "GET /a", 90, 60, ascii "two"⟩ : DiskEntry).fresh 100 = true := by
  decide +kernel

end DragonsNet.Dataplane.DiskCache
