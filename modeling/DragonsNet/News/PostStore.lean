/- GID: DragonsNet/News/PostStore
   source: lean/DN/News/PostSpec.lean, lean/DN/News/Framer.lean, lean/DN/News/SessionSpec.lean
   digest: The article store's side of POST and of reading, as jobs asked of the host. -/

import DragonsNet.Native.FileJobs

set_option autoImplicit false

namespace DragonsNet.News.PostStore

open Native.FileJobs (Name)

abbrev Byte := UInt8

def NUL : Byte := 0
def LF : Byte := 10
def CR : Byte := 13
def DOT : Byte := 46
def crlf : List Byte := [CR, LF]

/-- Jobs in flight, one for each slot of a POST or a read, the operations of one and the octets it
moves; places of open files. -/
def jobs : ℕ := 12
def jobOps : ℕ := 8
def jobData : ℕ := 16384
def places : ℕ := 16
def headerMax : ℕ := 65536

/-- The rules and bounds of the store's side, the specification's being the defaults. -/
structure Rules where
  posts : ℕ := 4
  articleMax : ℕ := 1000000
  stuffs : Bool := true
  reserves : Bool := true
  syncsFile : Bool := true
  syncsDir : Bool := true
  syncsJournal : Bool := true
  oneDirSync : Bool := true
  oneAppend : Bool := true
  numbersAbove : Bool := true
  stops : Bool := true
  unknown : Bool := true
  cleans : Bool := true
  separates : Bool := true
  capacity : ℕ := 4096
  releases : Bool := true
  refusesInFlight : Bool := true
  distrusts : Bool := true
  reads : ℕ := 8
  checksLines : Bool := true
  checksSize : Bool := true
  checksCrc : Bool := true
  seeksEnd : Bool := true
  checksHeader : Bool := true
  readJobsApart : Bool := true
  closesAfter : Bool := true
  overviewMax : ℕ := 69632
  deriving DecidableEq, Repr

structure Group where
  name : List Byte
  number : ℕ
  deriving DecidableEq, Repr

structure Commit where
  seq : ℕ
  messageId : List Byte
  groups : List Group
  headerSize : ℕ
  fileSize : ℕ
  fileCrc : ℕ
  deriving DecidableEq, Repr

def Commit.ok (c : Commit) : Bool :=
  1 ≤ c.seq && c.seq < 2 ^ 64 && 1 ≤ c.messageId.length && c.messageId.length ≤ 250 &&
    1 ≤ c.groups.length && c.groups.length ≤ 16 &&
    c.groups.all (fun g => 1 ≤ g.name.length && g.name.length ≤ 64 && 1 ≤ g.number &&
      g.number < 2 ^ 31) &&
    decide (c.groups.map Group.name).Nodup && c.headerSize ≤ c.fileSize && c.fileSize < 2 ^ 32 &&
    c.fileCrc < 2 ^ 32

/-- The highest article number the groups of one commit give, and commits gave, a group. -/
def highOf : List Group → List Byte → ℕ
  | [], _ => 0
  | g :: gs, name => max (if g.name == name then g.number else 0) (highOf gs name)

def highIn : List Commit → List Byte → ℕ
  | [], _ => 0
  | c :: cs, name => max (highOf c.groups name) (highIn cs name)

inductive Op where
  | create (n : Name)
  | write (place gen offset : ℕ) (data : List Byte)
  | dataSync (place gen : ℕ)
  | close (place gen : ℕ)
  | rename (src dst : Name)
  | remove (n : Name)
  | syncDir
  | open_ (n : Name)
  | read (place gen offset len : ℕ)
  deriving DecidableEq, Repr

/-- A job handed to the host: its slot, its generation and its operations. -/
structure Job where
  slot : ℕ
  gen : ℕ
  ops : List Op
  deriving DecidableEq, Repr

/-- A job's completion: its slot and generation, how many operations succeeded, the two result
words of each that did, and the octets a read gave. -/
structure Done where
  slot : ℕ
  gen : ℕ
  ok : ℕ
  results : List (ℕ × ℕ)
  data : List Byte
  deriving DecidableEq, Repr

inductive Fault where
  | unknownJob
  | badDone
  deriving DecidableEq, Repr

/-- What the job in flight of a slot does: create the file; write `len` octets; write the rest,
`len` octets in `writes` operations, sync and close; place the file; append the commit, a frame of
`len` octets; remove the names, closing the file first when `closes`. -/
inductive Task where
  | create
  | write (len : ℕ)
  | finish (writes len : ℕ)
  | place
  | commit (c : Commit) (len : ℕ)
  | clean (closes : Bool)
  deriving DecidableEq, Repr

/-- Where an accepted article's file has come: not created, open at a place under the temporary
name, written and closed, moved to the final name, and moved with the directory synced. -/
inductive File where
  | none
  | open_ (place gen : ℕ)
  | closed
  | final
  | placed
  deriving DecidableEq, Repr

/-- An article accepted so far: its number, its message identifier, the groups it is stored in,
the size of its header section in the file, the file's octets known, how many are written. -/
structure Article where
  seq : ℕ
  messageId : List Byte
  groups : List (List Byte)
  headerSize : ℕ
  octets : List Byte
  written : ℕ
  file : File
  deriving DecidableEq, Repr

/-- 240, 441, or unknown: the connection closed without an answer. -/
inductive Outcome where
  | posted
  | failed
  | lost
  deriving DecidableEq, Repr

/-! ## The block framer -/

/-- Where the framer is in a line: at its start, inside it, after a CR that may end it, after a dot
at its start, after a dot and a CR at its start. -/
inductive Phase where
  | bol
  | data
  | cr
  | dot
  | dotcr
  deriving DecidableEq, Repr

structure BlockState where
  phase : Phase
  bad : Bool
  deriving DecidableEq, Repr

def BlockState.fresh : BlockState := ⟨.bol, false⟩

def spoils (x : Byte) : Bool := x == LF || x == NUL

/-- `frameOctet`, one octet of a block framed by `blockStep` with nothing held before it: the state
after it, the octets it adds to what the block holds, and at the block's end whether the block is
clean. The dot that ends a block, and the one a sender put before a line starting with a dot, are
not held; a CR is held back until the next byte shows whether it ends the line. -/
def frameOctet (s : BlockState) (x : Byte) : BlockState × List Byte × Option Bool :=
  match s.phase with
  | .bol =>
    if x = DOT then (⟨.dot, s.bad⟩, [], none)
    else if x = CR then (⟨.cr, s.bad⟩, [], none)
    else (⟨.data, s.bad || spoils x⟩, [x], none)
  | .data =>
    if x = CR then (⟨.cr, s.bad⟩, [], none) else (⟨.data, s.bad || spoils x⟩, [x], none)
  | .cr =>
    if x = LF then (⟨.bol, s.bad⟩, [CR, LF], none)
    else if x = CR then (⟨.cr, true⟩, [CR], none)
    else (⟨.data, true⟩, [CR, x], none)
  | .dot =>
    if x = CR then (⟨.dotcr, s.bad⟩, [], none) else (⟨.data, s.bad || spoils x⟩, [x], none)
  | .dotcr =>
    if x = LF then (.fresh, [], some !s.bad)
    else if x = CR then (⟨.cr, true⟩, [CR], none)
    else (⟨.data, true⟩, [CR, x], none)

/-- A POST: the connection that posts, until it is answered or gone, and its number; the framer,
the octets arrived, whether the block has ended; the header section's lines so far, until the empty
line, then whether the next octet of the file starts a line; the article accepted so far; whether it
is refused; its outcome; its job in flight, by slot, generation, operations and task. -/
structure Slot where
  owner : Option (ℕ × ℕ)
  conn : ℕ
  frame : BlockState := .fresh
  arrived : ℕ := 0
  ended : Bool := false
  header : List Byte := []
  body : Bool := false
  bol : Bool := true
  article : Option Article := none
  refused : Bool := false
  outcome : Option Outcome := none
  busy : Option (ℕ × ℕ × ℕ × Task) := none
  deriving DecidableEq, Repr

/-- What the job in flight of a read does: open the file; read `len` octets, closing the file after
when `last`; close it. -/
inductive ReadTask where
  | open_
  | read (len : ℕ) (last : Bool)
  | close
  deriving DecidableEq, Repr

/-- Where a read's file is: not opened yet, open at a place, or closed or never to be opened. -/
inductive ReadFile where
  | none
  | open_ (place gen : ℕ)
  | gone
  deriving DecidableEq, Repr

inductive Cmd where
  | article
  | head
  | body
  | over
  | hdr
  deriving DecidableEq, Repr

/-- What an OVER or HDR reads besides the article, and the articles after this one. -/
structure View where
  legacy : Bool
  field : Option (List Byte)
  byId : Bool
  rest : List (ℕ × Commit)
  first : Bool := true
  deriving DecidableEq, Repr

/-- A read: the connection it answers, until it is answered or gone; the command, the number its
first line gives and the commit of the article; its file; the octets read and checked; what it gives
and how many of those octets were given; whether a read or a check failed; its job in flight. -/
structure Read where
  owner : Option (ℕ × ℕ)
  cmd : Cmd
  number : ℕ := 0
  commit : Commit
  file : ReadFile := .none
  got : List Byte := []
  out : List Byte := []
  given : ℕ := 0
  bad : Bool := false
  busy : Option (ℕ × ℕ × ℕ × ReadTask) := none
  view : Option View := none
  deriving DecidableEq, Repr

/-- A proto-article accepted: its header section as stored, its message identifier, its groups. -/
structure Accepted where
  header : List Byte
  messageId : List Byte
  groups : List (List Byte)
  deriving DecidableEq, Repr

def maxFrame : ℕ := 13 + (8 + (1 + 250) + (1 + 16 * (1 + 64 + 4)) + 4 + 4 + 4) + 1

/-- What the store is given and asks of other modules: the check of a header section, by the wall
clock, the next sequence number and the connection's number; the CRC-32C; the frame of a commit at
the journal's end, which the journal bounds; what a read gives its connection. -/
structure Content where
  check : ℕ → ℕ → ℕ → List Byte → Option Accepted
  crc32c : List Byte → ℕ
  encode : Commit → ℕ → List Byte
  encode_le : ∀ c journalEnd, c.ok = true → (encode c journalEnd).length ≤ maxFrame
  output : Read → List Byte

/-- The store while the session runs: the commits of its journal, where it ends and its place; the
numbers set aside and the next to give; whether it accepts; the generation of the last job; the
slots and the reads. -/
structure Store where
  articles : List Commit
  setAside : List ℕ
  next : ℕ
  journalEnd : ℕ
  journal : ℕ × ℕ
  accepting : Bool
  jobGen : ℕ
  slots : List (Option Slot)
  reads : List (Option Read)
  deriving DecidableEq, Repr

structure Recovered where
  articles : List Commit
  setAside : List ℕ
  next : ℕ
  journalEnd : ℕ
  deriving DecidableEq, Repr

def Store.start (R : Rules) (st : Recovered) (journal : ℕ × ℕ) (jobGen : ℕ) : Store where
  articles := st.articles
  setAside := st.setAside
  next := st.next
  journalEnd := st.journalEnd
  journal := journal
  accepting := true
  jobGen := jobGen
  slots := List.replicate R.posts none
  reads := List.replicate R.reads none

def Store.free (st : Store) (k : ℕ) : Bool := (st.slots[k]?).any Option.isNone

def Store.slot (st : Store) (k : ℕ) : Option Slot := (st.slots[k]?).getD none

def Store.setSlot (st : Store) (k : ℕ) (x : Option Slot) : Store :=
  { st with slots := st.slots.set k x }

def Store.readFree (st : Store) (k : ℕ) : Bool := (st.reads[k]?).any Option.isNone

def Store.readSlot (st : Store) (k : ℕ) : Option Read := (st.reads[k]?).getD none

def Store.setRead (st : Store) (k : ℕ) (x : Option Read) : Store :=
  { st with reads := st.reads.set k x }

/-! ## An article's octets -/

/-- Octets of lines as a reader receives them: a dot put before a line that starts with one; `bol`
whether the first octet starts a line, and the same after the last. -/
def stuff (bol : Bool) : List Byte → List Byte × Bool
  | [] => ([], bol)
  | x :: rest =>
    let (out, b) := stuff (x == LF) rest
    ((if bol && x == DOT then [DOT, x] else [x]) ++ out, b)

def Rules.stuff (R : Rules) (bol : Bool) (o : List Byte) : List Byte × Bool :=
  if R.stuffs then PostStore.stuff bol o else (o, bol)

/-- Whether the header section's lines so far end with the empty line. -/
def endsHeader (h : List Byte) : Bool :=
  h == crlf || (4 ≤ h.length && h.drop (h.length - 4) == crlf ++ crlf)

def Article.pending (a : Article) : ℕ := a.octets.length - a.written

/-- Whether a slot takes more octets: its block goes on, and fewer than a job's octets wait to be
written. -/
def Slot.takes (s : Slot) : Bool :=
  !s.ended && (s.article.map fun a => decide (a.pending < jobData)).getD true

/-- The Message-IDs the slots hold reserved: those of their articles not refused. -/
def Store.reserved (R : Rules) (st : Store) : List (List Byte) :=
  st.slots.filterMap fun x =>
    x.bind fun s => if s.refused && R.releases then none else s.article.map (·.messageId)

/-- The header section ended: checked, its Message-ID reserved and a sequence number given, or the
article refused. -/
def Store.accept (R : Rules) (C : Content) (st : Store) (wall : ℕ) (s : Slot) : Store × Slot :=
  match C.check wall st.next s.conn s.header with
  | none => (st, { s with refused := true, body := true })
  | some a =>
    if st.articles.any (·.messageId == a.messageId) ||
        (R.reserves && (st.reserved R).contains a.messageId) ||
        R.capacity ≤ st.articles.length + st.setAside.length + (st.reserved R).length ||
        2 ^ 64 ≤ st.next + 2 then (st, { s with refused := true, body := true })
    else
      let head := (R.stuff true a.header).1
      ({ st with next := st.next + 1 },
       { s with
         body := true
         bol := true
         article := some ⟨st.next, a.messageId, a.groups, head.length, head ++ crlf, 0, .none⟩ })

def Store.octet (R : Rules) (C : Content) (wall : ℕ) (st : Store) (s : Slot) (x : Byte) :
    Store × Slot :=
  let (f, add, fin) := frameOctet s.frame x
  let s := { s with frame := f, arrived := s.arrived + 1 }
  match fin with
  | some clean =>
    let long := decide (R.articleMax < s.arrived)
    let early := R.separates && !s.body
    (st, { s with ended := true, refused := s.refused || !clean || long || early })
  | none =>
    if s.refused then (st, s)
    else if f.bad || R.articleMax < s.arrived then (st, { s with refused := true })
    else if !s.body then
      let h := s.header ++ add
      if headerMax < h.length && !endsHeader h then (st, { s with header := [], refused := true })
      else if endsHeader h then st.accept R C wall { s with header := h }
      else (st, { s with header := h })
    else
      match s.article with
      | some a =>
        let (o, b) := R.stuff s.bol add
        (st, { s with article := some { a with octets := a.octets ++ o }, bol := b })
      | none => (st, s)

/-- Held octets framed into slot `k` while it takes them; what is left of them. -/
def Store.feed (R : Rules) (C : Content) (wall k : ℕ) : Store → List Byte → Store × List Byte
  | st, [] => (st, [])
  | st, x :: rest =>
    match st.slot k with
    | some s =>
      if s.takes then
        let (st, s) := (st.setSlot k none).octet R C wall s x
        Store.feed R C wall k (st.setSlot k (some s)) rest
      else (st, x :: rest)
    | none => (st, x :: rest)

/-! ## Deciding -/

/-- Whether the slot's job in flight appends the journal, or syncs the directory. -/
def Slot.committing (s : Slot) : Bool :=
  match s.busy with
  | some (_, _, _, .commit _ _) => true
  | _ => false

def Slot.placing (s : Slot) : Bool :=
  match s.busy with
  | some (_, _, _, .place) => true
  | _ => false

/-- An article not committing refused once the store stops accepting. -/
def Slot.tidyRefused (R : Rules) (accepting : Bool) (s : Slot) : Slot :=
  if !accepting && R.refusesInFlight && s.outcome.isNone && !s.committing then
    { s with refused := true }
  else s

def Slot.tidyOutcome (s : Slot) : Slot :=
  if s.outcome.isNone && s.refused && s.ended && s.busy.isNone then
    { s with outcome := some .failed }
  else s

def Slot.tidyArticle (s : Slot) : Slot :=
  if s.refused && s.busy.isNone && (s.article.map (·.file == .none)).getD false then
    { s with article := none }
  else s

/-- What a slot decides without the host, in this order; the slot is freed once it has no owner, no
job and no article. -/
def Slot.tidy (R : Rules) (accepting : Bool) (s : Slot) : Option Slot :=
  let s := ((s.tidyRefused R accepting).tidyOutcome).tidyArticle
  if s.owner.isNone && s.busy.isNone && s.article.isNone then none else some s

def ReadFile.isOpen : ReadFile → Bool
  | .open_ _ _ => true
  | _ => false

/-- A read is forgotten once it has no owner, no job in flight and no file open. -/
def Read.tidy (r : Read) : Option Read :=
  if r.owner.isNone && r.busy.isNone && !r.file.isOpen then none else some r

def Store.tidy (R : Rules) (st : Store) : Store :=
  { st with
    slots := st.slots.map (·.bind (Slot.tidy R st.accepting))
    reads := st.reads.map (·.bind Read.tidy) }

/-- The connection `idx` of generation `gen` gone, or no longer reading: its slot's article, if the
block has not ended, abandoned. -/
def Slot.leftBy (idx gen : ℕ) (s : Slot) : Slot :=
  if s.owner == some (idx, gen) then { s with owner := none, refused := s.refused || !s.ended }
  else s

def Read.leftBy (idx gen : ℕ) (r : Read) : Read :=
  if r.owner == some (idx, gen) then { r with owner := none } else r

def Store.abandon (R : Rules) (idx gen : ℕ) (st : Store) : Store :=
  Store.tidy R { st with
    slots := st.slots.map (·.map (Slot.leftBy idx gen))
    reads := st.reads.map (·.map (Read.leftBy idx gen)) }

/-! ## Reads -/

/-- Whether octets read from the start of a line, `bol`, can begin lines as a file stores them: CRLF
only, no NUL, a line that starts with a dot starting with two; once `whole`, they end a line. -/
def linesFrom (whole bol : Bool) : List Byte → Bool
  | [] => !whole || bol
  | x :: rest =>
    if x == NUL || x == LF then false
    else if x == CR then
      match rest with
      | [] => !whole
      | y :: r => y == LF && linesFrom whole true r
    else if bol && x == DOT then
      match rest with
      | [] => !whole
      | y :: r => y == DOT && linesFrom whole false r
    else linesFrom whole false rest

/-- Whether the octets read from the start of a file can be the article the commit names, as far as
they go; once `whole`, whether they are. -/
def fileOk (R : Rules) (C : Content) (c : Commit) (got : List Byte) (whole : Bool) : Bool :=
  (!R.checksLines || linesFrom whole true got) &&
    (!R.checksHeader || if c.headerSize + 2 ≤ got.length then
      2 ≤ c.headerSize && (got.drop (c.headerSize - 2)).take 4 == crlf ++ crlf
    else !whole) &&
    (!whole || ((!R.checksSize || got.length == c.fileSize) &&
      (!R.checksCrc || C.crc32c got == c.fileCrc)))

/-- Whether everything of the file is read and checked, and the read past it found it ending: the
last read closes the file. -/
def Read.whole (R : Rules) (r : Read) : Bool :=
  r.got.length == r.commit.fileSize && (!R.seeksEnd || r.file == .gone)

def Read.refresh (C : Content) (r : Read) : Read := { r with out := C.output r }

def Read.advance (R : Rules) (C : Content) (r : Read) (number : ℕ) (commit : Commit) (v : View) :
    Read :=
  { r with
    number := number
    commit := commit
    file := .none
    got := []
    given := 0
    view := some v
    bad := R.overviewMax < commit.headerSize }.refresh C

/-- A read for the connection `owner` of the article `commit` by command `cmd`, failed at once when
its header section is longer than an overview read takes. -/
def Read.make (R : Rules) (C : Content) (owner : ℕ × ℕ) (cmd : Cmd) (number : ℕ) (commit : Commit)
    (view : Option View) : Read :=
  Read.refresh C
    { owner := some owner, cmd, number, commit, view,
      bad := view.isSome && decide (R.overviewMax < commit.headerSize) }

/-- The next job of a read: open its file; once everything checked has been given, read on, a job's
octets or, when the rest fits, one more than are left and close the file after them; close a file a
failure or the connection gone leaves open. -/
def nextRead (R : Rules) (r : Read) : Option (List Op × ReadTask) :=
  if r.busy.isSome then none
  else
    match r.file with
    | .none =>
      if r.bad || r.owner.isNone then none else some ([.open_ (.final r.commit.seq)], .open_)
    | .open_ p g =>
      if r.bad || r.owner.isNone then
        if R.closesAfter then some ([.close p g], .close) else none
      else if r.given < r.out.length then none
      else
        let left := r.commit.fileSize - r.got.length
        if left + 1 ≤ jobData then
          some ([.read p g r.got.length (left + 1), .close p g], .read (left + 1) true)
        else some ([.read p g r.got.length jobData], .read jobData false)
    | .gone => none

def File.isAt (p : ℕ) : File → Bool
  | .open_ q _ => q == p
  | _ => false

def ReadFile.isAt (p : ℕ) : ReadFile → Bool
  | .open_ q _ => q == p
  | _ => false

/-- Whether a file is open at place `p`: the journal, an article's or a read's. -/
def Store.placeTaken (st : Store) (p : ℕ) : Bool :=
  st.journal.1 == p ||
    st.slots.any (·.any fun s => s.article.any fun a => a.file.isAt p) ||
    st.reads.any (·.any fun r => r.file.isAt p)

def Read.took (R : Rules) (C : Content) (r : Read) (file : ReadFile) (len got : ℕ)
    (data : List Byte) : Read :=
  let left := r.commit.fileSize - r.got.length
  let all := r.got ++ data
  let short := decide (got < min left len) || (R.checksSize && decide (left < got))
  let all := if R.checksSize then all else all.take r.commit.fileSize
  if short || !fileOk R C r.commit all (decide (r.commit.fileSize ≤ all.length)) then
    { r with file, bad := true }
  else { r with file, got := all }

/-- The read whose job a completion ends, as the completion leaves it: the place of the file opened,
or the read failed; the octets read checked with those before; the file gone once closed, whether
the close succeeded or not. -/
def Store.readDone (R : Rules) (C : Content) (st : Store) (r : Read) (t : ReadTask) (d : Done) :
    Except Fault Read :=
  match t, d.results with
  | .open_, [(p, g)] =>
    if places ≤ p || st.placeTaken p then .error .badDone else .ok { r with file := .open_ p g }
  | .open_, _ => .ok { r with file := .gone, bad := true }
  | .read len last, results =>
    let file := if last && 1 ≤ d.ok then ReadFile.gone else r.file
    match results with
    | (got, _) :: _ =>
      if len < got || d.data.length != got then .error .badDone
      else .ok (r.took R C file len got d.data)
    | [] => .ok { r with file, bad := true }
  | .close, _ => .ok { r with file := .gone }

/-- What a completion does to the read whose job it ends, what it gives made again. -/
def Store.completeRead (R : Rules) (C : Content) (st : Store) (k : ℕ) (d : Done) :
    Except Fault Store :=
  match st.readSlot k with
  | none => .error .unknownJob
  | some r =>
    match r.busy with
    | none => .error .unknownJob
    | some (_, _, n, t) =>
      if n < d.ok || d.results.length != d.ok then .error .badDone
      else do
        let r ← st.readDone R C { r with busy := none } t d
        return st.setRead k (some (r.refresh C))

/-! ## Jobs -/

/-- The operations of the job that cleans an article's names up. -/
def cleanOps (R : Rules) (a : Article) : List Op × Bool :=
  if !R.cleans then ([], false)
  else
    match a.file with
    | .open_ p g => ([.close p g, .remove (.temp a.seq)], true)
    | .closed => ([.remove (.temp a.seq)], false)
    | .final | .placed => ([.remove (.final a.seq)], false)
    | .none => ([], false)

/-- The commit of an article placed: its article numbers next in each group. -/
def Store.commitOf (R : Rules) (C : Content) (st : Store) (a : Article) : Commit :=
  let above := if R.numbersAbove then 1 else 0
  ⟨a.seq, a.messageId, a.groups.map fun g => ⟨g, highIn st.articles g + above⟩, a.headerSize,
    a.octets.length, C.crc32c a.octets⟩

/-- The job that writes an article's file on, or its rest and closes it. -/
def writeJob (R : Rules) (s : Slot) (a : Article) (p g : ℕ) : Option (List Op × Task) :=
  let rest := a.octets.drop a.written
  if jobData ≤ a.pending then
    some ([.write p g a.written (rest.take jobData)], .write jobData)
  else if s.ended then
    let w := if rest.isEmpty then [] else [Op.write p g a.written rest]
    let sync := if R.syncsFile then [Op.dataSync p g] else []
    some (w ++ sync ++ [.close p g], .finish w.length rest.length)
  else none

def Store.appendJob (R : Rules) (C : Content) (st : Store) (c : Commit) : List Op × Task :=
  let frame := C.encode c st.journalEnd
  let sync := if R.syncsJournal then [Op.dataSync st.journal.1 st.journal.2] else []
  (.write st.journal.1 st.journal.2 st.journalEnd frame :: sync, .commit c frame.length)

/-- The next job of a slot, if it has one to start, with what it does; or the article refused, when
its commit cannot be made. -/
def Store.nextJob (R : Rules) (C : Content) (st : Store) (s : Slot) :
    Option (List Op × Task) ⊕ Slot :=
  match s.busy, s.article with
  | some _, _ | none, none => .inl none
  | none, some a =>
    if s.refused then
      let (ops, closes) := cleanOps R a
      .inl (if ops.isEmpty then none else some (ops, .clean closes))
    else if s.outcome.isSome then .inl none
    else
      match a.file with
      | .none => .inl (some ([.create (.temp a.seq)], .create))
      | .open_ p g => .inl (writeJob R s a p g)
      | .closed =>
        if R.oneDirSync && st.slots.any (·.any Slot.placing) then .inl none
        else
          let sync := if R.syncsDir then [Op.syncDir] else []
          .inl (some (.rename (.temp a.seq) (.final a.seq) :: sync, .place))
      | .placed =>
        if R.oneAppend && st.slots.any (·.any Slot.committing) then .inl none
        else
          let c := st.commitOf R C a
          if c.ok then .inl (some (st.appendJob R C c)) else .inr { s with refused := true }
      | .final => .inl none

/-- Whether a job in flight of a POST, or of a read, holds the job slot. -/
def Store.postHolds (st : Store) (j : ℕ) : Bool :=
  st.slots.any (·.any fun s => s.busy.any (·.1 == j))

def Store.readHolds (st : Store) (j : ℕ) : Bool :=
  st.reads.any (·.any fun r => r.busy.any (·.1 == j))

def Store.freeJob (R : Rules) (st : Store) : ℕ :=
  ((List.range jobs).find? fun j =>
    !st.postHolds j && (!R.readJobsApart || !st.readHolds j)).getD 0

def Store.startJob (R : Rules) (st : Store) (k : ℕ) (s : Slot) (ops : List Op) (t : Task) :
    Store × Option Job :=
  let j := st.freeJob R
  let gen := st.jobGen + 1
  ({ st with jobGen := gen }.setSlot k (some { s with busy := some (j, gen, ops.length, t) }),
    some ⟨j, gen, ops⟩)

def Store.plan (R : Rules) (C : Content) (st : Store) (k : ℕ) : Store × Option Job :=
  match st.slot k with
  | none => (st, none)
  | some s =>
    match st.nextJob R C s with
    | .inl none => (st, none)
    | .inl (some (ops, t)) => st.startJob R k s ops t
    | .inr s =>
      match st.nextJob R C s with
      | .inl (some (ops, t)) => st.startJob R k s ops t
      | _ => (st.setSlot k (some s), none)

def Store.startRead (R : Rules) (st : Store) (k : ℕ) (r : Read) (ops : List Op) (t : ReadTask) :
    Store × Option Job :=
  let j := st.freeJob R
  let gen := st.jobGen + 1
  ({ st with jobGen := gen }.setRead k (some { r with busy := some (j, gen, ops.length, t) }),
    some ⟨j, gen, ops⟩)

def Store.planRead (R : Rules) (st : Store) (k : ℕ) : Store × Option Job :=
  match st.readSlot k with
  | none => (st, none)
  | some r =>
    match nextRead R r with
    | none => (st, none)
    | some (ops, t) => st.startRead R k r ops t

def planEach (f : Store → ℕ → Store × Option Job) : List ℕ → Store → Store × List Job
  | [], st => (st, [])
  | k :: ks, st =>
    let (st, j) := f st k
    let (st, js) := planEach f ks st
    (st, j.toList ++ js)

/-- The jobs of a turn: each slot's next, in the order of the slots, then each read's. -/
def Store.planAll (R : Rules) (C : Content) (st : Store) : Store × List Job :=
  let (st, posted) := planEach (Store.plan R C) (List.range R.posts) st
  let (st, read) := planEach (Store.planRead R) (List.range R.reads) st
  (st, posted ++ read)

/-! ## Completions -/

def Store.findJob (R : Rules) (st : Store) (d : Done) : Option ℕ :=
  (List.range R.posts).find? fun k =>
    (st.slot k).any fun s => s.busy.any fun b => b.1 == d.slot && b.2.1 == d.gen

def Store.stop (R : Rules) (st : Store) : Store :=
  if R.stops then { st with accepting := false } else st

def Slot.withFile (s : Slot) (f : File) (more : ℕ) : Slot :=
  { s with article := s.article.map fun a => { a with file := f, written := a.written + more } }

def Slot.refuse (s : Slot) : Slot := { s with refused := true }

/-- What a completion does to the slot whose job it ends, and to whether the store accepts: the last
operation of a finish closes the file, the one before it syncs it. -/
def Store.slotDone (R : Rules) (st : Store) (k : ℕ) (s : Slot) (n : ℕ) (t : Task) (d : Done) :
    Except Fault Store :=
  let all := d.ok == n
  match t with
  | .create =>
    match d.results with
    | [(p, g)] =>
      if places ≤ p || st.placeTaken p then .error .badDone
      else .ok (st.setSlot k (some (s.withFile (.open_ p g) 0)))
    | _ => .ok (st.setSlot k (some s.refuse))
  | .write len =>
    .ok (st.setSlot k (some (if all then
      { s with article := s.article.map fun a => { a with written := a.written + len } }
      else s.refuse)))
  | .finish w len =>
    if all then .ok (st.setSlot k (some (s.withFile .closed len)))
    else if d.ok < w then .ok (st.setSlot k (some s.refuse))
    else if d.ok + 1 < n then .ok ((st.setSlot k (some s.refuse)).stop R)
    else .ok ((st.setSlot k (some (s.refuse.withFile .closed 0))).stop R)
  | .place =>
    if all then .ok (st.setSlot k (some (s.withFile .placed 0)))
    else if d.ok = 1 then .ok ((st.setSlot k (some (s.refuse.withFile .final 0))).stop R)
    else .ok (st.setSlot k (some s.refuse))
  | .commit c len =>
    if all && (st.accepting || !R.distrusts) then
      .ok { st.setSlot k (some { s with outcome := some .posted, article := none }) with
        articles := st.articles ++ [c]
        journalEnd := st.journalEnd + len }
    else
      let o := if R.unknown then Outcome.lost else .failed
      .ok { st.setSlot k (some { s with outcome := some o, article := none }) with
        accepting := false }
  | .clean closes =>
    if closes && d.ok == 0 then .ok ((st.setSlot k (some (s.withFile .closed 0))).stop R)
    else .ok (st.setSlot k (some { s with article := none }))

def Store.complete (R : Rules) (st : Store) (d : Done) : Except Fault Store :=
  match st.findJob R d with
  | none => .error .unknownJob
  | some k =>
    match st.slot k with
    | none => .error .unknownJob
    | some s =>
      match s.busy with
      | none => .error .unknownJob
      | some (_, _, n, t) =>
        if n < d.ok || d.results.length != d.ok then .error .badDone
        else st.slotDone R k { s with busy := none } n t d

def Store.findRead (R : Rules) (st : Store) (d : Done) : Option ℕ :=
  (List.range R.reads).find? fun k =>
    (st.readSlot k).any fun r => r.busy.any fun b => b.1 == d.slot && b.2.1 == d.gen

def Store.completeAny (R : Rules) (C : Content) (st : Store) (d : Done) : Except Fault Store :=
  match st.findRead R d with
  | some k => st.completeRead R C k d
  | none => st.complete R d

def Store.completeAll (R : Rules) (C : Content) (st : Store) (ds : List Done) :
    Except Fault Store := do
  if jobs < ds.length then throw .badDone
  let st ← ds.foldlM (Store.completeAny R C) st
  return st.tidy R

/-! ## What the session does to the store -/

/-- `progress`: held octets framed into slot `k`, and the slot left by its connection once it has an
outcome. -/
def Store.progress (R : Rules) (C : Content) (wall k : ℕ) (held : List Byte) (st : Store) : Store :=
  let st := (st.feed R C wall k held).1.tidy R
  match st.slot k with
  | none => st
  | some s =>
    if s.outcome.isSome then (st.setSlot k (some { s with owner := none })).tidy R else st

/-- `claim`: a POST of the connection `owner`, numbered `conn`, gets the lowest free slot. -/
def Store.claim (R : Rules) (owner : ℕ × ℕ) (conn : ℕ) (st : Store) : Store :=
  match (List.range R.posts).find? st.free with
  | some k => if st.accepting then st.setSlot k (some { owner := some owner, conn }) else st
  | none => st

def actionData : ℕ := 512

/-- What is left of an OVER or HDR once its line is given: the next article and the view of it. -/
def Read.following (r : Read) : Option ((ℕ × Commit) × View) :=
  r.view.bind fun v => v.rest.head?.map fun x => (x, { v with rest := v.rest.tail, first := false })

/-- `progressRead`: the next octets of read `k` put to send; once all of them are put, the read
ended, or given the next article; a read that failed left by its connection. -/
def Store.progressRead (R : Rules) (C : Content) (k : ℕ) (st : Store) : Store :=
  match st.readSlot k with
  | none => st
  | some r =>
    if r.bad then
      if r.given = 0 && r.view.all (·.first) then
        (st.setRead k (some { r with owner := none })).tidy R
      else st
    else
      let piece := (r.out.drop r.given).take actionData
      let given := r.given + piece.length
      let ends := r.whole R && given == r.out.length
      match if ends then r.following else none with
      | some ((number, commit), v) => st.setRead k (some (r.advance R C number commit v))
      | none =>
        if piece.isEmpty then st
        else (st.setRead k (some { r with given, owner := if ends then none else r.owner })).tidy R

def Store.find (st : Store) (id : List Byte) : Option Commit :=
  st.articles.find? (·.messageId == id)

/-- `claimRead`: an ARTICLE, HEAD or BODY, or an OVER or HDR, gets the lowest free read. -/
def Store.claimRead (R : Rules) (C : Content) (owner : ℕ × ℕ) (cmd : Cmd) (number : ℕ)
    (id : List Byte) (view : Option View) (st : Store) : Store :=
  match (List.range R.reads).find? st.readFree, st.find id with
  | some k, some c => st.setRead k (some (Read.make R C owner cmd number c view))
  | _, _ => st

end DragonsNet.News.PostStore
