/- GID: DragonsNet/Native/FileJobs
   source: native/jobs.c
   digest: The host's table of file jobs: taken, run by the workers, and given back. -/

import Mathlib.Algebra.Group.Nat.Defs
import Mathlib.Logic.Function.Basic
import Mathlib.Tactic.Common

set_option autoImplicit false

namespace DragonsNet.Native.FileJobs

def jobs : ℕ := 12

def maxOps : ℕ := 8

def maxData : ℕ := 16384

def places : ℕ := 16

def workers : ℕ := 2

def int64Max : ℕ := 2 ^ 63 - 1

/-- A file of the spool, by the kind and the number its name is made from. -/
inductive Name where
  | journal
  | final (seq : ℕ)
  | temp (seq : ℕ)
  | quarantine (seq : ℕ)
  | tail (seq : ℕ)
  deriving DecidableEq, Repr

/-- The operations of a job. `at_` says where in the job's data an operation's octets are. -/
inductive FileOp where
  | create (name : Name)
  | open_ (name : Name)
  | openDir
  | write (place gen offset length at_ : ℕ)
  | read (place gen offset length at_ : ℕ)
  | size (place gen : ℕ)
  | dataSync (place gen : ℕ)
  | sync (place gen : ℕ)
  | truncate (place gen length : ℕ)
  | list (place gen offset length at_ : ℕ)
  | rename (src dst : Name)
  | remove (name : Name)
  | syncDir
  | close (place gen : ℕ)
  deriving DecidableEq, Repr

namespace FileOp

def opens : FileOp → Bool
  | create _ | open_ _ | openDir => true
  | _ => false

def onFile : FileOp → Option (ℕ × ℕ)
  | write p g _ _ _ | read p g _ _ _ | size p g | dataSync p g | sync p g | truncate p g _
  | list p g _ _ _ | close p g => some (p, g)
  | _ => none

def isClose : FileOp → Bool
  | close _ _ => true
  | _ => false

def isList : FileOp → Bool
  | list _ _ _ _ _ => true
  | _ => false

/-- The offset, the length and the place in the data of what an operation moves. -/
def window : FileOp → Option (ℕ × ℕ × ℕ)
  | write _ _ offset length at_ | read _ _ offset length at_ | list _ _ offset length at_ =>
    some (offset, length, at_)
  | _ => none

/-- The store never removes its journal or renames it, or onto it. -/
def harmsJournal : FileOp → Bool
  | remove name => name == .journal
  | rename src dst => src == .journal || dst == .journal
  | _ => false

end FileOp

inductive JobState where
  | free
  | queued
  | running
  | done
  deriving DecidableEq, Repr

/-- What the program leaves in the slot of a job: its generation, its operations and its data. -/
structure Request where
  slot : ℕ
  gen : ℕ
  ops : List FileOp
  data : List UInt8
  deriving DecidableEq, Repr

/-- A job: its operations, the place reserved for each that opens a file, how many succeeded,
whether the next one failed, the result words of those that did, and its data. -/
structure Job where
  state : JobState
  dirSync : Bool
  gen : ℕ
  ops : List FileOp
  place : List (Option ℕ)
  succeeded : ℕ
  failed : Bool
  results : List (ℕ × ℕ)
  data : List UInt8
  deriving DecidableEq, Repr

def Job.empty : Job := ⟨.free, false, 0, [], [], 0, false, [], []⟩

/-- A place of an open file. `busy` is one more than the job in flight that names it. -/
structure File where
  isOpen : Bool
  busy : ℕ
  reserved : Bool
  listing : Bool
  written : Bool
  count : ℕ
  gen : ℕ
  deriving DecidableEq, Repr

def File.closed (gen busy : ℕ) : File := ⟨false, busy, false, false, false, 0, gen⟩

structure Table where
  jobs : ℕ → Job
  files : ℕ → File
  queue : List ℕ
  dirSyncs : ℕ

inductive Violation where
  | inFlight
  | count
  | journal
  | window
  | offset
  | truncate
  | placesTaken
  | noPlace
  | notOpen
  | busy
  | otherKind
  | listFrom
  | dirSync
  deriving DecidableEq, Repr

/-- Whether a place may be given to a file: one closed by a job in flight is the program's until
it learns of the close. -/
def File.vacant (f : File) : Bool := !f.isOpen && !f.reserved && f.busy == 0

def freePlace (files : ℕ → File) : Option ℕ :=
  (List.range places).find? fun p => (files p).vacant

/-- The checks of an operation that look at nothing but it. The data's bounds come before the
offset's in one condition of the source. -/
def checkOp (op : FileOp) : Except Violation Unit :=
  if op.harmsJournal then .error .journal
  else
    match op.window with
    | some (offset, length, at_) =>
      if maxData < at_ ∨ maxData - at_ < length ∨ op.isList = true ∧ length = 0 then .error .window
      else if int64Max - length < offset then .error .offset
      else .ok ()
    | none =>
      match op with
      | .truncate _ _ length => if int64Max < length then .error .truncate else .ok ()
      | _ => .ok ()

/-- The checks of an operation on a file; it keeps the file busy with job `k`. -/
def nameFile (files : ℕ → File) (closed : List ℕ) (k : ℕ) (op : FileOp) (p g : ℕ) :
    Except Violation (ℕ → File) :=
  if places ≤ p then .error .noPlace
  else
    let f := files p
    if !f.isOpen || f.gen != g || closed.contains p then .error .notOpen
    else if f.busy ≠ 0 ∧ f.busy ≠ k + 1 then .error .busy
    else if op.isList ≠ f.listing ∧ op.isClose = false then .error .otherKind
    else
      match op with
      | .list _ _ offset _ _ =>
        if f.count < offset then .error .listFrom
        else .ok (Function.update files p { f with busy := k + 1 })
      | _ => .ok (Function.update files p { f with busy := k + 1 })

/-- The file an operation opens or names: the files after it, and the place reserved for it. -/
def takeOp (k : ℕ) (files : ℕ → File) (closed : List ℕ) (op : FileOp) :
    Except Violation ((ℕ → File) × Option ℕ) :=
  if op.opens then
    match freePlace files with
    | none => .error .placesTaken
    | some p => .ok (Function.update files p { files p with reserved := true }, some p)
  else
    match op.onFile with
    | none => .ok (files, none)
    | some (p, g) => (nameFile files closed k op p g).map (·, none)

def FileOp.closes (op : FileOp) (closed : List ℕ) : List ℕ :=
  match op with
  | .close p _ => p :: closed
  | _ => closed

/-- The loop of `take` over the operations. `closed` are the places the job has closed so far. -/
def takeOps (k : ℕ) (files : ℕ → File) (closed : List ℕ) :
    List FileOp → Except Violation ((ℕ → File) × List (Option ℕ))
  | [] => .ok (files, [])
  | op :: rest => do
    checkOp op
    let (files, place) ← takeOp k files closed op
    let (files, taken) ← takeOps k files (op.closes closed) rest
    return (files, place :: taken)

/-- The job a request makes, with the places its operations took. -/
def Request.queued (r : Request) (taken : List (Option ℕ)) : Job :=
  ⟨.queued, r.ops.contains .syncDir, r.gen, r.ops, taken, 0, false, [], r.data⟩

def Table.enqueue (t : Table) (r : Request) (files : ℕ → File) (taken : List (Option ℕ)) : Table :=
  ⟨Function.update t.jobs r.slot (r.queued taken), files, t.queue ++ [r.slot],
    t.dirSyncs + (r.ops.contains .syncDir).toNat⟩

def take (t : Table) (r : Request) : Except Violation Table :=
  if (t.jobs r.slot).state ≠ .free then .error .inFlight
  else if r.ops.length < 1 ∨ maxOps < r.ops.length then .error .count
  else
    match takeOps r.slot t.files [] r.ops with
    | .error v => .error v
    | .ok (files, taken) =>
      if r.ops.contains .syncDir = true ∧ t.dirSyncs ≠ 0 then .error .dirSync
      else .ok (t.enqueue r files taken)

/-- `dn_jobs_take`, over the slots `ks`: the program's requests, each in its slot. -/
def takeFrom (rs : List Request) (t : Table) : List ℕ → Except Violation Table
  | [] => .ok t
  | k :: ks =>
    match rs.find? (·.slot == k) with
    | none => takeFrom rs t ks
    | some r => do
      let t ← take t r
      takeFrom rs t ks

def takeAll (rs : List Request) (t : Table) : Except Violation Table :=
  takeFrom rs t (List.range jobs)

def running (t : Table) : ℕ := ((List.range jobs).filter fun k => (t.jobs k).state = .running).length

def Table.setState (t : Table) (k : ℕ) (x : JobState) : Table :=
  { t with jobs := Function.update t.jobs k { t.jobs k with state := x } }

def begin_ (t : Table) : Option Table :=
  match t.queue with
  | [] => none
  | k :: rest => if running t < workers then some { t.setState k .running with queue := rest } else none

/-- How an operation ends: it fails, or succeeds with its result words, for a read or a page of a
listing with the octets it gave. -/
inductive Outcome where
  | failed
  | ok (result : ℕ × ℕ) (octets : List UInt8)
  deriving DecidableEq, Repr

/-- Whether an operation can end so: a read gives at most the octets asked, and says how many; so
does a page. -/
def possible : FileOp → Outcome → Bool
  | .read _ _ _ length _, .ok result octets =>
    octets.length ≤ length && result == (octets.length, 0)
  | .list _ _ _ length _, .ok result octets => octets.length ≤ length && result.2 == octets.length
  | .size _ _, .ok result _ => result.2 == 0
  | _, _ => true

/-- A file opened: a directory's names are read, and counted, as it is opened. -/
def File.opened (listing : Bool) (busy count gen : ℕ) : File :=
  ⟨true, busy, false, listing, false, if listing then count else 0, gen⟩

/-- What an operation of job `k` does to the files, `place` being the place reserved for it. A
file is closed whatever the close says. -/
def effect (files : ℕ → File) (k : ℕ) (op : FileOp) (place : Option ℕ) (out : Outcome) :
    ℕ → File :=
  match op with
  | .create _ | .open_ _ | .openDir =>
    match out, place with
    | .ok result _, some p =>
      Function.update files p (.opened (op == .openDir) (k + 1) result.1 (files p).gen)
    | _, _ => files
  | .write p _ _ _ _ | .truncate p _ _ =>
    Function.update files p { files p with written := true }
  | .close p _ => Function.update files p (.closed ((files p).gen + 1) (files p).busy)
  | _ => files

def resultOf (files : ℕ → File) (op : FileOp) (place : Option ℕ) (result : ℕ × ℕ) : ℕ × ℕ :=
  match op with
  | .create _ | .open_ _ | .openDir => (place.getD 0, (files (place.getD 0)).gen)
  | .read _ _ _ _ _ | .size _ _ | .list _ _ _ _ _ => result
  | _ => (0, 0)

def splice (data : List UInt8) (at_ : ℕ) (octets : List UInt8) : List UInt8 :=
  data.take at_ ++ octets ++ data.drop (at_ + octets.length)

def dataAfter (data : List UInt8) (op : FileOp) (octets : List UInt8) : List UInt8 :=
  match op with
  | .read _ _ _ _ at_ | .list _ _ _ _ at_ => splice data at_ octets
  | _ => data

def Job.ran (j : Job) (files : ℕ → File) (op : FileOp) (place : Option ℕ) : Outcome → Job
  | .failed => { j with failed := true }
  | .ok result octets => { j with
      place := j.place.set j.succeeded none
      succeeded := j.succeeded + 1
      results := j.results ++ [resultOf files op place result]
      data := dataAfter j.data op octets }

def Job.placeFor (j : Job) : Option ℕ := (j.place[j.succeeded]?).getD none

/-- `run`: the next operation of the running job `k`, which ends as `out` says. -/
def run (t : Table) (k : ℕ) (out : Outcome) : Option Table :=
  let j := t.jobs k
  match j.ops[j.succeeded]? with
  | none => none
  | some op =>
    if j.state = .running ∧ j.failed = false ∧ possible op out = true then
      some { t with
        files := effect t.files k op j.placeFor out
        jobs := Function.update t.jobs k (j.ran t.files op j.placeFor out) }
    else none

/-- The worker's job `k` is over: its operations done, or one failed. -/
def finish (t : Table) (k : ℕ) : Option Table :=
  let j := t.jobs k
  if j.state = .running ∧ (j.failed = true ∨ j.succeeded = j.ops.length) then
    some (t.setState k .done)
  else none

/-- A completion as `dn_jobs_give` reports it: of the result words, those of operations done. -/
structure Done where
  slot : ℕ
  gen : ℕ
  ok : ℕ
  results : List (ℕ × ℕ)
  data : List UInt8
  deriving DecidableEq, Repr

def doneOf (t : Table) (k : ℕ) : Done :=
  ⟨k, (t.jobs k).gen, (t.jobs k).succeeded, (t.jobs k).results, (t.jobs k).data⟩

def File.letGo (f : File) (k : ℕ) (reserved : Bool) : File :=
  { f with reserved := f.reserved && !reserved, busy := if f.busy = k + 1 then 0 else f.busy }

/-- Until the program learns of it, a job keeps the files it names, the places it reserved and its
sync of the directory. -/
def giveOne (t : Table) (k : ℕ) : Table :=
  { t.setState k .free with
    files := fun p => (t.files p).letGo k ((t.jobs k).place.contains (some p))
    dirSyncs := t.dirSyncs - (t.jobs k).dirSync.toNat }

def giveFrom (t : Table) : List ℕ → List Done × Table
  | [] => ([], t)
  | k :: ks =>
    if (t.jobs k).state = .done then
      (doneOf t k :: (giveFrom (giveOne t k) ks).1, (giveFrom (giveOne t k) ks).2)
    else giveFrom t ks

def give (t : Table) : List Done × Table := giveFrom t (List.range jobs)

/-- The table once the store is recovered: the journal open at its place and no other file, the
places' generations being `gens`. -/
def Table.start (journal : ℕ) (gens : ℕ → ℕ) (written : Bool) : Table where
  jobs _ := .empty
  files p := if p = journal then ⟨true, 0, false, false, written, 0, gens p⟩ else .closed (gens p) 0
  queue := []
  dirSyncs := 0

end DragonsNet.Native.FileJobs
