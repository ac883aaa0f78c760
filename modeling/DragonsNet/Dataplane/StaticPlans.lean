/- GID: DragonsNet/Dataplane/StaticPlans
   source: migration/dataplane/host/src/static_serve.rs
   digest: The static lane's plan of a response, linearised for a reactor or written at once. -/

import DragonsNet.Dataplane.ResponseHeads
import DragonsNet.Lib.LittleEndian

set_option autoImplicit false

namespace DragonsNet.Dataplane.StaticPlans

open Lib.LittleEndian (toBe ofBe)
open Dataplane.ResponseHeads (find crlfcrlf)

abbrev Octets := List UInt8

/-! ## The file system -/

/-- An open file: its octets, and what `metadata` says of its time, where it can be asked: the
seconds since the epoch, if it has them. -/
structure File where
  octets : Octets
  stat : Option (Option ℕ)

/-- What the host asks outside the core, while nothing changes: paths, files, the largest offset
a file can be positioned at, and whether octets are UTF-8. -/
structure World where
  utf8 : Octets → Bool
  canonicalize : Octets → Option Octets
  isFile : Octets → Bool
  isDir : Octets → Bool
  openFile : Octets → Option File
  maxBytes : ℕ
  maxBytes_lt : maxBytes < 2 ^ 63
  length_le : ∀ {path : Octets} {f : File}, openFile path = some f → f.octets.length ≤ maxBytes

def components (path : Octets) : List Octets :=
  (path.splitOn 47).filter (· ≠ [])

def startsWith (path root : Octets) : Bool := (components root).isPrefixOf (components path)

/-- `PathBuf::push`: an absolute path replaces the one it is pushed on. -/
def push (path rel : Octets) : Octets :=
  if rel.head? = some 47 then rel
  else if path.getLast? = some 47 then path ++ rel
  else path ++ 47 :: rel

def fileName (path : Octets) : Octets := (components path).getLast?.getD []

/-! ## The request and the decision -/

def requestLine (req : Octets) : Option (Octets × Octets) :=
  match find [13, 10] req with
  | none => none
  | some lineEnd =>
    let line := req.take lineEnd
    match line.dropWhile (· ≠ 32) with
    | [] => none
    | _ :: rest => some (line.takeWhile (· ≠ 32), rest.takeWhile (· ≠ 32))

def targetPath (target : Octets) : Octets := target.takeWhile fun b => b ≠ 63 && b ≠ 35

inductive Resolved where
  | file (path : Octets)
  | redirect
  | missing
  deriving DecidableEq, Repr

structure StaticRoot where
  root : Octets
  urlPrefix : Octets
  spaIndex : Option Octets

namespace StaticRoot

variable (sr : StaticRoot) (w : World)

def confined (candidate : Octets) : Option Octets :=
  match w.canonicalize candidate with
  | some real => if startsWith real sr.root then some real else none
  | none => none

def resolvePrimary (target : Octets) (core : Octets → Option Octets) : Resolved :=
  let path := targetPath target
  if sr.urlPrefix.isPrefixOf path then
    match core (path.drop sr.urlPrefix.length) with
    | none => .missing
    | some joined =>
      if !w.utf8 joined then .missing
      else
        match sr.confined w (if joined = [] then sr.root else push sr.root joined) with
        | none => .missing
        | some real =>
          if w.isFile real then .file real
          else if w.isDir real then
            if path.getLast? ≠ some 47 then .redirect
            else
              -- index.html
              match sr.confined w
                (push real [105, 110, 100, 101, 120, 46, 104, 116, 109, 108]) with
              | some ireal => if w.isFile ireal then .file ireal else .missing
              | none => .missing
          else .missing
  else .missing

def spaIndexFile : Option Octets :=
  match sr.spaIndex with
  | none => none
  | some rel =>
    match sr.confined w (push sr.root rel) with
    | some real => if w.isFile real then some real else none
    | none => none

def resolveEntity (target : Octets) (core : Octets → Option Octets) : Resolved :=
  match sr.resolvePrimary w target core with
  | .missing =>
    match sr.spaIndexFile w with
    | some idx => .file idx
    | none => .missing
  | other => other

end StaticRoot

def decideFrame (found redir ka : Bool) (len mtime : ℕ) (name req : Octets) : Octets :=
  UInt8.ofNat (ka.toNat + 2 * found.toNat + 4 * redir.toNat) ::
    toBe 8 len ++ toBe 8 mtime ++ toBe 2 name.length ++ name ++ req

inductive PlanOut where
  | reply (resp : Octets)
  | whole (head : Octets)
  | window (off n : ℕ) (head : Octets)
  | parts (head tail : Octets) (segs : List (Octets × ℕ × ℕ))
  deriving DecidableEq, Repr

def take (n : ℕ) (p : Octets) : Option (Octets × Octets) :=
  if p.length < n then none else some (p.take n, p.drop n)

def takeBlock (width : ℕ) (p : Octets) : Option (Octets × Octets) :=
  (take width p).bind fun (len, p) => take (ofBe len) p

def parseSegs : ℕ → Octets → Option (List (Octets × ℕ × ℕ) × Octets)
  | 0, p => some ([], p)
  | count + 1, p =>
    (takeBlock 2 p).bind fun (pre, p) =>
    (take 8 p).bind fun (off, p) =>
    (take 8 p).bind fun (n, p) =>
    (parseSegs count p).map fun (segs, p) => ((pre, ofBe off, ofBe n) :: segs, p)

def parsePlan : Octets → Option PlanOut
  | [] => none
  | 1 :: rest => some (.reply rest)
  | 2 :: rest => some (.whole rest)
  | 3 :: rest =>
    if rest.length < 16 then none
    else some (.window (ofBe (rest.take 8)) (ofBe ((rest.drop 8).take 8)) (rest.drop 16))
  | 4 :: rest =>
    (takeBlock 4 rest).bind fun (head, p) =>
    (takeBlock 2 p).bind fun (tail, p) =>
    (take 2 p).bind fun (count, p) =>
    (parseSegs (ofBe count) p).bind fun (segs, p) =>
    if p = [] then some (.parts head tail segs) else none
  | _ :: _ => none

/-- The file a request opens, with its path and time, and whether the answer is a redirect. -/
def StaticRoot.entity (sr : StaticRoot) (w : World) (method target : Octets)
    (resolve : Octets → Option Octets) : Option (Octets × Octets × ℕ) × Bool :=
  -- GET and HEAD
  if method = [71, 69, 84] ∨ method = [72, 69, 65, 68] then
    match sr.resolveEntity w target resolve with
    | .file path =>
      match w.openFile path with
      | some ⟨octets, some modified⟩ => (some (octets, path, modified.getD 0), false)
      | _ => (none, false)
    | .redirect => (none, true)
    | .missing => (none, false)
  else (none, false)

/-- The two crossings that `plan` and `handle_streaming_zc` both make: the core's plan, and the
file it is for. -/
def StaticRoot.crossing (sr : StaticRoot) (w : World) (req : Octets) (ka : Bool)
    (resolve decide : Octets → Option Octets) : Except String (PlanOut × Option Octets) :=
  match requestLine req with
  | none => .error "static lane invoked on an unparseable request line"
  | some (method, target) =>
    let (file, redir) := sr.entity w method target resolve
    let frame :=
      match file with
      | some (octets, path, mtime) =>
        decideFrame true redir ka octets.length mtime (fileName path) req
      | none => decideFrame false redir ka 0 0 [] req
    match decide frame with
    | none => .error "static decide seam returned no plan"
    | some out =>
      match parsePlan out with
      | none => .error "static decide seam returned a malformed plan"
      | some plan => .ok (plan, file.map Prod.fst)

/-! ## The linearised plan -/

inductive StaticSeg where
  | buf (b : Octets)
  | window (off n : ℕ)
  deriving DecidableEq, Repr

structure StaticPlan where
  segs : List StaticSeg
  file : Option Octets
  keepalive : Bool
  head : Octets
  deriving DecidableEq, Repr

def headOf (resp : Octets) : Octets :=
  match find crlfcrlf resp with
  | some p => resp.take (p + 4)
  | none => resp

/-- The last part of `plan`: the segments of a plan of the core. -/
def linearise (ka : Bool) : PlanOut → Option Octets → Except String StaticPlan
  | .reply resp, _ => .ok ⟨[.buf resp], none, ka, headOf resp⟩
  | .whole _, none => .error "whole-file plan without a file"
  | .whole head, some f => .ok ⟨[.buf head, .window 0 f.length], some f, ka, head⟩
  | .window _ _ _, none => .error "window plan without a file"
  | .window off n head, some f => .ok ⟨[.buf head, .window off n], some f, ka, head⟩
  | .parts _ _ _, none => .error "parts plan without a file"
  | .parts head tail parts, some f =>
    .ok ⟨.buf head :: parts.flatMap (fun (pre, off, n) => [.buf pre, .window off n]) ++
      [.buf tail], some f, ka, head⟩

def StaticRoot.plan (sr : StaticRoot) (w : World) (req : Octets) (ka : Bool)
    (resolve decide : Octets → Option Octets) : Except String StaticPlan :=
  match sr.crossing w req ka resolve decide with
  | .error e => .error e
  | .ok (plan, file) => linearise ka plan file

/-! ## The synchronous response -/

def STREAM_CHUNK : ℕ := 64 * 1024

structure StaticOutcome where
  head : Octets
  bytes : ℕ
  keepalive : Bool
  deriving DecidableEq, Repr

/-- The rounds of `pump_window`, at a position with octets still to move. Each read returns at
least an octet, so `n` rounds are enough for `n`; how many it returns is the system's. -/
def pumpLoop (file : Octets) (cut : ℕ → ℕ) : ℕ → ℕ → ℕ → Octets × Bool
  | 0, _, _ => ([], true)
  | fuel + 1, pos, remaining =>
    if remaining = 0 then ([], true)
    else if file.length ≤ pos then ([], false)
    else
      let want := min remaining STREAM_CHUNK
      let got := max 1 (min (cut pos) (min want (file.length - pos)))
      let (out, ok) := pumpLoop file cut fuel (pos + got) (remaining - got)
      ((file.drop pos).take got ++ out, ok)

def pumpWindow (w : World) (cut : ℕ → ℕ) (file : Octets) (off n : ℕ) : Octets × Except String ℕ :=
  if w.maxBytes < off then ([], .error "Invalid argument (os error 22)")
  else
    match pumpLoop file cut n off n with
    | (out, true) => (out, .ok n)
    | (out, false) => (out, .error "static file shorter than the planned window")

def sendHeadWindow (w : World) (cut : ℕ → ℕ) (ka : Bool) (head file : Octets) (off n : ℕ) :
    Octets × Except String StaticOutcome :=
  match pumpWindow w cut file off n with
  | (out, .ok sent) => (head ++ out, .ok ⟨head, head.length + sent, ka⟩)
  | (out, .error e) => (head ++ out, .error e)

def sendParts (w : World) (cut : ℕ → ℕ) (file : Octets) :
    List (Octets × ℕ × ℕ) → Octets × Except String ℕ
  | [] => ([], .ok 0)
  | (pre, off, n) :: rest =>
    match pumpWindow w cut file off n with
    | (out, .error e) => (pre ++ out, .error e)
    | (out, .ok sent) =>
      match sendParts w cut file rest with
      | (more, .ok bytes) => (pre ++ out ++ more, .ok (pre.length + sent + bytes))
      | (more, .error e) => (pre ++ out ++ more, .error e)

/-- The last part of `handle_streaming_zc`, without a descriptor and to a client that takes all
that is written to it. -/
def execute (w : World) (cut : ℕ → ℕ) (ka : Bool) :
    PlanOut → Option Octets → Octets × Except String StaticOutcome
  | .reply resp, _ => (resp, .ok ⟨headOf resp, resp.length, ka⟩)
  | .whole _, none => ([], .error "whole-file plan without a file")
  | .whole head, some f => sendHeadWindow w cut ka head f 0 f.length
  | .window _ _ _, none => ([], .error "window plan without a file")
  | .window off n head, some f => sendHeadWindow w cut ka head f off n
  | .parts _ _ _, none => ([], .error "parts plan without a file")
  | .parts head tail parts, some f =>
    match sendParts w cut f parts with
    | (out, .ok bytes) =>
      (head ++ out ++ tail, .ok ⟨head, head.length + bytes + tail.length, ka⟩)
    | (out, .error e) => (head ++ out, .error e)

def StaticRoot.handleStreamingZc (sr : StaticRoot) (w : World) (cut : ℕ → ℕ) (req : Octets)
    (ka : Bool) (resolve decide : Octets → Option Octets) :
    Octets × Except String StaticOutcome :=
  match sr.crossing w req ka resolve decide with
  | .error e => ([], .error e)
  | .ok (plan, file) => execute w cut ka plan file

end DragonsNet.Dataplane.StaticPlans
