/- GID: DragonsNet/Native/EchoUring
   source: native/echo_uring.c, native/uring.h
   digest: The echo host on io_uring: the main thread accepts and hands over, each other thread
     serves its slots, and they tell each other by messages between their rings. -/

import DragonsNet.Native.EchoKernel
import DragonsNet.Native.NntpRing

set_option autoImplicit false

namespace DragonsNet.Native.EchoUring

open Lib.Cells
open Native.EchoKernel
open Native.NntpRing (token tokenKind tokenSlot tokenGen)

inductive Kind where
  | recv
  | send
  | cancel
  | accept
  | signal
  | told
  | handed
  | freed
  | stop
  deriving DecidableEq, Repr

namespace Kind

def code : Kind → ℕ
  | recv => 1
  | send => 2
  | cancel => 3
  | accept => 4
  | signal => 5
  | told => 6
  | handed => 7
  | freed => 8
  | stop => 9

def ofCode : ℕ → Option Kind
  | 1 => some recv
  | 2 => some send
  | 3 => some cancel
  | 4 => some accept
  | 5 => some signal
  | 6 => some told
  | 7 => some handed
  | 8 => some freed
  | 9 => some stop
  | _ => none

def tok (kind : Kind) (slot gen : ℕ) : ℕ := token kind.code slot gen

end Kind

/-- The options, as `main` takes them, and the sizes the source fixes. -/
structure Config where
  threads : ℕ
  slots : ℕ
  capacity : ℕ
  writeChunk : ℕ
  idleMs : ℕ
  sendBuffer : ℕ
  threads_pos : 0 < threads
  slots_le : slots ≤ 2 ^ 24
  capacity_le : capacity ≤ 4096
  writeChunk_pos : 0 < writeChunk

def acceptBackoffMs : ℕ := 50

def ecanceled : ℤ := 125

/-- `struct slot`. -/
structure Slot where
  fd : Option ℕ
  gen : ℕ
  ops : ℕ
  closing : Bool
  input : List UInt8
  out : List UInt8
  length : ℕ
  sent : ℕ
  active : ℕ
  deriving DecidableEq, Repr

def Slot.initial (capacity : ℕ) : Slot :=
  ⟨none, 0, 0, false, List.replicate capacity 0, List.replicate capacity 0, 0, 0, 0⟩

/-- What a thread asks of its ring. A buffer is named by the slot it is in. -/
inductive Op (slots : ℕ) where
  | recv (fd : Option ℕ) (buffer : Fin slots) (len : ℕ)
  | send (fd : Option ℕ) (buffer : Fin slots) (off len : ℕ)
  | cancelFd (fd : Option ℕ)
  /-- A completion for the main ring. -/
  | message (token : ℕ) (res : ℤ)
  deriving DecidableEq, Repr

inductive MainOp (threads : ℕ) where
  | accept
  | poll
  | cancel (token : ℕ)
  | message (target : Fin threads) (token : ℕ) (res : ℤ)
  deriving DecidableEq, Repr

structure Cqe where
  token : ℕ
  res : ℤ
  deriving DecidableEq, Repr

inductive Item (op : Type) where
  | flying (token : ℕ) (op : op)
  | done (c : Cqe)
  deriving DecidableEq, Repr

def Item.token {op : Type} : Item op → ℕ
  | .flying token _ => token
  | .done c => c.token

structure Counts where
  calls : ℕ
  bytes : ℕ
  sends : ℕ
  partials : ℕ
  expired : ℕ
  expiredPending : ℕ
  sendRenewals : ℕ
  recvRenewals : ℕ
  cancelled : ℕ
  deriving DecidableEq, Repr

namespace Counts

def heard (produced : ℕ) (n : Counts) : Counts :=
  { n with
    calls := n.calls + 1, bytes := n.bytes + produced, recvRenewals := n.recvRenewals + 1 }

def said (short : Bool) (n : Counts) : Counts :=
  { n with
    sends := n.sends + 1, partials := n.partials + short.toNat
    sendRenewals := n.sendRenewals + 1 }

def reap (cancelled : Bool) (n : Counts) : Counts :=
  { n with cancelled := n.cancelled + cancelled.toNat }

def expire (replying : Bool) (n : Counts) : Counts :=
  { n with
    expired := n.expired + 1, expiredPending := n.expiredPending + replying.toNat }

end Counts

/-- `struct worker`, with what its ring has pending. `left` is a thread past its loop, its ring
closed. The last is for the record: the descriptors it closed. -/
structure Worker (cfg : Config) where
  slots : Fin cfg.slots → Slot
  pending : List (Item (Op cfg.slots))
  held : ℕ
  stopping : Bool
  left : Bool
  n : Counts
  closed : List ℕ

/-- How the process ends when it must not go on: the code did what it must not, the system failed
it, or memory outside a buffer was touched. -/
inductive Fault where
  | violation
  | harness
  | outside
  deriving DecidableEq, Repr

/-- `--` of an unsigned number. -/
def decr (n : ℕ) : ℕ := (n + (2 ^ 32 - 1)) % 2 ^ 32

namespace Worker

variable {cfg : Config}

def initial : Worker cfg where
  slots _ := .initial cfg.capacity
  pending := []
  held := 0
  stopping := false
  left := false
  n := ⟨0, 0, 0, 0, 0, 0, 0, 0, 0⟩
  closed := []

def setSlot (w : Worker cfg) (i : Fin cfg.slots) (s : Slot) : Worker cfg :=
  { w with slots := Function.update w.slots i s }

def count (w : Worker cfg) (f : Counts → Counts) : Worker cfg := { w with n := f w.n }

def submit (w : Worker cfg) (token : ℕ) (op : Op cfg.slots) : Worker cfg :=
  { w with pending := w.pending ++ [.flying token op] }

def armRecv (w : Worker cfg) (i : Fin cfg.slots) : Worker cfg :=
  (w.submit (Kind.recv.tok i (w.slots i).gen) (.recv (w.slots i).fd i cfg.capacity)).setSlot i
    { w.slots i with ops := (w.slots i).ops + 1 }

def armSend (w : Worker cfg) (i : Fin cfg.slots) : Worker cfg :=
  (w.submit (Kind.send.tok i (w.slots i).gen)
    (.send (w.slots i).fd i (w.slots i).sent
      (min ((w.slots i).length - (w.slots i).sent) cfg.writeChunk))).setSlot i
    { w.slots i with ops := (w.slots i).ops + 1 }

def finish (k : ℕ) (w : Worker cfg) (i : Fin cfg.slots) : Worker cfg :=
  ({ w with
      held := decr w.held
      closed := w.closed ++ (w.slots i).fd.toList }.setSlot i
    { w.slots i with fd := none, closing := false, length := 0, sent := 0 }).submit
      (Kind.told.tok i 0) (.message (Kind.freed.tok k 0) 0)

def endConn (k : ℕ) (w : Worker cfg) (i : Fin cfg.slots) : Worker cfg :=
  if (w.slots i).closing then w
  else if (w.slots i).ops = 0 then
    finish k (w.setSlot i { w.slots i with closing := true }) i
  else
    (w.submit (Kind.cancel.tok i (w.slots i).gen) (.cancelFd (w.slots i).fd)).setSlot i
      { w.slots i with closing := true, ops := (w.slots i).ops + 1 }

def isFree (s : Slot) : Bool := s.fd.isNone && s.ops == 0

def take (k : ℕ) (now : ℕ) (w : Worker cfg) (fd : ℕ) : Except Fault (Worker cfg) :=
  match (List.finRange cfg.slots).find? fun i => isFree (w.slots i) with
  | none => .error .violation
  | some i =>
    let w := { w with held := w.held + 1 }.setSlot i
      { w.slots i with
        fd := some fd, gen := ((w.slots i).gen + 1) % 2 ^ 32
        length := 0, sent := 0, active := now }
    .ok (if w.stopping then endConn k w i else armRecv w i)

/-- A receive that brought something: through the echo, and out again. -/
def heard (now : ℕ) (w : Worker cfg) (i : Fin cfg.slots) (got : ℕ) :
    Except Fault (Worker cfg) :=
  match dnEcho (w.slots i).input (w.slots i).out (BitVec.ofNat 64 got)
      (BitVec.ofNat 64 cfg.capacity) with
  | none => .error .outside
  | some (produced, out) =>
    if produced ≠ got then .error .violation
    else .ok (armSend ((w.count (.heard produced)).setSlot i
      { w.slots i with out, length := produced, sent := 0, active := now }) i)

def said (now : ℕ) (w : Worker cfg) (i : Fin cfg.slots) (n : ℕ) : Except Fault (Worker cfg) :=
  if (w.slots i).length - (w.slots i).sent < n then .error .violation
  else
    .ok (if (w.slots i).sent + n < (w.slots i).length then
      armSend ((w.count (.said (n < (w.slots i).length - (w.slots i).sent))).setSlot i
        { w.slots i with sent := (w.slots i).sent + n, active := now }) i
    else
      armRecv ((w.count (.said (n < (w.slots i).length - (w.slots i).sent))).setSlot i
        { w.slots i with length := 0, sent := 0, active := now }) i)

def reap (w : Worker cfg) (i : Fin cfg.slots) (c : Cqe) : Worker cfg :=
  (w.count (.reap (c.res = -ecanceled))).setSlot i
    { w.slots i with ops := (w.slots i).ops - 1 }

def reaped (k now : ℕ) (w : Worker cfg) (i : Fin cfg.slots) (kind : Kind) (res : ℤ) :
    Except Fault (Worker cfg) :=
  if (w.slots i).closing ∨ kind = .cancel then
    .ok (if (w.slots i).closing ∧ (w.slots i).ops = 0 then finish k w i else w)
  else if res ≤ 0 then .ok (endConn k w i)
  else if kind = .recv then heard now w i res.toNat
  else said now w i res.toNat

/-- The end of `completed`, for a completion of a slot's operation. -/
def slotCompleted (k now : ℕ) (w : Worker cfg) (kind : Kind) (c : Cqe) :
    Except Fault (Worker cfg) :=
  if h : tokenSlot c.token < cfg.slots then
    if (w.slots ⟨tokenSlot c.token, h⟩).fd.isNone ∨
        tokenGen c.token ≠ (w.slots ⟨tokenSlot c.token, h⟩).gen ∨
        (w.slots ⟨tokenSlot c.token, h⟩).ops = 0 then
      .error .violation
    else reaped k now (w.reap ⟨tokenSlot c.token, h⟩ c) ⟨tokenSlot c.token, h⟩ kind c.res
  else .error .violation

def stopped (k : ℕ) (w : Worker cfg) : Worker cfg :=
  (List.finRange cfg.slots).foldl
    (fun w i => if (w.slots i).fd.isSome then endConn k w i else w) { w with stopping := true }

def completed (k now : ℕ) (w : Worker cfg) (c : Cqe) : Except Fault (Worker cfg) :=
  match Kind.ofCode (tokenKind c.token) with
  | some .handed => take k now w c.res.toNat
  | some .stop => .ok (stopped k w)
  | some .told => if c.res < 0 then .error .harness else .ok w
  | some .recv => slotCompleted k now w .recv c
  | some .send => slotCompleted k now w .send c
  | some .cancel => slotCompleted k now w .cancel c
  | _ => .error .violation

def expireSlot (k now : ℕ) (w : Worker cfg) (i : Fin cfg.slots) : Worker cfg :=
  if (w.slots i).fd.isNone ∨ (w.slots i).closing then w
  else if cfg.idleMs ≤ now - (w.slots i).active then
    endConn k (w.count (.expire ((w.slots i).length ≠ 0))) i
  else w

def expire (k now : ℕ) (w : Worker cfg) : Worker cfg :=
  (List.finRange cfg.slots).foldl (expireSlot k now) w

/-- The time `expire` returns: to the next deadline of those still open, none for -1. -/
def deadline (now : ℕ) (w : Worker cfg) : Option ℕ :=
  ((List.finRange cfg.slots).filterMap fun i =>
    if (w.slots i).fd.isNone ∨ (w.slots i).closing then none
    else some ((w.slots i).active + cfg.idleMs - now)).min?

def foreign (token : ℕ) : Bool :=
  Kind.ofCode (tokenKind token) = some .handed || Kind.ofCode (tokenKind token) = some .stop

/-- `ring.live`: the operations submitted and not reaped, the messages of others apart. -/
def live (w : Worker cfg) : ℕ := w.pending.countP fun x => !foreign x.token

inductive Result where
  | octets (data : List UInt8)
  | count (n : ℕ)
  | code (z : ℤ)
  deriving DecidableEq, Repr

/-- What the kernel does with an operation of a slot: how it changes the worker's memory and what
went over the socket of the descriptor it was given, and the result. A receive writes to the
buffer it was given and a send reads from it, when they are executed. -/
def execute (w : Worker cfg) (talks : Talks) :
    Op cfg.slots → Result → Option (Worker cfg × Talks × ℤ)
  | .recv fd i len, .octets data =>
    if data ≠ [] ∧ data.length ≤ len then
      (store (w.slots i).input 0 data).bind fun input =>
        (talks.pass fd (·.hear data)).map fun talks =>
          (w.setSlot i { w.slots i with input }, talks, data.length)
    else none
  | .recv .., .code z => if z ≤ 0 then some (w, talks, z) else none
  | .send fd i off len, .count n =>
    if 0 < n ∧ n ≤ len then
      (load (w.slots i).out off n).bind fun data =>
        (talks.pass fd (·.say data)).map fun talks => (w, talks, n)
    else none
  | .send .., .code z => if z ≤ 0 then some (w, talks, z) else none
  | .cancelFd _, .code z => some (w, talks, z)
  | _, _ => none

end Worker

/-- What the main thread owns, with what its ring has pending. `left` is the main thread past its
loop. The last field is for the record: the descriptors it closed. -/
structure Main (cfg : Config) where
  pending : List (Item (MainOp cfg.threads))
  admitted : ℕ
  nextThread : Fin cfg.threads
  accepting : Bool
  signalArmed : Bool
  stopping : Bool
  left : Bool
  result : ℕ
  pausedUntil : ℕ
  accepted : ℕ
  acceptErrors : ℕ
  acceptRetries : ℕ
  closed : List ℕ

namespace Main

variable {cfg : Config}

def initial : Main cfg :=
  ⟨[], 0, ⟨0, cfg.threads_pos⟩, false, false, false, false, 0, 0, 0, 0, 0, []⟩

def submit (m : Main cfg) (token : ℕ) (op : MainOp cfg.threads) : Main cfg :=
  { m with pending := m.pending ++ [.flying token op] }

def tellStop (m : Main cfg) : Main cfg :=
  (List.finRange cfg.threads).foldl
    (fun m (k : Fin cfg.threads) => m.submit (Kind.told.tok k 0) (.message k (Kind.stop.tok 0 0) 0)) m

def cancelIf (m : Main cfg) (armed : Bool) (slot token : ℕ) : Main cfg :=
  if armed then m.submit (Kind.cancel.tok slot 0) (.cancel token) else m

def stop (m : Main cfg) : Main cfg :=
  if m.stopping then m
  else
    tellStop ((cancelIf { m with stopping := true } m.accepting 0 (Kind.accept.tok 0 0)).cancelIf
      m.signalArmed 1 (Kind.signal.tok 0 0))

def following (k : Fin cfg.threads) : Fin cfg.threads :=
  ⟨(k + 1) % cfg.threads, Nat.mod_lt _ cfg.threads_pos⟩

def hand (m : Main cfg) (fd : ℕ) (shaped : Bool) : Main cfg :=
  if cfg.sendBuffer ≠ 0 ∧ shaped = false then { m with closed := m.closed ++ [fd] }
  else
    { m with
      admitted := m.admitted + 1
      accepted := m.accepted + 1
      nextThread := following m.nextThread }.submit
        (Kind.told.tok fd 1) (.message m.nextThread (Kind.handed.tok 0 0) fd)

/-- `main_completed`. The answer is that of `setsockopt`, or of the read of the signal. -/
def mainCompleted (now : ℕ) (m : Main cfg) (c : Cqe) (answer : Bool) :
    Except Fault (Main cfg) :=
  match Kind.ofCode (tokenKind c.token) with
  | some .freed =>
    if m.admitted = 0 then .error .violation
    else .ok { m with admitted := decr m.admitted }
  | some .accept =>
    let m := { m with accepting := false }
    .ok (if 0 ≤ c.res then
      if m.stopping then { m with closed := m.closed ++ [c.res.toNat] }
      else hand m c.res.toNat answer
    else if c.res = -ecanceled then m
    else match dnAcceptAction (-c.res).toNat with
      | .retry => { m with acceptRetries := m.acceptRetries + 1 }
      | .pause => { m with
          acceptErrors := m.acceptErrors + 1, pausedUntil := now + acceptBackoffMs }
      | .fatal => stop { m with result := 1 })
  | some .signal =>
    let m := { m with signalArmed := false }
    .ok (if c.res = -ecanceled then m
    else if answer ∨ c.res < 0 then stop m
    else m)
  | some .told =>
    if c.res < 0 ∧ tokenGen c.token = 1 then
      .ok { m with
        closed := m.closed ++ [tokenSlot c.token], admitted := decr m.admitted }
    else if c.res < 0 then .error .harness
    else .ok m
  | some .cancel => .ok m
  | _ => .error .violation

/-- The top of the main loop: what it asks for before it enters its ring. -/
def arm (now : ℕ) (m : Main cfg) : Main cfg :=
  let m := if m.stopping = false ∧ m.signalArmed = false then
    { m with signalArmed := true }.submit (Kind.signal.tok 0 0) .poll else m
  if m.stopping = false ∧ m.accepting = false ∧ m.admitted < cfg.slots ∧ m.pausedUntil ≤ now then
    { m with accepting := true }.submit (Kind.accept.tok 0 0) .accept
  else m

def live (m : Main cfg) : ℕ :=
  m.pending.countP fun x => Kind.ofCode (tokenKind x.token) ≠ some .freed

end Main

/-- The host, and the kernel's record of the descriptors it gave for connections, in order, and of
what went over their sockets. -/
structure Host (cfg : Config) where
  main : Main cfg
  workers : Fin cfg.threads → Worker cfg
  now : ℕ
  given : List ℕ
  talks : Talks

namespace Host

variable {cfg : Config}

def initial : Host cfg := ⟨.initial, fun _ => .initial, 0, [], fun _ => []⟩

def setWorker (h : Host cfg) (k : Fin cfg.threads) (w : Worker cfg) : Host cfg :=
  { h with workers := Function.update h.workers k w }

def closedCount (h : Host cfg) (fd : ℕ) : ℕ :=
  h.main.closed.count fd + ∑ k, (h.workers k).closed.count fd

/-- The kernel may give a number that is not open. -/
def free (h : Host cfg) (fd : ℕ) : Bool := h.given.count fd = h.closedCount fd

/-- Steps of the main thread, of the others, of the kernel, and of the clock. Completions are
taken in any order. -/
inductive Act (cfg : Config) where
  | arm
  | mainTake (j : ℕ) (answer : Bool)
  | mainLeave
  | expire (k : Fin cfg.threads)
  | take (k : Fin cfg.threads) (j : ℕ)
  | leave (k : Fin cfg.threads)
  | mainExec (j : ℕ) (r : Worker.Result)
  | exec (k : Fin cfg.threads) (j : ℕ) (r : Worker.Result)
  | tick (ms : ℕ)

/-- What the kernel makes of an operation of the main ring. A message reaches the thread's ring
while it is there; otherwise, or if the kernel has no room for it, it fails. -/
def mainExecute (h : Host cfg) (j token : ℕ) : MainOp cfg.threads → Worker.Result →
    Option (Host cfg)
  | .accept, .count fd =>
    if h.free fd ∧ fd < 2 ^ 24 then
      some { h with
        main := { h.main with pending := h.main.pending.set j (.done ⟨token, fd⟩) }
        given := h.given ++ [fd]
        talks := Function.update h.talks fd (.new :: h.talks fd) }
    else none
  | .accept, .code z =>
    if z < 0 then
      some { h with main := { h.main with pending := h.main.pending.set j (.done ⟨token, z⟩) } }
    else none
  | .poll, .code z | .cancel _, .code z =>
    some { h with main := { h.main with pending := h.main.pending.set j (.done ⟨token, z⟩) } }
  | .message k tok res, .code z =>
    if z < 0 then
      some { h with main := { h.main with pending := h.main.pending.set j (.done ⟨token, z⟩) } }
    else if z = 0 ∧ (h.workers k).left = false then
      some ({ h with main :=
          { h.main with pending := h.main.pending.set j (.done ⟨token, 0⟩) } }.setWorker k
        { h.workers k with pending := (h.workers k).pending ++ [Item.done ⟨tok, res⟩] })
    else none
  | _, _ => none

def execute (h : Host cfg) (k : Fin cfg.threads) (j token : ℕ) : Op cfg.slots → Worker.Result →
    Option (Host cfg)
  | .message tok res, .code z =>
    if z < 0 then
      some (h.setWorker k { h.workers k with
        pending := (h.workers k).pending.set j (.done ⟨token, z⟩) })
    else if z = 0 then
      some ({ h with main :=
          { h.main with pending := h.main.pending ++ [Item.done ⟨tok, res⟩] } }.setWorker k
        { h.workers k with pending := (h.workers k).pending.set j (.done ⟨token, 0⟩) })
    else none
  | op, r =>
    ((h.workers k).execute h.talks op r).map fun (w, talks, res) =>
      { h.setWorker k { w with pending := w.pending.set j (.done ⟨token, res⟩) } with talks }

def step (h : Host cfg) : Act cfg → Option (Except Fault (Host cfg))
  | .arm =>
    if h.main.left then none else some (.ok { h with main := h.main.arm h.now })
  | .mainTake j answer =>
    match h.main.pending[j]? with
    | some (.done c) =>
      if h.main.left then none
      else some (({ h.main with pending := h.main.pending.eraseIdx j }.mainCompleted h.now c
        answer).map fun m => { h with main := m })
    | _ => none
  | .mainLeave =>
    if h.main.stopping ∧ h.main.live = 0 then
      some (.ok { h with main := { h.main with left := true } })
    else none
  | .expire k =>
    if (h.workers k).left then none
    else some (.ok (h.setWorker k ((h.workers k).expire k h.now)))
  | .take k j =>
    match (h.workers k).pending[j]? with
    | some (.done c) =>
      if (h.workers k).left then none
      else some (({ h.workers k with
        pending := (h.workers k).pending.eraseIdx j }.completed k h.now c).map fun w =>
          h.setWorker k w)
    | _ => none
  | .leave k =>
    if (h.workers k).stopping ∧ (h.workers k).held = 0 ∧ (h.workers k).live = 0 then
      some (.ok (h.setWorker k { h.workers k with left := true }))
    else none
  | .mainExec j r =>
    match h.main.pending[j]? with
    | some (.flying token op) => (h.mainExecute j token op r).map .ok
    | _ => none
  | .exec k j r =>
    match (h.workers k).pending[j]? with
    | some (.flying token op) => (h.execute k j token op r).map .ok
    | _ => none
  | .tick ms => some (.ok { h with now := h.now + ms })

def next : Except Fault (Host cfg) → Act cfg → Option (Except Fault (Host cfg))
  | .ok h, a => h.step a
  | .error _, _ => none

end Host

end DragonsNet.Native.EchoUring
