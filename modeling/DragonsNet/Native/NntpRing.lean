/- GID: DragonsNet/Native/NntpRing
   source: native/nntp_host.c, native/uring.h
   digest: The NNTP host's io_uring: connections, lingering sockets and the calls that reap. -/

import DragonsNet.Lib.Runs
import Mathlib.Logic.Function.Basic
import Mathlib.Tactic.Common

set_option autoImplicit false

namespace DragonsNet.Native.NntpRing

structure Limits where
  conns : ℕ
  lingering : ℕ

def host : Limits := ⟨64, 64⟩

def lingerTotalMs : ℕ := 30000

def lingerQuietMs : ℕ := 5000

def genLimit : ℕ := 2 ^ 62

def eagain : ℤ := 11

def eintr : ℤ := 4

/-- `R_RECV` and the kinds after it, and what of them is a connection's. -/
inductive Kind where
  | recv
  | send
  | cancel
  | ready
  | linger
  | lingerCancel
  deriving DecidableEq, Repr

namespace Kind

def code : Kind → ℕ
  | recv => 1
  | send => 2
  | cancel => 3
  | ready => 4
  | linger => 5
  | lingerCancel => 6

def ofCode : ℕ → Option Kind
  | 1 => some recv
  | 2 => some send
  | 3 => some cancel
  | 4 => some ready
  | 5 => some linger
  | 6 => some lingerCancel
  | _ => none

def ofConn : Kind → Bool
  | recv | send | cancel => true
  | _ => false

end Kind

/-- `DN_TOKEN`: the generation in the high 32 bits, the slot in the next 24, the kind in the
low 8. -/
def token (kind slot gen : ℕ) : ℕ := gen % 2 ^ 32 * 2 ^ 32 + slot % 2 ^ 24 * 2 ^ 8 + kind % 2 ^ 8

def tokenKind (t : ℕ) : ℕ := t % 2 ^ 8

def tokenSlot (t : ℕ) : ℕ := t / 2 ^ 8 % 2 ^ 24

def tokenGen (t : ℕ) : ℕ := t / 2 ^ 32

/-- An operation submitted and not reaped, with the descriptor it is on. The kernel gives its
token back, no more. -/
structure Flight where
  kind : Kind
  slot : ℕ
  gen : ℕ
  fd : ℕ
  deriving DecidableEq, Repr

def Flight.token (f : Flight) : ℕ := NntpRing.token f.kind.code f.slot f.gen

/-- A connection, of the fields of `struct conn` those the ring's accounts depend on. -/
structure Conn where
  fd : Option ℕ
  gen : ℕ
  reading : Bool
  lost : Bool
  tls : Bool
  ops : ℕ
  receiving : Bool
  input : Bool
  got : ℤ
  closingFd : Option ℕ
  lingers : Bool
  deriving DecidableEq, Repr

structure Place where
  fd : Option ℕ
  since : ℕ
  until' : ℕ
  quietUntil : ℕ
  receiving : Bool
  ending : Bool
  deriving DecidableEq, Repr

structure Queued where
  fd : ℕ
  index : ℕ
  deriving DecidableEq, Repr

/-- What a descriptor is, for the record: a connection's, queued to linger on, on its way to a
place, at one, or closed. -/
inductive Owner where
  | conn (i : ℕ)
  | queued
  | moving
  | place (at_ : ℕ)
  | closed
  deriving DecidableEq, Repr

/-- The violations of `take_completions`, `conn_completed`, `lingering_completed` and `let_go`. -/
inductive Violation where
  | userData
  | noConn
  | notLive
  | notLingering
  | queueFull
  deriving DecidableEq, Repr

/-- Where the turn is: in `dn_next`, at a slot of `dn_emit`'s first loop, in the loop that reaps
its sends, at a slot of the loop after it, or at its last `linger_queued`. -/
inductive Turn where
  | next
  | emit (k : ℕ)
  | sends
  | sent (k : ℕ)
  | closing
  deriving DecidableEq, Repr

/-- The calls of the ring the turn is in: the loop of `take_completions`; that of
`linger_queued`; that of `unlinger`, which gives up a place for a descriptor; and the loop of
`take_completions` in there. -/
inductive Frame where
  | none
  | taking
  | queue
  | unlinger (at_ fd : ℕ)
  | nested (at_ fd : ℕ)
  deriving DecidableEq, Repr

/-- The host. `flights` is the kernel's; `owner` and `nextFd` say which descriptors there are,
`busyClose` whether one was closed, or given to lingering, with an operation on it not reaped,
and `misdelivered` whether a completion was handled at another index or generation than its own. -/
structure State where
  conns : ℕ → Conn
  places : ℕ → Place
  lingered : ℕ
  toLinger : List Queued
  lingeringNow : Bool
  sendsLive : ℕ
  sendRes : ℕ → ℤ
  batched : ℕ → Option (ℕ × Bool)
  readyArmed : Bool
  now : ℕ
  turn : Turn
  frame : Frame
  flights : List Flight
  owner : ℕ → Owner
  nextFd : ℕ
  violation : Option Violation
  busyClose : Bool
  misdelivered : Bool

def emptyConn : Conn := ⟨none, 0, false, false, false, 0, false, false, 0, none, false⟩

def emptyPlace : Place := ⟨none, 0, 0, 0, false, false⟩

def start : State where
  conns _ := emptyConn
  places _ := emptyPlace
  lingered := 0
  toLinger := []
  lingeringNow := false
  sendsLive := 0
  sendRes _ := 0
  batched _ := none
  readyArmed := false
  now := 0
  turn := .next
  frame := .none
  flights := []
  owner _ := .closed
  nextFd := 0
  violation := none
  busyClose := false
  misdelivered := false

namespace State

def setConn (s : State) (i : ℕ) (c : Conn) : State :=
  { s with conns := Function.update s.conns i c }

def setPlace (s : State) (k : ℕ) (p : Place) : State :=
  { s with places := Function.update s.places k p }

def submit (s : State) (f : Flight) : State := { s with flights := s.flights ++ [f] }

/-- Whether an operation on `fd` is not reaped, but for a cancellation of lingering, which is
counted nowhere. -/
def busy (s : State) (fd : ℕ) : Bool :=
  s.flights.any fun f => f.fd == fd && (f.kind.ofConn || f.kind == .linger)

/-- The descriptor passes to `o`; `busyClose` keeps whether an operation is on it. -/
def pass (s : State) (fd : ℕ) (o : Owner) : State :=
  { s with owner := Function.update s.owner fd o, busyClose := s.busyClose || s.busy fd }

def close (s : State) (fd : ℕ) : State := s.pass fd .closed

end State

variable (L : Limits)

def letGo (s : State) (i fd : ℕ) : State :=
  if (s.conns i).lingers && s.toLinger.length == L.conns then
    { s with violation := some .queueFull }
  else if (s.conns i).lingers then
    { s.pass fd .queued with toLinger := ⟨fd, i⟩ :: s.toLinger }
  else s.close fd

def retire (s : State) (i fd : ℕ) (lingers : Bool) : State :=
  let c := { s.conns i with fd := none, input := false, lingers := lingers }
  if c.ops = 0 then letGo L (s.setConn i c) i fd
  else
    (s.setConn i { c with closingFd := some fd, ops := c.ops + 1 }).submit ⟨.cancel, i, c.gen, fd⟩

def freeIndex (s : State) (i : ℕ) : State :=
  let s := s.setConn i { s.conns i with tls := false }
  let s := match (s.conns i).fd with
    | none => s
    | some fd => retire L s i fd false
  s.setConn i { s.conns i with fd := none, reading := false, lost := false }

def usable (s : State) (i : ℕ) : Bool :=
  (s.conns i).fd.isNone && (s.conns i).closingFd.isNone && !(s.conns i).lost &&
    decide ((s.conns i).gen < genLimit)

/-- `admit`: the lowest index that is usable, where there is one. -/
def admitConn (s : State) (tls : Bool) : Option State :=
  match (List.range L.conns).find? (usable s) with
  | none => none
  | some i =>
    some { s.setConn i { emptyConn with fd := some s.nextFd, gen := (s.conns i).gen + 1, tls := tls }
      with
        owner := Function.update s.owner s.nextFd (.conn i)
        nextFd := s.nextFd + 1 }

/-- `interest`: a receive in flight while the program reads, its last input given out. -/
def interest (s : State) (i : ℕ) : State :=
  let c := s.conns i
  match c.fd with
  | none => s
  | some fd =>
    if !c.tls && c.reading && !c.receiving && !c.input then
      (s.setConn i { c with ops := c.ops + 1, receiving := true }).submit ⟨.recv, i, c.gen, fd⟩
    else s

/-- What `give_out` does of a connection with something to report: its input, the end of TLS's
input, or its failure, TLS's or the poll's. -/
inductive Report where
  | input
  | tlsEnded
  | failed
  deriving DecidableEq, Repr

def giveOut (s : State) (i : ℕ) (r : Report) : State :=
  let c := s.conns i
  if c.lost then freeIndex L s i
  else
    match c.fd, r with
    | none, _ => s
    | some _, .input =>
      if !c.tls && c.input && c.reading then
        let s := s.setConn i { c with input := false, reading := c.reading && decide (c.got ≠ 0) }
        if c.got < 0 ∧ c.got ≠ -eagain ∧ c.got ≠ -eintr then freeIndex L s i else s
      else s
    | some _, .tlsEnded => s.setConn i { c with reading := c.reading && !c.tls }
    | some _, .failed => freeIndex L s i

def dropLingering (s : State) (k fd : ℕ) : State :=
  (s.close fd).setPlace k { s.places k with fd := none, ending := false }

def lingerPass (s : State) (k : ℕ) : State :=
  let p := s.places k
  match p.fd with
  | none => s
  | some fd =>
    let ends := min p.until' p.quietUntil
    if ends ≤ s.now ∧ p.receiving = false then dropLingering s k fd
    else if ends ≤ s.now ∧ p.ending = false then
      (s.setPlace k { p with ending := true }).submit ⟨.lingerCancel, k, p.since, fd⟩
    else if !p.receiving && !p.ending then
      (s.setPlace k { p with receiving := true }).submit ⟨.linger, k, p.since, fd⟩
    else s

/-- A completion of one of the connection's operations is counted off. -/
def Conn.reaped (c : Conn) (kind : Kind) : Conn :=
  { c with ops := c.ops - 1, receiving := c.receiving && decide (kind ≠ Kind.recv) }

/-- The end of `conn_completed`: a descriptor to be closed goes with the last operation, and a
receive's result is kept. -/
def connReaped (s : State) (kind : Kind) (i : ℕ) (c : Conn) (res : ℤ) : State :=
  match c.closingFd with
  | some fd =>
    if c.ops = 0 then letGo L (s.setConn i { c with closingFd := none }) i fd else s.setConn i c
  | none =>
    if kind = Kind.recv then s.setConn i { c with input := true, got := res } else s.setConn i c

def connCompleted (s : State) (kind : Kind) (i gen : ℕ) (res : ℤ) : State :=
  let c := s.conns i
  if c.gen % 2 ^ 32 ≠ gen ∨ c.ops < 1 then { s with violation := some .notLive }
  else if kind = Kind.send then
    connReaped L { s with
      sendRes := Function.update s.sendRes i res, sendsLive := s.sendsLive - 1 } kind i
      (c.reaped kind) res
  else connReaped L s kind i (c.reaped kind) res

def Place.reaped (p : Place) : Place := { p with receiving := false }

def lingeringCompleted (s : State) (k since : ℕ) (res : ℤ) : State :=
  let p := s.places k
  if L.lingering ≤ k ∨ p.since % 2 ^ 32 ≠ since then { s with violation := some .notLingering }
  else
    match p.fd with
    | none => { s with violation := some .notLingering }
    | some fd =>
      if 0 < res ∧ p.ending = false then
        s.setPlace k { p.reaped with quietUntil := s.now + lingerQuietMs }
      else if res ≠ -eagain ∨ p.ending = true then dropLingering (s.setPlace k p.reaped) k fd
      else s.setPlace k p.reaped

def takeKind (s : State) (kind : Kind) (slot gen : ℕ) (res : ℤ) : State :=
  match kind with
  | .ready => { s with readyArmed := false }
  | .linger => lingeringCompleted L s slot gen res
  | .lingerCancel => s
  | kind =>
    if L.conns ≤ slot then { s with violation := some .noConn }
    else connCompleted L s kind slot gen res

/-- One turn of the loop of `take_completions`, of a token and a result. -/
def takeCompletion (s : State) (t : ℕ) (res : ℤ) : State :=
  match Kind.ofCode (tokenKind t) with
  | none => { s with violation := some .userData }
  | some kind => takeKind L s kind (tokenSlot t) (tokenGen t) res

/-- Whether the index and generation of the flight are those its completion is handled at. -/
def delivered (s : State) (f : Flight) : Bool :=
  if f.kind.ofConn then tokenSlot f.token == f.slot && (s.conns f.slot).gen == f.gen
  else if f.kind == .linger then tokenSlot f.token == f.slot && (s.places f.slot).since == f.gen
  else true

/-- The place `linger` takes: the first free, or the one that has lingered longest. -/
def pickPlace (places : ℕ → Place) : ℕ → List ℕ → ℕ
  | best, [] => best
  | best, k :: rest =>
    if (places k).fd.isNone then k
    else pickPlace places (if (places k).since < (places best).since then k else best) rest

/-- `linger`, up to the loop of `unlinger`; a socket that cannot be shut down is closed. -/
def linger (s : State) (fd : ℕ) (shut : Bool) : State :=
  if !shut then s.close fd
  else
    let k := pickPlace s.places 0 (List.range L.lingering)
    let p := s.places k
    let s := { s.pass fd .moving with frame := .unlinger k fd }
    match p.fd with
    | none => s
    | some old =>
      if p.receiving && !p.ending then
        (s.setPlace k { p with ending := true }).submit ⟨.lingerCancel, k, p.since, old⟩
      else s

/-- The loop of `unlinger`, which reaps while the place receives, and the end of `linger`. -/
def unlinger (s : State) (k fd : ℕ) : State :=
  let p := s.places k
  if p.fd.isSome && p.receiving then { s with frame := .nested k fd }
  else
    let s := match p.fd with
      | none => s
      | some old => dropLingering s k old
    { (s.pass fd (.place k)).setPlace k
        ⟨some fd, s.lingered + 1, s.now + lingerTotalMs, s.now + lingerQuietMs, false, false⟩ with
      lingered := s.lingered + 1
      frame := .queue }

def lingerQueued (s : State) (back : Frame) : State :=
  if s.lingeringNow then { s with frame := back }
  else { s with lingeringNow := true, frame := .queue }

def sent (s : State) (i : ℕ) (failed whole read : Bool) : State :=
  let s := if failed then
      let s := s.setConn i { s.conns i with tls := false }
      let s := match (s.conns i).fd with
        | none => s
        | some fd => retire L s i fd false
      s.setConn i { s.conns i with lost := true }
    else s
  s.setConn i { s.conns i with reading := !(s.conns i).lost && read && whole }

/-- An action of the program for one slot, of the generation it is for. A send over TLS or of no
octets is taken at once, and `failed` and `whole` say how; the others are submitted. -/
inductive Act where
  | none
  | send (gen len : ℕ) (read failed whole : Bool)
  | verify (gen : ℕ)
  | close (gen : ℕ) (gracefully : Bool)
  deriving DecidableEq, Repr

def Act.gen : Act → ℕ
  | .none => 0
  | .send gen _ _ _ _ => gen
  | .verify gen => gen
  | .close gen _ => gen

def act (s : State) (i : ℕ) (a : Act) : State :=
  let c := s.conns i
  match c.fd with
  | Option.none => s
  | some fd =>
    if c.gen ≠ a.gen then s
    else
      match a with
      | .none => s
      | .verify _ => s.setConn i { c with reading := false }
      | .send _ len read failed whole =>
        if !c.tls && len ≠ 0 then
          { (s.setConn i { c with ops := c.ops + 1 }).submit ⟨.send, i, c.gen, fd⟩ with
            sendsLive := s.sendsLive + 1
            batched := Function.update s.batched i (some (len, read)) }
        else sent L s i failed whole read
      | .close _ gracefully =>
        freeIndex L (retire L (s.setConn i { c with tls := false }) i fd gracefully) i

def finishSend (s : State) (i : ℕ) : State :=
  match s.batched i with
  | none => s
  | some (len, read) =>
    let res := s.sendRes i
    sent L { s with batched := Function.update s.batched i none } i
      (decide (res < 0 ∧ res ≠ -eagain ∧ res ≠ -eintr)) (decide (max res 0 = len)) read

/-- What happens next. In `dn_next`: a connection is accepted, a connection's or a place's part of
`wait_ring`, the poll of epoll's descriptor, an event given out, a reap, or the return. In
`dn_emit`: the program's action for a slot, and otherwise the code goes on. In a reap: the kernel
gives a completion, or has no more. In the queue: a descriptor is lingered on. -/
inductive Action where
  | tick
  | accept (tls : Bool)
  | interest (i : ℕ)
  | lingerPass (k : ℕ)
  | arm
  | giveOut (i : ℕ) (report : Report)
  | reap
  | emit
  | act (a : Act)
  | goOn
  | take (n : ℕ) (res : ℤ)
  | taken
  | linger (shut : Bool)
  deriving DecidableEq, Repr

def goOn (s : State) : Option State :=
  match s.frame, s.turn with
  | .unlinger k fd, _ => some (unlinger s k fd)
  | .queue, turn =>
    if s.toLinger = [] then
      some { s with
        lingeringNow := false, frame := .none, turn := if turn = .closing then .next else turn }
    else none
  | .none, .emit k => if L.conns ≤ k then some { s with turn := .sends } else none
  | .none, .sends => if s.sendsLive = 0 then some { s with turn := .sent 0 } else none
  | .none, .sent k =>
    if L.conns ≤ k then some (lingerQueued { s with turn := .closing } .none)
    else some { finishSend L s k with turn := .sent (k + 1) }
  | _, _ => none

def inNext (s : State) : Action → Option State
  | .accept tls => admitConn L s tls
  | .interest i => if i < L.conns then some (NntpRing.interest s i) else none
  | .lingerPass k => if k < L.lingering then some (NntpRing.lingerPass s k) else none
  | .arm =>
    if s.readyArmed then none
    else some ({ s with readyArmed := true }.submit ⟨.ready, 0, 0, 0⟩)
  | .giveOut i r => if i < L.conns then some (NntpRing.giveOut L s i r) else none
  | .reap => some { s with frame := .taking }
  | .emit => some { s with turn := .emit 0 }
  | _ => none

/-- One completion the kernel gives while `take_completions` loops, or none left. -/
def inTake (s : State) (back : Frame) : Action → Option State
  | .take n res =>
    match s.flights[n]? with
    | none => none
    | some f =>
      some (takeCompletion L { s with
        flights := s.flights.eraseIdx n
        misdelivered := s.misdelivered || !delivered s f } f.token res)
  | .taken => some (lingerQueued s back)
  | _ => none

def step (s : State) (a : Action) : Option State :=
  if s.violation.isSome then none
  else
    match a, s.frame, s.turn with
    | .tick, _, _ => some { s with now := s.now + 1 }
    | .goOn, _, _ => goOn L s
    | .linger shut, .queue, _ =>
      match s.toLinger with
      | [] => none
      | q :: rest => some (NntpRing.linger L { s with toLinger := rest } q.fd shut)
    | .reap, .none, .sends => if s.sendsLive = 0 then none else some { s with frame := .taking }
    | .act a, .none, .emit k =>
      if k < L.conns then some { NntpRing.act L s k a with turn := .emit (k + 1) } else none
    | a, .none, .next => inNext L s a
    | a, .taking, _ => inTake L s .none a
    | a, .nested k fd, _ => inTake L s (.unlinger k fd) a
    | _, _, _ => none

end DragonsNet.Native.NntpRing
