/- GID: DragonsNet/Dataplane/Shard
   source: migration/dataplane/host/src/uring.rs
   digest: The completion handlers of an io_uring shard: what they submit, push and drop. -/

import DragonsNet.Lib.Runs
import Mathlib.Logic.Function.Basic
import Mathlib.Tactic.Common

set_option autoImplicit false

namespace DragonsNet.Dataplane.Shard

/-- Whether the shard runs the zero-copy path, whether the split seam is on, and the budget of
an upstream operation, in general and in an event stream. -/
structure Cfg where
  zc : Bool
  splitSpan : Bool
  proxyTimeout : ℕ
  sseTimeout : ℕ

/-- Operations with the kernel. A zero-copy send posts its data completion and, where that
promises one, a notification, until which the kernel holds its buffer. -/
inductive Kind where
  | recv
  | recvBr
  | send
  | writev
  | sendZc
  | zcNotif
  | proxyConnect
  | proxySend
  | proxyRecv
  | staticSend
  | spliceIn
  | spliceOut
  deriving DecidableEq, Repr

/-- An operation, with the connection and the dial it was submitted for. The user data of the
operation holds neither: its kind and slot is all a handler is given. -/
structure Op where
  kind : Kind
  conn : ℕ
  dial : Option ℕ
  deriving DecidableEq, Repr

structure ProxyDial where
  id : ℕ
  stream : Bool
  sse : Bool
  opDeadline : ℕ
  deriving DecidableEq, Repr

/-- A connection. Of the parked `step` its replay list counts, each result with the dial that
gave it, if one did. Buffers are what holds them: `resp`, `split`, `staticSend`, the dial. -/
structure Conn where
  id : ℕ
  resp : Bool
  zcIssued : ℕ
  zcData : ℕ
  zcNotifExp : ℕ
  zcNotif : ℕ
  zcError : Bool
  step : Option (List (Option ℕ))
  proxy : Option ProxyDial
  awaitingStreamHead : Bool
  split : Bool
  staticSend : Bool
  deriving DecidableEq, Repr

def Conn.new (id : ℕ) : Conn :=
  ⟨id, false, 0, 0, 0, 0, false, none, none, false, false, false⟩

/-- What a handler sees of the shard: a slot, its operations with the kernel, the replies the
serve thread owes it, the clock, and a record of the results that dials pushed and of whether
anything was dropped that an operation still pointed to. -/
structure View where
  conn : Option Conn
  ops : List Op
  replies : List ℕ
  now : ℕ
  nextDial : ℕ
  pushed : List ℕ
  busyDrop : Bool
  deriving DecidableEq, Repr

namespace View

def push (v : View) (kind : Kind) (dial : Option ℕ) : View :=
  match v.conn with
  | none => v
  | some c => { v with ops := v.ops ++ [⟨kind, c.id, dial⟩] }

def owe (v : View) : View :=
  match v.conn with
  | none => v
  | some c => { v with replies := v.replies ++ [c.id] }

def drop (v : View) (of : Op → Bool) : View :=
  { v with busyDrop := v.busyDrop || v.ops.any of }

def modify (v : View) (f : Conn → Conn) : View := { v with conn := v.conn.map f }

def takeProxy (v : View) : View :=
  match v.conn with
  | none => v
  | some c =>
    match c.proxy with
    | none => v
    | some d => (v.drop fun o => o.dial == some d.id).modify fun c => { c with proxy := none }

def remove (v : View) : View :=
  match v.conn with
  | none => v
  | some c => { v.drop fun o => o.conn == c.id with conn := none }

def close (v : View) : View := v.takeProxy.remove

/-- `h2c_handoff`, `connect_handoff`, `ws_handoff`, `proxy_handoff`. -/
def handoff (v : View) : View := v.takeProxy.remove

def armRecv (cfg : Cfg) (v : View) : View :=
  if cfg.zc then v.push .recvBr none else v.push .recv none

def pushSend (cfg : Cfg) (v : View) : View :=
  if cfg.zc then (v.modify fun c => { c with zcIssued := c.zcIssued + 1 }).push .sendZc none
  else v.push .send none

def stage (cfg : Cfg) (v : View) : View :=
  pushSend cfg <| (v.drop fun o => o.kind == .send || o.kind == .sendZc || o.kind == .zcNotif).modify
    fun c => { c with
      resp := true, zcIssued := 0, zcData := 0, zcNotifExp := 0, zcNotif := 0, zcError := false }

def stageSplit (v : View) : View :=
  ((v.drop fun o => o.kind == .writev).modify fun c => { c with split := true }).push .writev none

def stageResponse (cfg : Cfg) (v : View) (splitStatic canSplit : Bool) : View :=
  if splitStatic then v.stageSplit
  else if cfg.splitSpan then if canSplit then v.stageSplit else v.close
  else v.stage cfg

end View

inductive StaticOp where
  | send
  | spliceIn
  | spliceOut
  deriving DecidableEq, Repr

def StaticOp.kind : StaticOp → Kind
  | .send => .staticSend
  | .spliceIn => .spliceIn
  | .spliceOut => .spliceOut

/-- What `dispatch_acc` finds in the accumulation buffer: a request to refuse; no whole request
yet; a connection for another thread; one to close; a static request, with its first operation
or already whole, after which the buffer is looked at again; or a request the serve thread takes,
with the effect seam or without. -/
inductive Next where
  | refuse (canSplit : Bool)
  | more
  | handoff
  | drop
  | static (op : StaticOp)
  | staticClose
  | staticAgain (next : Next)
  | step
  | serve
  deriving DecidableEq, Repr

def dispatchAcc (cfg : Cfg) : Next → View → View
  | .refuse canSplit, v => v.stageResponse cfg false canSplit
  | .more, v => v.armRecv cfg
  | .handoff, v => v.handoff
  | .drop, v => v.close
  | .static op, v => (v.modify fun c => { c with staticSend := true }).push op.kind none
  | .staticClose, v => v.close
  | .staticAgain next, v => dispatchAcc cfg next v
  | .step, v => v.owe.modify fun c => { c with step := some [] }
  | .serve, v => v.owe

/-- The tail of a completed send: close, or look at the accumulation buffer. -/
inductive Finish where
  | close
  | again (next : Next)
  deriving DecidableEq, Repr

def finishSend (cfg : Cfg) : Finish → View → View
  | .close, v => v.close
  | .again next, v => dispatchAcc cfg next v

/-- `push_result_and_resume`, with the dial the result is of; `ok` says whether the serve
thread took it. -/
def pushResultAndResume (v : View) (dial : Option ℕ) (ok : Bool) : View :=
  match v.conn with
  | none => v
  | some c =>
    match c.step with
    | none => v
    | some results =>
      let v := { v.modify fun c => { c with step := some (results ++ [dial]) } with
        pushed := dial.toList ++ v.pushed }
      if ok then v.owe else (v.modify fun c => { c with step := none }).close

/-- `proxy_dial_failed`. `dial` says whose completion, or whose timeout, this is. -/
def proxyDialFailed (v : View) (dial : Option ℕ) (ok : Bool) : View :=
  pushResultAndResume v.takeProxy dial ok

def proxyReplyDone (v : View) (dial : Option ℕ) (ok : Bool) : View :=
  match v.conn.bind Conn.proxy with
  | none => v
  | some _ => pushResultAndResume v.takeProxy dial ok

def proxyStreamFinish (cfg : Cfg) (v : View) (finish : Finish) : View :=
  let v := v.takeProxy
  match v.conn with
  | none => v
  | some _ => finishSend cfg finish (v.modify fun c => { c with step := none })

def setProxyDeadline (cfg : Cfg) (v : View) : View :=
  v.modify fun c => { c with proxy := c.proxy.map fun d =>
    { d with opDeadline := v.now + if d.sse then cfg.sseTimeout else cfg.proxyTimeout } }

def armProxy (cfg : Cfg) (v : View) (kind : Kind) : View :=
  match v.conn.bind Conn.proxy with
  | none => v
  | some d => (setProxyDeadline cfg v).push kind (some d.id)

def armProxyRecv (cfg : Cfg) (v : View) : View := armProxy cfg v .proxyRecv

inductive RecvResult where
  | ended
  | noBuffers
  | borrowed (ok : Bool)
  | received (next : Next)
  deriving DecidableEq, Repr

/-- `on_recv` and `on_recv_br`; only the latter runs out of buffers or borrows one. -/
def onRecv (cfg : Cfg) (v : View) : RecvResult → View
  | .ended => v.close
  | .noBuffers => v.push .recv none
  | .borrowed ok => if ok then v.owe else v.close
  | .received next =>
    match v.conn with
    | none => v
    | some _ => dispatchAcc cfg next v

/-- The result of a send: failed, short, whether a zero-copy one promises a notification; and
after it, whether a stream is done, and how the connection goes on. -/
structure SendResult where
  failed : Bool
  short : Bool
  more : Bool
  done : Bool
  finish : Finish
  deriving DecidableEq, Repr

def respGone (v : View) : View :=
  (v.drop fun o => o.kind == .send || o.kind == .sendZc || o.kind == .zcNotif).modify fun c => { c with
    resp := false, zcIssued := 0, zcData := 0, zcNotifExp := 0, zcNotif := 0, zcError := false }

def proxyAfterSend (cfg : Cfg) (v : View) (r : SendResult) : View :=
  let v := respGone v
  if r.done then proxyStreamFinish cfg v r.finish else armProxyRecv cfg v

def onSplitSend (cfg : Cfg) (v : View) (r : SendResult) : View :=
  if r.failed then v.close
  else if r.short then v.push .writev none
  else finishSend cfg r.finish
    ((v.drop fun o => o.kind == .writev).modify fun c => { c with split := false })

def streaming (v : View) : Bool :=
  (v.conn.bind Conn.proxy).any fun d => d.sse || d.stream

/-- A response is out: `finalize_zc_send` and the end of `on_send`. -/
def responseSent (cfg : Cfg) (v : View) (r : SendResult) : View :=
  if streaming v then proxyAfterSend cfg v r
  else
    match v.conn with
    | none => v
    | some _ => finishSend cfg r.finish (respGone v)

/-- `on_send_zc`: the counts, and the next send after a short one. -/
def countZc (v : View) (notif : Bool) (r : SendResult) : View :=
  if notif then v.modify fun c => { c with zcNotif := c.zcNotif + 1 }
  else
    let v := v.modify fun c => { c with
      zcData := c.zcData + 1
      zcNotifExp := c.zcNotifExp + if r.more then 1 else 0
      zcError := c.zcError || r.failed }
    if !r.failed && !(v.conn.any Conn.zcError) && r.short then
      (v.modify fun c => { c with zcIssued := c.zcIssued + 1 }).push .sendZc none
    else v

def settled (c : Conn) : Bool := c.zcData == c.zcIssued && c.zcNotif == c.zcNotifExp

def onSendZc (cfg : Cfg) (v : View) (notif : Bool) (r : SendResult) : View :=
  let v := countZc v notif r
  if v.conn.any settled then responseSent cfg v r else v

def onSend (cfg : Cfg) (v : View) (notif : Bool) (r : SendResult) : View :=
  if v.conn.any Conn.split then onSplitSend cfg v r
  else if cfg.zc then onSendZc cfg v notif r
  else if r.failed then v.close
  else if r.short then v.push .send none
  else responseSent cfg v r

/-- What `on_proxy_recv` makes of more of a reply that is not streamed yet: an event stream
starts, or its head is refused; the head is sent to be transformed; the reply is whole; or
there is more to come. -/
inductive Got where
  | sseStart
  | sseRefused
  | head
  | complete
  | more
  deriving DecidableEq, Repr

inductive ProxyResult where
  | failed
  | short
  | eof (finish : Finish)
  | ok (got : Got)
  deriving DecidableEq, Repr

def onProxyConnect (cfg : Cfg) (v : View) (dial : Option ℕ) (ok : Bool) : ProxyResult → View
  | .failed => proxyDialFailed v dial ok
  | _ => armProxy cfg v .proxySend

def onProxySend (cfg : Cfg) (v : View) (dial : Option ℕ) (ok : Bool) : ProxyResult → View
  | .failed => proxyDialFailed v dial ok
  | .short => armProxy cfg v .proxySend
  | _ => armProxyRecv cfg v

def onProxyRecv (cfg : Cfg) (v : View) (dial : Option ℕ) (ok : Bool) : ProxyResult → View
  | .failed | .short => proxyDialFailed v dial ok
  | .eof finish =>
    match v.conn.bind Conn.proxy with
    | none => proxyReplyDone v dial ok
    | some d =>
      if d.sse then proxyStreamFinish cfg v .close
      else if d.stream then proxyStreamFinish cfg v finish
      else proxyReplyDone v dial ok
  | .ok got =>
    match v.conn.bind Conn.proxy with
    | none => v
    | some d =>
      if d.sse || d.stream then v.stage cfg
      else
        match got with
        | .sseStart =>
          (v.modify fun c => { c with proxy := c.proxy.map fun d => { d with sse := true } }).stage cfg
        | .sseRefused => proxyDialFailed v dial ok
        | .head =>
          if v.conn.any fun c => c.step.isSome then
            v.owe.modify fun c => { c with awaitingStreamHead := true }
          else armProxyRecv cfg v
        | .complete => proxyReplyDone v dial ok
        | .more => armProxyRecv cfg v

/-- The static lane's three handlers: a failure, the next operation, or the end. -/
inductive StaticResult where
  | failed
  | next (op : StaticOp)
  | finish (finish : Finish)
  deriving DecidableEq, Repr

def staticOp (o : Op) : Bool :=
  o.kind == .staticSend || o.kind == .spliceIn || o.kind == .spliceOut

def onStatic (cfg : Cfg) (v : View) : StaticResult → View
  | .failed => ((v.drop staticOp).modify fun c => { c with staticSend := false }).close
  | .next op => if v.conn.any Conn.staticSend then v.push op.kind none else v
  | .finish finish =>
    if v.conn.any Conn.staticSend then
      finishSend cfg finish ((v.drop staticOp).modify fun c => { c with staticSend := false })
    else v

/-- An encoded step: done, an effect of the cache, a request for the blocking fallback, a dial
that gets no socket, or one that does. -/
inductive StepReply where
  | done (canSplit : Bool)
  | cache (ok : Bool)
  | defer (spawned : Bool)
  | noSocket (ok : Bool)
  | proxy
  deriving DecidableEq, Repr

def startProxyDial (cfg : Cfg) (v : View) : View :=
  match v.conn with
  | none => v
  | some c =>
    let v := match c.proxy with
      | none => v
      | some d => v.drop fun o => o.dial == some d.id
    { v.modify fun c => { c with
        proxy := some ⟨v.nextDial, false, false, v.now + cfg.proxyTimeout⟩ } with
      nextDial := v.nextDial + 1 }.push .proxyConnect (some v.nextDial)

def onStepReply (cfg : Cfg) (v : View) : StepReply → View
  | .done canSplit => (v.modify fun c => { c with step := none }).stageResponse cfg false canSplit
  | .cache ok => pushResultAndResume v none ok
  | .defer spawned =>
    match v.conn.bind Conn.step with
    | none => v
    | some _ =>
      let v := v.modify fun c => { c with step := none }
      if spawned then v.owe else v.close
  | .noSocket ok => pushResultAndResume v none ok
  | .proxy => startProxyDial cfg v

/-- The transformed head, empty for a reply that is to be compressed. -/
inductive HeadReply where
  | empty (complete : Bool)
  | head
  deriving DecidableEq, Repr

def onStreamHeadReply (cfg : Cfg) (v : View) (ok : Bool) (r : HeadReply) : View :=
  let v := v.modify fun c => { c with awaitingStreamHead := false }
  match v.conn.bind Conn.proxy with
  | none => v
  | some d =>
    match r with
    | .empty true => proxyReplyDone v (some d.id) ok
    | .empty false => armProxyRecv cfg v
    | .head =>
      (v.modify fun c => { c with proxy := c.proxy.map fun d => { d with stream := true } }).stage cfg

/-- A reply of the serve thread, however the connection takes it. -/
structure Reply where
  ok : Bool
  head : HeadReply
  step : StepReply
  splitStatic : Bool
  canSplit : Bool
  deriving DecidableEq, Repr

def onReply (cfg : Cfg) (v : View) (r : Reply) : View :=
  if v.conn.any Conn.awaitingStreamHead then onStreamHeadReply cfg v r.ok r.head
  else if v.conn.any fun c => c.step.isSome then onStepReply cfg v r.step
  else v.stageResponse cfg r.splitStatic r.canSplit

/-- What a completion brings, for whichever handler its kind calls. -/
structure Result where
  recv : RecvResult
  send : SendResult
  proxy : ProxyResult
  static : StaticResult
  ok : Bool
  deriving DecidableEq, Repr

def handle (cfg : Cfg) (v : View) (o : Op) (r : Result) : View :=
  match o.kind with
  | .recv | .recvBr => onRecv cfg v r.recv
  | .send | .writev | .sendZc => onSend cfg v false r.send
  | .zcNotif => onSend cfg v true r.send
  | .proxyConnect => onProxyConnect cfg v o.dial r.ok r.proxy
  | .proxySend => onProxySend cfg v o.dial r.ok r.proxy
  | .proxyRecv => onProxyRecv cfg v o.dial r.ok r.proxy
  | .staticSend | .spliceIn | .spliceOut => onStatic cfg v r.static

structure Cell where
  conn : Option Conn
  ops : List Op
  replies : List ℕ
  deriving DecidableEq, Repr

/-- The shard: the slab with its free list, and beside the record of `View`, whether a completion
was handled against another connection or dial than the one that submitted it. -/
structure State where
  cells : ℕ → Cell
  len : ℕ
  free : List ℕ
  now : ℕ
  nextConn : ℕ
  nextDial : ℕ
  pushed : List ℕ
  busyDrop : Bool
  misdelivered : Bool

def init : State := ⟨fun _ => ⟨none, [], []⟩, 0, [], 0, 0, 0, [], false, false⟩

def State.view (s : State) (i : ℕ) : View :=
  ⟨(s.cells i).conn, (s.cells i).ops, (s.cells i).replies, s.now, s.nextDial, s.pushed, s.busyDrop⟩

/-- A handler's work on slot `i` in the shard; a connection removed frees its slot. -/
def State.put (s : State) (i : ℕ) (v : View) : State :=
  { s with
    cells := Function.update s.cells i ⟨v.conn, v.ops, v.replies⟩
    free := if (s.cells i).conn.isSome && v.conn.isNone then i :: s.free else s.free
    nextDial := v.nextDial
    pushed := v.pushed
    busyDrop := v.busyDrop }

def State.insert (s : State) : ℕ × State :=
  match s.free with
  | i :: free =>
    (i, { s with
      cells := Function.update s.cells i { s.cells i with conn := some (Conn.new s.nextConn) }
      free := free
      nextConn := s.nextConn + 1 })
  | [] =>
    (s.len, { s with
      cells := Function.update s.cells s.len { s.cells s.len with conn := some (Conn.new s.nextConn) }
      len := s.len + 1
      nextConn := s.nextConn + 1 })

/-- The part of `on_accept` that gives a connection a slot: it is refused by its limits, or
receives. -/
def onAccept (cfg : Cfg) (s : State) (refused : Option Bool) : State :=
  let (i, s) := s.insert
  match refused with
  | none => s.put i ((s.view i).armRecv cfg)
  | some canSplit => s.put i ((s.view i).stageResponse cfg false canSplit)

def expired (s : State) (i : ℕ) : Bool :=
  ((s.cells i).conn.bind Conn.proxy).any fun d => d.opDeadline ≤ s.now

def sweepOne (ok : ℕ → Bool) (s : State) (i : ℕ) : State :=
  let v := s.view i
  let dial := v.conn.bind Conn.proxy
  if dial.any ProxyDial.stream then s.put i v.close
  else s.put i (proxyDialFailed v (dial.map ProxyDial.id) (ok i))

/-- `sweep_proxy_timeouts`; `ok` says which resumptions the serve thread takes. -/
def sweepProxyTimeouts (s : State) (ok : ℕ → Bool) : State :=
  ((List.range s.len).filter (expired s)).foldl (sweepOne ok) s

/-- The `n`-th operation of a slot completes with `r`: what of the slot stays with the kernel. -/
def uncompleted (ops : List Op) (n : ℕ) (o : Op) (r : Result) : List Op :=
  if o.kind == .sendZc && r.send.more then ops.set n { o with kind := .zcNotif } else ops.eraseIdx n

def owned (conn : Option Conn) (o : Op) : Bool :=
  conn.any fun c => c.id == o.conn && (o.dial.isNone || c.proxy.map ProxyDial.id == o.dial)

/-- What happens next: a connection is accepted, the kernel completes the `n`-th operation of a
slot, the serve thread answers for a slot, time passes, or the shard sweeps. -/
inductive Action where
  | accept (refused : Option Bool)
  | complete (slot n : ℕ) (result : Result)
  | reply (slot : ℕ) (reply : Reply)
  | tick
  | sweep (ok : ℕ → Bool)

def step (cfg : Cfg) (s : State) : Action → Option State
  | .accept refused => some (onAccept cfg s refused)
  | .complete i n r =>
    match (s.cells i).ops[n]? with
    | none => none
    | some o =>
      let v := { s.view i with ops := uncompleted (s.cells i).ops n o r }
      some { s.put i (handle cfg v o r) with
        misdelivered := s.misdelivered || !owned (s.cells i).conn o }
  | .reply i r =>
    match (s.cells i).replies with
    | [] => none
    | _ :: rest => some (s.put i (onReply cfg { s.view i with replies := rest } r))
  | .tick => some { s with now := s.now + 1 }
  | .sweep ok => some (sweepProxyTimeouts s ok)

end DragonsNet.Dataplane.Shard
