/- GID: DragonsNet/Models/Ring
   source: models/ring/src/lib.rs
   digest: The bounded single-producer single-consumer ring, one atomic step at a time. -/

import DragonsNet.Lib.Runs
import DragonsNet.Lib.Position

set_option autoImplicit false

namespace DragonsNet.Models.Ring

/-- A value handed to the ring, with the number of the call that handed it over. The number
tells equal values apart; the ring never looks at it. -/
structure Item (α : Type) where
  val : α
  ticket : ℕ
  deriving DecidableEq, Repr

/-- A waker is the number of the poll that registered it. -/
structure WakeCell where
  hasWaker : Bool
  slot : Option ℕ
  deriving DecidableEq, Repr

/-- Where a call of `wake` stands: before the load of the flag, before the lock, or with the
waker it took. -/
inductive Wake where
  | load
  | lock
  | fire (waker : ℕ)
  deriving DecidableEq, Repr

def WakeCell.after (c : WakeCell) : Wake → WakeCell
  | .load | .fire _ => c
  | .lock => ⟨false, none⟩

def WakeCell.next (c : WakeCell) : Wake → Option Wake
  | .load => if c.hasWaker then some .lock else none
  | .lock => c.slot.map .fire
  | .fire _ => none

def Wake.fired : Wake → Option ℕ
  | .fire waker => some waker
  | _ => none

/-- Who calls `try_push`: the user, or `poll_send` before or after its registration. -/
inductive PushCaller where
  | user
  | first
  | recheck
  deriving DecidableEq, Repr

/-- Where the producer stands. `checkClosed` to `takingBack` are the steps of `try_push`;
`waking` is its wake of the consumer, with the item just published; `parking` and `arming` are
`register`; `disarmOk` and `disarmClosed` are the wake of the producer's own cell before
`poll_send` returns; `closing` and `closeWaking` are `close`. -/
inductive Producer (α : Type) where
  | idle
  | checkClosed (c : PushCaller) (x : Item α)
  | checkFull (c : PushCaller) (x : Item α)
  | writing (c : PushCaller) (x : Item α)
  | publishing (c : PushCaller) (x : Item α)
  | takingBack (c : PushCaller) (x : Item α)
  | waking (c : PushCaller) (x : Item α) (w : Wake)
  | parking (x : Item α)
  | arming (x : Item α)
  | disarmOk (x : Item α) (w : Wake)
  | disarmClosed (x y : Item α) (w : Wake)
  | closing
  | closeWaking (w : Wake)
  deriving DecidableEq, Repr

/-- Who calls `try_pop`: the user, or `poll_recv` first, after it saw the ring closed, after
its registration, or after it saw the ring closed then. -/
inductive PopCaller where
  | user
  | first
  | drained
  | recheck
  | last
  deriving DecidableEq, Repr

/-- Where the consumer stands. `loading`, `reading`, `storing` and `waking` are the steps of
`try_pop`; `checkClosed` and `recheckClosed` the loads of the close bit in `poll_recv`;
`parking` and `arming` are `register`; `disarmSome` and `disarmClosed` the wake of the
consumer's own cell; `closing` and `closeWaking` are `close`. -/
inductive Consumer (α : Type) where
  | idle
  | loading (c : PopCaller)
  | reading (c : PopCaller)
  | storing (c : PopCaller) (x : Item α)
  | waking (c : PopCaller) (w : Wake)
  | checkClosed
  | parking
  | arming
  | recheckClosed
  | disarmSome (w : Wake)
  | disarmClosed (w : Wake)
  | closing
  | closeWaking (w : Wake)
  deriving DecidableEq, Repr

/-- The ring and its two ends. A slot is `none` while it holds no initialised value.
`sendValue` is the value of a send that is pending. The rest, from `closedTx` on, is a record
of the run. -/
structure State (w : ℕ) (α : Type) where
  head : BitVec w
  tail : BitVec w
  buffer : ℕ → Option (Item α)
  consumerWaker : WakeCell
  producerWaker : WakeCell
  cachedTail : BitVec w
  cachedHead : BitVec w
  producer : Producer α
  consumer : Consumer α
  sendValue : Option (Item α)
  recvPending : Bool
  closedTx : Bool
  closedRx : Bool
  tickets : ℕ
  sendPoll : ℕ
  recvPoll : ℕ
  sendWoken : Bool
  recvWoken : Bool
  published : List (Item α)
  returnedOk : List (Item α)
  refused : List (Item α × Item α)
  popped : List (Item α)
  recvNone : Bool
  fault : Bool

variable {w : ℕ} {α : Type}

def capacity (w k : ℕ) : BitVec w := BitVec.ofNat w (2 ^ k)

def mask (w k : ℕ) : BitVec w := BitVec.ofNat w (2 ^ k - 1)

def isClosed (tail : BitVec w) : Bool := tail &&& 1#w != 0#w

/-- The check of `try_push`. The product wraps like any other word. -/
def full (k : ℕ) (tail head : BitVec w) : Bool := capacity w k * 2#w ≤ tail - head

def slot (k : ℕ) (word : BitVec w) : ℕ := ((word >>> 1) &&& mask w k).toNat

namespace State

def wakeProducer (s : State w α) (v : Wake) : State w α :=
  { s with
    producerWaker := s.producerWaker.after v
    sendWoken := s.sendWoken || v.fired == some s.sendPoll }

def wakeConsumer (s : State w α) (v : Wake) : State w α :=
  { s with
    consumerWaker := s.consumerWaker.after v
    recvWoken := s.recvWoken || v.fired == some s.recvPoll }

def returnOk (s : State w α) (x : Item α) : State w α :=
  { s with producer := .idle, returnedOk := s.returnedOk ++ [x] }

/-- The user's call, made with `x`, returns an error that holds `y`. -/
def returnErr (s : State w α) (x y : Item α) : State w α :=
  { s with producer := .idle, refused := s.refused ++ [(x, y)] }

def pushOk (s : State w α) (c : PushCaller) (x : Item α) : State w α :=
  match c with
  | .user | .first => s.returnOk x
  | .recheck => { s with producer := .disarmOk x .load }

def pushClosed (s : State w α) (c : PushCaller) (x y : Item α) : State w α :=
  match c with
  | .user | .first => s.returnErr x y
  | .recheck => { s with producer := .disarmClosed x y .load }

/-- `try_push` returned `Full` to its caller: `poll_send` registers, or is pending. -/
def pushFull (s : State w α) (c : PushCaller) (x : Item α) : State w α :=
  match c with
  | .user => s.returnErr x x
  | .first => { s with producer := .parking x }
  | .recheck => { s with producer := .idle, sendValue := some x }

def popNone (s : State w α) (c : PopCaller) : State w α :=
  match c with
  | .user => { s with consumer := .idle }
  | .first => { s with consumer := .checkClosed }
  | .recheck => { s with consumer := .recheckClosed }
  | .drained | .last => { s with consumer := .idle, recvNone := true }

def popSome (s : State w α) (c : PopCaller) : State w α :=
  match c with
  | .recheck => { s with consumer := .disarmSome .load }
  | .user | .first | .drained | .last => { s with consumer := .idle }

end State

def advanceProducer (k : ℕ) (s : State w α) : Option (State w α) :=
  match s.producer with
  | .idle => none
  | .checkClosed c x =>
    some (if isClosed s.tail then s.pushClosed c x x else { s with producer := .checkFull c x })
  | .checkFull c x =>
    some (if full k s.cachedTail s.head then s.pushFull c x else { s with producer := .writing c x })
  | .writing c x =>
    some { s with
      buffer := Function.update s.buffer (slot k s.cachedTail) (some x)
      fault := s.fault || (s.buffer (slot k s.cachedTail)).isSome
      producer := .publishing c x }
  | .publishing c x =>
    if s.tail = s.cachedTail then
      some { s with
        tail := s.cachedTail + 2#w
        cachedTail := s.cachedTail + 2#w
        published := s.published ++ [x]
        producer := .waking c x .load }
    else some { s with producer := .takingBack c x }
  | .takingBack c x =>
    match s.buffer (slot k s.cachedTail) with
    | some y =>
      some ({ s with buffer := Function.update s.buffer (slot k s.cachedTail) none }.pushClosed c x y)
    | none => some { s with fault := true }
  | .waking c x v =>
    match s.consumerWaker.next v with
    | some v' => some { s.wakeConsumer v with producer := .waking c x v' }
    | none => some ((s.wakeConsumer v).pushOk c x)
  | .parking x =>
    some { s with
      producerWaker := { s.producerWaker with slot := some s.sendPoll }
      producer := .arming x }
  | .arming x =>
    some { s with
      producerWaker := { s.producerWaker with hasWaker := true }
      producer := .checkClosed .recheck x }
  | .disarmOk x v =>
    match s.producerWaker.next v with
    | some v' => some { s.wakeProducer v with producer := .disarmOk x v' }
    | none => some ((s.wakeProducer v).returnOk x)
  | .disarmClosed x y v =>
    match s.producerWaker.next v with
    | some v' => some { s.wakeProducer v with producer := .disarmClosed x y v' }
    | none => some ((s.wakeProducer v).returnErr x y)
  | .closing =>
    some { s with tail := s.tail ||| 1#w, closedTx := true, producer := .closeWaking .load }
  | .closeWaking v =>
    match s.consumerWaker.next v with
    | some v' => some { s.wakeConsumer v with producer := .closeWaking v' }
    | none => some { s.wakeConsumer v with producer := .idle }

def advanceConsumer (k : ℕ) (s : State w α) : Option (State w α) :=
  match s.consumer with
  | .idle => none
  | .loading c =>
    some (if s.cachedHead = s.tail &&& ~~~(1#w) then s.popNone c
      else { s with consumer := .reading c })
  | .reading c =>
    match s.buffer (slot k s.cachedHead) with
    | some x =>
      some { s with
        buffer := Function.update s.buffer (slot k s.cachedHead) none
        consumer := .storing c x }
    | none => some { s with fault := true }
  | .storing c x =>
    some { s with
      head := s.cachedHead + 2#w
      cachedHead := s.cachedHead + 2#w
      popped := s.popped ++ [x]
      consumer := .waking c .load }
  | .waking c v =>
    match s.producerWaker.next v with
    | some v' => some { s.wakeProducer v with consumer := .waking c v' }
    | none => some ((s.wakeProducer v).popSome c)
  | .checkClosed =>
    some { s with consumer := if isClosed s.tail then .loading .drained else .parking }
  | .parking =>
    some { s with
      consumerWaker := { s.consumerWaker with slot := some s.recvPoll }
      consumer := .arming }
  | .arming =>
    some { s with
      consumerWaker := { s.consumerWaker with hasWaker := true }
      consumer := .loading .recheck }
  | .recheckClosed =>
    some (if isClosed s.tail then { s with consumer := .disarmClosed .load }
      else { s with consumer := .idle, recvPending := true })
  | .disarmSome v =>
    match s.consumerWaker.next v with
    | some v' => some { s.wakeConsumer v with consumer := .disarmSome v' }
    | none => some { s.wakeConsumer v with consumer := .idle }
  | .disarmClosed v =>
    match s.consumerWaker.next v with
    | some v' => some { s.wakeConsumer v with consumer := .disarmClosed v' }
    | none => some { s.wakeConsumer v with consumer := .loading .last }
  | .closing =>
    some { s with tail := s.tail ||| 1#w, closedRx := true, consumer := .closeWaking .load }
  | .closeWaking v =>
    match s.producerWaker.next v with
    | some v' => some { s.wakeProducer v with consumer := .closeWaking v' }
    | none => some { s.wakeProducer v with consumer := .idle }

/-- The producer's user pushes, sends, polls a pending send again or drops it, and closes,
between calls; the consumer's user likewise, where a pending `recv` borrows its end and must
be dropped first. `producer` and `consumer` take a step of the call in progress. -/
inductive Action (α : Type) where
  | tryPush (v : α)
  | send (v : α)
  | pollSend
  | dropSend
  | closeTx
  | producer
  | tryPop
  | pollRecv
  | dropRecv
  | closeRx
  | consumer
  deriving DecidableEq, Repr

def step (k : ℕ) (s : State w α) : Action α → Option (State w α)
  | .tryPush v =>
    match s.producer with
    | .idle => some { s with producer := .checkClosed .user ⟨v, s.tickets⟩, tickets := s.tickets + 1 }
    | _ => none
  | .send v =>
    match s.producer, s.sendValue with
    | .idle, none => some { s with
        producer := .checkClosed .first ⟨v, s.tickets⟩
        tickets := s.tickets + 1
        sendPoll := s.sendPoll + 1
        sendWoken := false }
    | _, _ => none
  | .pollSend =>
    match s.producer, s.sendValue with
    | .idle, some x => some { s with
        producer := .checkClosed .first x
        sendValue := none
        sendPoll := s.sendPoll + 1
        sendWoken := false }
    | _, _ => none
  | .dropSend =>
    match s.producer with
    | .idle => some { s with sendValue := none }
    | _ => none
  | .closeTx =>
    match s.producer with
    | .idle => some { s with producer := .closing }
    | _ => none
  | .producer => advanceProducer k s
  | .tryPop =>
    match s.consumer, s.recvPending with
    | .idle, false => some { s with consumer := .loading .user }
    | _, _ => none
  | .pollRecv =>
    match s.consumer with
    | .idle => some { s with
        consumer := .loading .first
        recvPending := false
        recvPoll := s.recvPoll + 1
        recvWoken := false }
    | _ => none
  | .dropRecv =>
    match s.consumer with
    | .idle => some { s with recvPending := false }
    | _ => none
  | .closeRx =>
    match s.consumer, s.recvPending with
    | .idle, false => some { s with consumer := .closing }
    | _, _ => none
  | .consumer => advanceConsumer k s

/-- What a step can do: one rule for each way through each atomic step. -/
inductive Steps (k : ℕ) : State w α → State w α → Prop
  | tryPush (s : State w α) (v : α) : Steps k { s with producer := .idle }
      { s with producer := .checkClosed .user ⟨v, s.tickets⟩, tickets := s.tickets + 1 }
  | send (s : State w α) (v : α) (h : s.sendValue = none) : Steps k { s with producer := .idle }
      { s with
        producer := .checkClosed .first ⟨v, s.tickets⟩
        tickets := s.tickets + 1
        sendPoll := s.sendPoll + 1
        sendWoken := false }
  | pollSend (s : State w α) (x : Item α) (h : s.sendValue = some x) :
      Steps k { s with producer := .idle }
      { s with
        producer := .checkClosed .first x
        sendValue := none
        sendPoll := s.sendPoll + 1
        sendWoken := false }
  | dropSend (s : State w α) :
      Steps k { s with producer := .idle } { s with producer := .idle, sendValue := none }
  | closeTx (s : State w α) : Steps k { s with producer := .idle } { s with producer := .closing }
  | sawClosed (s : State w α) (c : PushCaller) (x : Item α) (h : isClosed s.tail = true) :
      Steps k { s with producer := .checkClosed c x } (s.pushClosed c x x)
  | sawOpen (s : State w α) (c : PushCaller) (x : Item α) (h : isClosed s.tail = false) :
      Steps k { s with producer := .checkClosed c x } { s with producer := .checkFull c x }
  | sawFull (s : State w α) (c : PushCaller) (x : Item α) (h : full k s.cachedTail s.head = true) :
      Steps k { s with producer := .checkFull c x } (s.pushFull c x)
  | sawRoom (s : State w α) (c : PushCaller) (x : Item α)
      (h : full k s.cachedTail s.head = false) :
      Steps k { s with producer := .checkFull c x } { s with producer := .writing c x }
  | write (s : State w α) (c : PushCaller) (x : Item α) : Steps k { s with producer := .writing c x }
      { s with
        buffer := Function.update s.buffer (slot k s.cachedTail) (some x)
        fault := s.fault || (s.buffer (slot k s.cachedTail)).isSome
        producer := .publishing c x }
  | publish (s : State w α) (c : PushCaller) (x : Item α) (h : s.tail = s.cachedTail) :
      Steps k { s with producer := .publishing c x }
      { s with
        tail := s.cachedTail + 2#w
        cachedTail := s.cachedTail + 2#w
        published := s.published ++ [x]
        producer := .waking c x .load }
  | overtaken (s : State w α) (c : PushCaller) (x : Item α) (h : s.tail ≠ s.cachedTail) :
      Steps k { s with producer := .publishing c x } { s with producer := .takingBack c x }
  | takeBack (s : State w α) (c : PushCaller) (x y : Item α)
      (h : s.buffer (slot k s.cachedTail) = some y) :
      Steps k { s with producer := .takingBack c x }
      ({ s with buffer := Function.update s.buffer (slot k s.cachedTail) none }.pushClosed c x y)
  | takeBackFault (s : State w α) (c : PushCaller) (x : Item α)
      (h : s.buffer (slot k s.cachedTail) = none) :
      Steps k { s with producer := .takingBack c x }
        { s with producer := .takingBack c x, fault := true }
  | pushWake (s : State w α) (c : PushCaller) (x : Item α) (v v' : Wake)
      (h : s.consumerWaker.next v = some v') :
      Steps k { s with producer := .waking c x v }
        { s.wakeConsumer v with producer := .waking c x v' }
  | pushWoke (s : State w α) (c : PushCaller) (x : Item α) (v : Wake)
      (h : s.consumerWaker.next v = none) :
      Steps k { s with producer := .waking c x v } ((s.wakeConsumer v).pushOk c x)
  | park (s : State w α) (x : Item α) : Steps k { s with producer := .parking x }
      { s with
        producerWaker := { s.producerWaker with slot := some s.sendPoll }
        producer := .arming x }
  | arm (s : State w α) (x : Item α) : Steps k { s with producer := .arming x }
      { s with
        producerWaker := { s.producerWaker with hasWaker := true }
        producer := .checkClosed .recheck x }
  | disarmOk (s : State w α) (x : Item α) (v v' : Wake) (h : s.producerWaker.next v = some v') :
      Steps k { s with producer := .disarmOk x v } { s.wakeProducer v with producer := .disarmOk x v' }
  | disarmedOk (s : State w α) (x : Item α) (v : Wake) (h : s.producerWaker.next v = none) :
      Steps k { s with producer := .disarmOk x v } ((s.wakeProducer v).returnOk x)
  | disarmClosed (s : State w α) (x y : Item α) (v v' : Wake)
      (h : s.producerWaker.next v = some v') :
      Steps k { s with producer := .disarmClosed x y v }
        { s.wakeProducer v with producer := .disarmClosed x y v' }
  | disarmedClosed (s : State w α) (x y : Item α) (v : Wake) (h : s.producerWaker.next v = none) :
      Steps k { s with producer := .disarmClosed x y v } ((s.wakeProducer v).returnErr x y)
  | closedTx (s : State w α) : Steps k { s with producer := .closing }
      { s with tail := s.tail ||| 1#w, closedTx := true, producer := .closeWaking .load }
  | closeTxWake (s : State w α) (v v' : Wake) (h : s.consumerWaker.next v = some v') :
      Steps k { s with producer := .closeWaking v }
        { s.wakeConsumer v with producer := .closeWaking v' }
  | closeTxWoke (s : State w α) (v : Wake) (h : s.consumerWaker.next v = none) :
      Steps k { s with producer := .closeWaking v } { s.wakeConsumer v with producer := .idle }
  | tryPop (s : State w α) (h : s.recvPending = false) :
      Steps k { s with consumer := .idle } { s with consumer := .loading .user }
  | pollRecv (s : State w α) : Steps k { s with consumer := .idle }
      { s with
        consumer := .loading .first
        recvPending := false
        recvPoll := s.recvPoll + 1
        recvWoken := false }
  | dropRecv (s : State w α) :
      Steps k { s with consumer := .idle } { s with consumer := .idle, recvPending := false }
  | closeRx (s : State w α) (h : s.recvPending = false) :
      Steps k { s with consumer := .idle } { s with consumer := .closing }
  | sawEmpty (s : State w α) (c : PopCaller) (h : s.cachedHead = s.tail &&& ~~~(1#w)) :
      Steps k { s with consumer := .loading c } (s.popNone c)
  | sawItem (s : State w α) (c : PopCaller) (h : s.cachedHead ≠ s.tail &&& ~~~(1#w)) :
      Steps k { s with consumer := .loading c } { s with consumer := .reading c }
  | read (s : State w α) (c : PopCaller) (x : Item α) (h : s.buffer (slot k s.cachedHead) = some x) :
      Steps k { s with consumer := .reading c }
      { s with
        buffer := Function.update s.buffer (slot k s.cachedHead) none
        consumer := .storing c x }
  | readFault (s : State w α) (c : PopCaller) (h : s.buffer (slot k s.cachedHead) = none) :
      Steps k { s with consumer := .reading c } { s with consumer := .reading c, fault := true }
  | store (s : State w α) (c : PopCaller) (x : Item α) : Steps k { s with consumer := .storing c x }
      { s with
        head := s.cachedHead + 2#w
        cachedHead := s.cachedHead + 2#w
        popped := s.popped ++ [x]
        consumer := .waking c .load }
  | popWake (s : State w α) (c : PopCaller) (v v' : Wake) (h : s.producerWaker.next v = some v') :
      Steps k { s with consumer := .waking c v } { s.wakeProducer v with consumer := .waking c v' }
  | popWoke (s : State w α) (c : PopCaller) (v : Wake) (h : s.producerWaker.next v = none) :
      Steps k { s with consumer := .waking c v } ((s.wakeProducer v).popSome c)
  | recvClosed (s : State w α) (h : isClosed s.tail = true) :
      Steps k { s with consumer := .checkClosed } { s with consumer := .loading .drained }
  | recvOpen (s : State w α) (h : isClosed s.tail = false) :
      Steps k { s with consumer := .checkClosed } { s with consumer := .parking }
  | parkRx (s : State w α) : Steps k { s with consumer := .parking }
      { s with
        consumerWaker := { s.consumerWaker with slot := some s.recvPoll }
        consumer := .arming }
  | armRx (s : State w α) : Steps k { s with consumer := .arming }
      { s with
        consumerWaker := { s.consumerWaker with hasWaker := true }
        consumer := .loading .recheck }
  | recheckedClosed (s : State w α) (h : isClosed s.tail = true) :
      Steps k { s with consumer := .recheckClosed } { s with consumer := .disarmClosed .load }
  | recheckedOpen (s : State w α) (h : isClosed s.tail = false) :
      Steps k { s with consumer := .recheckClosed }
        { s with consumer := .idle, recvPending := true }
  | disarmSome (s : State w α) (v v' : Wake) (h : s.consumerWaker.next v = some v') :
      Steps k { s with consumer := .disarmSome v }
        { s.wakeConsumer v with consumer := .disarmSome v' }
  | disarmedSome (s : State w α) (v : Wake) (h : s.consumerWaker.next v = none) :
      Steps k { s with consumer := .disarmSome v } { s.wakeConsumer v with consumer := .idle }
  | disarmClosedRx (s : State w α) (v v' : Wake) (h : s.consumerWaker.next v = some v') :
      Steps k { s with consumer := .disarmClosed v }
        { s.wakeConsumer v with consumer := .disarmClosed v' }
  | disarmedClosedRx (s : State w α) (v : Wake) (h : s.consumerWaker.next v = none) :
      Steps k { s with consumer := .disarmClosed v }
        { s.wakeConsumer v with consumer := .loading .last }
  | closedRx (s : State w α) : Steps k { s with consumer := .closing }
      { s with tail := s.tail ||| 1#w, closedRx := true, consumer := .closeWaking .load }
  | closeRxWake (s : State w α) (v v' : Wake) (h : s.producerWaker.next v = some v') :
      Steps k { s with consumer := .closeWaking v }
        { s.wakeProducer v with consumer := .closeWaking v' }
  | closeRxWoke (s : State w α) (v : Wake) (h : s.producerWaker.next v = none) :
      Steps k { s with consumer := .closeWaking v } { s.wakeProducer v with consumer := .idle }

section Inversion

variable {k : ℕ} {s t : State w α}

private theorem Steps.ofProducer {p : Producer α} (hp : s.producer = p)
    (h : Steps k { s with producer := p } t) : Steps k s t := by
  rw [← hp] at h
  exact h

private theorem Steps.ofConsumer {c : Consumer α} (hc : s.consumer = c)
    (h : Steps k { s with consumer := c } t) : Steps k s t := by
  rw [← hc] at h
  exact h

private theorem advanceProducer_steps (hstep : advanceProducer k s = some t) : Steps k s t := by
  unfold advanceProducer at hstep
  split at hstep
  · cases hstep
  · rename_i c x hp
    split_ifs at hstep with h <;> cases hstep
    · exact .ofProducer hp (.sawClosed s c x h)
    · exact .ofProducer hp (.sawOpen s c x (Bool.eq_false_of_not_eq_true h))
  · rename_i c x hp
    split_ifs at hstep with h <;> cases hstep
    · exact .ofProducer hp (.sawFull s c x h)
    · exact .ofProducer hp (.sawRoom s c x (Bool.eq_false_of_not_eq_true h))
  · rename_i c x hp
    cases hstep
    exact .ofProducer hp (.write s c x)
  · rename_i c x hp
    split_ifs at hstep with h <;> cases hstep
    · exact .ofProducer hp (.publish s c x h)
    · exact .ofProducer hp (.overtaken s c x h)
  · rename_i c x hp
    split at hstep <;> cases hstep
    · exact .ofProducer hp (.takeBack s c x _ ‹_›)
    · have hfault := Steps.takeBackFault s c x ‹_›
      rw [← hp] at hfault
      exact hfault
  · rename_i c x v hp
    split at hstep <;> cases hstep
    · exact .ofProducer hp (.pushWake s c x v _ ‹_›)
    · exact .ofProducer hp (.pushWoke s c x v ‹_›)
  · rename_i x hp
    cases hstep
    exact .ofProducer hp (.park s x)
  · rename_i x hp
    cases hstep
    exact .ofProducer hp (.arm s x)
  · rename_i x v hp
    split at hstep <;> cases hstep
    · exact .ofProducer hp (.disarmOk s x v _ ‹_›)
    · exact .ofProducer hp (.disarmedOk s x v ‹_›)
  · rename_i x y v hp
    split at hstep <;> cases hstep
    · exact .ofProducer hp (.disarmClosed s x y v _ ‹_›)
    · exact .ofProducer hp (.disarmedClosed s x y v ‹_›)
  · rename_i hp
    cases hstep
    exact .ofProducer hp (.closedTx s)
  · rename_i v hp
    split at hstep <;> cases hstep
    · exact .ofProducer hp (.closeTxWake s v _ ‹_›)
    · exact .ofProducer hp (.closeTxWoke s v ‹_›)

private theorem advanceConsumer_steps (hstep : advanceConsumer k s = some t) : Steps k s t := by
  unfold advanceConsumer at hstep
  split at hstep
  · cases hstep
  · rename_i c hc
    split_ifs at hstep with h <;> cases hstep
    · exact .ofConsumer hc (.sawEmpty s c h)
    · exact .ofConsumer hc (.sawItem s c h)
  · rename_i c hc
    split at hstep <;> cases hstep
    · exact .ofConsumer hc (.read s c _ ‹_›)
    · have hfault := Steps.readFault s c ‹_›
      rw [← hc] at hfault
      exact hfault
  · rename_i c x hc
    cases hstep
    exact .ofConsumer hc (.store s c x)
  · rename_i c v hc
    split at hstep <;> cases hstep
    · exact .ofConsumer hc (.popWake s c v _ ‹_›)
    · exact .ofConsumer hc (.popWoke s c v ‹_›)
  · rename_i hc
    split_ifs at hstep with h <;> cases hstep
    · exact .ofConsumer hc (.recvClosed s h)
    · exact .ofConsumer hc (.recvOpen s (Bool.eq_false_of_not_eq_true h))
  · rename_i hc
    cases hstep
    exact .ofConsumer hc (.parkRx s)
  · rename_i hc
    cases hstep
    exact .ofConsumer hc (.armRx s)
  · rename_i hc
    split_ifs at hstep with h <;> cases hstep
    · exact .ofConsumer hc (.recheckedClosed s h)
    · exact .ofConsumer hc (.recheckedOpen s (Bool.eq_false_of_not_eq_true h))
  · rename_i v hc
    split at hstep <;> cases hstep
    · exact .ofConsumer hc (.disarmSome s v _ ‹_›)
    · exact .ofConsumer hc (.disarmedSome s v ‹_›)
  · rename_i v hc
    split at hstep <;> cases hstep
    · exact .ofConsumer hc (.disarmClosedRx s v _ ‹_›)
    · exact .ofConsumer hc (.disarmedClosedRx s v ‹_›)
  · rename_i hc
    cases hstep
    exact .ofConsumer hc (.closedRx s)
  · rename_i v hc
    split at hstep <;> cases hstep
    · exact .ofConsumer hc (.closeRxWake s v _ ‹_›)
    · exact .ofConsumer hc (.closeRxWoke s v ‹_›)

theorem step_steps {a : Action α} (hstep : step k s a = some t) : Steps k s t := by
  cases a with
  | tryPush v =>
    simp only [step] at hstep
    split at hstep <;> cases hstep
    exact .ofProducer ‹_› (.tryPush s v)
  | send v =>
    simp only [step] at hstep
    split at hstep <;> cases hstep
    exact .ofProducer ‹_› (.send s v ‹_›)
  | pollSend =>
    simp only [step] at hstep
    split at hstep <;> cases hstep
    exact .ofProducer ‹_› (.pollSend s _ ‹_›)
  | dropSend =>
    simp only [step] at hstep
    split at hstep <;> cases hstep
    rename_i hp
    have hdrop := Steps.dropSend (k := k) s
    rw [← hp] at hdrop
    exact hdrop
  | closeTx =>
    simp only [step] at hstep
    split at hstep <;> cases hstep
    exact .ofProducer ‹_› (.closeTx s)
  | producer => exact advanceProducer_steps hstep
  | tryPop =>
    simp only [step] at hstep
    split at hstep <;> cases hstep
    exact .ofConsumer ‹_› (.tryPop s ‹_›)
  | pollRecv =>
    simp only [step] at hstep
    split at hstep <;> cases hstep
    exact .ofConsumer ‹_› (.pollRecv s)
  | dropRecv =>
    simp only [step] at hstep
    split at hstep <;> cases hstep
    rename_i hc
    have hdrop := Steps.dropRecv (k := k) s
    rw [← hc] at hdrop
    exact hdrop
  | closeRx =>
    simp only [step] at hstep
    split at hstep <;> cases hstep
    exact .ofConsumer ‹_› (.closeRx s ‹_›)
  | consumer => exact advanceConsumer_steps hstep

end Inversion

end DragonsNet.Models.Ring
