/- GID: DragonsNet/Models/RingWakes
   source: models/ring/src/lib.rs
   digest: No wake is lost in either direction of the ring, and the ring as a whole. -/

import DragonsNet.Models.RingFifo

set_option autoImplicit false

namespace DragonsNet.Models.RingWakes

open Lib.Runs (run invariant_of_step)
open Models.Ring
open Models.RingFifo

variable {w k : ℕ} {α : Type}

/-- The waker was fired, or was taken out of its cell to be fired. -/
def Taken (id : ℕ) (woken : Bool) (peer : Option Wake) : Prop :=
  woken = true ∨ peer = some (.fire id)

def Parked (c : WakeCell) (id : ℕ) (woken : Bool) (peer : Option Wake) : Prop :=
  c.slot = some id ∨ Taken id woken peer

def Registered (c : WakeCell) (id : ℕ) (woken : Bool) (peer : Option Wake) : Prop :=
  (c.slot = some id ∧ c.hasWaker = true) ∨ Taken id woken peer

/-- The waker was fired, or the peer is in a wake that will fire it. -/
def Owed (c : WakeCell) (id : ℕ) (woken : Bool) (peer : Option Wake) : Prop :=
  (c.slot = some id ∧ (peer = some .lock ∨ peer = some .load ∧ c.hasWaker = true)) ∨
    Taken id woken peer

section Cells

variable {c : WakeCell} {id : ℕ} {woken : Bool} {v : Wake} {next : Option Wake}

theorem Taken.wake (h : Taken id woken (some v)) (hnext : c.next v = next) :
    Taken id (woken || v.fired == some id) next := by
  rcases h with hwoken | hfire
  · left
    rw [hwoken]
    rfl
  · left
    obtain rfl := Option.some.inj hfire
    simp [Wake.fired]

private theorem taken_of_slot (hslot : c.slot = some id) (hnext : c.next .lock = next) :
    Taken id (woken || Wake.lock.fired == some id) next := by
  right
  rw [← hnext, WakeCell.next, hslot]
  rfl

theorem Parked.wake (h : Parked c id woken (some v)) (hnext : c.next v = next) :
    Parked (c.after v) id (woken || v.fired == some id) next := by
  rcases h with hslot | htaken
  · cases v with
    | load => exact .inl hslot
    | lock => exact .inr (taken_of_slot hslot hnext)
    | fire waker => exact .inl hslot
  · exact .inr (htaken.wake hnext)

theorem Registered.wake (h : Registered c id woken (some v)) (hnext : c.next v = next) :
    Registered (c.after v) id (woken || v.fired == some id) next := by
  rcases h with hcell | htaken
  · cases v with
    | load => exact .inl hcell
    | lock => exact .inr (taken_of_slot hcell.1 hnext)
    | fire waker => exact .inl hcell
  · exact .inr (htaken.wake hnext)

theorem Owed.wake (h : Owed c id woken (some v)) (hnext : c.next v = next) :
    Owed (c.after v) id (woken || v.fired == some id) next := by
  rcases h with ⟨hslot, hlock | ⟨hload, hflag⟩⟩ | htaken
  · obtain rfl := Option.some.inj hlock
    exact .inr (taken_of_slot hslot hnext)
  · obtain rfl := Option.some.inj hload
    refine .inl ⟨hslot, .inl ?_⟩
    rw [← hnext, WakeCell.next, if_pos hflag]
  · exact .inr (htaken.wake hnext)

theorem Registered.ring (h : Registered c id woken none) : Owed c id woken (some .load) := by
  rcases h with ⟨hslot, hflag⟩ | hwoken | hfire
  · exact .inl ⟨hslot, .inr ⟨rfl, hflag⟩⟩
  · exact .inr (.inl hwoken)
  · cases hfire

theorem Registered.begin (h : Registered c id woken none) :
    Registered c id woken (some .load) := by
  rcases h with hcell | hwoken | hfire
  · exact .inl hcell
  · exact .inr (.inl hwoken)
  · cases hfire

theorem Parked.begin (h : Parked c id woken none) : Parked c id woken (some .load) := by
  rcases h with hslot | hwoken | hfire
  · exact .inl hslot
  · exact .inr (.inl hwoken)
  · cases hfire

end Cells

def wakingProducer : Consumer α → Option Wake
  | .waking _ v | .closeWaking v => some v
  | _ => none

def wakingConsumer : Producer α → Option Wake
  | .waking _ _ v | .closeWaking v => some v
  | _ => none

def sends : PushCaller → Bool
  | .user => false
  | .first | .recheck => true

def rechecks : PushCaller → Bool
  | .recheck => true
  | .user | .first => false

def polling : Producer α → Bool
  | .checkClosed c _ | .checkFull c _ | .writing c _ | .publishing c _ | .takingBack c _
  | .waking c _ _ => sends c
  | .parking _ | .arming _ | .disarmOk _ _ | .disarmClosed _ _ _ => true
  | .idle | .closing | .closeWaking _ => false

def arming : Producer α → Bool
  | .arming _ => true
  | _ => false

/-- The producer has registered and not seen yet whether it must wait. -/
def rechecking : Producer α → Bool
  | .checkClosed c _ | .checkFull c _ => rechecks c
  | _ => false

def sawOpen : Producer α → Bool
  | .checkFull c _ => rechecks c
  | _ => false

/-- The pending send was woken, or the consumer is in a wake that will wake it. -/
def SendOwed (s : State w α) : Prop :=
  Owed s.producerWaker s.sendPoll s.sendWoken (wakingProducer s.consumer)

/-- A send registers its waker before it looks again; from then on a close or a pop of the
consumer finds the waker. -/
structure SendWake (k : ℕ) (s : State w α) : Prop where
  alone : polling s.producer = true → s.sendValue = none
  parked : arming s.producer = true →
    Parked s.producerWaker s.sendPoll s.sendWoken (wakingProducer s.consumer)
  registered : rechecking s.producer = true ∨ s.sendValue.isSome = true →
    Registered s.producerWaker s.sendPoll s.sendWoken (wakingProducer s.consumer)
  closing : sawOpen s.producer = true ∨ s.sendValue.isSome = true → s.closedRx = true → SendOwed s
  room : s.sendValue.isSome = true → full k s.cachedTail s.head = false → SendOwed s

section Send

variable {s t : State w α}

private theorem SendWake.wake {c c' : Consumer α} {v : Wake}
    (h : SendWake k { s with consumer := c }) (hc : wakingProducer c = some v)
    (hc' : s.producerWaker.next v = wakingProducer c') :
    SendWake k { s.wakeProducer v with consumer := c' } := by
  obtain ⟨halone, hparked, hregistered, hclosing, hroom⟩ := h
  simp only [SendOwed, hc] at hparked hregistered hclosing hroom
  exact ⟨halone, fun ha => (hparked ha).wake hc', fun hr => (hregistered hr).wake hc',
    fun ho hclosed => (hclosing ho hclosed).wake hc', fun hv hfull => (hroom hv hfull).wake hc'⟩

private theorem SendWake.ring {c c' : Consumer α} {head tail cachedHead : BitVec w}
    {popped : List (Item α)} {closed : Bool} (h : SendWake k { s with consumer := c })
    (hc : wakingProducer c = none) (hc' : wakingProducer c' = some .load) :
    SendWake k { s with
      head := head, tail := tail, cachedHead := cachedHead, popped := popped
      closedRx := closed, consumer := c' } := by
  obtain ⟨halone, hparked, hregistered, hclosing, hroom⟩ := h
  simp only [hc] at hparked hregistered
  refine ⟨halone, fun ha => ?_, fun hr => ?_, fun ho _ => ?_, fun hv _ => ?_⟩
  · simpa only [hc'] using (hparked ha).begin
  · simpa only [hc'] using (hregistered hr).begin
  · have hr : rechecking s.producer = true ∨ s.sendValue.isSome = true := by
      refine ho.imp_left fun hopen => ?_
      cases hp : s.producer <;> simp_all [sawOpen, rechecking]
    simpa only [SendOwed, hc'] using (hregistered hr).ring
  · simpa only [SendOwed, hc'] using (hregistered (.inr hv)).ring

private theorem SendWake.none (hvalue : t.sendValue = none) (harming : arming t.producer = false)
    (hrechecking : rechecking t.producer = false) : SendWake k t := by
  have hopen : sawOpen t.producer = false := by
    cases hp : t.producer <;> simp_all [sawOpen, rechecking]
  exact ⟨fun _ => hvalue, by simp [harming], by simp [hrechecking, hvalue],
    by simp [hopen, hvalue], by simp [hvalue]⟩

private theorem steps_sendWake (hk : k < w) (hc : Counted k s) (h : SendWake k s)
    (hstep : Steps k s t) :
    SendWake k t := by
  cases hstep
  case send s v hvalue => exact .none hvalue rfl rfl
  case pollSend s x _ | dropSend s => exact .none rfl rfl rfl
  case sawClosed s c x _ =>
    cases c with
    | user => exact ⟨nofun, nofun, h.registered, h.closing, h.room⟩
    | first | recheck => exact .none (h.alone rfl) rfl rfl
  case sawOpen s c x hopen =>
    refine ⟨h.alone, nofun, h.registered, fun _ hclosed => ?_, h.room⟩
    have hbit : isClosed s.tail = (s.closedTx || s.closedRx) := (hc.isClosed_eq hk :)
    have hrx : s.closedRx = true := hclosed
    rw [hopen, hrx, Bool.or_true] at hbit
    cases hbit
  case sawFull s c x hfull =>
    cases c with
    | user => exact ⟨nofun, nofun, h.registered, h.closing, h.room⟩
    | first => exact .none (h.alone rfl) rfl rfl
    | recheck =>
      refine ⟨nofun, nofun, fun _ => h.registered (.inl rfl), fun _ => h.closing (.inl rfl),
        fun _ hroom => ?_⟩
      have hroom : full k s.cachedTail s.head = false := hroom
      rw [hfull] at hroom
      cases hroom
  case sawRoom s c x _ =>
    exact ⟨h.alone, nofun, fun hr => h.registered (hr.imp_left nofun),
      fun ho => h.closing (ho.imp_left nofun), h.room⟩
  case publish s c x _ =>
    refine ⟨h.alone, nofun, h.registered, h.closing, fun hvalue _ => h.room hvalue ?_⟩
    obtain ⟨hroom, hkw⟩ := hc.room rfl
    apply Bool.eq_false_of_not_eq_true
    intro hfull
    exact hroom.ne ((hc.full_iff hkw).mp hfull)
  case takeBack s c x y _ | pushWoke s c x v _ =>
    cases c with
    | user => exact ⟨nofun, nofun, h.registered, h.closing, h.room⟩
    | first | recheck => exact .none (h.alone rfl) rfl rfl
  case park s x =>
    have hvalue : s.sendValue = none := h.alone rfl
    exact ⟨h.alone, fun _ => .inl rfl, by simp [rechecking, hvalue], by simp [sawOpen, hvalue],
      by simp [hvalue]⟩
  case arm s x =>
    have hvalue : s.sendValue = none := h.alone rfl
    refine ⟨h.alone, nofun, fun _ => ?_, by simp [sawOpen, hvalue], by simp [hvalue]⟩
    exact (h.parked rfl).imp_left fun hslot => ⟨hslot, rfl⟩
  case disarmOk s x v v' _ | disarmedOk s x v _ | disarmClosed s x y v v' _
    | disarmedClosed s x y v _ => exact .none (h.alone rfl) rfl rfl
  case store s c x | closedRx s => exact h.ring rfl rfl
  case popWake s c v v' hnext => exact h.wake rfl hnext
  case popWoke s c v hnext => cases c <;> exact h.wake rfl hnext
  case closeRxWake s v v' hnext | closeRxWoke s v hnext => exact h.wake rfl hnext
  case sawEmpty s c _ =>
    cases c <;> exact ⟨h.alone, h.parked, h.registered, h.closing, h.room⟩
  all_goals exact ⟨h.alone, h.parked, h.registered, h.closing, h.room⟩

end Send

def busy : Consumer α → Bool
  | .idle => false
  | _ => true

def armingRx : Consumer α → Bool
  | .arming => true
  | _ => false

/-- The consumer has registered and not seen yet whether it must wait. -/
def recheckingRx : Consumer α → Bool
  | .loading .recheck | .recheckClosed => true
  | _ => false

def sawEmpty : Consumer α → Bool
  | .recheckClosed => true
  | _ => false

/-- The pending recv was woken, or the producer is in a wake that will wake it. -/
def RecvOwed (s : State w α) : Prop :=
  Owed s.consumerWaker s.recvPoll s.recvWoken (wakingConsumer s.producer)

/-- A recv registers its waker before it looks again; from then on a push or a close of the
producer finds the waker. -/
structure RecvWake (s : State w α) : Prop where
  alone : busy s.consumer = true → s.recvPending = false
  parked : armingRx s.consumer = true →
    Parked s.consumerWaker s.recvPoll s.recvWoken (wakingConsumer s.producer)
  registered : recheckingRx s.consumer = true ∨ s.recvPending = true →
    Registered s.consumerWaker s.recvPoll s.recvWoken (wakingConsumer s.producer)
  item : sawEmpty s.consumer = true ∨ s.recvPending = true →
    s.popped.length < s.published.length → RecvOwed s
  closing : s.recvPending = true → s.closedTx = true → RecvOwed s

section Recv

variable {s t : State w α}

private theorem RecvWake.wake {p p' : Producer α} {v : Wake}
    (h : RecvWake { s with producer := p }) (hp : wakingConsumer p = some v)
    (hp' : s.consumerWaker.next v = wakingConsumer p') :
    RecvWake { s.wakeConsumer v with producer := p' } := by
  obtain ⟨halone, hparked, hregistered, hitem, hclosing⟩ := h
  simp only [RecvOwed, hp] at hparked hregistered hitem hclosing
  exact ⟨halone, fun ha => (hparked ha).wake hp', fun hr => (hregistered hr).wake hp',
    fun hi hlt => (hitem hi hlt).wake hp', fun hv hclosed => (hclosing hv hclosed).wake hp'⟩

private theorem RecvWake.ring {p p' : Producer α} {tail cachedTail : BitVec w}
    {published : List (Item α)} {closed : Bool} (h : RecvWake { s with producer := p })
    (hp : wakingConsumer p = none) (hp' : wakingConsumer p' = some .load) :
    RecvWake { s with
      tail := tail, cachedTail := cachedTail, published := published
      closedTx := closed, producer := p' } := by
  obtain ⟨halone, hparked, hregistered, hitem, hclosing⟩ := h
  simp only [hp] at hparked hregistered
  refine ⟨halone, fun ha => ?_, fun hr => ?_, fun hi _ => ?_, fun hv _ => ?_⟩
  · simpa only [hp'] using (hparked ha).begin
  · simpa only [hp'] using (hregistered hr).begin
  · have hr : recheckingRx s.consumer = true ∨ s.recvPending = true := by
      refine hi.imp_left fun hempty => ?_
      cases hc : s.consumer <;> simp_all [sawEmpty, recheckingRx]
    simpa only [RecvOwed, hp'] using (hregistered hr).ring
  · simpa only [RecvOwed, hp'] using (hregistered (.inr hv)).ring

private theorem RecvWake.none (hpending : t.recvPending = false)
    (harming : armingRx t.consumer = false) (hrechecking : recheckingRx t.consumer = false) :
    RecvWake t := by
  have hempty : sawEmpty t.consumer = false := by
    cases hc : t.consumer <;> simp_all [sawEmpty, recheckingRx]
  exact ⟨fun _ => hpending, by simp [harming], by simp [hrechecking, hpending],
    by simp [hempty, hpending], by simp [hpending]⟩

private theorem steps_recvWake (hk : k < w) (hc : Counted k s) (h : RecvWake s)
    (hstep : Steps k s t) :
    RecvWake t := by
  cases hstep
  case tryPop s hpending => exact .none hpending rfl rfl
  case pollRecv s | dropRecv s => exact .none rfl rfl rfl
  case closeRx s hpending => exact .none hpending rfl rfl
  case sawEmpty s c hempty =>
    have hpending : s.recvPending = false := h.alone rfl
    cases c with
    | user | first | drained | last => exact .none hpending rfl rfl
    | recheck =>
      refine ⟨h.alone, nofun, fun _ => h.registered (.inl rfl), fun _ hlt => ?_, h.closing⟩
      have hlen : s.popped.length = s.published.length := hc.empty_iff.mp hempty
      exact absurd hlen (Nat.ne_of_lt hlt)
  case sawItem s c _ | read s c x _ | store s c x | popWake s c v v' _ =>
    exact .none (h.alone rfl) rfl rfl
  case popWoke s c v _ => cases c <;> exact .none (h.alone rfl) rfl rfl
  case recvClosed s _ | recvOpen s _ => exact .none (h.alone rfl) rfl rfl
  case parkRx s =>
    have hpending : s.recvPending = false := h.alone rfl
    exact ⟨h.alone, fun _ => .inl rfl, by simp [recheckingRx, hpending],
      by simp [sawEmpty, hpending], by simp [hpending]⟩
  case armRx s =>
    have hpending : s.recvPending = false := h.alone rfl
    refine ⟨h.alone, nofun, fun _ => ?_, by simp [sawEmpty, hpending], by simp [hpending]⟩
    exact (h.parked rfl).imp_left fun hslot => ⟨hslot, rfl⟩
  case recheckedClosed s _ => exact .none (h.alone rfl) rfl rfl
  case recheckedOpen s hopen =>
    refine ⟨nofun, nofun, fun _ => h.registered (.inl rfl), fun _ => h.item (.inl rfl),
      fun _ hclosed => ?_⟩
    have hbit : isClosed s.tail = (s.closedTx || s.closedRx) := (hc.isClosed_eq hk :)
    have htx : s.closedTx = true := hclosed
    rw [hopen, htx, Bool.true_or] at hbit
    cases hbit
  case disarmSome s v v' _ | disarmedSome s v _ | disarmClosedRx s v v' _
    | disarmedClosedRx s v _ | closedRx s | closeRxWake s v v' _ | closeRxWoke s v _ =>
    exact .none (h.alone rfl) rfl rfl
  case publish s c x _ | closedTx s => exact h.ring rfl rfl
  case pushWake s c x v v' hnext => exact h.wake rfl hnext
  case pushWoke s c x v hnext =>
    have hwoken : RecvWake { s.wakeConsumer v with producer := .idle } := h.wake rfl hnext
    cases c <;>
      exact ⟨hwoken.alone, hwoken.parked, hwoken.registered, hwoken.item, hwoken.closing⟩
  case closeTxWake s v v' hnext | closeTxWoke s v hnext => exact h.wake rfl hnext
  case sawClosed s c x _ | sawFull s c x _ | takeBack s c x y _ =>
    cases c <;> exact ⟨h.alone, h.parked, h.registered, h.item, h.closing⟩
  all_goals exact ⟨h.alone, h.parked, h.registered, h.item, h.closing⟩

end Recv

structure Inv (k : ℕ) (s : State w α) : Prop where
  counted : Counted k s
  slots : Slots k s
  kept : Kept s
  drained : Drained s
  sendWake : SendWake k s
  recvWake : RecvWake s

theorem step_inv {s t : State w α} {a : Action α} (hk : k < w) (h : Inv k s)
    (hstep : step k s a = some t) : Inv k t := by
  have hsteps := step_steps hstep
  exact ⟨steps_counted hk h.counted h.slots hsteps, steps_slots hk h.counted h.slots hsteps,
    steps_kept hk h.counted h.slots h.kept hsteps, steps_drained hk h.counted h.drained hsteps,
    steps_sendWake hk h.counted h.sendWake hsteps, steps_recvWake hk h.counted h.recvWake hsteps⟩

end DragonsNet.Models.RingWakes
