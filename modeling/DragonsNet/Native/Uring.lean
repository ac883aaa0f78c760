/- GID: DragonsNet/Native/Uring
   source: native/uring.c, native/uring.h
   digest: The two rings a thread shares with the kernel, and the queues they are. -/

import DragonsNet.Lib.Lists
import DragonsNet.Lib.MaskRing
import DragonsNet.Lib.Runs

set_option autoImplicit false

namespace DragonsNet.Native.Uring

open Lib
open Lib.Cells
open Lib.MaskRing
open Lib.Runs

/-- `IORING_OP_NOP`, which a cleared entry holds, and the operations the hosts ask for. -/
inductive Opcode where
  | nop
  | recv
  | send
  | accept
  | pollAdd
  | asyncCancel
  | msgRing
  deriving DecidableEq, Repr

/-- `struct io_uring_sqe`, of its fields those that are written here. `off` is also `addr2`, and
`opFlags` the flags of every operation: they are unions. -/
structure Sqe where
  opcode : Opcode
  fd : BitVec 32
  off : BitVec 64
  addr : BitVec 64
  len : BitVec 32
  opFlags : BitVec 32
  userData : BitVec 64
  deriving DecidableEq, Repr

structure Cqe where
  userData : BitVec 64
  res : BitVec 32
  deriving DecidableEq, Repr

def cleared (token : BitVec 64) : Sqe := ⟨.nop, 0, 0, 0, 0, 0, token⟩

inductive Prep where
  | recv (fd : BitVec 32) (buffer : BitVec 64) (len : BitVec 32)
  | send (fd : BitVec 32) (buffer : BitVec 64) (len flags : BitVec 32)
  | accept (fd : BitVec 32) (address addressLen : BitVec 64)
  | poll (fd events : BitVec 32)
  | cancelFd (fd : BitVec 32)
  | cancel (token : BitVec 64)
  | message (ringFd : BitVec 32) (token : BitVec 64) (res : BitVec 32)
  deriving DecidableEq, Repr

def msgNosignal : BitVec 32 := 0x4000

def acceptFlags : BitVec 32 := 0x80800

def cancelFdAll : BitVec 32 := 3

def ioringMsgData : BitVec 64 := 0

def Prep.apply : Prep → Sqe → Sqe
  | .recv fd buffer len, s => { s with opcode := .recv, fd, addr := buffer, len }
  | .send fd buffer len flags, s =>
    { s with opcode := .send, fd, addr := buffer, len, opFlags := flags ||| msgNosignal }
  | .accept fd address addressLen, s =>
    { s with opcode := .accept, fd, addr := address, off := addressLen, opFlags := acceptFlags }
  | .poll fd events, s => { s with opcode := .pollAdd, fd, opFlags := events }
  | .cancelFd fd, s => { s with opcode := .asyncCancel, fd, opFlags := cancelFdAll }
  | .cancel token, s => { s with opcode := .asyncCancel, fd := -1, addr := token }
  | .message ringFd token res, s =>
    { s with opcode := .msgRing, fd := ringFd, addr := ioringMsgData, len := res, off := token }

@[simp] theorem Prep.apply_userData (p : Prep) (s : Sqe) : (p.apply s).userData = s.userData := by
  cases p <;> rfl

/-- `struct dn_ring` with the memory it maps. The heads and tails are shared with the kernel. -/
structure Ring where
  sqHead : BitVec 32
  sqTail : BitVec 32
  sqMask : BitVec 32
  sqEntries : BitVec 32
  sqLocal : BitVec 32
  sqes : List Sqe
  cqHead : BitVec 32
  cqTail : BitVec 32
  cqMask : BitVec 32
  cqEntries : BitVec 32
  cqes : List Cqe
  live : BitVec 64
  deriving DecidableEq, Repr

def entriesAllowed (entries : BitVec 32) : Bool :=
  !(entries < 1 || 4096 < entries || entries &&& (entries - 1) != 0)

/-- A ring as the kernel sets it up, its counters at any value: the mask of a queue is one less
than its entries, and there are twice as many completions. -/
def setup (entries sq cq : BitVec 32) : Ring where
  sqHead := sq
  sqTail := sq
  sqMask := entries - 1
  sqEntries := entries
  sqLocal := sq
  sqes := List.replicate entries.toNat (cleared 0)
  cqHead := cq
  cqTail := cq
  cqMask := 2 * entries - 1
  cqEntries := 2 * entries
  cqes := List.replicate (2 * entries).toNat ⟨0, 0⟩
  live := 0

def dnRingOpen (entries sq cq : BitVec 32) : Option Ring :=
  if entriesAllowed entries then some (setup entries sq cq) else none

/-- `dn_ring_get`. None is an access outside the entries, and the none within is its NULL; the
number is the index of the entry. -/
def dnRingGet (r : Ring) (token : BitVec 64) : Option (Option (Ring × ℕ)) :=
  if r.sqEntries ≤ r.sqLocal - r.sqHead then some none
  else
    (store r.sqes (r.sqLocal &&& r.sqMask).toNat [cleared token]).map fun sqes =>
      some ({ r with sqes, sqLocal := r.sqLocal + 1, live := r.live + 1 },
        (r.sqLocal &&& r.sqMask).toNat)

def prepare (r : Ring) (i : ℕ) (p : Prep) : Option Ring :=
  (r.sqes[i]?).bind fun s => (store r.sqes i [p.apply s]).map fun sqes => { r with sqes }

inductive Errno where
  | etime
  | eintr
  | ebusy
  | eagain
  | other (n : ℕ)
  deriving DecidableEq, Repr

/-- What `io_uring_enter` answers: how many entries it took, or an error when it took none. -/
inductive Answer where
  | took (n : ℕ)
  | failed (e : Errno)
  deriving DecidableEq, Repr

def Answer.count : Answer → ℕ
  | .took n => n
  | .failed _ => 0

/-- The arguments of a call: the entries to submit, the completions to wait for, and the seconds
and nanoseconds of the timeout, if there is one. -/
structure Args where
  submit : BitVec 32
  wait : ℕ
  timeout : Option (ℕ × ℕ)
  deriving DecidableEq, Repr

structure Entering where
  wait : ℕ
  deadline : Option ℕ
  deriving DecidableEq, Repr

def Entering.start (wait : ℕ) (timeoutMs : ℤ) (now : ℕ) : Entering where
  wait := if timeoutMs = 0 then 0 else wait
  deadline := if 0 < timeoutMs then some (now + timeoutMs.toNat) else none

def Entering.args (e : Entering) (r : Ring) (now : ℕ) : Args where
  submit := r.sqLocal - r.sqHead
  wait := e.wait
  timeout := if e.wait = 0 then none else e.deadline.map fun deadline =>
    ((deadline - now) / 1000, (deadline - now) % 1000 * 1000000)

/-- The kernel takes entries off the submission queue, in order. -/
def consume (r : Ring) : ℕ → Option (List Sqe × Ring)
  | 0 => some ([], r)
  | n + 1 =>
    (r.sqes[(r.sqHead &&& r.sqMask).toNat]?).bind fun s =>
      (consume { r with sqHead := r.sqHead + 1 } n).map fun (ss, r) => (s :: ss, r)

def deliver (r : Ring) (c : Cqe) : Option Ring :=
  (store r.cqes (r.cqTail &&& r.cqMask).toNat [c]).map fun cqes =>
    { r with cqes, cqTail := r.cqTail + 1 }

/-- The end of `dn_ring_take`, once the completion is copied out: none is its `abort`. -/
def dnRingTook (foreign : BitVec 64 → Bool) (r : Ring) (head : BitVec 32) (c : Cqe) :
    Option Ring :=
  if foreign c.userData then some { r with cqHead := head + 1 }
  else if r.live = 0 then none
  else some { r with cqHead := head + 1, live := r.live - 1 }

def closes (r : Ring) : Bool := r.live = 0

inductive Pc where
  | idle
  /-- Before the store of the tail. -/
  | entering (e : Entering)
  /-- Before the call. -/
  | calling (e : Entering)
  /-- Of `dn_ring_take`, once a completion was seen. -/
  | copying (head : BitVec 32)
  | storing (head : BitVec 32) (c : Cqe)
  deriving DecidableEq, Repr

inductive Ret where
  | got (entry : Option ℕ)
  | entered (code : Option Errno)
  | took (c : Option Cqe)
  deriving DecidableEq, Repr

/-- The ring, its thread, and the kernel's side: the user data of the operations it has taken and
not completed. The lists of entries and completions are for the record. -/
structure State where
  ring : Ring
  pc : Pc
  now : ℕ
  ret : Option Ret
  flying : List (BitVec 64)
  prepared : List Sqe
  consumed : List Sqe
  posted : List Cqe
  taken : List Cqe
  deriving DecidableEq, Repr

def State.start (r : Ring) : State := ⟨r, .idle, 0, none, [], [], [], [], []⟩

inductive Act where
  | get (token : BitVec 64) (p : Prep)
  | enter (wait : ℕ) (timeoutMs : ℤ)
  | publish
  | call (answer : Answer)
  | takeLoad
  | takeCopy
  | takeStore
  /-- The kernel completes an operation. -/
  | post (i : ℕ) (res : BitVec 32)
  /-- A message of another ring arrives. -/
  | message (c : Cqe)
  | tick (ms : ℕ)
  deriving DecidableEq, Repr

/-- A ring that went wrong: memory outside its arrays, or `abort`. -/
inductive Fault where
  | outside
  | abort
  deriving DecidableEq, Repr

/-- What the loop of `dn_ring_enter` does with an answer: it goes round again, or returns. -/
def answered (e : Entering) (r : Ring) (submit : BitVec 32) : Answer → Pc × Option Ret
  | .failed .etime => (.idle, some (.entered none))
  | .failed .eintr => (.entering e, none)
  | .failed .ebusy => (.idle, some (.entered none))
  | .failed .eagain => (.idle, some (.entered none))
  | .failed (.other n) => (.idle, some (.entered (some (.other n))))
  | .took n =>
    if BitVec.ofNat 32 n < submit ∧ r.sqHead ≠ r.sqLocal then (.entering e, none)
    else (.idle, some (.entered none))

def orFault {α : Type} (f : Fault) : Option α → Except Fault α
  | some a => .ok a
  | none => .error f

/-- A completion enters the queue if the kernel sees room there; otherwise it waits. -/
def hasRoom (r : Ring) : Bool := r.cqTail - r.cqHead < r.cqEntries

def step (foreign : BitVec 64 → Bool) (s : State) : Act → Option (Except Fault State)
  | .get token p =>
    if s.pc = .idle then
      match dnRingGet s.ring token with
      | none => some (.error .outside)
      | some none => some (.ok { s with ret := some (.got none) })
      | some (some (r, i)) => some ((orFault .outside (prepare r i p)).map fun r =>
          { s with
            ring := r, ret := some (.got (some i))
            prepared := s.prepared ++ [p.apply (cleared token)] })
    else none
  | .enter wait timeoutMs =>
    if s.pc = .idle then
      some (.ok { s with pc := .entering (.start wait timeoutMs s.now), ret := none })
    else none
  | .publish =>
    match s.pc with
    | .entering e => some (.ok { s with
        ring := { s.ring with sqTail := s.ring.sqLocal }, pc := .calling e })
    | _ => none
  | .call answer =>
    match s.pc with
    | .calling e =>
      if answer.count ≤ (s.ring.sqTail - s.ring.sqHead).toNat then
        some ((orFault .outside (consume s.ring answer.count)).map fun (ss, r) =>
          { s with
            ring := r
            pc := (answered e r (e.args s.ring s.now).submit answer).1
            ret := (answered e r (e.args s.ring s.now).submit answer).2
            flying := s.flying ++ ss.map (·.userData)
            consumed := s.consumed ++ ss })
      else none
    | _ => none
  | .takeLoad =>
    if s.pc = .idle then
      if s.ring.cqHead = s.ring.cqTail then some (.ok { s with ret := some (.took none) })
      else some (.ok { s with pc := .copying s.ring.cqHead, ret := none })
    else none
  | .takeCopy =>
    match s.pc with
    | .copying head => some ((orFault .outside
        (s.ring.cqes[(head &&& s.ring.cqMask).toNat]?)).map fun c =>
          { s with pc := .storing head c })
    | _ => none
  | .takeStore =>
    match s.pc with
    | .storing head c => some ((orFault .abort (dnRingTook foreign s.ring head c)).map fun r =>
        { s with ring := r, pc := .idle, ret := some (.took (some c)), taken := s.taken ++ [c] })
    | _ => none
  | .post i res =>
    match s.flying[i]? with
    | some token =>
      if hasRoom s.ring then
        some ((orFault .outside (deliver s.ring ⟨token, res⟩)).map fun r =>
          { s with
            ring := r, flying := s.flying.eraseIdx i, posted := s.posted ++ [⟨token, res⟩] })
      else none
    | none => none
  | .message c =>
    if foreign c.userData ∧ hasRoom s.ring then
      some ((orFault .outside (deliver s.ring c)).map fun r =>
        { s with ring := r, posted := s.posted ++ [c] })
    else none
  | .tick ms => some (.ok { s with now := s.now + ms })

def next (foreign : BitVec 64 → Bool) : Except Fault State → Act → Option (Except Fault State)
  | .ok s, a => step foreign s a
  | .error _, _ => none

def own (foreign : BitVec 64 → Bool) (c : Cqe) : Bool := !foreign c.userData

/-- The operations prepared whose completion has not been taken. -/
def State.outstanding (foreign : BitVec 64 → Bool) (s : State) : ℕ :=
  s.prepared.length - s.taken.countP (own foreign)

/-- How the ring is used: no operation has the token of a message, and the operations that are
outstanding can be counted. -/
def Allowed (foreign : BitVec 64 → Bool) : Except Fault State → Act → Prop
  | .ok s, .get token _ => foreign token = false ∧ s.outstanding foreign + 1 < 2 ^ 64
  | _, _ => True

instance decidableAllowed (foreign : BitVec 64 → Bool) :
    ∀ s a, Decidable (Allowed foreign s a)
  | .ok s, .get token _ =>
    inferInstanceAs (Decidable (foreign token = false ∧ s.outstanding foreign + 1 < 2 ^ 64))
  | .ok _, .enter .. | .ok _, .publish | .ok _, .call _ | .ok _, .takeLoad | .ok _, .takeCopy
  | .ok _, .takeStore | .ok _, .post .. | .ok _, .message _ | .ok _, .tick _
  | .error _, _ => inferInstanceAs (Decidable True)

section Queues

/-- The ring's constants: `2 ^ k` entries, and counters that began at `c` and `d`. -/
structure Shape (k : ℕ) (r : Ring) : Prop where
  small : k ≤ 12
  sqMask : r.sqMask = BitVec.ofNat 32 (2 ^ k - 1)
  sqEntries : r.sqEntries = BitVec.ofNat 32 (2 ^ k)
  cqMask : r.cqMask = BitVec.ofNat 32 (2 ^ (k + 1) - 1)
  cqEntries : r.cqEntries = BitVec.ofNat 32 (2 ^ (k + 1))

/-- The submission queue holds the entries prepared and not taken by the kernel. -/
structure Submissions (k c : ℕ) (s : State) (waiting : List Sqe) : Prop where
  prepared : s.prepared = s.consumed ++ waiting
  head : s.ring.sqHead = BitVec.ofNat 32 (c + s.consumed.length)
  tail : ∃ p, s.consumed.length ≤ p ∧ p ≤ s.prepared.length ∧
    s.ring.sqTail = BitVec.ofNat 32 (c + p)
  entry : s.ring.sqLocal = BitVec.ofNat 32 (c + s.prepared.length)
  cells : Holds k s.ring.sqes (c + s.consumed.length) waiting

/-- The completion queue holds the completions posted and not taken by the thread. -/
structure Completions (k d : ℕ) (s : State) (ready : List Cqe) : Prop where
  posted : s.posted = s.taken ++ ready
  head : s.ring.cqHead = BitVec.ofNat 32 (d + s.taken.length)
  tail : s.ring.cqTail = BitVec.ofNat 32 (d + s.posted.length)
  cells : Holds (k + 1) s.ring.cqes (d + s.taken.length) ready

/-- Every operation the kernel took flies or was completed, once; what is outstanding is counted
by `live`. -/
structure Accounts (foreign : BitVec 64 → Bool) (s : State) : Prop where
  owned : ∀ e ∈ s.prepared, foreign e.userData = false
  completed : (s.consumed.map (·.userData)).Perm
    (s.flying ++ (s.posted.filter (own foreign)).map (·.userData))
  live : s.ring.live = BitVec.ofNat 64 (s.outstanding foreign)
  counted : s.outstanding foreign < 2 ^ 64

/-- Where the thread is within a call, the queues are as it found them. -/
def AtPc (s : State) (ready : List Cqe) : Prop :=
  match s.pc with
  | .calling _ => s.ring.sqTail = s.ring.sqLocal
  | .copying head => head = s.ring.cqHead ∧ ready ≠ []
  | .storing head c => head = s.ring.cqHead ∧ ready.head? = some c
  | .idle | .entering _ => True

structure Inv (foreign : BitVec 64 → Bool) (k c d : ℕ) (s : State) (waiting : List Sqe)
    (ready : List Cqe) : Prop where
  shape : Shape k s.ring
  submissions : Submissions k c s waiting
  completions : Completions k d s ready
  accounts : Accounts foreign s
  atPc : AtPc s ready

variable {foreign : BitVec 64 → Bool} {k c d : ℕ} {s : State} {waiting : List Sqe}
  {ready : List Cqe} {token : BitVec 64} {x : Cqe} {r : Except Fault State}

private theorem two_pow_le (hk : k ≤ 12) : 2 ^ k ≤ 4096 := by
  have hle : 2 ^ k ≤ 2 ^ 12 := Nat.pow_le_pow_right (by decide) hk
  omega

private theorem Shape.sqEntries_toNat {r : Ring} (S : Shape k r) : r.sqEntries.toNat = 2 ^ k := by
  have hle := two_pow_le S.small
  rw [S.sqEntries, BitVec.toNat_ofNat, Nat.mod_eq_of_lt (by omega)]

private theorem Shape.cqEntries_toNat {r : Ring} (S : Shape k r) : r.cqEntries.toNat = 2 ^
    (k + 1) := by
  have hle := two_pow_le S.small
  rw [S.cqEntries, BitVec.toNat_ofNat, Nat.mod_eq_of_lt (by omega)]

private theorem Shape.sqIndex {r : Ring} (S : Shape k r) (n : ℕ) :
    (BitVec.ofNat 32 n &&& r.sqMask).toNat = n % 2 ^ k := by
  rw [S.sqMask]
  exact toNat_and_mask (S.small.trans (by decide)) n

private theorem Shape.cqIndex {r : Ring} (S : Shape k r) (n : ℕ) :
    (BitVec.ofNat 32 n &&& r.cqMask).toNat = n % 2 ^ (k + 1) := by
  rw [S.cqMask]
  exact toNat_and_mask ((Nat.succ_le_succ S.small).trans (by decide)) n

private theorem Submissions.distance (Q : Submissions k c s waiting) (hk : k ≤ 12) :
    (s.ring.sqLocal - s.ring.sqHead).toNat = waiting.length := by
  have hle := two_pow_le hk
  have hfits := Q.cells.fits
  have hlength : s.prepared.length = s.consumed.length + waiting.length := by
    rw [Q.prepared, List.length_append]
  rw [Q.entry, Q.head, toNat_sub (by omega) (by omega)]
  omega

private theorem Completions.distance (Q : Completions k d s ready) (hk : k ≤ 12) :
    (s.ring.cqTail - s.ring.cqHead).toNat = ready.length := by
  have hle := two_pow_le hk
  have hfits := Q.cells.fits
  have hlength : s.posted.length = s.taken.length + ready.length := by
    rw [Q.posted, List.length_append]
  rw [Q.tail, Q.head, toNat_sub (by omega) (by omega)]
  omega

private theorem Inv.prepared_length (I : Inv foreign k c d s waiting ready) :
    s.prepared.length = waiting.length + s.flying.length + ready.countP (own foreign) +
      s.taken.countP (own foreign) := by
  have hconsumed := I.accounts.completed.length_eq
  rw [List.length_map, List.length_append, List.length_map, ← List.countP_eq_length_filter,
    I.completions.posted, List.countP_append] at hconsumed
  rw [I.submissions.prepared, List.length_append]
  omega

private theorem Inv.outstanding_eq (I : Inv foreign k c d s waiting ready) :
    s.outstanding foreign =
      waiting.length + s.flying.length + ready.countP (own foreign) := by
  rw [State.outstanding, I.prepared_length]
  exact Nat.add_sub_cancel ..

private theorem Inv.get_full_iff (I : Inv foreign k c d s waiting ready) (token : BitVec 64) :
    dnRingGet s.ring token = some none ↔ waiting.length = 2 ^ k := by
  have hdistance := I.submissions.distance I.shape.small
  have hentries := I.shape.sqEntries_toNat
  have hfits := I.submissions.cells.fits
  rw [dnRingGet]
  constructor
  · intro hfull
    split at hfull
    · rename_i hle
      rw [BitVec.le_def, hdistance, hentries] at hle
      omega
    · obtain ⟨sqes, -, hsome⟩ := Option.map_eq_some_iff.mp hfull
      cases hsome
  · intro hfull
    have hle : s.ring.sqEntries ≤ s.ring.sqLocal - s.ring.sqHead := by
      rw [BitVec.le_def, hdistance, hentries]
      omega
    rw [if_pos hle]

def Ring.filled (r : Ring) (i : ℕ) (e : Sqe) : Ring :=
  { r with sqes := r.sqes.set i e, sqLocal := r.sqLocal + 1, live := r.live + 1 }

private theorem Inv.get_room (I : Inv foreign k c d s waiting ready)
    (hroom : waiting.length < 2 ^ k)
    (token : BitVec 64) :
    dnRingGet s.ring token = some (some
      (s.ring.filled ((c + s.prepared.length) % 2 ^ k) (cleared token),
        (c + s.prepared.length) % 2 ^ k)) := by
  have hnot : ¬ s.ring.sqEntries ≤ s.ring.sqLocal - s.ring.sqHead := by
    rw [BitVec.le_def, I.submissions.distance I.shape.small, I.shape.sqEntries_toNat]
    omega
  rw [dnRingGet, if_neg hnot, I.submissions.entry, I.shape.sqIndex, I.submissions.cells.store_eq,
    Option.map_some, Ring.filled, I.submissions.entry]

theorem Submissions.behind (Q : Submissions k c s waiting) :
    c + s.prepared.length = c + s.consumed.length + waiting.length := by
  rw [Q.prepared, List.length_append]
  omega

private theorem Inv.prepare_filled (I : Inv foreign k c d s waiting ready)
    (hroom : waiting.length < 2 ^ k) (token : BitVec 64) (p : Prep) :
    prepare (s.ring.filled ((c + s.prepared.length) % 2 ^ k) (cleared token))
        ((c + s.prepared.length) % 2 ^ k) p =
      some (s.ring.filled ((c + s.prepared.length) % 2 ^ k) (p.apply (cleared token))) := by
  have hpushed := I.submissions.cells.push hroom (cleared token)
  rw [← I.submissions.behind] at hpushed
  have hlast := hpushed.last
  rw [← I.submissions.behind] at hlast
  rw [prepare, Ring.filled, hlast, Option.bind_some, hpushed.store_eq, Option.map_some,
    List.set_set]
  rfl

private theorem Inv.keep_filled (I : Inv foreign k c d s waiting ready)
    (hroom : waiting.length < 2 ^ k)
    (hown : foreign token = false) (hcount : s.outstanding foreign + 1 < 2 ^ 64) (p : Prep)
    (ret : Option Ret) (hidle : s.pc = .idle) :
    Inv foreign k c d
      { s with
        ring := s.ring.filled ((c + s.prepared.length) % 2 ^ k) (p.apply (cleared token))
        ret := ret
        prepared := s.prepared ++ [p.apply (cleared token)] }
      (waiting ++ [p.apply (cleared token)]) ready := by
  have hlength := I.prepared_length
  have hbehind := I.submissions.behind
  have houtstanding : State.outstanding foreign
      { s with
        ring := s.ring.filled ((c + s.prepared.length) % 2 ^ k) (p.apply (cleared token))
        ret := ret
        prepared := s.prepared ++ [p.apply (cleared token)] } = s.outstanding foreign + 1 := by
    simp only [State.outstanding, List.length_append, List.length_singleton]
    omega
  refine ⟨⟨I.shape.small, I.shape.sqMask, I.shape.sqEntries, I.shape.cqMask, I.shape.cqEntries⟩,
    ⟨?_, I.submissions.head, ?_, ?_, ?_⟩,
    ⟨I.completions.posted, I.completions.head, I.completions.tail, I.completions.cells⟩,
    ⟨?_, I.accounts.completed, ?_, ?_⟩, ?_⟩
  · show s.prepared ++ _ = _
    rw [I.submissions.prepared, List.append_assoc]
  · obtain ⟨p, hlow, hhigh, htail⟩ := I.submissions.tail
    refine ⟨p, hlow, ?_, htail⟩
    rw [List.length_append]
    omega
  · show s.ring.sqLocal + 1 = _
    rw [I.submissions.entry, List.length_append, List.length_singleton]
    exact ofNat_succ _
  · show Holds k (s.ring.sqes.set _ _) _ _
    rw [hbehind]
    exact I.submissions.cells.push hroom _
  · refine List.forall_mem_append.mpr ⟨I.accounts.owned, List.forall_mem_singleton.mpr ?_⟩
    rw [Prep.apply_userData]
    exact hown
  · rw [houtstanding]
    show s.ring.live + 1 = _
    rw [I.accounts.live]
    exact ofNat_succ _
  · rw [houtstanding]
    exact hcount
  · rw [AtPc, hidle]
    trivial

private theorem consume_eq {n : ℕ} : ∀ {r : Ring} {h : ℕ} {items : List Sqe}, Shape k r →
    r.sqHead = BitVec.ofNat 32 h → Holds k r.sqes h items → n ≤ items.length →
    consume r n = some (items.take n, { r with sqHead := BitVec.ofNat 32 (h + n) }) := by
  induction n with
  | zero =>
    intro r h items S hhead H _
    rw [consume, List.take_zero, Nat.add_zero, ← hhead]
  | succ n ih =>
    intro r h items S hhead H hn
    cases items with
    | nil => exact absurd hn (Nat.not_succ_le_zero n)
    | cons x items =>
      have S' : Shape k { r with sqHead := r.sqHead + 1 } :=
        ⟨S.small, S.sqMask, S.sqEntries, S.cqMask, S.cqEntries⟩
      have hhead' : ({ r with sqHead := r.sqHead + 1 } : Ring).sqHead = BitVec.ofNat 32 (h + 1) := by
        show r.sqHead + 1 = _
        rw [hhead]
        exact ofNat_succ h
      have hrest := ih S' hhead' (show Holds k r.sqes (h + 1) items from H.pop)
        (Nat.le_of_succ_le_succ hn)
      rw [consume, hhead, S.sqIndex, H.front, Option.bind_some, ← hhead, hrest, Option.map_some,
        List.take_succ_cons, Nat.add_right_comm, Nat.add_assoc]

private theorem answered_pc (e : Entering) (r : Ring) (submit : BitVec 32) (a : Answer) :
    (answered e r submit a).1 = .idle ∨ (answered e r submit a).1 = .entering e := by
  cases a with
  | took n =>
    rw [answered]
    split
    · exact .inr rfl
    · exact .inl rfl
  | failed errno => cases errno <;> first | exact .inl rfl | exact .inr rfl

private theorem Inv.keep_consumed (I : Inv foreign k c d s waiting ready) {n : ℕ}
    (hn : n ≤ waiting.length) {pc : Pc} {e : Entering} (hpc : pc = .idle ∨ pc = .entering e)
    (htail : s.ring.sqTail = s.ring.sqLocal) (ret : Option Ret) :
    Inv foreign k c d
      { s with
        ring := { s.ring with sqHead := BitVec.ofNat 32 (c + s.consumed.length + n) }
        pc := pc
        ret := ret
        flying := s.flying ++ (waiting.take n).map (·.userData)
        consumed := s.consumed ++ waiting.take n }
      (waiting.drop n) ready := by
  have hlength : (s.consumed ++ waiting.take n).length = s.consumed.length + n := by
    rw [List.length_append, List.length_take, Nat.min_eq_left hn]
  refine ⟨⟨I.shape.small, I.shape.sqMask, I.shape.sqEntries, I.shape.cqMask, I.shape.cqEntries⟩,
    ⟨?_, ?_, ?_, I.submissions.entry, ?_⟩,
    ⟨I.completions.posted, I.completions.head, I.completions.tail, I.completions.cells⟩,
    ⟨I.accounts.owned, ?_, I.accounts.live, I.accounts.counted⟩, ?_⟩
  · show s.prepared = _
    rw [List.append_assoc, List.take_append_drop]
    exact I.submissions.prepared
  · show BitVec.ofNat 32 _ = _
    rw [hlength, Nat.add_assoc]
  · refine ⟨s.prepared.length, ?_, le_rfl, ?_⟩
    · rw [hlength, I.submissions.prepared, List.length_append]
      omega
    · show s.ring.sqTail = _
      rw [htail, I.submissions.entry]
  · rw [hlength, ← Nat.add_assoc]
    exact I.submissions.cells.drop hn
  · show ((s.consumed ++ waiting.take n).map _).Perm _
    rw [List.map_append]
    refine (I.accounts.completed.append_right _).trans ?_
    rw [List.append_assoc, List.append_assoc]
    exact List.Perm.append_left _ List.perm_append_comm
  · rcases hpc with rfl | rfl <;> trivial

private theorem Inv.deliver_eq (I : Inv foreign k c d s waiting ready) (x : Cqe) :
    deliver s.ring x = some { s.ring with
      cqes := s.ring.cqes.set ((d + s.posted.length) % 2 ^ (k + 1)) x
      cqTail := BitVec.ofNat 32 (d + s.posted.length + 1) } := by
  rw [deliver, I.completions.tail, I.shape.cqIndex, I.completions.cells.store_eq, Option.map_some,
    ofNat_succ]

private theorem Inv.keep_delivered (I : Inv foreign k c d s waiting ready)
    (hroom : hasRoom s.ring = true)
    {flying : List (BitVec 64)}
    (hcompleted : (s.consumed.map (·.userData)).Perm
      (flying ++ ((s.posted ++ [x]).filter (own foreign)).map (·.userData))) :
    Inv foreign k c d
      { s with
        ring := { s.ring with
          cqes := s.ring.cqes.set ((d + s.posted.length) % 2 ^ (k + 1)) x
          cqTail := BitVec.ofNat 32 (d + s.posted.length + 1) }
        flying := flying
        posted := s.posted ++ [x] }
      waiting (ready ++ [x]) := by
  have hlt : ready.length < 2 ^ (k + 1) := by
    have hless := of_decide_eq_true hroom
    rwa [BitVec.lt_def, I.completions.distance I.shape.small, I.shape.cqEntries_toNat] at hless
  have hbehind : d + s.posted.length = d + s.taken.length + ready.length := by
    rw [I.completions.posted, List.length_append]
    omega
  refine ⟨⟨I.shape.small, I.shape.sqMask, I.shape.sqEntries, I.shape.cqMask, I.shape.cqEntries⟩,
    ⟨I.submissions.prepared, I.submissions.head, I.submissions.tail, I.submissions.entry,
      I.submissions.cells⟩,
    ⟨?_, I.completions.head, ?_, ?_⟩,
    ⟨I.accounts.owned, hcompleted, I.accounts.live, I.accounts.counted⟩, ?_⟩
  · show s.posted ++ [x] = _
    rw [I.completions.posted, List.append_assoc]
  · show BitVec.ofNat 32 _ = _
    rw [List.length_append, List.length_singleton, Nat.add_assoc]
  · show Holds (k + 1) (s.ring.cqes.set _ _) _ _
    rw [hbehind]
    exact I.completions.cells.push hlt x
  · have hat := I.atPc
    rw [AtPc] at hat ⊢
    cases hpc : s.pc with
    | idle | entering => trivial
    | calling e =>
      rw [hpc] at hat
      exact hat
    | copying head =>
      rw [hpc] at hat
      exact ⟨hat.1, List.append_ne_nil_of_right_ne_nil _ (List.cons_ne_nil x [])⟩
    | storing head y =>
      rw [hpc] at hat
      obtain ⟨hhead, hy⟩ := hat
      refine ⟨hhead, ?_⟩
      rw [List.head?_append, hy]
      rfl

private theorem Inv.head_eq_tail_iff (I : Inv foreign k c d s waiting ready) :
    s.ring.cqHead = s.ring.cqTail ↔ ready = [] := by
  have hle := two_pow_le I.shape.small
  have hfits := I.completions.cells.fits
  have hlength : s.posted.length = s.taken.length + ready.length := by
    rw [I.completions.posted, List.length_append]
  rw [I.completions.head, I.completions.tail, ofNat_eq_iff (by omega) (by omega),
    ← List.length_eq_zero_iff]
  omega

def Ring.taking (foreign : BitVec 64 → Bool) (r : Ring) (x : Cqe) : Ring :=
  { r with cqHead := r.cqHead + 1, live := if own foreign x then r.live - 1 else r.live }

private theorem Inv.took_eq {rest : List Cqe} (I : Inv foreign k c d s waiting (x :: rest)) :
    dnRingTook foreign s.ring s.ring.cqHead x = some (s.ring.taking foreign x) := by
  rw [dnRingTook, Ring.taking, own]
  by_cases hforeign : foreign x.userData = true
  · rw [if_pos hforeign, hforeign]
    rfl
  · have hown : own foreign x = true := by
      rw [own, Bool.eq_false_of_not_eq_true hforeign]
      rfl
    have hpos : 0 < s.outstanding foreign := by
      rw [I.outstanding_eq, List.countP_cons_of_pos hown]
      omega
    have hlive : s.ring.live ≠ 0 := by
      intro hzero
      have htoNat := congrArg BitVec.toNat hzero
      rw [I.accounts.live, BitVec.toNat_ofNat, Nat.mod_eq_of_lt I.accounts.counted] at htoNat
      have hz : (0 : BitVec 64).toNat = 0 := rfl
      omega
    rw [if_neg hforeign, if_neg hlive, Bool.eq_false_of_not_eq_true hforeign]
    rfl

private theorem Inv.keep_taken {rest : List Cqe} (I : Inv foreign k c d s waiting (x :: rest))
    (ret : Option Ret) :
    Inv foreign k c d
      { s with
        ring := s.ring.taking foreign x, pc := .idle, ret := ret, taken := s.taken ++ [x] }
      waiting rest := by
  have hposted : s.posted = (s.taken ++ [x]) ++ rest := by
    rw [I.completions.posted, List.append_assoc]
    rfl
  have hcount : (s.taken ++ [x]).countP (own foreign) =
      s.taken.countP (own foreign) + if own foreign x then 1 else 0 := by
    rw [List.countP_append, List.countP_singleton]
  have houtstanding : State.outstanding foreign
      { s with
        ring := s.ring.taking foreign x, pc := .idle, ret := ret, taken := s.taken ++ [x] } +
        (if own foreign x then 1 else 0) = s.outstanding foreign := by
    have hsplit := I.outstanding_eq
    rw [List.countP_cons] at hsplit
    simp only [State.outstanding, hcount] at hsplit ⊢
    omega
  refine ⟨⟨I.shape.small, I.shape.sqMask, I.shape.sqEntries, I.shape.cqMask, I.shape.cqEntries⟩,
    ⟨I.submissions.prepared, I.submissions.head, I.submissions.tail, I.submissions.entry,
      I.submissions.cells⟩,
    ⟨hposted, ?_, I.completions.tail, ?_⟩, ⟨I.accounts.owned, I.accounts.completed, ?_, ?_⟩, ?_⟩
  · show s.ring.cqHead + 1 = _
    rw [I.completions.head, List.length_append, List.length_singleton, ofNat_succ, Nat.add_assoc]
  · show Holds (k + 1) s.ring.cqes _ _
    rw [List.length_append, List.length_singleton, ← Nat.add_assoc]
    exact I.completions.cells.pop
  · show (if own foreign x then s.ring.live - 1 else s.ring.live) = _
    by_cases hown : own foreign x = true
    · rw [if_pos hown] at houtstanding ⊢
      rw [I.accounts.live, ← houtstanding, ← ofNat_succ]
      exact BitVec.add_sub_cancel _ _
    · rw [if_neg hown] at houtstanding ⊢
      rw [I.accounts.live, ← houtstanding, Nat.add_zero]
  · exact lt_of_le_of_lt (by omega) I.accounts.counted
  · trivial

private theorem Inv.keep_pc (I : Inv foreign k c d s waiting ready) {t : State}
    (hring : t.ring = s.ring)
    (hflying : t.flying = s.flying) (hprepared : t.prepared = s.prepared)
    (hconsumed : t.consumed = s.consumed) (hposted : t.posted = s.posted)
    (htaken : t.taken = s.taken) (hat : AtPc t ready) :
    Inv foreign k c d t waiting ready := by
  obtain ⟨shape, submissions, completions, accounts, -⟩ := I
  obtain ⟨ring, pc, now, ret, flying, prepared, consumed, posted, taken⟩ := t
  obtain rfl : ring = s.ring := hring
  obtain rfl : flying = s.flying := hflying
  obtain rfl : prepared = s.prepared := hprepared
  obtain rfl : consumed = s.consumed := hconsumed
  obtain rfl : posted = s.posted := hposted
  obtain rfl : taken = s.taken := htaken
  exact ⟨shape,
    ⟨submissions.prepared, submissions.head, submissions.tail, submissions.entry,
      submissions.cells⟩,
    ⟨completions.posted, completions.head, completions.tail, completions.cells⟩,
    ⟨accounts.owned, accounts.completed, accounts.live, accounts.counted⟩, hat⟩

def Good (foreign : BitVec 64 → Bool) (k c d : ℕ) : Except Fault State → Prop
  | .ok s => ∃ waiting ready, Inv foreign k c d s waiting ready
  | .error _ => False

private theorem orFault_map {α β : Type} {f : Fault} {o : Option α} {a : α} (h : o = some a)
    (g : α → β) : (orFault f o).map g = .ok (g a) := by
  rw [h]
  rfl

private theorem good_get (I : Inv foreign k c d s waiting ready) {p : Prep}
    (hallowed : Allowed foreign (.ok s) (.get token p)) (h : step foreign s (.get token p) = some r)
    :
    Good foreign k c d r := by
  obtain ⟨hown, hcount⟩ := hallowed
  rw [step] at h
  split at h
  · rename_i hidle
    rcases Nat.lt_or_eq_of_le I.submissions.cells.fits with hroom | hfull
    · rw [I.get_room hroom token] at h
      simp only [orFault_map (I.prepare_filled hroom token p)] at h
      obtain rfl := Option.some.inj h
      exact ⟨_, _, I.keep_filled hroom hown hcount p _ hidle⟩
    · rw [(I.get_full_iff token).mpr hfull] at h
      obtain rfl := Option.some.inj h
      refine ⟨_, _, I.keep_pc rfl rfl rfl rfl rfl rfl ?_⟩
      rw [AtPc, hidle]
      trivial
  · cases h

private theorem good_publish (I : Inv foreign k c d s waiting ready)
    (h : step foreign s .publish = some r)
    :
    Good foreign k c d r := by
  rw [step] at h
  split at h
  · obtain rfl := Option.some.inj h
    refine ⟨waiting, ready,
      ⟨I.shape.small, I.shape.sqMask, I.shape.sqEntries, I.shape.cqMask, I.shape.cqEntries⟩,
      ⟨I.submissions.prepared, I.submissions.head, ⟨s.prepared.length, ?_, le_rfl, ?_⟩,
        I.submissions.entry, I.submissions.cells⟩,
      ⟨I.completions.posted, I.completions.head, I.completions.tail, I.completions.cells⟩,
      ⟨I.accounts.owned, I.accounts.completed, I.accounts.live, I.accounts.counted⟩, rfl⟩
    · rw [I.submissions.prepared, List.length_append]
      exact Nat.le_add_right _ _
    · exact I.submissions.entry
  · cases h

/-- The state after the kernel took the first `n` entries that wait and the call was answered. -/
def State.called (s : State) (e : Entering) (waiting : List Sqe) (head : BitVec 32)
    (answer : Answer) : State :=
  { s with
    ring := { s.ring with sqHead := head }
    pc := (answered e { s.ring with sqHead := head } (e.args s.ring s.now).submit answer).1
    ret := (answered e { s.ring with sqHead := head } (e.args s.ring s.now).submit answer).2
    flying := s.flying ++ (waiting.take answer.count).map (·.userData)
    consumed := s.consumed ++ waiting.take answer.count }

theorem Inv.published {e : Entering} (I : Inv foreign k c d s waiting ready)
    (hpc : s.pc = .calling e) : s.ring.sqTail = s.ring.sqLocal := by
  have hat := I.atPc
  rwa [AtPc, hpc] at hat

private theorem Inv.call_cases (I : Inv foreign k c d s waiting ready) {answer : Answer}
    (h : step foreign s (.call answer) = some r) :
    ∃ e, s.pc = .calling e ∧ answer.count ≤ waiting.length ∧
      r = .ok (s.called e waiting
        (BitVec.ofNat 32 (c + s.consumed.length + answer.count)) answer) := by
  rw [step] at h
  split at h
  · rename_i e hpc
    split at h
    · rename_i hcount
      rw [I.published hpc, I.submissions.distance I.shape.small] at hcount
      refine ⟨e, hpc, hcount, ?_⟩
      rw [orFault_map (consume_eq I.shape I.submissions.head I.submissions.cells hcount)] at h
      exact (Option.some.inj h).symm
    · cases h
  · cases h

private theorem good_call (I : Inv foreign k c d s waiting ready) {answer : Answer}
    (h : step foreign s (.call answer) = some r) : Good foreign k c d r := by
  obtain ⟨e, hpc, hcount, rfl⟩ := I.call_cases h
  exact ⟨_, _, I.keep_consumed hcount (answered_pc ..) (I.published hpc) _⟩

private theorem good_takeLoad (I : Inv foreign k c d s waiting ready)
    (h : step foreign s .takeLoad = some r) : Good foreign k c d r := by
  rw [step] at h
  split at h
  · rename_i hidle
    split at h
    · obtain rfl := Option.some.inj h
      refine ⟨_, _, I.keep_pc rfl rfl rfl rfl rfl rfl ?_⟩
      rw [AtPc, hidle]
      trivial
    · rename_i hne
      obtain rfl := Option.some.inj h
      refine ⟨_, _, I.keep_pc rfl rfl rfl rfl rfl rfl ⟨rfl, ?_⟩⟩
      intro hnil
      exact hne (I.head_eq_tail_iff.mpr hnil)
  · cases h

private theorem good_takeCopy (I : Inv foreign k c d s waiting ready)
    (h : step foreign s .takeCopy = some r) : Good foreign k c d r := by
  rw [step] at h
  split at h
  · rename_i head hpc
    have hat := I.atPc
    rw [AtPc, hpc] at hat
    obtain ⟨hhead, hready⟩ := hat
    obtain ⟨x, rest, rfl⟩ := List.exists_cons_of_ne_nil hready
    have hcell : s.ring.cqes[(head &&& s.ring.cqMask).toNat]? = some x := by
      rw [hhead, I.completions.head, I.shape.cqIndex]
      exact I.completions.cells.front
    rw [orFault_map hcell] at h
    obtain rfl := Option.some.inj h
    exact ⟨_, _, I.keep_pc rfl rfl rfl rfl rfl rfl ⟨hhead, rfl⟩⟩
  · cases h

private theorem good_takeStore (I : Inv foreign k c d s waiting ready)
    (h : step foreign s .takeStore = some r) : Good foreign k c d r := by
  rw [step] at h
  split at h
  · rename_i head x hpc
    have hat := I.atPc
    rw [AtPc, hpc] at hat
    obtain ⟨rfl, hfirst⟩ := hat
    obtain ⟨rest, rfl⟩ := List.head?_eq_some_iff.mp hfirst
    rw [orFault_map I.took_eq] at h
    obtain rfl := Option.some.inj h
    exact ⟨_, _, I.keep_taken _⟩
  · cases h

private theorem flying_own (I : Inv foreign k c d s waiting ready) (hmem : token ∈ s.flying) :
    foreign token = false := by
  have hconsumed : token ∈ s.consumed.map (·.userData) :=
    I.accounts.completed.mem_iff.mpr (List.mem_append_left _ hmem)
  obtain ⟨e, he, rfl⟩ := List.mem_map.mp hconsumed
  refine I.accounts.owned e ?_
  rw [I.submissions.prepared]
  exact List.mem_append_left _ he

private theorem good_post (I : Inv foreign k c d s waiting ready) {i : ℕ} {res : BitVec 32}
    (h : step foreign s (.post i res) = some r) : Good foreign k c d r := by
  rw [step] at h
  split at h
  · rename_i token htoken
    split at h
    · rename_i hroom
      rw [orFault_map (I.deliver_eq ⟨token, res⟩)] at h
      obtain rfl := Option.some.inj h
      refine ⟨_, _, I.keep_delivered hroom ?_⟩
      have hown : own foreign ⟨token, res⟩ = true := by
        rw [own, flying_own I (List.mem_of_getElem? htoken)]
        rfl
      obtain ⟨before, after, hsplit, herase, -⟩ := Lists.exists_around htoken
      rw [herase, List.filter_append, List.filter_singleton, hown, cond_true, List.map_append]
      refine I.accounts.completed.trans ?_
      rw [hsplit, ← List.append_assoc]
      refine List.Perm.trans ?_ List.perm_append_comm
      rw [List.map_singleton, List.singleton_append, List.append_assoc, List.append_assoc,
        List.cons_append]
      exact List.perm_middle
    · cases h
  · cases h

private theorem good_message (I : Inv foreign k c d s waiting ready)
    (h : step foreign s (.message x) = some r) : Good foreign k c d r := by
  rw [step] at h
  split at h
  · rename_i hmessage
    rw [orFault_map (I.deliver_eq x)] at h
    obtain rfl := Option.some.inj h
    refine ⟨_, _, I.keep_delivered hmessage.2 ?_⟩
    have hnot : own foreign x = false := by rw [own, hmessage.1]; rfl
    rw [List.filter_append, List.filter_singleton, hnot, cond_false, List.append_nil]
    exact I.accounts.completed
  · cases h

private theorem good_step {s t : Except Fault State} {a : Act} (hgood : Good foreign k c d s)
    (hallowed : Allowed foreign s a) (h : next foreign s a = some t) :
    Good foreign k c d t := by
  cases s with
  | error f => exact absurd hgood id
  | ok s =>
    obtain ⟨waiting, ready, I⟩ := hgood
    cases a with
    | get token p => exact good_get I hallowed h
    | enter wait timeoutMs =>
      rw [next, step] at h
      split at h
      · obtain rfl := Option.some.inj h
        exact ⟨_, _, I.keep_pc rfl rfl rfl rfl rfl rfl trivial⟩
      · cases h
    | publish => exact good_publish I h
    | call answer => exact good_call I h
    | takeLoad => exact good_takeLoad I h
    | takeCopy => exact good_takeCopy I h
    | takeStore => exact good_takeStore I h
    | post i res => exact good_post I h
    | message x => exact good_message I h
    | tick ms =>
      obtain rfl := Option.some.inj h
      exact ⟨_, _, I.keep_pc rfl rfl rfl rfl rfl rfl I.atPc⟩

private theorem exists_of_entriesAllowed {entries : BitVec 32} (h : entriesAllowed entries = true) :
    ∃ k ≤ 12, entries = BitVec.ofNat 32 (2 ^ k) := by
  simp only [entriesAllowed, Bool.not_eq_true', Bool.or_eq_false_iff, decide_eq_false_iff_not,
    bne_eq_false_iff_eq, BitVec.not_lt] at h
  obtain ⟨⟨hlow, hhigh⟩, hand⟩ := h
  have hone : 1 ≤ entries.toNat := BitVec.le_def.mp hlow
  have hmost : entries.toNat ≤ 4096 := BitVec.le_def.mp hhigh
  have hpow : entries.toNat &&& (entries.toNat - 1) = 0 := by
    have hnat := congrArg BitVec.toNat hand
    rwa [BitVec.toNat_and, BitVec.toNat_sub_of_le hlow] at hnat
  obtain ⟨k, hk⟩ := (Nat.and_sub_one_eq_zero_iff_isPowerOfTwo (by omega)).mp hpow
  refine ⟨k, ?_, ?_⟩
  · by_contra hlarge
    have hle : 2 ^ 13 ≤ 2 ^ k := Nat.pow_le_pow_right (by decide) (by omega)
    omega
  · rw [← hk, BitVec.ofNat_toNat, BitVec.setWidth_eq]

private theorem good_start (hk : k ≤ 12) (sq cq : BitVec 32) :
    Good foreign k sq.toNat cq.toNat (.ok (.start (setup (BitVec.ofNat 32 (2 ^ k)) sq cq))) := by
  have hle := two_pow_le hk
  have hpos := Nat.two_pow_pos k
  have hentries : (BitVec.ofNat 32 (2 ^ k)).toNat = 2 ^ k := by
    rw [BitVec.toNat_ofNat, Nat.mod_eq_of_lt (by omega)]
  have htwice : 2 * BitVec.ofNat 32 (2 ^ k) = BitVec.ofNat 32 (2 ^ (k + 1)) := by
    rw [Nat.pow_succ, Nat.mul_comm, BitVec.ofNat_mul]
    rfl
  have hpred : ∀ n, 1 ≤ n → BitVec.ofNat 32 n - 1 = BitVec.ofNat 32 (n - 1) := by
    intro n hn
    have hsucc : BitVec.ofNat 32 (n - 1) + 1 = BitVec.ofNat 32 n := by
      rw [ofNat_succ, Nat.sub_add_cancel hn]
    rw [← hsucc]
    exact BitVec.add_sub_cancel _ _
  have htwo : 1 ≤ 2 ^ (k + 1) := Nat.one_le_two_pow
  have hcqes : (BitVec.ofNat 32 (2 ^ (k + 1))).toNat = 2 ^ (k + 1) := by
    rw [BitVec.toNat_ofNat, Nat.mod_eq_of_lt (by omega)]
  have hcounter : ∀ n : BitVec 32, n = BitVec.ofNat 32 (n.toNat + 0) := by
    intro n
    rw [Nat.add_zero, BitVec.ofNat_toNat, BitVec.setWidth_eq]
  refine ⟨[], [], ⟨hk, hpred _ hpos, rfl, ?_, htwice⟩,
    ⟨rfl, ?_, ⟨0, le_rfl, le_rfl, ?_⟩, ?_, .nil ?_ _⟩, ⟨rfl, ?_, ?_, .nil ?_ _⟩,
    ⟨?_, List.Perm.refl _, rfl, Nat.two_pow_pos 64⟩, trivial⟩
  · show 2 * BitVec.ofNat 32 (2 ^ k) - 1 = _
    rw [htwice, hpred _ htwo]
  · exact hcounter sq
  · exact hcounter sq
  · exact hcounter sq
  · show (List.replicate _ _).length = _
    rw [List.length_replicate, hentries]
  · exact hcounter cq
  · exact hcounter cq
  · show (List.replicate _ _).length = _
    rw [List.length_replicate, htwice, hcqes]
  · intro e he
    cases he

private theorem Inv.submitted_all (I : Inv foreign k c d s waiting ready) {n : ℕ} {t : State}
    (h : step foreign s (.call (.took n)) = some (.ok t)) (hidle : t.pc = .idle) :
    t.prepared = t.consumed := by
  obtain ⟨e, hpc, hcount, ht⟩ := I.call_cases h
  obtain rfl := Except.ok.inj ht
  change n ≤ waiting.length at hcount
  have hle := two_pow_le I.shape.small
  have hfits := I.submissions.cells.fits
  have hdistance := I.submissions.distance I.shape.small
  rcases Nat.lt_or_eq_of_le hcount with hshort | hall
  · -- An answer that leaves entries behind sends the loop round again.
    have hless : BitVec.ofNat 32 n < (e.args s.ring s.now).submit := by
      show BitVec.ofNat 32 n < s.ring.sqLocal - s.ring.sqHead
      rw [BitVec.lt_def, hdistance, BitVec.toNat_ofNat, Nat.mod_eq_of_lt (by omega)]
      exact hshort
    have hne : BitVec.ofNat 32 (c + s.consumed.length + n) ≠ s.ring.sqLocal := by
      have hbehind := I.submissions.behind
      rw [I.submissions.entry, Ne, ofNat_eq_iff (by omega) (by omega)]
      omega
    have hagain : (s.called e waiting (BitVec.ofNat 32 (c + s.consumed.length + n))
        (.took n)).pc = .entering e := by
      show (answered e _ _ (.took n)).1 = _
      rw [answered, if_pos ⟨hless, hne⟩]
    exact absurd (hagain.symm.trans hidle) (by simp only [reduceCtorEq, not_false_eq_true])
  · show s.prepared = s.consumed ++ waiting.take n
    rw [hall, List.take_length]
    exact I.submissions.prepared

/-- A ring of any allowed size, its counters starting anywhere, is two bounded queues, however the
kernel's steps fall between the thread's. The entries prepared are what the kernel took, in order,
each once and as it was filled in, and then what waits, and `dn_ring_get` refuses exactly when all
entries wait. The completions taken are a beginning of those posted. Every operation taken by the
kernel flies or was completed once. `live` counts what is outstanding, no completion finds it at
zero, and the ring closes exactly when nothing is. Where `dn_ring_enter` returns because entries
were taken, none waits. -/
theorem rings_are_queues {foreign : BitVec 64 → Bool} {entries sq cq : BitVec 32} {r : Ring}
    (hopen : dnRingOpen entries sq cq = some r) {as : List Act} {t : Except Fault State}
    (hallowed : Meets (next foreign) (Allowed foreign) (.ok (.start r)) as)
    (h : run (next foreign) (.ok (.start r)) as = some t) :
    ∃ s waiting ready, t = .ok s ∧
      s.prepared = s.consumed ++ waiting ∧ waiting.length ≤ entries.toNat ∧
      (∀ token, dnRingGet s.ring token = some none ↔ waiting.length = entries.toNat) ∧
      s.posted = s.taken ++ ready ∧ ready.length ≤ 2 * entries.toNat ∧
      (s.consumed.map (·.userData)).Perm
        (s.flying ++ (s.posted.filter (own foreign)).map (·.userData)) ∧
      s.ring.live.toNat =
        waiting.length + s.flying.length + ready.countP (own foreign) ∧
      (closes s.ring = true ↔
        waiting = [] ∧ s.flying = [] ∧ ready.countP (own foreign) = 0) ∧
      ∀ n s', next foreign (.ok s) (.call (.took n)) = some (.ok s') → s'.pc = .idle →
        s'.prepared = s'.consumed := by
  rw [dnRingOpen] at hopen
  split at hopen
  · rename_i hentries
    obtain rfl := Option.some.inj hopen
    obtain ⟨k, hk, rfl⟩ := exists_of_entriesAllowed hentries
    have hle := two_pow_le hk
    have htoNat : (BitVec.ofNat 32 (2 ^ k)).toNat = 2 ^ k := by
      rw [BitVec.toNat_ofNat, Nat.mod_eq_of_lt (by omega)]
    have hstart : Good foreign k sq.toNat cq.toNat
        (.ok (.start (setup (BitVec.ofNat 32 (2 ^ k)) sq cq))) := good_start hk sq cq
    have hgood := invariant_of_meets good_step hstart hallowed h
    cases t with
    | error f => exact absurd hgood id
    | ok s =>
      obtain ⟨waiting, ready, I⟩ := hgood
      have hlive : s.ring.live.toNat =
          waiting.length + s.flying.length + ready.countP (own foreign) := by
        rw [I.accounts.live, BitVec.toNat_ofNat, Nat.mod_eq_of_lt I.accounts.counted,
          I.outstanding_eq]
      refine ⟨s, waiting, ready, rfl, I.submissions.prepared, ?_, ?_, I.completions.posted, ?_,
        I.accounts.completed, hlive, ?_, ?_⟩
      · rw [htoNat]
        exact I.submissions.cells.fits
      · intro token
        rw [htoNat]
        exact I.get_full_iff token
      · have hfits := I.completions.cells.fits
        rw [Nat.pow_succ] at hfits
        omega
      · have hzero : (0 : BitVec 64).toNat = 0 := rfl
        rw [closes, decide_eq_true_iff, ← BitVec.toNat_inj, hlive, hzero,
          ← List.length_eq_zero_iff, ← List.length_eq_zero_iff]
        omega
      · intro n s' hstep hidle
        exact I.submitted_all hstep hidle
  · cases hopen

/-- Two entries, submitted one by one across the end of the counters, the second call being
interrupted; a message arrives while a completion is taken. -/
def acrossTheEnd : List Act :=
  [.get 7 (.recv 3 0x1000 64), .get 9 (.send 4 0x2000 5 0), .get 11 (.cancelFd 3), .enter 1 (-1),
    .publish, .call (.took 1), .publish, .call (.failed .eintr), .publish, .call (.took 1),
    .post 1 5, .takeLoad, .message ⟨0, 8⟩, .takeCopy, .takeStore]

theorem rings_are_queues_acrossTheEnd :
    ∃ s waiting ready,
      run (next (· == 0)) (.ok (.start (setup 2 (-1) 5))) acrossTheEnd = some (.ok s) ∧
        s.prepared = s.consumed ++ waiting ∧ waiting.length ≤ 2 ∧
        s.posted = s.taken ++ ready := by
  have hallowed : Meets (next (· == 0)) (Allowed (· == 0)) (.ok (.start (setup 2 (-1) 5)))
      acrossTheEnd := by decide
  have hruns : (run (next (· == 0)) (.ok (.start (setup 2 (-1) 5))) acrossTheEnd).isSome := by
    decide
  have hopen : dnRingOpen 2 (-1) 5 = some (setup 2 (-1) 5) := rfl
  obtain ⟨t, h⟩ := Option.isSome_iff_exists.mp hruns
  obtain ⟨s, waiting, ready, rfl, hprepared, hfits, -, hposted, -⟩ :=
    rings_are_queues hopen hallowed h
  exact ⟨s, waiting, ready, h, hprepared, hfits, hposted⟩

end Queues

end DragonsNet.Native.Uring
