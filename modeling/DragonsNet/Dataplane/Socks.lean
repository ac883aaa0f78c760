/- GID: DragonsNet/Dataplane/Socks
   source: migration/dataplane/host/src/socks.rs
   digest: The client side of a SOCKS5 handshake, driven by a decision that crosses a byte seam. -/

import Mathlib.Algebra.Order.BigOperators.Group.List
import Mathlib.Algebra.Order.Ring.Nat
import Mathlib.Tactic.Common

set_option autoImplicit false

namespace DragonsNet.Dataplane.Socks

abbrev Bytes := List UInt8

inductive Act where
  | wait
  | sendAuth
  | sendConnect
  | tunnelUp
  | closeErr
  deriving DecidableEq, Repr

/-- A code that is not known is taken for a wait. -/
def Act.ofCode (code : UInt8) : Act :=
  if code = 1 then sendAuth
  else if code = 2 then sendConnect
  else if code = 3 then tunnelUp
  else if code = 4 then closeErr
  else wait

structure Verdict where
  nextPhase : UInt8
  action : Act
  consumed : ℕ
  deriving DecidableEq, Repr

/-- The decision on the octets a phase has got so far. An output that is too short rejects. -/
def socksStep (seam : Bytes → Bytes) (phase : UInt8) (hasAuth : Bool) (serverBuf : Bytes) : Verdict :=
  match seam (phase :: (if hasAuth then 1 else 0) :: serverBuf) with
  | next :: code :: high :: low :: _ => ⟨next, .ofCode code, high.toNat * 256 + low.toNat⟩
  | _ => ⟨4, .closeErr, 0⟩

inductive Target where
  | v4 (a b c d : UInt8) (port : UInt16)
  | domain (host : Bytes) (port : UInt16)
  deriving DecidableEq, Repr

def toBeBytes (port : UInt16) : Bytes := [UInt8.ofNat (port.toNat / 256), UInt8.ofNat port.toNat]

def Target.connectRequest : Target → Bytes
  | v4 a b c d port => [5, 1, 0, 1, a, b, c, d] ++ toBeBytes port
  | domain host port =>
    [5, 1, 0, 3, UInt8.ofNat (min host.length 255)] ++ host.take 255 ++ toBeBytes port

structure Creds where
  user : Bytes
  pass : Bytes
  deriving DecidableEq, Repr

def Creds.authMessage (c : Creds) : Bytes :=
  [1, UInt8.ofNat (min c.user.length 255)] ++ c.user.take 255 ++
    [UInt8.ofNat (min c.pass.length 255)] ++ c.pass.take 255

inductive SocksError where
  | rejected
  | budget
  | io
  deriving DecidableEq, Repr

def maxHandshakeBytes : ℕ := 4096

def maxSteps : ℕ := 64

def readChunk : ℕ := 512

/-- What a call has beside the stream: the decision, what it is to say, whether the timeout can be
set, and which of its writes succeed. -/
structure Client where
  seam : Bytes → Bytes
  target : Target
  creds : Option Creds
  timeoutSet : Bool
  writes : ℕ → Bool

def Client.step (c : Client) (phase : UInt8) (buf : Bytes) : Verdict :=
  socksStep c.seam phase c.creds.isSome buf

def Client.greeting (c : Client) : Bytes := if c.creds.isSome then [5, 2, 0, 2] else [5, 1, 0]

def Client.message (c : Client) : Act → Bytes
  | .sendAuth => (c.creds.map Creds.authMessage).getD []
  | _ => c.target.connectRequest

/-- How a call ends, with what it has written and the reads of the stream it has not made. -/
structure Outcome where
  result : Except SocksError Unit
  sent : List Bytes
  unread : List Bytes

/-- A read gives some octets; at the end of the stream it gives none. -/
def recv : List Bytes → Option (Bytes × List Bytes)
  | (b :: chunk) :: unread => some (b :: chunk, unread)
  | _ => none

/-- The loop of `connect`. Each entry of `unread` is what one read gives; after the last there is
no more to read. What is in the buffer when the tunnel is up is dropped with it. -/
def drive (c : Client) : ℕ → UInt8 → Bytes → List Bytes → List Bytes → Outcome
  | 0, _, _, sent, unread => ⟨.error .budget, sent, unread⟩
  | k + 1, phase, buf, sent, unread =>
    match (c.step phase buf).action with
    | .tunnelUp => ⟨.ok (), sent, unread⟩
    | .closeErr => ⟨.error .rejected, sent, unread⟩
    | .wait =>
      if maxHandshakeBytes ≤ buf.length then ⟨.error .budget, sent, unread⟩
      else
        match recv unread with
        | none => ⟨.error .io, sent, unread.tail⟩
        | some (chunk, unread) => drive c k phase (buf ++ chunk) sent unread
    | act =>
      if c.writes sent.length then
        drive c k (c.step phase buf).nextPhase
          (buf.drop (min (c.step phase buf).consumed buf.length)) (sent ++ [c.message act]) unread
      else ⟨.error .io, sent, unread⟩

def connect (c : Client) (cut : List Bytes) : Outcome :=
  if c.timeoutSet then
    if c.writes 0 then drive c maxSteps 0 [] [c.greeting] cut else ⟨.error .io, [], cut⟩
  else ⟨.error .io, [], cut⟩

def Cuts (cut : List Bytes) (stream : Bytes) : Prop :=
  cut.flatten = stream ∧ ∀ chunk ∈ cut, 1 ≤ chunk.length ∧ chunk.length ≤ readChunk

def Verdict.decides (v : Verdict) : Bool := v.action != .wait

def Verdict.sends (v : Verdict) : Bool := v.action == .sendAuth || v.action == .sendConnect

/-- The reply a phase waits for is the shortest beginning of the stream it decides on. -/
def replyLength (c : Client) (phase : UInt8) (stream : Bytes) : Option ℕ :=
  (List.range (stream.length + 1)).find? fun n => (c.step phase (stream.take n)).decides

/-- A decision is made on the octets of the reply alone, and consumes them. -/
structure Framed (c : Client) : Prop where
  settles : ∀ phase buf more, (c.step phase buf).decides = true →
    c.step phase (buf ++ more) = c.step phase buf
  consumes : ∀ phase stream n, replyLength c phase stream = some n →
    (c.step phase (stream.take n)).sends = true → (c.step phase (stream.take n)).consumed = n

/-- How a handshake goes on a stream, however it is cut: its end, the messages of it, the turns of
the loop that decide something, and the octets of the stream that have to be read. -/
structure Course where
  result : Except SocksError Unit
  said : List Bytes
  turns : ℕ
  need : ℕ

def course (c : Client) : ℕ → UInt8 → ℕ → Bytes → Course
  | 0, _, _, _ => ⟨.error .budget, [], 0, 0⟩
  | k + 1, phase, written, stream =>
    match replyLength c phase stream with
    | none =>
      -- the stream ends within a reply, or goes on too long without one
      if maxHandshakeBytes ≤ stream.length then ⟨.error .budget, [], 1, maxHandshakeBytes⟩
      else ⟨.error .io, [], 0, stream.length + 1⟩
    | some n =>
      match (c.step phase (stream.take n)).action with
      | .tunnelUp => ⟨.ok (), [], 1, n⟩
      | .closeErr => ⟨.error .rejected, [], 1, n⟩
      | act =>
        if c.writes written then
          let later := course c k (c.step phase (stream.take n)).nextPhase (written + 1) (stream.drop n)
          ⟨later.result, c.message act :: later.said, later.turns + 1, n + later.need⟩
        else ⟨.error .io, [], 1, n⟩

def replies (c : Client) : ℕ → UInt8 → Bytes → List ℕ
  | 0, _, _ => []
  | k + 1, phase, stream =>
    match replyLength c phase stream with
    | none => []
    | some n =>
      if (c.step phase (stream.take n)).sends then
        n :: replies c k (c.step phase (stream.take n)).nextPhase (stream.drop n)
      else [n]

/-- The reads it takes to get so many octets, the one that finds the end among them. -/
def reads : ℕ → List Bytes → ℕ
  | 0, _ => 0
  | _ + 1, [] => 1
  | need + 1, chunk :: cut => reads (need + 1 - chunk.length) cut + 1

/-- How the loop ends with `k` turns left: as the course says where they are enough for its
decisions and reads, and over budget otherwise. -/
def Follows (o : Outcome) (g : Course) (k r : ℕ) (sent unread : List Bytes) : Prop :=
  (g.turns + r ≤ k → o = ⟨g.result, sent ++ g.said, unread.drop r⟩) ∧
    (k < g.turns + r → o.result = .error .budget)

section Courses

variable {o : Outcome} {g : Course} {k r : ℕ} {sent unread : List Bytes}

theorem Follows.read (h : Follows o g k r sent unread) (chunk : Bytes) :
    Follows o g (k + 1) (r + 1) sent (chunk :: unread) := by
  refine ⟨fun henough => ?_, fun hless => h.2 (by omega)⟩
  rw [List.drop_succ_cons]
  exact h.1 (by omega)

theorem Follows.say {message : Bytes} {n : ℕ} (h : Follows o g k r (sent ++ [message]) unread) :
    Follows o ⟨g.result, message :: g.said, g.turns + 1, n⟩ (k + 1) r sent unread := by
  refine ⟨fun henough => ?_, fun hless => h.2 ?_⟩
  · dsimp only at henough
    rw [h.1 (by omega), List.append_assoc, List.singleton_append]
  · dsimp only at hless
    omega

theorem Follows.last {result : Except SocksError Unit} {n : ℕ} :
    Follows ⟨result, sent, unread⟩ ⟨result, [], 1, n⟩ (k + 1) 0 sent unread := by
  refine ⟨fun _ => ?_, fun hless => ?_⟩
  · rw [List.append_nil, List.drop_zero]
  · dsimp only at hless
    omega

@[simp] theorem reads_zero (cut : List Bytes) : reads 0 cut = 0 := by
  cases cut <;> rfl

private theorem reads_cons {need : ℕ} (hneed : 0 < need) (chunk : Bytes) (cut : List Bytes) :
    reads need (chunk :: cut) = reads (need - chunk.length) cut + 1 := by
  cases need with
  | zero => cases hneed
  | succ need => rw [reads]

private theorem reads_pos {need : ℕ} (hneed : 0 < need) (cut : List Bytes) : 0 < reads need cut :=
    by
  cases cut with
  | nil =>
    cases need with
    | zero => cases hneed
    | succ need => exact Nat.one_pos
  | cons chunk cut =>
    rw [reads_cons hneed]
    exact Nat.succ_pos _

end Courses

section Replies

variable {c : Client} {phase : UInt8} {stream : Bytes} {n : ℕ} {buf rest : Bytes}

private theorem replyLength_some (h : replyLength c phase stream = some n) :
    n ≤ stream.length ∧ (c.step phase (stream.take n)).decides = true ∧
      ∀ k < n, (c.step phase (stream.take k)).decides = false := by
  rw [replyLength, List.find?_range_eq_some] at h
  obtain ⟨hdecides, hmem, hshorter⟩ := h
  refine ⟨Nat.le_of_lt_succ (List.mem_range.mp hmem), hdecides, ?_⟩
  intro k hk
  have hk' := hshorter k hk
  rwa [Bool.not_eq_true'] at hk'

private theorem replyLength_none (h : replyLength c phase stream = none) (k : ℕ)
    (hk : k ≤ stream.length) :
    (c.step phase (stream.take k)).decides = false := by
  rw [replyLength, List.find?_eq_none] at h
  have hk' := h k (List.mem_range.mpr (Nat.lt_succ_of_le hk))
  exact eq_false_of_ne_true hk'

private theorem wait_of_short (hstream : buf ++ rest = stream)
    (h : ∀ n, replyLength c phase stream = some n → buf.length < n) :
    (c.step phase buf).action = .wait := by
  have htake : buf = stream.take buf.length := by rw [← hstream, List.take_left]
  have hle : buf.length ≤ stream.length := by
    rw [← hstream, List.length_append]
    exact Nat.le_add_right _ _
  have hwaits : (c.step phase (stream.take buf.length)).decides = false := by
    cases hreply : replyLength c phase stream with
    | none => exact replyLength_none hreply _ hle
    | some n => exact (replyLength_some hreply).2.2 _ (h n hreply)
  rw [← htake] at hwaits
  simpa [Verdict.decides] using hwaits

private theorem wait_of_none (hstream : buf ++ rest = stream)
    (h : replyLength c phase stream = none) :
    (c.step phase buf).action = .wait := by
  refine wait_of_short hstream ?_
  intro n hn
  rw [h] at hn
  cases hn

private theorem Framed.step_eq (hc : Framed c) (hstream : buf ++ rest = stream)
    (hreply : replyLength c phase stream = some n) (hn : n ≤ buf.length) :
    c.step phase buf = c.step phase (stream.take n) := by
  have htake : stream.take n = buf.take n := by rw [← hstream, List.take_append_of_le_length hn]
  have hdecides := (replyLength_some hreply).2.1
  have hsettles := hc.settles phase (stream.take n) (buf.drop n) hdecides
  rwa [htake, List.take_append_drop, ← htake] at hsettles

end Replies

section Loop

variable {c : Client} {k : ℕ} {phase : UInt8} {buf : Bytes} {sent unread : List Bytes}

private theorem drive_wait (h : (c.step phase buf).action = .wait)
    (hroom : buf.length < maxHandshakeBytes)
    {chunk : Bytes} (hchunk : chunk ≠ []) :
    drive c (k + 1) phase buf sent (chunk :: unread) = drive c k phase (buf ++ chunk) sent unread := by
  cases chunk with
  | nil => exact absurd rfl hchunk
  | cons b chunk =>
    rw [drive.eq_def]
    dsimp only
    rw [h]
    exact if_neg (Nat.not_le.mpr hroom)

private theorem drive_send (h : (c.step phase buf).sends = true) :
    drive c (k + 1) phase buf sent unread =
      if c.writes sent.length then
        drive c k (c.step phase buf).nextPhase
          (buf.drop (min (c.step phase buf).consumed buf.length))
          (sent ++ [c.message (c.step phase buf).action]) unread
      else ⟨.error .io, sent, unread⟩ := by
  rw [drive.eq_def]
  dsimp only
  cases hact : (c.step phase buf).action with
  | sendAuth => rfl
  | sendConnect => rfl
  | _ => simp [Verdict.sends, hact] at h

private theorem course_send {stream : Bytes} {n written : ℕ}
    (hreply : replyLength c phase stream = some n)
    (h : (c.step phase (stream.take n)).sends = true) :
    course c (k + 1) phase written stream =
      if c.writes written then
        ⟨(course c k (c.step phase (stream.take n)).nextPhase (written + 1) (stream.drop n)).result,
          c.message (c.step phase (stream.take n)).action ::
            (course c k (c.step phase (stream.take n)).nextPhase (written + 1) (stream.drop n)).said,
          (course c k (c.step phase (stream.take n)).nextPhase (written + 1) (stream.drop n)).turns + 1,
          n + (course c k (c.step phase (stream.take n)).nextPhase (written + 1) (stream.drop n)).need⟩
      else ⟨.error .io, [], 1, n⟩ := by
  rw [course, hreply]
  dsimp only
  cases hact : (c.step phase (stream.take n)).action with
  | sendAuth => rfl
  | sendConnect => rfl
  | _ => simp [Verdict.sends, hact] at h

private theorem drive_full (h : (c.step phase buf).action = .wait)
    (hfull : maxHandshakeBytes ≤ buf.length) :
    drive c (k + 1) phase buf sent unread = ⟨.error .budget, sent, unread⟩ := by
  rw [drive.eq_def]
  dsimp only
  rw [h]
  exact if_pos hfull

private theorem drive_end (h : (c.step phase buf).action = .wait)
    (hroom : buf.length < maxHandshakeBytes) :
    drive c (k + 1) phase buf sent [] = ⟨.error .io, sent, []⟩ := by
  rw [drive.eq_def]
  dsimp only
  rw [h]
  exact if_neg (Nat.not_le.mpr hroom)

section Course

variable {fuel written n : ℕ} {stream : Bytes}

private theorem course_none (h : replyLength c phase stream = none) :
    course c (fuel + 1) phase written stream =
      if maxHandshakeBytes ≤ stream.length then ⟨.error .budget, [], 1, maxHandshakeBytes⟩
      else ⟨.error .io, [], 0, stream.length + 1⟩ := by
  rw [course, h]

private theorem course_up (hreply : replyLength c phase stream = some n)
    (h : (c.step phase (stream.take n)).action = .tunnelUp) :
    course c (fuel + 1) phase written stream = ⟨.ok (), [], 1, n⟩ := by
  rw [course, hreply]
  dsimp only
  rw [h]

private theorem course_close (hreply : replyLength c phase stream = some n)
    (h : (c.step phase (stream.take n)).action = .closeErr) :
    course c (fuel + 1) phase written stream = ⟨.error .rejected, [], 1, n⟩ := by
  rw [course, hreply]
  dsimp only
  rw [h]

private theorem decides_cases {v : Verdict} (h : v.decides = true) :
    v.action = .tunnelUp ∨ v.action = .closeErr ∨ v.sends = true := by
  cases hact : v.action with
  | wait => simp [Verdict.decides, hact] at h
  | tunnelUp => exact .inl rfl
  | closeErr => exact .inr (.inl rfl)
  | sendAuth | sendConnect => simp [Verdict.sends, hact]

private theorem mem_replies (hreply : replyLength c phase stream = some n) :
    n ∈ replies c (fuel + 1) phase stream := by
  rw [replies, hreply]
  dsimp only
  split
  · exact List.mem_cons_self
  · exact List.mem_singleton_self n

private theorem replies_send (hreply : replyLength c phase stream = some n)
    (h : (c.step phase (stream.take n)).sends = true) :
    replies c (fuel + 1) phase stream =
      n :: replies c fuel (c.step phase (stream.take n)).nextPhase (stream.drop n) := by
  rw [replies, hreply]
  exact if_pos h

private theorem le_need (fuel written : ℕ) (hreply : replyLength c phase stream = some n) :
    n ≤ (course c (fuel + 1) phase written stream).need ∧
      0 < (course c (fuel + 1) phase written stream).turns := by
  rcases decides_cases (replyLength_some hreply).2.1 with hup | hclose | hsends
  · rw [course_up hreply hup]
    exact ⟨Nat.le_refl n, Nat.one_pos⟩
  · rw [course_close hreply hclose]
    exact ⟨Nat.le_refl n, Nat.one_pos⟩
  · rw [course_send hreply hsends]
    split
    · exact ⟨Nat.le_add_right n _, Nat.succ_pos _⟩
    · exact ⟨Nat.le_refl n, Nat.one_pos⟩

private theorem turns_pos_or_lt_need (c : Client) (fuel : ℕ) (phase : UInt8) (written : ℕ)
    (stream : Bytes) :
    0 < (course c (fuel + 1) phase written stream).turns ∨
      stream.length < (course c (fuel + 1) phase written stream).need := by
  cases hreply : replyLength c phase stream with
  | none =>
    rw [course_none hreply]
    split
    · exact .inl Nat.one_pos
    · exact .inr (Nat.lt_succ_self _)
  | some n => exact .inl (le_need fuel written hreply).2

end Course

private theorem drive_up (h : (c.step phase buf).action = .tunnelUp) :
    drive c (k + 1) phase buf sent unread = ⟨.ok (), sent, unread⟩ := by
  rw [drive.eq_def]
  dsimp only
  rw [h]

private theorem drive_close (h : (c.step phase buf).action = .closeErr) :
    drive c (k + 1) phase buf sent unread = ⟨.error .rejected, sent, unread⟩ := by
  rw [drive.eq_def]
  dsimp only
  rw [h]

/-- The loop follows the course of the stream it has in its buffer and in the reads to come. -/
abbrev Keeps (c : Client) (k fuel : ℕ) (phase : UInt8) (buf : Bytes) (sent unread : List Bytes)
    (stream : Bytes) : Prop :=
  Follows (drive c k phase buf sent unread) (course c fuel phase sent.length stream) k
    (reads ((course c fuel phase sent.length stream).need - buf.length) unread) sent unread

section Turns

variable {fuel n : ℕ} {stream : Bytes}

private theorem length_le_stream (hstream : buf ++ unread.flatten = stream) : buf.length ≤
    stream.length := by
  rw [← hstream, List.length_append]
  exact Nat.le_add_right _ _

theorem keeps_zero (fuel : ℕ) (hstream : buf ++ unread.flatten = stream) :
    Keeps c 0 fuel phase buf sent unread stream := by
  refine ⟨fun henough => ?_, fun _ => rfl⟩
  cases fuel with
  | zero =>
    show _ = (⟨_, sent ++ [], unread.drop (reads (0 - buf.length) unread)⟩ : Outcome)
    rw [List.append_nil, Nat.zero_sub, reads_zero]
    rfl
  | succ fuel =>
    rcases turns_pos_or_lt_need c fuel phase sent.length stream with hturns | hneed
    · omega
    · have hmore := Nat.sub_pos_of_lt (Nat.lt_of_le_of_lt (length_le_stream hstream) hneed)
      have hreads := reads_pos hmore unread
      omega

theorem keeps_read (hwait : (c.step phase buf).action = .wait)
    (hroom : buf.length < maxHandshakeBytes)
    (hneed : buf.length < (course c fuel phase sent.length stream).need) {chunk : Bytes}
    (hchunk : chunk ≠ []) (h : Keeps c k fuel phase (buf ++ chunk) sent unread stream) :
    Keeps c (k + 1) fuel phase buf sent (chunk :: unread) stream := by
  have hmore := Nat.sub_pos_of_lt hneed
  unfold Keeps
  rw [drive_wait hwait hroom hchunk, reads_cons hmore, Nat.sub_sub, ← List.length_append]
  exact h.read chunk

theorem keeps_starved (hreply : replyLength c phase stream = none)
    (hstream : buf ++ unread.flatten = stream)
    (hend : maxHandshakeBytes ≤ buf.length ∨ unread = []) :
    Keeps c (k + 1) (fuel + 1) phase buf sent unread stream := by
  have hwait := wait_of_none hstream hreply
  unfold Keeps
  by_cases hfull : maxHandshakeBytes ≤ buf.length
  · rw [drive_full hwait hfull, course_none hreply,
      if_pos (Nat.le_trans hfull (length_le_stream hstream)), Nat.sub_eq_zero_of_le hfull, reads_zero]
    exact Follows.last
  · obtain rfl := hend.resolve_left hfull
    rw [List.flatten_nil, List.append_nil] at hstream
    rw [drive_end hwait (Nat.lt_of_not_le hfull), course_none hreply, ← hstream, if_neg hfull,
      Nat.add_sub_cancel_left]
    refine ⟨fun _ => ?_, fun hless => ?_⟩
    · rw [List.append_nil]
      rfl
    · have hone : k + 1 < 0 + 1 := hless
      omega

theorem keeps_decided (hc : Framed c) (hreply : replyLength c phase stream = some n)
    (hstream : buf ++ unread.flatten = stream) (hn : n ≤ buf.length)
    (hlater : (c.step phase (stream.take n)).sends = true →
      Keeps c k fuel (c.step phase (stream.take n)).nextPhase (buf.drop n)
        (sent ++ [c.message (c.step phase (stream.take n)).action]) unread (stream.drop n)) :
    Keeps c (k + 1) (fuel + 1) phase buf sent unread stream := by
  have hstep := hc.step_eq hstream hreply hn
  unfold Keeps
  rcases decides_cases (replyLength_some hreply).2.1 with hup | hclose | hsends
  · rw [drive_up (hstep ▸ hup), course_up hreply hup, Nat.sub_eq_zero_of_le hn, reads_zero]
    exact Follows.last
  · rw [drive_close (hstep ▸ hclose), course_close hreply hclose, Nat.sub_eq_zero_of_le hn,
      reads_zero]
    exact Follows.last
  · have hconsumed := hc.consumes phase stream n hreply hsends
    rw [drive_send (hstep ▸ hsends), course_send hreply hsends, hstep, hconsumed,
      Nat.min_eq_left hn]
    split
    case isTrue =>
      have hfollows := hlater hsends
      unfold Keeps at hfollows
      rw [List.length_append, List.length_singleton, List.length_drop] at hfollows
      have hleft : ∀ need, n + need - buf.length = need - (buf.length - n) := by omega
      rw [hleft]
      exact hfollows.say
    case isFalse =>
      rw [Nat.sub_eq_zero_of_le hn, reads_zero]
      exact Follows.last

end Turns

theorem Framed.keeps (hc : Framed c) (fuel : ℕ) (hk : k ≤ fuel) {stream : Bytes}
    (hstream : buf ++ unread.flatten = stream) (hchunks : ∀ chunk ∈ unread, chunk ≠ [])
    (hreplies : ∀ n ∈ replies c fuel phase stream, n ≤ maxHandshakeBytes) :
    Keeps c k fuel phase buf sent unread stream := by
  induction k generalizing fuel phase buf sent unread stream with
  | zero => exact keeps_zero fuel hstream
  | succ k ih =>
    obtain ⟨fuel, rfl⟩ : ∃ f, fuel = f + 1 := ⟨fuel - 1, by omega⟩
    have hle := length_le_stream hstream
    have hread : (c.step phase buf).action = .wait → buf.length < maxHandshakeBytes →
        buf.length < (course c (fuel + 1) phase sent.length stream).need → unread ≠ [] →
        Keeps c (k + 1) (fuel + 1) phase buf sent unread stream := by
      intro hwait hroom hneed hmore
      obtain ⟨chunk, unread, rfl⟩ := List.exists_cons_of_ne_nil hmore
      refine keeps_read hwait hroom hneed (hchunks chunk List.mem_cons_self) ?_
      refine ih (fuel + 1) (by omega) ?_ ?_ hreplies
      · rw [List.append_assoc, ← List.flatten_cons]
        exact hstream
      · intro other hother
        exact hchunks other (List.mem_cons_of_mem chunk hother)
    cases hreply : replyLength c phase stream with
    | none =>
      by_cases hend : maxHandshakeBytes ≤ buf.length ∨ unread = []
      · exact keeps_starved hreply hstream hend
      · rw [not_or] at hend
        have hroom := Nat.lt_of_not_le hend.1
        refine hread (wait_of_none hstream hreply) hroom ?_ hend.2
        rw [course_none hreply]
        split
        · exact hroom
        · exact Nat.lt_succ_of_le hle
    | some n =>
      by_cases hn : n ≤ buf.length
      · refine keeps_decided hc hreply hstream hn ?_
        intro hsends
        refine ih fuel (by omega) ?_ hchunks ?_
        · rw [← hstream, List.drop_append_of_le_length hn]
        · intro m hm
          refine hreplies m ?_
          rw [replies_send hreply hsends]
          exact List.mem_cons_of_mem n hm
      · have hshort := Nat.lt_of_not_le hn
        have hbound : n ≤ maxHandshakeBytes := hreplies n (mem_replies hreply)
        refine hread (wait_of_short hstream ?_) (by omega) ?_ ?_
        · intro m hm
          rw [hreply] at hm
          cases hm
          exact hshort
        · exact Nat.lt_of_lt_of_le hshort (le_need fuel sent.length hreply).1
        · rintro rfl
          rw [List.flatten_nil, List.append_nil] at hstream
          rw [hstream] at hn
          exact hn (replyLength_some hreply).1

end Loop

/-- The course of a whole handshake, the greeting being written. -/
def handshake (c : Client) (stream : Bytes) : Course := course c maxSteps 0 1 stream

def replyOctets (c : Client) (stream : Bytes) : ℕ := (replies c maxSteps 0 stream).sum

/-- No read runs past the first `n` octets. -/
def Aligned (cut : List Bytes) (n : ℕ) : Prop := (cut.take (reads n cut)).flatten.length = n

variable {phase : UInt8} {n : ℕ} {buf : Bytes}

private theorem need_of_ok {c : Client} (fuel : ℕ) {written : ℕ} {stream : Bytes}
    (h : (course c fuel phase written stream).result = .ok ()) :
    (course c fuel phase written stream).need = (replies c fuel phase stream).sum ∧
      (course c fuel phase written stream).need ≤ stream.length := by
  induction fuel generalizing phase written stream with
  | zero => cases h
  | succ fuel ih =>
    cases hreply : replyLength c phase stream with
    | none =>
      rw [course_none hreply] at h
      split at h <;> cases h
    | some n =>
      have hle := (replyLength_some hreply).1
      rcases decides_cases (replyLength_some hreply).2.1 with hup | hclose | hsends
      · have hstays : (c.step phase (stream.take n)).sends = false := by
          rw [Verdict.sends, hup]
          rfl
        rw [course_up hreply hup, replies, hreply]
        refine ⟨?_, hle⟩
        show n = (if _ then _ else _ : List ℕ).sum
        rw [if_neg (by rw [hstays]; exact Bool.false_ne_true), List.sum_singleton]
      · rw [course_close hreply hclose] at h
        cases h
      · rw [course_send hreply hsends] at h ⊢
        split at h
        case isTrue hwrites =>
          obtain ⟨hsum, hrest⟩ := ih h
          rw [List.length_drop] at hrest
          rw [if_pos hwrites, replies_send hreply hsends, List.sum_cons, ← hsum]
          dsimp only
          exact ⟨rfl, by omega⟩
        case isFalse => cases h

/-- What the reads leave is what stands behind the first `n` octets exactly where none of them runs
past these. -/
theorem flatten_drop_iff_aligned {cut : List Bytes} (hn : n ≤ cut.flatten.length) :
    (cut.drop (reads n cut)).flatten = cut.flatten.drop n ↔ Aligned cut n := by
  have hsplit : cut.flatten = (cut.take (reads n cut)).flatten ++ (cut.drop (reads n cut)).flatten := by
    rw [← List.flatten_append, List.take_append_drop]
  constructor
  · intro h
    have hlength := congrArg List.length hsplit
    rw [List.length_append, h, List.length_drop] at hlength
    show (cut.take (reads n cut)).flatten.length = n
    omega
  · intro h
    have htake : (cut.take (reads n cut)).flatten.length = n := h
    conv_rhs => rw [hsplit, List.drop_left' htake]

private theorem connect_follows {c : Client} (hc : Framed c) (hset : c.timeoutSet = true)
    (hgreets : c.writes 0 = true) {stream : Bytes} (hbytes : replyOctets c stream ≤ maxHandshakeBytes)
    {cut : List Bytes} (hcut : Cuts cut stream) :
    Follows (connect c cut) (handshake c stream) maxSteps (reads (handshake c stream).need cut)
      [c.greeting] cut := by
  rw [connect, if_pos hset, if_pos hgreets]
  refine hc.keeps maxSteps (Nat.le_refl _) hcut.1 ?_ ?_
  · intro chunk hchunk hnil
    have hlength := (hcut.2 chunk hchunk).1
    rw [hnil] at hlength
    cases hlength
  · intro n hn
    exact Nat.le_trans (List.le_sum_of_mem hn) hbytes

/-- The timeout can be set and the greeting written, so that the loop is entered. -/
def Greeted (c : Client) : Prop := c.timeoutSet = true ∧ c.writes 0 = true

/-- The turns of the loop are enough for the decisions and for the reads of the handshake. -/
def InSteps (c : Client) (stream : Bytes) (cut : List Bytes) : Prop :=
  (handshake c stream).turns + reads (handshake c stream).need cut ≤ maxSteps

section Connect

variable {c : Client} {stream : Bytes} {cut : List Bytes}

private theorem connect_inSteps (hc : Framed c) (hgreeted : Greeted c)
    (hbytes : replyOctets c stream ≤ maxHandshakeBytes) (hcut : Cuts cut stream)
    (hsteps : InSteps c stream cut) :
    connect c cut = ⟨(handshake c stream).result, [c.greeting] ++ (handshake c stream).said,
      cut.drop (reads (handshake c stream).need cut)⟩ :=
  (connect_follows hc hgreeted.1 hgreeted.2 hbytes hcut).1 hsteps

private theorem connect_overSteps (hc : Framed c) (hgreeted : Greeted c)
    (hbytes : replyOctets c stream ≤ maxHandshakeBytes) (hcut : Cuts cut stream)
    (hsteps : ¬ InSteps c stream cut) : (connect c cut).result = .error .budget :=
  (connect_follows hc hgreeted.1 hgreeted.2 hbytes hcut).2 (Nat.lt_of_not_le hsteps)

private theorem connect_ungreeted (hgreeted : ¬ Greeted c) (cut : List Bytes) :
    connect c cut = ⟨.error .io, [], cut⟩ := by
  rw [connect]
  split_ifs with hset hwrites
  · exact absurd ⟨hset, hwrites⟩ hgreeted
  · rfl
  · rfl

private theorem result_eq_iff (hc : Framed c) (hgreeted : Greeted c)
    (hbytes : replyOctets c stream ≤ maxHandshakeBytes) {cut' : List Bytes}
    (hcut : Cuts cut stream) (hcut' : Cuts cut' stream) :
    (connect c cut).result = (connect c cut').result ↔
      ((handshake c stream).result ≠ .error .budget →
        (InSteps c stream cut ↔ InSteps c stream cut')) := by
  by_cases hsteps : InSteps c stream cut <;> by_cases hsteps' : InSteps c stream cut'
  · simp only [connect_inSteps hc hgreeted hbytes hcut hsteps,
      connect_inSteps hc hgreeted hbytes hcut' hsteps', hsteps, hsteps', iff_self, implies_true]
  · rw [connect_inSteps hc hgreeted hbytes hcut hsteps,
      connect_overSteps hc hgreeted hbytes hcut' hsteps']
    simp only [hsteps, hsteps', iff_false, not_true_eq_false, imp_false, ne_eq, not_not]
  · rw [connect_overSteps hc hgreeted hbytes hcut hsteps,
      connect_inSteps hc hgreeted hbytes hcut' hsteps']
    simp only [hsteps, hsteps', iff_true, imp_false, ne_eq, not_not, eq_comm]
  · simp only [connect_overSteps hc hgreeted hbytes hcut hsteps,
      connect_overSteps hc hgreeted hbytes hcut' hsteps', hsteps, hsteps', iff_self, implies_true]

private theorem unread_iff (hc : Framed c) (hgreeted : Greeted c)
    (hbytes : replyOctets c stream ≤ maxHandshakeBytes) (hcut : Cuts cut stream) :
    ((connect c cut).result = .ok () →
        (connect c cut).unread.flatten = stream.drop (replyOctets c stream)) ↔
      ((handshake c stream).result = .ok () → InSteps c stream cut →
        Aligned cut (replyOctets c stream)) := by
  by_cases hsteps : InSteps c stream cut
  · rw [connect_inSteps hc hgreeted hbytes hcut hsteps]
    refine imp_congr_right fun hok => ?_
    obtain ⟨hneed, hle⟩ : (handshake c stream).need = replyOctets c stream ∧ _ :=
      need_of_ok maxSteps hok
    rw [show (course c maxSteps 0 1 stream).need = _ from hneed, ← hcut.1] at hle
    have hiff := flatten_drop_iff_aligned hle
    rw [hcut.1] at hiff
    rw [hneed]
    exact hiff.trans ⟨fun h _ => h, fun h => h hsteps⟩
  · rw [connect_overSteps hc hgreeted hbytes hcut hsteps]
    exact ⟨fun _ _ h => absurd h hsteps, fun _ hok => by cases hok⟩

end Connect

/-- Two cuts of a stream give one result, and what is left to read stands behind the CONNECT reply,
exactly where the loop's turns are enough for both cuts or for neither, and no read runs past that
reply; a call that does not get to its loop, or is over budget on the stream as a whole, is over
it however the stream is cut. Cuts for which the turns are enough get the same messages too. -/
theorem tunnel_loses_nothing (c : Client) (hc : Framed c) (stream : Bytes)
    (hbytes : replyOctets c stream ≤ maxHandshakeBytes) (cut cut' : List Bytes)
    (hcut : Cuts cut stream) (hcut' : Cuts cut' stream) :
    ((connect c cut).result = (connect c cut').result ∧
        ((connect c cut).result = .ok () →
          (connect c cut).unread.flatten = stream.drop (replyOctets c stream)) ↔
      (Greeted c →
        ((handshake c stream).result ≠ .error .budget →
          (InSteps c stream cut ↔ InSteps c stream cut')) ∧
        ((handshake c stream).result = .ok () → InSteps c stream cut →
          Aligned cut (replyOctets c stream)))) ∧
    (InSteps c stream cut → InSteps c stream cut' → (connect c cut).sent = (connect c cut').sent) := by
  by_cases hgreeted : Greeted c
  · refine ⟨?_, fun hsteps hsteps' => ?_⟩
    · rw [result_eq_iff hc hgreeted hbytes hcut hcut', unread_iff hc hgreeted hbytes hcut]
      exact ⟨fun h _ => h, fun h => h hgreeted⟩
    · rw [connect_inSteps hc hgreeted hbytes hcut hsteps,
        connect_inSteps hc hgreeted hbytes hcut' hsteps']
  · rw [connect_ungreeted hgreeted, connect_ungreeted hgreeted]
    refine ⟨⟨fun _ h => absurd h hgreeted, fun _ => ⟨rfl, fun hok => by cases hok⟩⟩, fun _ _ => rfl⟩

/-! A decision by the lengths of the replies of RFC 1928, for one that is behind the seam. -/

/-- How long a CONNECT reply is, once it can be told: an address of four or of sixteen octets, or
a name behind its length. -/
def connectReplySize : Bytes → Option ℕ
  | _ :: _ :: _ :: kind :: rest =>
    if kind = 1 then some 10
    else if kind = 4 then some 22
    else rest.head?.map fun len => 7 + len.toNat
  | _ => none

def replySize (phase : UInt8) (buf : Bytes) : Option ℕ :=
  if phase = 2 then connectReplySize buf else some 2

def judge (phase auth : UInt8) (reply : Bytes) : UInt8 × UInt8 :=
  if phase = 0 ∧ reply = [5, 0] then (2, 2)
  else if phase = 0 ∧ reply = [5, 2] ∧ auth = 1 then (1, 1)
  else if phase = 1 ∧ reply = [1, 0] then (2, 2)
  else if phase = 2 ∧ reply.take 2 = [5, 0] then (3, 3)
  else (4, 4)

def bySize : Bytes → Bytes
  | phase :: auth :: buf =>
    match replySize phase buf with
    | some n =>
      if n ≤ buf.length then
        [(judge phase auth (buf.take n)).1, (judge phase auth (buf.take n)).2,
          UInt8.ofNat (n / 256), UInt8.ofNat n]
      else [phase, 0, 0, 0]
    | none => [phase, 0, 0, 0]
  | _ => []

def plainClient : Client := ⟨bySize, .v4 127 0 0 1 80, none, true, fun _ => true⟩

private theorem connectReplySize_some (h : connectReplySize buf = some n) :
    n < 65536 ∧ ∀ more, connectReplySize (buf ++ more) = some n := by
  unfold connectReplySize at h
  split at h
  case h_1 a b c kind rest =>
    have happend : ∀ more, connectReplySize ((a :: b :: c :: kind :: rest) ++ more) =
        if kind = 1 then some 10 else if kind = 4 then some 22
        else (rest ++ more).head?.map fun len => 7 + len.toNat := fun _ => rfl
    simp only [happend]
    split at h
    case isTrue hfour =>
      cases h
      exact ⟨by decide, fun _ => if_pos hfour⟩
    case isFalse hfour =>
      simp only [if_neg hfour]
      split at h
      case isTrue hsixteen =>
        cases h
        exact ⟨by decide, fun _ => if_pos hsixteen⟩
      case isFalse hsixteen =>
        simp only [if_neg hsixteen]
        cases rest with
        | nil => cases h
        | cons len rest =>
          have hn : 7 + len.toNat = n := Option.some.inj h
          have hlen := len.toNat_lt
          rw [← hn]
          exact ⟨by omega, fun _ => rfl⟩
  case h_2 => cases h

private theorem replySize_some (h : replySize phase buf = some n) :
    n < 65536 ∧ ∀ more, replySize phase (buf ++ more) = some n := by
  by_cases hphase : phase = 2
  · simp only [replySize, if_pos hphase] at h ⊢
    exact connectReplySize_some h
  · simp only [replySize, if_neg hphase] at h ⊢
    cases h
    exact ⟨by decide, fun _ => rfl⟩

private theorem plainClient_step_some (h : replySize phase buf = some n) (hn : n ≤ buf.length) :
    plainClient.step phase buf =
      ⟨(judge phase 0 (buf.take n)).1, .ofCode (judge phase 0 (buf.take n)).2, n⟩ := by
  have hseam : bySize (phase :: 0 :: buf) = [(judge phase 0 (buf.take n)).1,
      (judge phase 0 (buf.take n)).2, UInt8.ofNat (n / 256), UInt8.ofNat n] := by
    rw [bySize, h]
    exact if_pos hn
  have hbytes : (UInt8.ofNat (n / 256)).toNat * 256 + (UInt8.ofNat n).toNat = n := by
    have hless := (replySize_some h).1
    rw [UInt8.toNat_ofNat', UInt8.toNat_ofNat']
    omega
  show socksStep bySize phase false buf = _
  unfold socksStep
  rw [if_neg Bool.false_ne_true, hseam]
  dsimp only
  rw [hbytes]

private theorem size_of_decides (h : (plainClient.step phase buf).decides = true) :
    ∃ n, replySize phase buf = some n ∧ n ≤ buf.length := by
  by_contra hnone
  have hseam : bySize (phase :: 0 :: buf) = [phase, 0, 0, 0] := by
    rw [bySize]
    cases hsize : replySize phase buf with
    | none => rfl
    | some n => exact if_neg fun hn => hnone ⟨n, hsize, hn⟩
  have hstep : plainClient.step phase buf = ⟨phase, .wait, 0⟩ := by
    show socksStep bySize phase false buf = _
    unfold socksStep
    rw [if_neg Bool.false_ne_true, hseam]
    rfl
  rw [hstep] at h
  cases h

private theorem judge_connect (reply : Bytes) (n : ℕ) :
    (⟨(judge 2 0 reply).1, .ofCode (judge 2 0 reply).2, n⟩ : Verdict).sends = false := by
  have hjudge : judge 2 0 reply = if reply.take 2 = [5, 0] then (3, 3) else (4, 4) := by
    simp [judge]
  rw [hjudge]
  split <;> rfl

private theorem judge_decides (phase auth : UInt8) (reply : Bytes) (next : UInt8) (n : ℕ) :
    (⟨next, .ofCode (judge phase auth reply).2, n⟩ : Verdict).decides = true := by
  unfold judge
  split
  · rfl
  split
  · rfl
  split
  · rfl
  split <;> rfl

private theorem plainClient_framed : Framed plainClient where
  settles phase buf more h := by
    obtain ⟨n, hsize, hn⟩ := size_of_decides h
    have hmore : n ≤ (buf ++ more).length := by
      rw [List.length_append]
      omega
    rw [plainClient_step_some hsize hn, plainClient_step_some ((replySize_some hsize).2 more) hmore,
      List.take_append_of_le_length hn]
  consumes phase stream n hreply hsends := by
    obtain ⟨hle, hdecides, hshorter⟩ := replyLength_some hreply
    obtain ⟨m, hsize, hm⟩ := size_of_decides hdecides
    rw [plainClient_step_some hsize hm] at hsends ⊢
    -- only the two octets of a greeting's or a credential's reply make it send
    have hphase : phase ≠ 2 := by
      rintro rfl
      rw [judge_connect] at hsends
      cases hsends
    have htwo : ∀ buf, replySize phase buf = some 2 := fun buf => if_neg hphase
    obtain rfl : 2 = m := Option.some.inj ((htwo _).symm.trans hsize)
    rw [List.length_take, Nat.min_eq_left hle] at hm
    show 2 = n
    by_contra hne
    have hless : 2 < n := by omega
    have hearly := hshorter 2 hless
    rw [plainClient_step_some (htwo _) (by rw [List.length_take]; omega), judge_decides] at hearly
    cases hearly

/-- The two replies of a handshake without credentials, and an octet from behind the tunnel. -/
def shortStream : Bytes := [5, 0, 5, 0, 0, 1, 127, 0, 0, 1, 0, 80, 72]

/-- The replies in a read each, or every octet in its own: the octet behind them is not read. -/
theorem shortStream_kept :
    (connect plainClient [[5, 0], [5, 0, 0, 1, 127, 0, 0, 1, 0, 80], [72]]).result =
        (connect plainClient (shortStream.map fun b => [b])).result ∧
      (connect plainClient (shortStream.map fun b => [b])).result = .ok () ∧
      (connect plainClient [[5, 0], [5, 0, 0, 1, 127, 0, 0, 1, 0, 80], [72]]).unread.flatten =
        [72] := by
  have hkept := (tunnel_loses_nothing plainClient plainClient_framed shortStream (by decide +kernel)
    [[5, 0], [5, 0, 0, 1, 127, 0, 0, 1, 0, 80], [72]] (shortStream.map fun b => [b])
    ⟨rfl, by decide⟩ ⟨rfl, by decide⟩).1
  have hsteps : InSteps plainClient shortStream
      [[5, 0], [5, 0, 0, 1, 127, 0, 0, 1, 0, 80], [72]] := by
    unfold InSteps
    decide +kernel
  have hsteps' : InSteps plainClient shortStream (shortStream.map fun b => [b]) := by
    unfold InSteps
    decide +kernel
  have haligned : Aligned [[5, 0], [5, 0, 0, 1, 127, 0, 0, 1, 0, 80], [72]]
      (replyOctets plainClient shortStream) := by
    unfold Aligned
    decide +kernel
  obtain ⟨hsame, hunread⟩ := hkept.mpr fun _ => ⟨fun _ => iff_of_true hsteps hsteps',
    fun _ _ => haligned⟩
  exact ⟨hsame, rfl, hunread rfl⟩

def longStream : Bytes := [5, 0, 5, 0, 0, 3, 60] ++ List.replicate 60 97 ++ [0, 80]

/-- A read that runs past the CONNECT reply loses what stands behind it, and a reply that comes
octet by octet is given up on where one read of it opens the tunnel. -/
theorem cuts_matter :
    Framed plainClient ∧
    (replyOctets plainClient shortStream ≤ maxHandshakeBytes ∧
      Cuts [shortStream] shortStream ∧ (connect plainClient [shortStream]).result = .ok () ∧
      (connect plainClient [shortStream]).unread.flatten ≠
        shortStream.drop (replyOctets plainClient shortStream)) ∧
    (replyOctets plainClient longStream ≤ maxHandshakeBytes ∧ Cuts [longStream] longStream ∧
      Cuts (longStream.map fun b => [b]) longStream ∧
      (connect plainClient [longStream]).result = .ok () ∧
      (connect plainClient (longStream.map fun b => [b])).result = .error .budget) :=
  ⟨plainClient_framed, ⟨by decide +kernel, ⟨rfl, by decide⟩, rfl, by decide +kernel⟩,
    ⟨by decide +kernel, ⟨rfl, by decide⟩, ⟨rfl, by decide⟩, rfl, rfl⟩⟩

end DragonsNet.Dataplane.Socks
