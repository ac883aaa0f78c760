/- GID: DragonsNet/Dataplane/WsEngine
   source: migration/dataplane/host/src/ws_assembly.rs, migration/dataplane/host/src/ws.rs
   digest: The WebSocket engine: header decoder, reassembly, control replies and the echo. -/

import DragonsNet.Lib.Feeding
import DragonsNet.Lib.FixedBuffer
import DragonsNet.Lib.LittleEndian

set_option autoImplicit false

namespace DragonsNet.Dataplane.WsEngine

open Lib.Feeding (Turn Machine)
open Lib.FixedBuffer (Buffer)
open Lib.LittleEndian (ofBe ofLe)

abbrev Octets := List UInt8

def opText : ℕ := 1
def opBinary : ℕ := 2
def opClose : ℕ := 8
def opPing : ℕ := 9
def opPong : ℕ := 10

def closeProtocolError : ℕ := 1002
def closeInvalidPayload : ℕ := 1007

def maxHeader : ℕ := 14
def maxMessage : ℕ := 16 * 2 ^ 20
def maxControl : ℕ := 125

structure Config where
  deflate : Bool := false
  clientNoContextTakeover : Bool := false
  serverNoContextTakeover : Bool := false
  serverMaxWindowBits : ℕ := 15

/-- What the engine calls: the verdicts and encoders it is linked with, and the two codecs as
functions of the messages they were given before. -/
structure Seams where
  headerVerdict : Octets → Octets
  admission (msgOp bufLen opcode : ℕ) (fin : Bool) (len cap : ℕ) : ℕ
  utf8 : ℕ → Octets → ℕ
  closeBody : Octets → ℕ
  encodeHeader (fin : Bool) (opcode len : ℕ) : Octets
  encodeClose : ℕ → Octets
  inflate (resetEach : Bool) (given : List Octets) (compressed : Octets) (cap : ℕ) : Option Octets
  deflate (resetEach : Bool) (windowBits : ℕ) (given : List Octets) (data : Octets) : Octets

/-- The ways a feed can stop the process: an encoder's answer of the wrong size, an index past
`ctl`, a compressed message with no inflater. -/
inductive Panic
  | abi
  | overrun
  | noInflater
  deriving DecidableEq

structure FrameHeader where
  fin : Bool
  opcode : ℕ
  len : ℕ
  mask : Octets
  rsv1 : Bool
  deriving DecidableEq

inductive Verdict
  | needMore
  | bad (code : ℕ)
  | done (hdr : FrameHeader) (used : ℕ)
  deriving DecidableEq

def Verdict.read : Octets → Verdict
  | [0] => .needMore
  | [1, hi, lo] => .bad (ofBe [hi, lo])
  | 2 :: rest =>
    if rest.length = 15 then
      .done
        { fin := rest.getD 0 0 != 0
          opcode := (rest.getD 1 0).toNat
          len := ofLe (rest.drop 7)
          mask := (rest.drop 3).take 4
          rsv1 := false }
        (rest.getD 2 0).toNat
    else .bad closeProtocolError
  | _ => .bad closeProtocolError

def Seams.header (S : Seams) (held : Octets) : Verdict := Verdict.read (S.headerVerdict held)

structure HeaderDecoder where
  buf : Buffer UInt8 maxHeader
  rsv1Ok : Bool
  deriving DecidableEq

inductive HeaderStep
  | needMore
  | done (hdr : FrameHeader) (used : ℕ)
  | bad (code : ℕ)
  deriving DecidableEq

/-- The compressed marker of the first octet, and the octets without it. -/
def peel (rsv1Ok : Bool) : Octets → Bool × Octets
  | [] => (false, [])
  | b :: bs => if rsv1Ok && b &&& 0x40 != 0 then (true, (b &&& ~~~0x40) :: bs) else (false, b :: bs)

/-- The decision on the octets held, of which the first `prev` came with earlier input. -/
def judge (S : Seams) (rsv1Ok : Bool) (prev : ℕ) (held : Octets) : HeaderStep :=
  match S.header (peel rsv1Ok held).2 with
  | .needMore => if held.length = maxHeader then .bad closeProtocolError else .needMore
  | .bad code => .bad code
  | .done hdr used =>
    if used ≤ prev ∨ held.length < used then .bad closeProtocolError
    else .done { hdr with rsv1 := (peel rsv1Ok held).1 } (used - prev)

namespace HeaderDecoder

def fill (d : HeaderDecoder) (input : Octets) : Buffer UInt8 maxHeader :=
  d.buf.copyIn (input.take (maxHeader - d.buf.filled)) <| by
    have hle := d.buf.filled_le
    have htake := List.length_take_le (maxHeader - d.buf.filled) input
    omega

def step (S : Seams) (d : HeaderDecoder) (input : Octets) : HeaderStep × HeaderDecoder :=
  match judge S d.rsv1Ok d.buf.filled (d.fill input).live with
  | .needMore => (.needMore, { d with buf := d.fill input })
  | .bad code => (.bad code, { d with buf := d.fill input })
  | .done hdr used => (.done hdr used, { d with buf := (d.fill input).clear })

end HeaderDecoder

inductive State
  | header
  | payload (hdr : FrameHeader) (got : ℕ)
  deriving DecidableEq

structure Inflater where
  resetEach : Bool
  given : List Octets
  deriving DecidableEq

structure Deflater where
  resetEach : Bool
  windowBits : ℕ
  given : List Octets
  deriving DecidableEq

structure Engine where
  dec : HeaderDecoder
  state : State
  inflater : Option Inflater
  deflater : Option Deflater
  msgCompressed : Bool
  msg : Octets
  msgOp : ℕ
  frameAfter : ℕ
  frameDeliver : Bool
  utf8 : ℕ
  ctl : Buffer UInt8 maxControl
  deriving DecidableEq

def withConfig (cfg : Config) : Engine where
  dec := { buf := Buffer.blank 0 maxHeader, rsv1Ok := cfg.deflate }
  state := .header
  inflater := if cfg.deflate then some ⟨cfg.clientNoContextTakeover, []⟩ else none
  deflater :=
    if cfg.deflate then some ⟨cfg.serverNoContextTakeover, cfg.serverMaxWindowBits, []⟩ else none
  msgCompressed := false
  msg := []
  msgOp := 0
  frameAfter := 0
  frameDeliver := false
  utf8 := 0
  ctl := Buffer.blank 0 maxControl

section Frames

variable (S : Seams)

def encodeFrame (fin : Bool) (opcode : ℕ) (payload : Octets) : Except Panic Octets :=
  let hdr := S.encodeHeader fin opcode payload.length
  if 2 ≤ hdr.length ∧ hdr.length ≤ 10 then .ok (hdr ++ payload) else .error .abi

def encodeFrameExt (fin : Bool) (opcode : ℕ) (rsv1 : Bool) (payload : Octets) :
    Except Panic Octets :=
  (encodeFrame S fin opcode payload).map fun frame =>
    if rsv1 then frame.modifyHead (· ||| 0x40) else frame

def encodeClose (code : ℕ) : Except Panic Octets :=
  if (S.encodeClose code).length = 4 then .ok (S.encodeClose code) else .error .abi

/-- What a frame's end leaves: the output, and the engine unless it is `Shut`. -/
abbrev Ended := Octets × Option Engine

def fail (code : ℕ) : Except Panic Ended := (encodeClose S code).map fun out => (out, none)

def onClose (e : Engine) : Except Panic Ended :=
  let v := S.closeBody e.ctl.live
  match v >>> 16 with
  | 0 => (encodeFrame S true opClose []).map fun out => (out, none)
  | 1 => (encodeClose S (v &&& 0xFFFF)).map fun out => (out, none)
  | _ => fail S (v &&& 0xFFFF)

def onHeader (e : Engine) (h : FrameHeader) : Except ℕ Engine :=
  let opensMessage := (h.opcode == opText || h.opcode == opBinary) && e.msgOp == 0
  if h.rsv1 && !opensMessage then .error closeProtocolError
  else
    let v := S.admission e.msgOp e.msg.length h.opcode h.fin h.len maxMessage
    if v >>> 32 = 2 then
      .ok
        { e with
          msgOp := (v >>> 8) &&& 0xF
          frameAfter := (v >>> 4) &&& 0xF
          frameDeliver := v &&& 1 != 0
          msgCompressed := if opensMessage then h.rsv1 else e.msgCompressed }
    else .error (v &&& 0xFFFF)

/-- The message as it is delivered, inflated where it was compressed; none where it is refused. -/
def resolve (e : Engine) : Except Panic (Option Engine) :=
  if e.msgCompressed then
    match e.inflater with
    | none => .error .noInflater
    | some inflater =>
      match S.inflate inflater.resetEach inflater.given e.msg maxMessage with
      | none => .ok none
      | some plain =>
        if e.msgOp = opText ∧ S.utf8 0 plain ≠ 0 then .ok none
        else
          .ok <| some
            { e with
              msg := plain
              inflater := some { inflater with given := inflater.given ++ [e.msg] } }
  else if e.msgOp = opText ∧ e.utf8 ≠ 0 then .ok none
  else .ok (some e)

def echo (e : Engine) : Except Panic (Octets × Engine) :=
  match e.deflater with
  | some deflater =>
    let z := S.deflate deflater.resetEach deflater.windowBits deflater.given e.msg
    (encodeFrameExt S true e.msgOp true z).map fun out =>
      (out, { e with deflater := some { deflater with given := deflater.given ++ [e.msg] } })
  | none => (encodeFrame S true e.msgOp e.msg).map fun out => (out, e)

def deliver (e : Engine) : Except Panic Ended :=
  match resolve S e with
  | .error p => .error p
  | .ok none => fail S closeInvalidPayload
  | .ok (some e') =>
    (echo S e').map fun (out, e'') =>
      (out, some { e'' with msg := [], msgOp := e''.frameAfter, msgCompressed := false, utf8 := 0 })

def onFrame (e : Engine) (h : FrameHeader) : Except Panic Ended :=
  if h.opcode = opClose then onClose S e
  else if h.opcode = opPing then
    (encodeFrame S true opPong e.ctl.live).map fun out => (out, some { e with ctl := e.ctl.clear })
  else if h.opcode = opPong then .ok ([], some { e with ctl := e.ctl.clear })
  else if !e.frameDeliver then .ok ([], some e)
  else deliver S e

/-- Payload octets with the mask taken off, the first of them at `base` in its frame. -/
def unmask (mask : Octets) : ℕ → Octets → Octets
  | _, [] => []
  | base, b :: bs => (b ^^^ mask.getD (base % 4) 0) :: unmask mask (base + 1) bs

/-- A stretch of payload taken in, and whether the UTF-8 verdict refuses it. -/
def absorb (e : Engine) (hdr : FrameHeader) (got : ℕ) (chunk : Octets) :
    Except Panic (Engine × Bool) :=
  let fresh := unmask hdr.mask got chunk
  if chunk = [] then .ok (e, false)
  else if opClose ≤ hdr.opcode then
    if h : e.ctl.filled + fresh.length ≤ maxControl then
      .ok ({ e with ctl := e.ctl.copyIn fresh h }, false)
    else .error .overrun
  else if e.msgOp = opText ∧ e.msgCompressed = false then
    .ok ({ e with msg := e.msg ++ fresh, utf8 := S.utf8 e.utf8 fresh },
      decide (7 < S.utf8 e.utf8 fresh))
  else .ok ({ e with msg := e.msg ++ fresh }, false)

end Frames

section Turns

variable (S : Seams)

def Ended.turn (rest : Octets) : Ended → Turn Engine UInt8 UInt8
  | (out, none) => .shut out
  | (out, some e) => .next e rest out

def headerTurn (e : Engine) (input : Octets) : Except Panic (Turn Engine UInt8 UInt8) :=
  match e.dec.step S input with
  | (.needMore, dec) => .ok (.wait { e with dec })
  | (.bad code, _) => (fail S code).map (Ended.turn input)
  | (.done hdr used, dec) =>
    match onHeader S { e with dec } hdr with
    | .error code => (fail S code).map (Ended.turn input)
    | .ok e' => .ok (.next { e' with state := .payload hdr 0 } (input.drop used) [])

/-- The rest of the turn once `got` octets of the payload are in. -/
def absorbed (hdr : FrameHeader) (got : ℕ) (rest : Octets) :
    Except Panic (Engine × Bool) → Except Panic (Turn Engine UInt8 UInt8)
  | .error p => .error p
  | .ok (_, true) => (fail S closeInvalidPayload).map (Ended.turn rest)
  | .ok (e, false) =>
    if got < hdr.len then .ok (.wait { e with state := .payload hdr got })
    else (onFrame S { e with state := .header } hdr).map (Ended.turn rest)

def payloadTurn (e : Engine) (hdr : FrameHeader) (got : ℕ) (input : Octets) :
    Except Panic (Turn Engine UInt8 UInt8) :=
  let chunk := input.take (hdr.len - got)
  absorbed S hdr (got + chunk.length) (input.drop (hdr.len - got)) (absorb S e hdr got chunk)

def turn (e : Engine) (input : Octets) : Except Panic (Turn Engine UInt8 UInt8) :=
  match e.state with
  | .header => headerTurn S e input
  | .payload hdr got => payloadTurn S e hdr got input

end Turns

section Decoder

variable {S : Seams}

theorem live_fill (d : HeaderDecoder) (input : Octets) :
    (d.fill input).live = (d.buf.live ++ input).take maxHeader := by
  have hle : d.buf.live.length ≤ maxHeader := d.buf.length_live.symm ▸ d.buf.filled_le
  rw [HeaderDecoder.fill, Buffer.live_copyIn, List.take_append, List.take_of_length_le hle,
    Buffer.length_live]

theorem judge_done {rsv1Ok : Bool} {prev n : ℕ} {held : Octets} {hdr : FrameHeader}
    (h : judge S rsv1Ok prev held = .done hdr n) :
    ∃ hdr' used, S.header (peel rsv1Ok held).2 = .done hdr' used ∧
      hdr = { hdr' with rsv1 := (peel rsv1Ok held).1 } ∧ n = used - prev ∧ prev < used ∧
      used ≤ held.length := by
  rw [judge] at h
  cases hheader : S.header (peel rsv1Ok held).2 with
  | needMore =>
    rw [hheader] at h
    dsimp only at h
    split at h <;> cases h
  | bad code =>
    rw [hheader] at h
    cases h
  | done hdr' used =>
    rw [hheader] at h
    dsimp only at h
    split at h
    · cases h
    · cases h
      exact ⟨hdr', used, rfl, rfl, rfl, by omega, by omega⟩

theorem step_done {d d' : HeaderDecoder} {input : Octets} {hdr : FrameHeader} {used : ℕ}
    (h : d.step S input = (.done hdr used, d')) :
    judge S d.rsv1Ok d.buf.filled (d.fill input).live = .done hdr used ∧
      d' = { d with buf := (d.fill input).clear } ∧ 0 < used ∧ used ≤ input.length := by
  rw [HeaderDecoder.step] at h
  cases hjudge : judge S d.rsv1Ok d.buf.filled (d.fill input).live with
  | needMore | bad code =>
    rw [hjudge] at h
    cases h
  | done hdr' n =>
    rw [hjudge] at h
    cases h
    obtain ⟨_, whole, -, -, hused, hprev, hle⟩ := judge_done hjudge
    have hlength : (d.fill input).live.length ≤ d.buf.filled + input.length := by
      rw [live_fill, List.length_take, List.length_append, Buffer.length_live]
      exact Nat.min_le_right _ _
    exact ⟨rfl, rfl, by omega, by omega⟩

end Decoder

section Frame

variable {S : Seams} {α β γ : Type} {e e' : Engine}

theorem map_eq_ok {f : α → β} {r : Except Panic α} {b : β} (h : r.map f = .ok b) :
    ∃ a, r = .ok a ∧ f a = b := by
  cases r with
  | error p => cases h
  | ok a => exact ⟨a, rfl, Except.ok.inj h⟩

theorem map_map (r : Except Panic α) (f : α → β) (g : β → γ) :
    (r.map f).map g = r.map fun a => g (f a) := by
  cases r <;> rfl

theorem fail_turn (code : ℕ) (input : Octets) :
    (fail S code).map (Ended.turn input) = (encodeClose S code).map .shut :=
  map_map _ _ _

theorem fail_turn_ok {code : ℕ} {input : Octets} {t : Turn Engine UInt8 UInt8}
    (h : (fail S code).map (Ended.turn input) = .ok t) : ∃ out, t = .shut out := by
  rw [fail_turn] at h
  obtain ⟨out, -, hshut⟩ := map_eq_ok h
  exact ⟨out, hshut.symm⟩

private theorem onClose_shut {e : Engine} {ended : Ended} (h : onClose S e = .ok ended) :
    ended.2 = none := by
  rw [onClose] at h
  split at h <;> obtain ⟨out, -, rfl⟩ := map_eq_ok h <;> rfl

private theorem resolve_some (h : resolve S e = .ok (some e')) :
    e' = { e with msg := e'.msg, inflater := e'.inflater } := by
  rw [resolve] at h
  split at h
  · split at h
    · cases h
    · split at h
      · cases h
      · split at h
        · cases h
        · cases h
          rfl
  · split at h
    · cases h
    · cases h
      rfl

private theorem echo_ok {e : Engine} {r : Octets × Engine} (h : echo S e = .ok r) :
    r.2 = { e with deflater := r.2.deflater } := by
  rw [echo] at h
  split at h <;> obtain ⟨out, -, rfl⟩ := map_eq_ok h <;> rfl

private theorem deliver_some {out : Octets} (h : deliver S e = .ok (out, some e')) :
    e'.state = e.state ∧ e'.ctl = e.ctl ∧ e'.msg = [] := by
  rw [deliver] at h
  split at h
  · cases h
  · obtain ⟨out', -, hshut⟩ := map_eq_ok h
    cases hshut
  · rename_i resolved hresolve
    obtain ⟨⟨out', echoed⟩, hecho, hend⟩ := map_eq_ok h
    cases hend
    have hr := resolve_some hresolve
    have he := echo_ok hecho
    dsimp only at he ⊢
    rw [he, hr]
    exact ⟨rfl, rfl, rfl⟩

theorem onFrame_some {hdr : FrameHeader} {out : Octets} (h : onFrame S e hdr = .ok (out, some e')) :
    e'.state = e.state ∧ (e'.msg = e.msg ∨ e'.msg = []) ∧ hdr.opcode ≠ opClose ∧
      (hdr.opcode = opPing ∨ hdr.opcode = opPong → e'.ctl.filled = 0) ∧
      (e'.ctl = e.ctl ∨ e'.ctl.filled = 0) := by
  rw [onFrame] at h
  split at h
  · exact absurd (onClose_shut h) nofun
  · rename_i hclose
    split at h
    · obtain ⟨out', -, hend⟩ := map_eq_ok h
      cases hend
      exact ⟨rfl, .inl rfl, hclose, fun _ => rfl, .inr rfl⟩
    · rename_i hping
      split at h
      · cases h
        exact ⟨rfl, .inl rfl, hclose, fun _ => rfl, .inr rfl⟩
      · rename_i hpong
        have hdata : ¬(hdr.opcode = opPing ∨ hdr.opcode = opPong) := not_or.mpr ⟨hping, hpong⟩
        split at h
        · cases h
          exact ⟨rfl, .inl rfl, hclose, (absurd · hdata), .inl rfl⟩
        · obtain ⟨hstate, hctl, hmsg⟩ := deliver_some h
          exact ⟨hstate, .inr hmsg, hclose, (absurd · hdata), .inl hctl⟩

end Frame

section Machine

variable {S : Seams} {input rest out : Octets} {r : Except Panic (Engine × Bool)}

/-- The turns left, as octets left and whether a payload is being read. -/
def Engine.size (e : Engine) (input : Octets) : ℕ :=
  match e.state with
  | .header => 2 * input.length
  | .payload _ _ => 2 * input.length + 1

theorem headerTurn_next {e e' : Engine} (h : headerTurn S e input = .ok (.next e' rest out)) :
    ∃ hdr used dec opened, e.dec.step S input = (.done hdr used, dec) ∧
      onHeader S { e with dec } hdr = .ok opened ∧
      e' = { opened with state := .payload hdr 0 } ∧ rest = input.drop used ∧ out = [] := by
  rw [headerTurn] at h
  split at h
  · cases h
  · obtain ⟨out, hshut⟩ := fail_turn_ok h
    cases hshut
  · rename_i hdr used dec hstep
    split at h
    · obtain ⟨out, hshut⟩ := fail_turn_ok h
      cases hshut
    · rename_i opened hopen
      cases h
      exact ⟨hdr, used, dec, opened, hstep, hopen, rfl, rfl, rfl⟩

theorem absorbed_next {e' : Engine} {hdr : FrameHeader} {got : ℕ} {left rest out : Octets}
    (h : absorbed S hdr got left r = .ok (.next e' rest out)) :
    ∃ e, r = .ok (e, false) ∧ hdr.len ≤ got ∧
      onFrame S { e with state := .header } hdr = .ok (out, some e') ∧ rest = left := by
  rcases r with p | ⟨e, _ | _⟩
  · cases h
  · rw [absorbed] at h
    split_ifs at h with hlen
    · cases h
    · obtain ⟨⟨out', _ | e''⟩, hframe, hturn⟩ := map_eq_ok h
      · cases hturn
      · cases hturn
        exact ⟨e, rfl, Nat.not_lt.mp hlen, hframe, rfl⟩
  · obtain ⟨out, hshut⟩ := fail_turn_ok h
    cases hshut

theorem absorbed_wait {e' : Engine} {hdr : FrameHeader} {got : ℕ} {left : Octets}
    (h : absorbed S hdr got left r = .ok (.wait e')) :
    ∃ e, r = .ok (e, false) ∧ got < hdr.len ∧ e' = { e with state := .payload hdr got } := by
  rcases r with p | ⟨e, _ | _⟩
  · cases h
  · rw [absorbed] at h
    split_ifs at h with hlen
    · cases h
      exact ⟨e, rfl, hlen, rfl⟩
    · obtain ⟨⟨_, _ | _⟩, -, hend⟩ := map_eq_ok h <;> cases hend
  · obtain ⟨out, hshut⟩ := fail_turn_ok h
    cases hshut

private theorem turn_size_lt {e e' : Engine} (h : turn S e input = .ok (.next e' rest out)) :
    e'.size rest < e.size input := by
  rw [turn] at h
  rw [Engine.size, Engine.size]
  cases hstate : e.state with
  | header =>
    rw [hstate] at h
    obtain ⟨hdr, used, dec, opened, hstep, -, rfl, rfl, -⟩ := headerTurn_next h
    obtain ⟨-, -, hpos, hle⟩ := step_done hstep
    dsimp only
    rw [List.length_drop]
    omega
  | payload hdr got =>
    rw [hstate] at h
    obtain ⟨taken, -, -, hframe, rfl⟩ := absorbed_next h
    have hheader : e'.state = .header := (onFrame_some hframe).1
    rw [hheader]
    dsimp only
    rw [List.length_drop]
    omega

def machine (S : Seams) : Machine Engine UInt8 UInt8 Panic where
  turn := turn S
  size := Engine.size
  size_lt := turn_size_lt

end Machine

end DragonsNet.Dataplane.WsEngine
