/- GID: DragonsNet/Dataplane/WsBounds
   source: migration/dataplane/host/src/ws_assembly.rs, migration/dataplane/host/src/ws.rs
   digest: The WebSocket engine's buffers hold what they are given, however it is cut. -/

import DragonsNet.Dataplane.WsCuts

set_option autoImplicit false

namespace DragonsNet.Dataplane.WsBounds

open Lib.Feeding (Turn Machine Fed Refines.feeds_congr feeds_error feed_next feed_wait
  feed_error)
open Lib.FixedBuffer (Buffer)
open Lib.LittleEndian (ofBe toLe toBe ofLe_toLe_of_lt)
open WsEngine
open WsCuts (Stable Composes live live_cuttable live_refines length_unmask absorb_fits
  absorb_control_ok absorb_msg)

/-- Admission refuses a data frame that would take the message past its bound. -/
def Capped (S : Seams) : Prop :=
  ∀ (msgOp bufLen opcode : ℕ) (fin : Bool) (len : ℕ), opcode < opClose →
    maxMessage < bufLen + len → S.admission msgOp bufLen opcode fin len maxMessage >>> 32 ≠ 2

/-- The header verdict refuses control payloads past the control buffer. -/
def ControlFits (S : Seams) : Prop :=
  ∀ {p : Octets} {hdr : FrameHeader} {used : ℕ}, S.header p = .done hdr used →
    opClose ≤ hdr.opcode → hdr.len ≤ maxControl

/-- The header verdict refuses the control opcodes that have no meaning. -/
def ControlKnown (S : Seams) : Prop :=
  ∀ {p : Octets} {hdr : FrameHeader} {used : ℕ}, S.header p = .done hdr used →
    opClose ≤ hdr.opcode → hdr.opcode ≤ opPong

/-- Room for the rest of a payload: in `ctl`, which holds what came of a control frame, or in
the message. -/
def Room (e : Engine) : State → Prop
  | .header => e.ctl.filled = 0
  | .payload hdr got =>
    got ≤ hdr.len ∧
      (opClose ≤ hdr.opcode → hdr.opcode ≤ opPong ∧ hdr.len ≤ maxControl ∧ e.ctl.filled = got) ∧
      (hdr.opcode < opClose → e.ctl.filled = 0 ∧ e.msg.length + (hdr.len - got) ≤ maxMessage)

structure Bounded (e : Engine) : Prop where
  msg_le : e.msg.length ≤ maxMessage
  room : Room e e.state

private theorem bounded_withConfig (cfg : Config) : Bounded (withConfig cfg) :=
  ⟨Nat.zero_le _, rfl⟩

section Faults

variable {S : Seams} {α β : Type}

private theorem map_ne_overrun {f : α → β} {r : Except Panic α} (h : r ≠ .error .overrun) :
    r.map f ≠ .error .overrun := by
  cases r with
  | error p => exact fun hp => h (congrArg _ (Except.error.inj hp))
  | ok a => nofun

private theorem encodeFrame_ne (fin : Bool) (opcode : ℕ) (payload : Octets) :
    encodeFrame S fin opcode payload ≠ .error .overrun := by
  rw [encodeFrame]
  split_ifs <;> nofun

private theorem encodeClose_ne (code : ℕ) : encodeClose S code ≠ .error .overrun := by
  rw [encodeClose]
  split_ifs <;> nofun

private theorem onClose_ne (e : Engine) : onClose S e ≠ .error .overrun := by
  rw [onClose]
  split
  · exact map_ne_overrun (encodeFrame_ne _ _ _)
  · exact map_ne_overrun (encodeClose_ne _)
  · exact map_ne_overrun (encodeClose_ne _)

private theorem resolve_ne (e : Engine) : resolve S e ≠ .error .overrun := by
  rw [resolve]
  split
  · split
    · rintro ⟨⟩
    · split
      · rintro ⟨⟩
      · split <;> rintro ⟨⟩
  · split <;> rintro ⟨⟩

private theorem echo_ne (e : Engine) : echo S e ≠ .error .overrun := by
  rw [echo]
  split
  · exact map_ne_overrun (map_ne_overrun (encodeFrame_ne _ _ _))
  · exact map_ne_overrun (encodeFrame_ne _ _ _)

private theorem deliver_ne (e : Engine) : deliver S e ≠ .error .overrun := by
  rw [deliver]
  split
  · rename_i p hresolve
    intro hp
    exact resolve_ne e (hresolve.trans (congrArg _ (Except.error.inj hp)))
  · exact map_ne_overrun (encodeClose_ne _)
  · exact map_ne_overrun (echo_ne _)

private theorem onFrame_ne (e : Engine) (hdr : FrameHeader) : onFrame S e hdr ≠ .error .overrun :=
    by
  rw [onFrame]
  split
  · exact onClose_ne e
  · split
    · exact map_ne_overrun (encodeFrame_ne _ _ _)
    · split
      · rintro ⟨⟩
      · split
        · rintro ⟨⟩
        · exact deliver_ne e

private theorem headerTurn_ne (e : Engine) (input : Octets) : headerTurn S e input ≠ .error
    .overrun := by
  rw [headerTurn]
  split
  · rintro ⟨⟩
  · exact map_ne_overrun (map_ne_overrun (encodeClose_ne _))
  · split
    · exact map_ne_overrun (map_ne_overrun (encodeClose_ne _))
    · rintro ⟨⟩

private theorem absorbed_ne {r : Except Panic (Engine × Bool)} {hdr : FrameHeader} {got : ℕ}
    {rest : Octets}
    (h : r ≠ .error .overrun) : absorbed S hdr got rest r ≠ .error .overrun := by
  rcases r with p | ⟨e, _ | _⟩
  · exact fun hp => h (congrArg _ (Except.error.inj hp))
  · rw [absorbed]
    split_ifs
    · rintro ⟨⟩
    · exact map_ne_overrun (onFrame_ne _ _)
  · exact map_ne_overrun (map_ne_overrun (encodeClose_ne _))

end Faults

section Steps

variable {S : Seams} {e e' : Engine} {hdr : FrameHeader} {got : ℕ} {input rest out : Octets}

private theorem onHeader_ok (h : onHeader S e hdr = .ok e') :
    e'.msg = e.msg ∧ e'.ctl = e.ctl ∧
      S.admission e.msgOp e.msg.length hdr.opcode hdr.fin hdr.len maxMessage >>> 32 = 2 := by
  rw [onHeader] at h
  dsimp only at h
  split_ifs at h with hrsv1 hadmit <;> cases h <;> exact ⟨rfl, rfl, hadmit⟩

private theorem absorb_ok {chunk : Octets} {refused : Bool}
    (h : absorb S e hdr got chunk = .ok (e', refused)) :
    (opClose ≤ hdr.opcode → e'.ctl.filled = e.ctl.filled + chunk.length ∧ e'.msg = e.msg) ∧
      (hdr.opcode < opClose → e'.ctl = e.ctl ∧ e'.msg.length = e.msg.length + chunk.length) := by
  constructor
  · intro hc
    obtain ⟨hfits, rfl, -⟩ := absorb_control_ok hc h
    exact ⟨by rw [Buffer.filled_copyIn, length_unmask], rfl⟩
  · intro hd
    obtain ⟨utf8, refused', hdata⟩ := absorb_msg S e hdr got (Nat.not_le.mpr hd) chunk
    obtain ⟨rfl, -⟩ := Prod.mk.inj (Except.ok.inj (hdata.symm.trans h))
    exact ⟨rfl, by rw [List.length_append, length_unmask]⟩

theorem Bounded.absorb {e : Engine} (h : Bounded e) (he : e.state = .payload hdr got)
    {chunk : Octets} (hchunk : chunk.length ≤ hdr.len - got) :
    absorb S e hdr got chunk ≠ .error .overrun ∧
      ∀ {e' refused}, absorb S e hdr got chunk = .ok (e', refused) → e'.msg.length ≤ maxMessage := by
  have hroom := h.room
  rw [he] at hroom
  obtain ⟨hgot, hcontrol, hdata⟩ := hroom
  by_cases hc : opClose ≤ hdr.opcode
  · obtain ⟨-, hlen, hfilled⟩ := hcontrol hc
    have hfits : e.ctl.filled + (unmask hdr.mask got chunk).length ≤ maxControl := by
      rw [length_unmask]
      omega
    refine ⟨?_, fun habsorb => ?_⟩
    · rw [absorb_fits hc hfits]
      nofun
    · rw [((absorb_ok habsorb).1 hc).2]
      exact h.msg_le
  · have hd := Nat.not_le.mp hc
    obtain ⟨utf8, refused, hmsg⟩ := absorb_msg S e hdr got hc chunk
    refine ⟨?_, fun habsorb => ?_⟩
    · rw [hmsg]
      nofun
    · rw [((absorb_ok habsorb).2 hd).2]
      have hle := (hdata hd).2
      omega

private theorem headerTurn_wait {input : Octets} (h : headerTurn S e input = .ok (.wait e')) :
    ∃ dec, e' = { e with dec } := by
  rw [headerTurn] at h
  split at h
  · cases h
    exact ⟨_, rfl⟩
  · obtain ⟨out, hshut⟩ := fail_turn_ok h
    cases hshut
  · split at h
    · obtain ⟨out, hshut⟩ := fail_turn_ok h
      cases hshut
    · cases h

theorem Bounded.header (h : Bounded e) (he : e.state = .header) (hcap : Capped S)
    (hfits : ControlFits S) (hknown : ControlKnown S)
    (hturn : headerTurn S e input = .ok (.next e' rest out)) : Bounded e' := by
  obtain ⟨hdr, used, dec, opened, hstep, hopen, rfl, -, -⟩ := headerTurn_next hturn
  obtain ⟨hjudge, -, -, -⟩ := step_done hstep
  obtain ⟨hdr', whole, hheader, rfl, -⟩ := judge_done hjudge
  obtain ⟨hmsg, hctl, hadmit⟩ := onHeader_ok hopen
  have hroom := h.room
  rw [he] at hroom
  refine ⟨hmsg ▸ h.msg_le, Nat.zero_le _, fun hc => ?_, fun hd => ?_⟩
  · have hlen : hdr'.len ≤ maxControl := hfits hheader hc
    have hopcode : hdr'.opcode ≤ opPong := hknown hheader hc
    exact ⟨hopcode, hlen, hctl ▸ hroom⟩
  · refine ⟨hctl ▸ hroom, ?_⟩
    by_contra hover
    exact hcap _ _ _ _ _ hd (hmsg ▸ Nat.not_le.mp hover) hadmit

theorem Bounded.payload (h : Bounded e) (he : e.state = .payload hdr got)
    (hturn : payloadTurn S e hdr got input = .ok (.next e' rest out)) : Bounded e' := by
  obtain ⟨taken, habsorb, -, hframe, -⟩ := absorbed_next hturn
  obtain ⟨hstate, hmsg, hclose, hclear, hctl⟩ := onFrame_some hframe
  have hle : taken.msg.length ≤ maxMessage :=
    (h.absorb he (List.length_take_le _ _)).2 habsorb
  have hroom := h.room
  rw [he] at hroom
  obtain ⟨-, hcontrol, hdata⟩ := hroom
  refine ⟨?_, ?_⟩
  · rcases hmsg with hmsg | hmsg
    · rw [hmsg]
      exact hle
    · rw [hmsg]
      exact Nat.zero_le _
  · rw [hstate]
    by_cases hc : opClose ≤ hdr.opcode
    · have hknown := (hcontrol hc).1
      refine hclear ?_
      unfold opClose opPing opPong at *
      omega
    · have hd := Nat.not_le.mp hc
      rcases hctl with hctl | hctl
      · rw [Room, hctl, ((absorb_ok habsorb).2 hd).1]
        exact (hdata hd).1
      · exact hctl

private theorem Bounded.paused (h : Bounded e) (he : e.state = .payload hdr got) {input : Octets}
    (hturn : payloadTurn S e hdr got input = .ok (.wait e')) : Bounded e' := by
  obtain ⟨taken, habsorb, hmore, rfl⟩ := absorbed_wait hturn
  have hroom := h.room
  rw [he] at hroom
  obtain ⟨-, hcontrol, hdata⟩ := hroom
  obtain ⟨hctl, hmsg⟩ := absorb_ok habsorb
  have hle : taken.msg.length ≤ maxMessage :=
    (h.absorb he (List.length_take_le _ _)).2 habsorb
  refine ⟨hle, Nat.le_of_lt hmore, fun hc => ?_, fun hd => ?_⟩
  · obtain ⟨hknown, hlen, hfilled⟩ := hcontrol hc
    exact ⟨hknown, hlen, by rw [(hctl hc).1, hfilled]⟩
  · obtain ⟨hfilled, hle⟩ := hdata hd
    obtain ⟨hsame, hlength⟩ := hmsg hd
    refine ⟨hsame ▸ hfilled, ?_⟩
    dsimp only
    omega

private theorem Bounded.turn_ne {e : Engine} (h : Bounded e) (input : Octets) :
    turn S e input ≠ .error .overrun := by
  rw [turn]
  cases hstate : e.state with
  | header => exact headerTurn_ne e input
  | payload hdr got =>
    exact absorbed_ne (h.absorb hstate (List.length_take_le (hdr.len - got) input)).1

private theorem reached_bounded (hcap : Capped S) (hfits : ControlFits S) (hknown : ControlKnown S)
    {cfg : Config} {e : Engine} (h : (machine S).Reaches (withConfig cfg) e) : Bounded e := by
  refine h.keeps (bounded_withConfig cfg) ?_ ?_
  · intro e e' input rest out he hturn
    change turn S e input = _ at hturn
    rw [turn] at hturn
    cases hstate : e.state with
    | header =>
      rw [hstate] at hturn
      exact he.header hstate hcap hfits hknown hturn
    | payload hdr got =>
      rw [hstate] at hturn
      exact he.payload hstate hturn
  · intro e e' input he hturn
    change turn S e input = _ at hturn
    rw [turn] at hturn
    cases hstate : e.state with
    | header =>
      rw [hstate] at hturn
      obtain ⟨dec, rfl⟩ := headerTurn_wait hturn
      exact ⟨he.msg_le, he.room⟩
    | payload hdr got =>
      rw [hstate] at hturn
      exact he.paused hstate hturn

end Steps

/-- However the input is cut, the output, the flow and what is live of the engine are the same;
the message stays within its bound, finished or not, and `ctl` is never overrun. -/
theorem cut_free_and_bounded (S : Seams) (cfg : Config) :
    (Stable S → Composes S → ∀ pieces pieces' : List Octets, pieces ≠ [] → pieces' ≠ [] →
      pieces.flatten = pieces'.flatten →
      Fed.seen live ((machine S).feeds (withConfig cfg) pieces)
        = Fed.seen live ((machine S).feeds (withConfig cfg) pieces')) ∧
    (Capped S → ControlFits S → ControlKnown S →
      (∀ e : Engine, (machine S).Reaches (withConfig cfg) e →
        e.msg.length ≤ maxMessage ∧
        ∀ (hdr : FrameHeader) (got : ℕ) (chunk : Octets) (e' : Engine) (refused : Bool),
          e.state = .payload hdr got → chunk.length ≤ hdr.len - got →
          absorb S e hdr got chunk = .ok (e', refused) → e'.msg.length ≤ maxMessage) ∧
      ∀ pieces : List Octets, (machine S).feeds (withConfig cfg) pieces ≠ .error .overrun) := by
  constructor
  · intro hS hutf8 pieces pieces' hne hne' hflat
    exact (live_refines S).feeds_congr (live_cuttable hS hutf8) _ hne hne' hflat
  · intro hcap hfits hknown
    constructor
    · intro e he
      have hbounded := reached_bounded hcap hfits hknown he
      refine ⟨hbounded.msg_le, ?_⟩
      intro hdr got chunk e' refused hstate hchunk habsorb
      exact (hbounded.absorb hstate hchunk).2 habsorb
    · intro pieces hover
      obtain ⟨e, input, he, hturn⟩ := feeds_error .refl hover
      exact (reached_bounded hcap hfits hknown he).turn_ne input hturn

section HostReference

/-! The seams as the host's retired decoder, encoder, admission and close logic decide, which its
tests keep beside the linked ones. -/

def opcodeOf (b0 : UInt8) : ℕ := (b0 &&& 0x0F).toNat

def len7Of (b1 : UInt8) : ℕ := (b1 &&& 0x7F).toNat

def extent (len7 : ℕ) : ℕ := if len7 = 126 then 2 else if len7 = 127 then 8 else 0

def definedOp (opcode : ℕ) : Bool :=
  decide (opcode ≤ opBinary) || decide (opClose ≤ opcode) && decide (opcode ≤ opPong)

/-- The refusals on the first two octets; `known` is whether reserved opcodes are among them. -/
def malformed (known : Bool) (b0 b1 : UInt8) : Bool :=
  b0 &&& 0x70 != 0 || known && !definedOp (opcodeOf b0) || b1 &&& 0x80 == 0 ||
    decide (opClose ≤ opcodeOf b0) && (b0 &&& 0x80 == 0 || decide (maxControl < len7Of b1))

def lengthOf (len7 : ℕ) (own : Octets) : ℕ :=
  if extent len7 = 0 then len7 else ofBe (own.take (extent len7))

/-- The verdict on a header, `own` being its octets after the first two as far as they are held. -/
def decodeOwn (b0 : UInt8) (len7 : ℕ) (own : Octets) : Octets :=
  if own.length < extent len7 + 4 then [0]
  else if 2 ^ 63 ≤ lengthOf len7 own then [1, 3, 234]
  else 2 :: (b0 >>> 7) :: (b0 &&& 0x0F) :: UInt8.ofNat (6 + extent len7) ::
    (own.drop (extent len7) ++ toLe 8 (lengthOf len7 own))

def decodeHeader (known : Bool) : Octets → Octets
  | b0 :: b1 :: rest =>
    if malformed known b0 b1 then [1, 3, 234]
    else decodeOwn b0 (len7Of b1) (rest.take (extent (len7Of b1) + 4))
  | _ => [0]

/-- The message opcode while the payload of an admitted frame streams, or the close code. -/
def admitted (msgOp bufLen opcode len cap : ℕ) : Except ℕ ℕ :=
  if opClose ≤ opcode then .ok msgOp
  else if (opcode = 0 ∧ msgOp = 0) ∨ (opcode ≠ 0 ∧ msgOp ≠ 0) ∨ opBinary < opcode then
    .error closeProtocolError
  else if cap < bufLen + len then .error 1009
  else .ok (if opcode = 0 then msgOp else opcode)

def admitVerdict (msgOp bufLen opcode : ℕ) (fin : Bool) (len cap : ℕ) : ℕ :=
  match admitted msgOp bufLen opcode len cap with
  | .error code => 2 ^ 32 + code
  | .ok during =>
    let deliver := decide (opcode < opClose) && fin
    2 ^ 33 + during * 2 ^ 8 + (if deliver then 0 else during) * 2 ^ 4 + deliver.toNat

/-- The UTF-8 automaton on an octet: 0 between characters; 1, 2 and 3 before that many octets
more; 4 to 7 after the leading octets E0, ED, F0 and F4, which narrow the next one. -/
def utf8Octet (state : ℕ) (octet : UInt8) : ℕ :=
  let b := octet.toNat
  let next (lo hi state' : ℕ) : ℕ := if lo ≤ b ∧ b ≤ hi then state' else 255
  match state with
  | 0 =>
    if b < 0x80 then 0 else if b < 0xC2 then 255 else if b < 0xE0 then 1
    else if b = 0xE0 then 4 else if b = 0xED then 5 else if b < 0xF0 then 2
    else if b = 0xF0 then 6 else if b < 0xF4 then 3 else if b = 0xF4 then 7 else 255
  | 1 => next 0x80 0xBF 0
  | 2 => next 0x80 0xBF 1
  | 3 => next 0x80 0xBF 2
  | 4 => next 0xA0 0xBF 1
  | 5 => next 0x80 0x9F 1
  | 6 => next 0x90 0xBF 2
  | 7 => next 0x80 0x8F 2
  | _ => 255

def utf8Run (state : ℕ) (octets : Octets) : ℕ := octets.foldl utf8Octet state

def closeCodeOk (code : ℕ) : Bool :=
  decide (1000 ≤ code ∧ code ≤ 1003) || decide (1007 ≤ code ∧ code ≤ 1014) ||
    decide (3000 ≤ code ∧ code ≤ 4999)

def closeVerdict : Octets → ℕ
  | [] => 0
  | [_] => 2 * 2 ^ 16 + closeProtocolError
  | hi :: lo :: reason =>
    if !closeCodeOk (ofBe [hi, lo]) then 2 * 2 ^ 16 + closeProtocolError
    else if utf8Run 0 reason ≠ 0 then 2 * 2 ^ 16 + closeInvalidPayload
    else 2 ^ 16 + ofBe [hi, lo]

def frameHeader (fin : Bool) (opcode len : ℕ) : Octets :=
  UInt8.ofNat ((if fin then 128 else 0) + opcode) ::
    (if len ≤ 125 then [UInt8.ofNat len]
    else if len ≤ 0xFFFF then 126 :: toBe 2 len
    else 127 :: toBe 8 len)

def reference (known : Bool) : Seams where
  headerVerdict := decodeHeader known
  admission := admitVerdict
  utf8 := utf8Run
  closeBody := closeVerdict
  encodeHeader := frameHeader
  encodeClose code := frameHeader true opClose 2 ++ toBe 2 code
  inflate _ _ compressed _ := some compressed
  deflate _ _ _ data := data

private theorem read_done (fin op used : UInt8) {mask : Octets} (hmask : mask.length = 4) {len : ℕ}
    (hlen : len < 2 ^ 63) :
    Verdict.read (2 :: fin :: op :: used :: (mask ++ toLe 8 len)) =
      .done ⟨fin != 0, op.toNat, len, mask, false⟩ used.toNat := by
  have hlength : (fin :: op :: used :: (mask ++ toLe 8 len)).length = 15 := by
    simp [hmask]
  have hdrop : (fin :: op :: used :: (mask ++ toLe 8 len)).drop 7 = toLe 8 len := by
    simp [hmask]
  have htake : ((fin :: op :: used :: (mask ++ toLe 8 len)).drop 3).take 4 = mask := by
    simp [hmask]
  rw [Verdict.read, if_pos hlength, hdrop, htake, ofLe_toLe_of_lt (hlen.trans (by decide))]
  rfl

section Header

variable {known : Bool} {b0 b1 : UInt8} {rest : Octets}

private theorem header_malformed (h : malformed known b0 b1 = true) :
    (reference known).header (b0 :: b1 :: rest) = .bad 1002 := by
  change Verdict.read (decodeHeader known (b0 :: b1 :: rest)) = _
  rw [decodeHeader, if_pos h]
  rfl

private theorem header_wellFormed (h : malformed known b0 b1 = false) :
    (reference known).header (b0 :: b1 :: rest) =
      Verdict.read (decodeOwn b0 (len7Of b1)
        (rest.take (extent (len7Of b1) + 4))) := by
  change Verdict.read (decodeHeader known (b0 :: b1 :: rest)) = _
  rw [decodeHeader, if_neg (by simp [h])]

private theorem extent_le (len7 : ℕ) : extent len7 ≤ 8 := by
  unfold extent
  split_ifs <;> decide

private theorem read_decodeOwn (b0 : UInt8) {len7 : ℕ} {own : Octets}
    (hown : own.length ≤ extent len7 + 4) :
    Verdict.read (decodeOwn b0 len7 own) = .needMore ∧ own.length < extent len7 + 4 ∨
    Verdict.read (decodeOwn b0 len7 own) = .bad 1002 ∨
    own.length = extent len7 + 4 ∧ ∃ mask, Verdict.read (decodeOwn b0 len7 own) =
      .done ⟨b0 >>> 7 != 0, opcodeOf b0, lengthOf len7 own, mask, false⟩
        (6 + extent len7) := by
  unfold decodeOwn
  split_ifs with hshort hlong
  · exact .inl ⟨rfl, hshort⟩
  · exact .inr (.inl rfl)
  · have hlength : own.length = extent len7 + 4 := le_antisymm hown (Nat.not_lt.mp hshort)
    have hmask : (own.drop (extent len7)).length = 4 := by
      rw [List.length_drop, hlength, Nat.add_sub_cancel_left]
    have hused : (UInt8.ofNat (6 + extent len7)).toNat = 6 + extent len7 := by
      have hle := extent_le len7
      rw [UInt8.toNat_ofNat', Nat.mod_eq_of_lt (by omega)]
    refine .inr (.inr ⟨hlength, own.drop (extent len7), ?_⟩)
    rw [read_done _ _ _ hmask (Nat.not_le.mp hlong), hused]
    rfl

private theorem header_done {p : Octets} {hdr : FrameHeader} {used : ℕ}
    (h : (reference known).header p = .done hdr used) :
    ∃ b0 b1 rest, p = b0 :: b1 :: rest ∧ malformed known b0 b1 = false ∧
      used = 6 + extent (len7Of b1) ∧
      extent (len7Of b1) + 4 ≤ rest.length ∧ hdr.opcode = opcodeOf b0 ∧
      hdr.len = lengthOf (len7Of b1) (rest.take (extent (len7Of b1) + 4)) := by
  rcases p with _ | ⟨b0, _ | ⟨b1, rest⟩⟩
  · cases h
  · cases h
  · cases hmal : malformed known b0 b1 with
    | true => cases (header_malformed hmal).symm.trans h
    | false =>
      rw [header_wellFormed hmal] at h
      rcases read_decodeOwn b0 (List.length_take_le (extent (len7Of b1) + 4) rest) with
        ⟨hmore, -⟩ | hbad | ⟨hlength, mask, hdone⟩
      · cases hmore.symm.trans h
      · cases hbad.symm.trans h
      · obtain ⟨rfl, rfl⟩ := Verdict.done.inj (hdone.symm.trans h)
        refine ⟨b0, b1, rest, rfl, hmal, rfl, ?_, rfl, rfl⟩
        rw [List.length_take] at hlength
        omega

end Header

private theorem reference_stable (known : Bool) : Stable (reference known) where
  settled p q := by
    rcases p with _ | ⟨b0, _ | ⟨b1, rest⟩⟩
    · exact .inl rfl
    · exact .inl rfl
    · cases hmal : malformed known b0 b1 with
      | true => exact .inr ((header_malformed hmal).trans (header_malformed hmal).symm)
      | false =>
        rw [List.cons_append, List.cons_append, header_wellFormed hmal, header_wellFormed hmal]
        by_cases hshort : rest.length < extent (len7Of b1) + 4
        · refine .inl ?_
          rw [decodeOwn, if_pos (by rw [List.length_take]; omega)]
          rfl
        · exact .inr (by rw [List.take_append_of_le_length (Nat.not_lt.mp hshort)])
  own {p hdr used} h := by
    obtain ⟨b0, b1, rest, rfl, hmal, rfl, hlength, -⟩ := header_done h
    refine ⟨by simp only [List.length_cons]; omega, ?_⟩
    rw [header_wellFormed hmal] at h
    have htake : (b0 :: b1 :: rest).take (6 + extent (len7Of b1)) =
        b0 :: b1 :: rest.take (extent (len7Of b1) + 4) := by
      rw [show 6 + extent (len7Of b1) = extent (len7Of b1) + 4 + 1 + 1 by omega]
      rfl
    rw [htake, header_wellFormed hmal, List.take_take, min_self, h]

private theorem utf8Octet_dead {state : ℕ} (h : 7 < state) (b : UInt8) : utf8Octet state b = 255 :=
    by
  unfold utf8Octet
  split <;> first | omega | rfl

private theorem utf8Run_dead {state : ℕ} (h : 7 < state) (p : Octets) : 7 < utf8Run state p := by
  induction p generalizing state with
  | nil => exact h
  | cons b p ih => exact ih (by rw [utf8Octet_dead h b]; decide)

private theorem reference_composes (known : Bool) : Composes (reference known) where
  append _ _ _ _ := List.foldl_append
  fails state p q h := by
    have happend : utf8Run state (p ++ q) = utf8Run (utf8Run state p) q := List.foldl_append
    change 7 < utf8Run state (p ++ q)
    rw [happend]
    exact utf8Run_dead h q

private theorem reference_capped (known : Bool) : Capped (reference known) := by
  intro msgOp bufLen opcode fin len hd hover
  have hrefused : ∃ code < 2 ^ 32,
      admitVerdict msgOp bufLen opcode fin len maxMessage = 2 ^ 32 + code := by
    rw [admitVerdict, admitted, if_neg (Nat.not_le.mpr hd)]
    split_ifs
    · exact ⟨closeProtocolError, by decide, rfl⟩
    · exact ⟨1009, by decide, rfl⟩
  obtain ⟨code, hcode, heq⟩ := hrefused
  change admitVerdict msgOp bufLen opcode fin len maxMessage >>> 32 ≠ 2
  rw [heq, Nat.shiftRight_eq_div_pow]
  omega

private theorem reference_fits (known : Bool) : ControlFits (reference known) := by
  intro p hdr used h hc
  obtain ⟨b0, b1, rest, -, hmal, -, -, hop, hlen⟩ := header_done h
  rw [hop] at hc
  have hshort : (len7Of b1) ≤ maxControl := by
    by_contra hlong
    simp [malformed, hc, Nat.not_le.mp hlong] at hmal
  have hext : extent (len7Of b1) = 0 := by
    unfold extent maxControl at *
    split_ifs <;> omega
  rw [hlen, lengthOf, if_pos hext]
  exact hshort

private theorem reference_known : ControlKnown (reference true) := by
  intro p hdr used h hc
  obtain ⟨b0, b1, rest, -, hmal, -, -, hop, -⟩ := header_done h
  rw [hop] at hc ⊢
  by_contra hlate
  have hdata : ¬ opcodeOf b0 ≤ opBinary := Nat.not_le.mpr (lt_of_lt_of_le (by decide) hc)
  simp [malformed, definedOp, hlate, hdata] at hmal

/-- A masked ping of one octet. -/
def ping : Octets := [0x89, 0x81, 0x37, 0xFA, 0x21, 0x3D, 0x30]

/-- The ping, cut at each octet or not at all. -/
theorem ping_cut_free :
    Fed.seen live ((machine (reference true)).feeds (withConfig {}) [ping])
      = Fed.seen live ((machine (reference true)).feeds (withConfig {}) (ping.map ([·]))) ∧
    (machine (reference true)).feeds (withConfig {}) [ping] ≠ .error .overrun :=
  have h := cut_free_and_bounded (reference true) {}
  ⟨h.1 (reference_stable true) (reference_composes true) _ _ (by decide) (by decide) rfl,
    (h.2 (reference_capped true) (reference_fits true) reference_known).2 _⟩

/-- Two masked frames of the same reserved opcode, each within the control buffer. -/
def reservedTwice : Octets :=
  [0x8B, 0xE4, 0x37, 0xFA, 0x21, 0x3D] ++ List.replicate 100 0 ++
    ([0x8B, 0xE4, 0x37, 0xFA, 0x21, 0x3D] ++ List.replicate 100 0)

private theorem feed_reservedTwice :
    (machine (reference false)).feed (withConfig {}) reservedTwice = .error .overrun := by
  rw [feed_next rfl, feed_next rfl, feed_next rfl, feed_error rfl]
  rfl

/-- All fourteen octets of the header buffer a feed leaves, those it holds and those behind. -/
def bufferLeft : Fed Engine UInt8 Panic → Option Octets
  | .ok (_, some e) => some e.dec.buf.cells
  | _ => none

def pongHeader : Octets := [0x8A, 0x81, 0x37, 0xFA, 0x21, 0x3D]

private theorem feeds_pong_whole :
    bufferLeft ((machine (reference false)).feeds (withConfig {}) [pongHeader ++ [0x30]])
      = some (pongHeader ++ 0x30 :: List.replicate 7 0) := by
  rw [Machine.feeds, feed_next rfl, feed_next rfl, feed_wait rfl]
  rfl

def inPong : Engine :=
  { withConfig {} with
    dec := ⟨(HeaderDecoder.fill ⟨Buffer.blank 0 maxHeader, false⟩ pongHeader).clear, false⟩
    state := .payload ⟨true, opPong, 1, [0x37, 0xFA, 0x21, 0x3D], false⟩ 0 }

private theorem feed_pongHeader :
    (machine (reference false)).feed (withConfig {}) pongHeader = .ok ([], some inPong) := by
  have hheader : turn (reference false) (withConfig {}) pongHeader = .ok (.next inPong [] []) := rfl
  have hpayload : turn (reference false) inPong [] = .ok (.wait inPong) := rfl
  rw [feed_next hheader, feed_wait hpayload]
  rfl

private theorem feeds_pong_cut :
    bufferLeft ((machine (reference false)).feeds (withConfig {}) [pongHeader, [0x30]])
      = some (pongHeader ++ List.replicate 8 0) := by
  rw [Machine.feeds, feed_pongHeader, Fed.resume, Machine.feeds, feed_next rfl, feed_wait rfl]
  rfl

/-- Reserved control opcodes share `ctl`, which only the known ones clear; and the octets behind
the header depend on the cuts. -/
theorem reserved_controls_overrun :
    ∃ S : Seams, Stable S ∧ Composes S ∧ Capped S ∧ ControlFits S ∧
      (machine S).feed (withConfig {}) reservedTwice = .error .overrun ∧
      (machine S).feeds (withConfig {}) [pongHeader ++ [0x30]]
        ≠ (machine S).feeds (withConfig {}) [pongHeader, [0x30]] := by
  refine ⟨reference false, reference_stable false, reference_composes false,
    reference_capped false, reference_fits false, feed_reservedTwice, ?_⟩
  intro hsame
  have hbuffer := congrArg bufferLeft hsame
  rw [feeds_pong_whole, feeds_pong_cut] at hbuffer
  exact absurd hbuffer (by decide)

end HostReference

end DragonsNet.Dataplane.WsBounds
