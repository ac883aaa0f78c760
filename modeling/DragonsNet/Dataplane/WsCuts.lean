/- GID: DragonsNet/Dataplane/WsCuts
   source: migration/dataplane/host/src/ws_assembly.rs, migration/dataplane/host/src/ws.rs
   digest: The WebSocket engine does not depend on how its input is cut. -/

import DragonsNet.Dataplane.WsEngine

set_option autoImplicit false

namespace DragonsNet.Dataplane.WsCuts

open Lib.Feeding (Turn Machine Cuttable Refines)
open Lib.FixedBuffer (Buffer)
open WsEngine

/-- The header verdict keeps what it decided: octets after a prefix it decided change nothing,
and a header it accepts is accepted by its own octets. -/
structure Stable (S : Seams) : Prop where
  settled : ∀ p q : Octets, S.header p = .needMore ∨ S.header (p ++ q) = S.header p
  own : ∀ {p : Octets} {hdr : FrameHeader} {used : ℕ}, S.header p = .done hdr used →
    used ≤ p.length ∧ S.header (p.take used) = .done hdr used

/-- The UTF-8 verdict over a concatenation is the composition of its verdicts, and a failure
stays one. -/
structure Composes (S : Seams) : Prop where
  append : ∀ (state : ℕ) (p q : Octets), S.utf8 state p ≤ 7 →
    S.utf8 state (p ++ q) = S.utf8 (S.utf8 state p) q
  fails : ∀ (state : ℕ) (p q : Octets), 7 < S.utf8 state p → 7 < S.utf8 state (p ++ q)

/-- The engine by all that its turns depend on: the octets of the header so far, and the rest
with an unused header buffer. -/
structure Live where
  held : Octets
  rest : Engine
  deriving DecidableEq

def withDec (d : HeaderDecoder) (e : Engine) : Engine := { e with dec := d }

def live (e : Engine) : Live :=
  ⟨e.dec.buf.live, withDec ⟨Buffer.blank 0 maxHeader, e.dec.rsv1Ok⟩ e⟩

/-- What a decision on the header makes of the engine, `held` being all that is held now. -/
def liveStep (S : Seams) (e : Engine) (held input : Octets) :
    HeaderStep → Except Panic (Turn Live UInt8 UInt8)
  | .needMore => .ok (.wait ⟨held, e⟩)
  | .bad code => (encodeClose S code).map .shut
  | .done hdr used =>
    match onHeader S e hdr with
    | .error code => (encodeClose S code).map .shut
    | .ok e' => .ok (.next ⟨[], { e' with state := .payload hdr 0 }⟩ (input.drop used) [])

def liveTurn (S : Seams) (v : Live) (input : Octets) : Except Panic (Turn Live UInt8 UInt8) :=
  match v.rest.state with
  | .header =>
    let held := (v.held ++ input).take maxHeader
    liveStep S v.rest held input (judge S v.rest.dec.rsv1Ok v.held.length held)
  | .payload hdr got => (payloadTurn S v.rest hdr got input).map (Turn.map (Live.mk v.held))

section Aside

variable (S : Seams) (d : HeaderDecoder) (e : Engine) (hdr : FrameHeader)

private theorem onHeader_withDec : onHeader S (withDec d e) hdr = (onHeader S e hdr).map
    (withDec d) := by
  cases e
  dsimp only [onHeader, withDec]
  split_ifs <;> rfl

private theorem resolve_withDec :
    resolve S (withDec d e) = (resolve S e).map (Option.map (withDec d)) := by
  obtain ⟨dec, state, inflater, deflater, compressed, msg, op, after, delivers, utf8, ctl⟩ := e
  dsimp only [resolve, withDec]
  cases inflater with
  | none => split_ifs <;> rfl
  | some inflater =>
    dsimp only
    cases S.inflate inflater.resetEach inflater.given msg maxMessage <;> dsimp only <;>
      split_ifs <;> rfl

private theorem echo_withDec :
    echo S (withDec d e) = (echo S e).map (Prod.map id (withDec d)) := by
  obtain ⟨dec, state, inflater, deflater, compressed, msg, op, after, delivers, utf8, ctl⟩ := e
  cases deflater with
  | none | some deflater =>
    dsimp only [echo, withDec]
    rw [map_map]
    rfl

private theorem shut_withDec (r : Except Panic Octets) :
    (r.map fun out => (out, none)).map (Prod.map id (Option.map (withDec d)))
      = r.map fun out => (out, none) :=
  map_map _ _ _

private theorem deliver_withDec :
    deliver S (withDec d e) = (deliver S e).map (Prod.map id (Option.map (withDec d))) := by
  rw [deliver, deliver, resolve_withDec]
  rcases resolve S e with p | _ | e'
  · rfl
  · exact (shut_withDec d _).symm
  · simp only [Except.map, Option.map]
    rw [echo_withDec]
    cases echo S e' <;> rfl

private theorem onClose_withDec :
    onClose S e = (onClose S e).map (Prod.map id (Option.map (withDec d))) := by
  rw [onClose]
  split <;> exact (shut_withDec d _).symm

private theorem onFrame_withDec :
    onFrame S (withDec d e) hdr = (onFrame S e hdr).map (Prod.map id (Option.map (withDec d))) := by
  by_cases hclose : hdr.opcode = opClose
  · rw [onFrame, onFrame, if_pos hclose, if_pos hclose, ← onClose_withDec]
    rfl
  by_cases hping : hdr.opcode = opPing
  · rw [onFrame, onFrame, if_neg hclose, if_neg hclose, if_pos hping, if_pos hping]
    rw [map_map]
    rfl
  by_cases hpong : hdr.opcode = opPong
  · rw [onFrame, onFrame, if_neg hclose, if_neg hclose, if_neg hping, if_neg hping, if_pos hpong,
      if_pos hpong]
    rfl
  rw [onFrame, onFrame, if_neg hclose, if_neg hclose, if_neg hping, if_neg hping, if_neg hpong,
    if_neg hpong, deliver_withDec]
  change (if !e.frameDeliver then _ else _) = _
  split_ifs <;> rfl

private theorem absorb_frame (state : State) (got : ℕ) (chunk : Octets) :
    absorb S { e with dec := d, state } hdr got chunk
      = (absorb S e hdr got chunk).map (Prod.map (fun e => { e with dec := d, state }) id) := by
  obtain ⟨dec, state', inflater, deflater, compressed, msg, op, after, delivers, utf8, ctl⟩ := e
  dsimp only [absorb]
  split_ifs <;> rfl

private theorem absorbed_frame (state : State) (got : ℕ) (rest : Octets)
    (r : Except Panic (Engine × Bool)) :
    absorbed S hdr got rest (r.map (Prod.map (fun e => { e with dec := d, state }) id))
      = (absorbed S hdr got rest r).map (Turn.map (withDec d)) := by
  rcases r with p | ⟨e, _ | _⟩
  · rfl
  · simp only [Except.map, Prod.map, absorbed, id]
    split_ifs
    · rfl
    · change (onFrame S (withDec d { e with state := .header }) hdr).map _ = _
      rw [onFrame_withDec]
      rcases onFrame S { e with state := .header } hdr with p | ⟨out, _ | e'⟩ <;> rfl
  · change (fail S closeInvalidPayload).map (Ended.turn rest)
      = ((fail S closeInvalidPayload).map (Ended.turn rest)).map (Turn.map (withDec d))
    rw [fail_turn, map_map]
    rfl

private theorem payloadTurn_frame (state : State) (got : ℕ) (input : Octets) :
    payloadTurn S { e with dec := d, state } hdr got input
      = (payloadTurn S e hdr got input).map (Turn.map (withDec d)) := by
  rw [payloadTurn, payloadTurn, absorb_frame, absorbed_frame]

end Aside

section Header

variable {S : Seams} {rsv1Ok : Bool} {p : Octets}

@[simp] theorem length_peel (p : Octets) : (peel rsv1Ok p).2.length = p.length := by
  cases p with
  | nil => rfl
  | cons b bs =>
    rw [peel]
    split_ifs <;> rfl

private theorem peel_append (hp : p ≠ []) (q : Octets) :
    peel rsv1Ok (p ++ q) = ((peel rsv1Ok p).1, (peel rsv1Ok p).2 ++ q) := by
  cases p with
  | nil => exact absurd rfl hp
  | cons b bs =>
    rw [List.cons_append, peel, peel]
    split_ifs <;> rfl

private theorem peel_extends (rsv1Ok : Bool) (p q : Octets) :
    ∃ r, (peel rsv1Ok (p ++ q)).2 = (peel rsv1Ok p).2 ++ r := by
  by_cases hp : p = []
  · exact ⟨(peel rsv1Ok q).2, by rw [hp]; rfl⟩
  · exact ⟨q, by rw [peel_append hp]⟩

private theorem header_append (hS : Stable S) (q : Octets)
    (h : S.header (peel rsv1Ok p).2 ≠ .needMore) :
    S.header (peel rsv1Ok (p ++ q)).2 = S.header (peel rsv1Ok p).2 := by
  obtain ⟨r, hr⟩ := peel_extends rsv1Ok p q
  rw [hr]
  exact (hS.settled _ r).resolve_left h

private theorem judge_bad_append (hS : Stable S) {prev code : ℕ} (q : Octets)
    (hp : p.length < maxHeader)
    (h : judge S rsv1Ok prev p = .bad code) : judge S rsv1Ok prev (p ++ q) = .bad code := by
  rw [judge] at h ⊢
  cases hheader : S.header (peel rsv1Ok p).2 with
  | needMore =>
    rw [hheader] at h
    dsimp only at h
    rw [if_neg (Nat.ne_of_lt hp)] at h
    cases h
  | bad code' =>
    rw [header_append hS q (by simp [hheader]), hheader]
    rw [hheader] at h
    exact h
  | done hdr used =>
    have hused : used ≤ p.length := length_peel p ▸ (hS.own hheader).1
    rw [header_append hS q (by simp [hheader]), hheader]
    rw [hheader] at h
    dsimp only at h ⊢
    split_ifs at h with hshort
    rw [if_pos (.inl (hshort.resolve_right (Nat.not_lt.mpr hused)))]
    exact h

private theorem judge_done_append (hS : Stable S) {prev n : ℕ} {hdr : FrameHeader} (q : Octets)
    (h : judge S rsv1Ok prev p = .done hdr n) : judge S rsv1Ok prev (p ++ q) = .done hdr n := by
  obtain ⟨hdr', used, hheader, rfl, rfl, hprev, hused⟩ := judge_done h
  have hp : p ≠ [] := List.ne_nil_of_length_pos (by omega)
  have hlong : ¬(used ≤ prev ∨ (p ++ q).length < used) := by
    rw [List.length_append]
    omega
  rw [judge, header_append hS q (by simp [hheader]), hheader]
  dsimp only
  rw [if_neg hlong, peel_append hp]

def later (k : ℕ) : HeaderStep → HeaderStep
  | .done hdr used => .done hdr (used + k)
  | r => r

private theorem judge_later (hS : Stable S) {prev : ℕ} (q : Octets) (hprev : prev ≤ p.length)
    (h : S.header (peel rsv1Ok p).2 = .needMore) :
    judge S rsv1Ok prev (p ++ q) = later (p.length - prev) (judge S rsv1Ok p.length (p ++ q)) := by
  rw [judge, judge]
  cases hheader : S.header (peel rsv1Ok (p ++ q)).2 with
  | needMore =>
    dsimp only
    split_ifs <;> rfl
  | bad code => rfl
  | done hdr used =>
    -- a header within the prefix would have been accepted there
    have hused : p.length < used := by
      by_contra hshort
      obtain ⟨r, hr⟩ := peel_extends rsv1Ok p q
      have hlength : used ≤ (peel rsv1Ok p).2.length := by
        rw [length_peel]
        exact Nat.not_lt.mp hshort
      have hown := (hS.own hheader).2
      rw [hr, List.take_append_of_le_length hlength] at hown
      rcases hS.settled ((peel rsv1Ok p).2.take used) ((peel rsv1Ok p).2.drop used) with hm | hsame
      · rw [hm] at hown
        cases hown
      · rw [List.take_append_drop, hown, h] at hsame
        cases hsame
    dsimp only
    by_cases hlong : (p ++ q).length < used
    · rw [if_pos (.inr hlong), if_pos (.inr hlong)]
      rfl
    · rw [if_neg (by omega), if_neg (by omega), later]
      congr 1
      omega

end Header

section Payload

variable {S : Seams}

@[simp] theorem length_unmask (mask : Octets) (base : ℕ) (octets : Octets) :
    (unmask mask base octets).length = octets.length := by
  induction octets generalizing base with
  | nil => rfl
  | cons b bs ih => rw [unmask, List.length_cons, List.length_cons, ih]

private theorem unmask_append (mask : Octets) (base : ℕ) (a b : Octets) :
    unmask mask base (a ++ b) = unmask mask base a ++ unmask mask (base + a.length) b := by
  induction a generalizing base with
  | nil => rfl
  | cons c cs ih =>
    rw [List.cons_append, unmask, unmask, ih, List.cons_append, List.length_cons,
      Nat.add_right_comm base, Nat.add_assoc base]

section Absorb

variable {e : Engine} {hdr : FrameHeader} {got : ℕ} {chunk : Octets} {e' : Engine} {a : Octets}

private theorem absorb_nil : absorb S e hdr got [] = .ok (e, false) := by
  rw [absorb, if_pos rfl]

theorem absorb_fits (hc : opClose ≤ hdr.opcode)
    (h : e.ctl.filled + (unmask hdr.mask got chunk).length ≤ maxControl) :
    absorb S e hdr got chunk
      = .ok ({ e with ctl := e.ctl.copyIn (unmask hdr.mask got chunk) h }, false) := by
  cases chunk with
  | nil => simp only [absorb_nil, unmask, Buffer.copyIn_nil]
  | cons b bs => rw [absorb, if_neg (List.cons_ne_nil b bs), if_pos hc, dif_pos h]

private theorem absorb_over (hc : opClose ≤ hdr.opcode)
    (h : ¬e.ctl.filled + (unmask hdr.mask got chunk).length ≤ maxControl) :
    absorb S e hdr got chunk = .error .overrun := by
  have hne : chunk ≠ [] := fun hnil => h (hnil ▸ e.ctl.filled_le)
  rw [absorb, if_neg hne, if_pos hc, dif_neg h]

private theorem absorb_data (hc : ¬opClose ≤ hdr.opcode)
    (ht : ¬(e.msgOp = opText ∧ e.msgCompressed = false))
    (chunk : Octets) :
    absorb S e hdr got chunk
      = .ok ({ e with msg := e.msg ++ unmask hdr.mask got chunk }, false) := by
  cases chunk with
  | nil => simp only [absorb, if_pos, unmask, List.append_nil]
  | cons b bs => rw [absorb, if_neg (List.cons_ne_nil b bs), if_neg hc, if_neg ht]

private theorem absorb_text (hc : ¬opClose ≤ hdr.opcode)
    (ht : e.msgOp = opText ∧ e.msgCompressed = false)
    (hne : chunk ≠ []) :
    absorb S e hdr got chunk
      = .ok ({ e with
          msg := e.msg ++ unmask hdr.mask got chunk
          utf8 := S.utf8 e.utf8 (unmask hdr.mask got chunk) },
        decide (7 < S.utf8 e.utf8 (unmask hdr.mask got chunk))) := by
  rw [absorb, if_neg hne, if_neg hc, if_pos ht]

theorem absorb_control_ok {refused : Bool} (hc : opClose ≤ hdr.opcode)
    (h : absorb S e hdr got chunk = .ok (e', refused)) :
    ∃ hfits : e.ctl.filled + (unmask hdr.mask got chunk).length ≤ maxControl,
      e' = { e with ctl := e.ctl.copyIn (unmask hdr.mask got chunk) hfits } ∧ refused = false := by
  by_cases hfits : e.ctl.filled + (unmask hdr.mask got chunk).length ≤ maxControl
  · rw [absorb_fits hc hfits] at h
    cases h
    exact ⟨hfits, rfl, rfl⟩
  · rw [absorb_over hc hfits] at h
    cases h

variable (S e hdr got) in
theorem absorb_msg (hc : ¬opClose ≤ hdr.opcode) (chunk : Octets) : ∃ utf8 refused,
    absorb S e hdr got chunk
      = .ok ({ e with msg := e.msg ++ unmask hdr.mask got chunk, utf8 }, refused) := by
  by_cases ht : e.msgOp = opText ∧ e.msgCompressed = false
  · by_cases hne : chunk = []
    · refine ⟨e.utf8, false, ?_⟩
      rw [hne, absorb_nil, unmask, List.append_nil]
    · exact ⟨_, _, absorb_text hc ht hne⟩
  · exact ⟨e.utf8, false, absorb_data hc ht chunk⟩

private theorem absorb_append_error {p : Panic} (b : Octets) (h : absorb S e hdr got a = .error p) :
    absorb S e hdr got (a ++ b) = .error p := by
  by_cases hc : opClose ≤ hdr.opcode
  · by_cases hfits : e.ctl.filled + (unmask hdr.mask got a).length ≤ maxControl
    · rw [absorb_fits hc hfits] at h
      cases h
    · rw [absorb_over hc hfits] at h
      rw [← h, absorb_over hc]
      rw [unmask_append, List.length_append]
      omega
  · obtain ⟨utf8, refused, hmsg⟩ := absorb_msg S e hdr got hc a
    rw [hmsg] at h
    cases h

private theorem absorb_append_refused (hS : Composes S) (b : Octets)
    (h : absorb S e hdr got a = .ok (e', true)) :
    ∃ e'', absorb S e hdr got (a ++ b) = .ok (e'', true) := by
  by_cases hc : opClose ≤ hdr.opcode
  · obtain ⟨-, -, hrefused⟩ := absorb_control_ok hc h
    cases hrefused
  · by_cases ht : e.msgOp = opText ∧ e.msgCompressed = false
    · by_cases ha : a = []
      · rw [ha, absorb_nil] at h
        cases h
      · rw [absorb_text hc ht ha] at h
        have hfail := of_decide_eq_true (Prod.mk.inj (Except.ok.inj h)).2
        rw [absorb_text hc ht (List.append_ne_nil_of_left_ne_nil ha b), unmask_append,
          decide_eq_true (hS.fails e.utf8 _ (unmask hdr.mask (got + a.length) b) hfail)]
        exact ⟨_, rfl⟩
    · rw [absorb_data hc ht] at h
      cases h

private theorem absorb_append_taken (hS : Composes S) (b : Octets)
    (h : absorb S e hdr got a = .ok (e', false)) :
    absorb S e hdr got (a ++ b) = absorb S e' hdr (got + a.length) b := by
  by_cases hc : opClose ≤ hdr.opcode
  · obtain ⟨hfits, rfl, -⟩ := absorb_control_ok hc h
    have hlength : (unmask hdr.mask got (a ++ b)).length = (unmask hdr.mask got a).length
        + (unmask hdr.mask (got + a.length) b).length := by
      rw [unmask_append, List.length_append]
    by_cases hboth : e.ctl.filled + (unmask hdr.mask got (a ++ b)).length ≤ maxControl
    · rw [absorb_fits hc hboth, absorb_fits hc (by rw [Buffer.filled_copyIn]; omega)]
      simp only [unmask_append]
      rw [Buffer.copyIn_copyIn]
    · rw [absorb_over hc hboth, absorb_over hc (by rw [Buffer.filled_copyIn]; omega)]
  · by_cases ht : e.msgOp = opText ∧ e.msgCompressed = false
    · by_cases ha : a = []
      · rw [ha, absorb_nil] at h
        cases h
        rw [ha]
        rfl
      · have htaken := h
        rw [absorb_text hc ht ha] at h
        obtain ⟨he, hfail⟩ := Prod.mk.inj (Except.ok.inj h)
        have hfine := Nat.not_lt.mp (of_decide_eq_false hfail)
        have ht' : e'.msgOp = opText ∧ e'.msgCompressed = false := he ▸ ht
        by_cases hb : b = []
        · rw [hb, List.append_nil, absorb_nil, htaken]
        · rw [absorb_text hc ht (List.append_ne_nil_of_left_ne_nil ha b), absorb_text hc ht' hb,
            unmask_append, hS.append _ _ _ hfine, ← he, List.append_assoc]
    · rw [absorb_data hc ht] at h
      have he := (Prod.mk.inj (Except.ok.inj h)).1
      have ht' : ¬(e'.msgOp = opText ∧ e'.msgCompressed = false) := he ▸ ht
      rw [absorb_data hc ht, absorb_data hc ht', unmask_append, ← he, List.append_assoc]

end Absorb

private theorem absorbed_append {hdr : FrameHeader} {got : ℕ} (hlen : hdr.len ≤ got)
    (rest b : Octets)
    (r : Except Panic (Engine × Bool)) :
    absorbed S hdr got (rest ++ b) r = (machine S).onward b (absorbed S hdr got rest r) := by
  rcases r with p | ⟨e, _ | _⟩
  · rfl
  · rw [absorbed, absorbed, if_neg (Nat.not_lt.mpr hlen), if_neg (Nat.not_lt.mpr hlen)]
    rcases onFrame S { e with state := .header } hdr with p | ⟨out, _ | e'⟩ <;> rfl
  · rw [absorbed, absorbed, fail_turn, fail_turn]
    cases encodeClose S closeInvalidPayload <;> rfl

private theorem payloadTurn_append (hS : Composes S) (e : Engine) (hdr : FrameHeader) (got : ℕ)
    (a b : Octets) :
    payloadTurn S e hdr got (a ++ b) = (machine S).onward b (payloadTurn S e hdr got a) := by
  by_cases hlong : hdr.len - got ≤ a.length
  · rw [payloadTurn, payloadTurn, List.take_append_of_le_length hlong,
      List.drop_append_of_le_length hlong]
    refine absorbed_append ?_ _ _ _
    rw [List.length_take]
    omega
  · have hshort := Nat.le_of_lt (Nat.not_le.mp hlong)
    have htake : (a ++ b).take (hdr.len - got) = a ++ b.take (hdr.len - (got + a.length)) := by
      rw [List.take_append, List.take_of_length_le hshort, Nat.sub_sub]
    have hdrop : (a ++ b).drop (hdr.len - got) = b.drop (hdr.len - (got + a.length)) := by
      rw [List.drop_append, List.drop_eq_nil_of_le hshort, List.nil_append, Nat.sub_sub]
    rw [payloadTurn, htake, hdrop, payloadTurn, List.take_of_length_le hshort]
    rcases habsorb : absorb S e hdr got a with p | ⟨e', _ | _⟩
    · rw [absorb_append_error _ habsorb]
      rfl
    · have hmore : got + a.length < hdr.len := by omega
      have hframe := payloadTurn_frame S e'.dec e' hdr (.payload hdr (got + a.length))
        (got + a.length) b
      have hsame := payloadTurn_frame S e'.dec e' hdr e'.state (got + a.length) b
      rw [absorb_append_taken hS _ habsorb, absorbed, if_pos hmore, List.length_append,
        ← Nat.add_assoc]
      exact hsame.trans hframe.symm
    · obtain ⟨e'', hrefused⟩ :=
        absorb_append_refused hS (b.take (hdr.len - (got + a.length))) habsorb
      rw [hrefused, absorbed, absorbed, fail_turn, fail_turn]
      cases encodeClose S closeInvalidPayload <;> rfl

end Payload

section Live

variable {S : Seams} {e : Engine} {v : Live} {hdr : FrameHeader}

private theorem liveStep_next {held input rest out : Octets} {step : HeaderStep}
    (h : liveStep S e held input step = .ok (.next v rest out)) :
    ∃ hdr used, step = .done hdr used ∧ v.rest.state = .payload hdr 0 ∧ rest = input.drop used := by
  cases step with
  | needMore => cases h
  | bad code =>
    obtain ⟨_, -, hshut⟩ := map_eq_ok h
    cases hshut
  | done hdr used =>
    rw [liveStep] at h
    split at h
    · obtain ⟨_, -, hshut⟩ := map_eq_ok h
      cases hshut
    · cases h
      exact ⟨hdr, used, rfl, rfl, rfl⟩

private theorem judge_done_le {rsv1Ok : Bool} {n : ℕ} {held input : Octets}
    (h : judge S rsv1Ok held.length ((held ++ input).take maxHeader) = .done hdr n) :
    0 < n ∧ n ≤ input.length := by
  obtain ⟨-, used, -, -, hn, hprev, hused⟩ := judge_done h
  rw [List.length_take, List.length_append] at hused
  omega

private theorem liveTurn_size_lt {v v' : Live} {input rest out : Octets}
    (h : liveTurn S v input = .ok (.next v' rest out)) :
    v'.rest.size rest < v.rest.size input := by
  rw [liveTurn] at h
  rw [Engine.size, Engine.size]
  cases hstate : v.rest.state with
  | header =>
    rw [hstate] at h
    obtain ⟨hdr, used, hjudge, hpayload, rfl⟩ := liveStep_next h
    have hused := judge_done_le hjudge
    rw [hpayload]
    dsimp only
    rw [List.length_drop]
    omega
  | payload hdr got =>
    rw [hstate] at h
    obtain ⟨⟨_⟩ | ⟨_⟩ | ⟨e', rest', out'⟩, hturn, hnext⟩ := map_eq_ok h
    · cases hnext
    · cases hnext
    · cases hnext
      obtain ⟨taken, -, -, hframe, rfl⟩ := absorbed_next hturn
      have hheader : e'.state = .header := (onFrame_some hframe).1
      rw [hheader]
      dsimp only
      rw [List.length_drop]
      omega

def liveMachine (S : Seams) : Machine Live UInt8 UInt8 Panic where
  turn := liveTurn S
  size v input := v.rest.size input
  size_lt := liveTurn_size_lt

private theorem liveTurn_header (hv : v.rest.state = .header) (input : Octets) :
    liveTurn S v input = liveStep S v.rest ((v.held ++ input).take maxHeader) input
      (judge S v.rest.dec.rsv1Ok v.held.length ((v.held ++ input).take maxHeader)) := by
  rw [liveTurn, hv]

private theorem liveTurn_payload {got : ℕ} (hv : v.rest.state = .payload hdr got) (input : Octets) :
    liveTurn S v input = (payloadTurn S v.rest hdr got input).map (Turn.map (Live.mk v.held)) := by
  rw [liveTurn, hv]

private theorem liveStep_append {held held' a b : Octets} {step : HeaderStep}
    (hmore : step ≠ .needMore)
    (hused : ∀ {hdr n}, step = .done hdr n → n ≤ a.length) :
    liveStep S e held (a ++ b) step = (liveMachine S).onward b (liveStep S e held' a step) := by
  cases step with
  | needMore => exact absurd rfl hmore
  | bad code =>
    rw [liveStep, liveStep]
    cases encodeClose S code <;> rfl
  | done hdr n =>
    rw [liveStep, liveStep, List.drop_append_of_le_length (hused rfl)]
    cases onHeader S e hdr with
    | error code =>
      dsimp only
      cases encodeClose S code <;> rfl
    | ok e' => rfl

private theorem liveStep_later {held a b : Octets} (step : HeaderStep) :
    liveStep S e held (a ++ b) (later a.length step) = liveStep S e held b step := by
  cases step with
  | needMore => rfl
  | bad code => rfl
  | done hdr n => rw [later, liveStep, liveStep, Nat.add_comm, ← List.drop_drop, List.drop_left]

private theorem header_of_needMore {rsv1Ok : Bool} {prev : ℕ} {p : Octets}
    (h : judge S rsv1Ok prev p = .needMore) :
    S.header (peel rsv1Ok p).2 = .needMore ∧ p.length ≠ maxHeader := by
  rw [judge] at h
  cases hheader : S.header (peel rsv1Ok p).2 with
  | needMore =>
    rw [hheader] at h
    dsimp only at h
    split_ifs at h with hfull
    exact ⟨rfl, hfull⟩
  | bad code =>
    rw [hheader] at h
    cases h
  | done hdr used =>
    rw [hheader] at h
    dsimp only at h
    split_ifs at h

private theorem liveTurn_header_append (hS : Stable S) (hv : v.rest.state = .header)
    (a b : Octets) :
    liveTurn S v (a ++ b) = (liveMachine S).onward b (liveTurn S v a) := by
  rw [liveTurn_header hv, liveTurn_header hv, ← List.append_assoc]
  by_cases hfull : maxHeader ≤ (v.held ++ a).length
  · -- the buffer is full of what came first
    rw [List.take_append_of_le_length hfull]
    refine liveStep_append (fun hmore => ?_) fun hdone => (judge_done_le hdone).2
    refine (header_of_needMore hmore).2 ?_
    rw [List.length_take, Nat.min_eq_left hfull]
  · have hshort := Nat.not_le.mp hfull
    have hall : (v.held ++ a).take maxHeader = v.held ++ a :=
      List.take_of_length_le (Nat.le_of_lt hshort)
    have htake : (v.held ++ a ++ b).take maxHeader
        = v.held ++ a ++ b.take (maxHeader - (v.held ++ a).length) := by
      rw [List.take_append, hall]
    cases hjudge : judge S v.rest.dec.rsv1Ok v.held.length ((v.held ++ a).take maxHeader) with
    | needMore =>
      have hmore := (header_of_needMore hjudge).1
      rw [hall] at hmore
      have hlater := judge_later hS (b.take (maxHeader - (v.held ++ a).length))
        (List.length_append ▸ Nat.le_add_right v.held.length a.length) hmore
      rw [List.length_append, Nat.add_sub_cancel_left, ← List.length_append, ← htake] at hlater
      rw [hlater, liveStep_later, hall]
      exact (liveTurn_header (v := ⟨v.held ++ a, v.rest⟩) hv b).symm
    | bad code =>
      rw [hall] at hjudge
      rw [htake, judge_bad_append hS _ hshort hjudge]
      exact liveStep_append nofun nofun
    | done hdr n =>
      have hused := (judge_done_le hjudge).2
      rw [hall] at hjudge
      rw [htake, judge_done_append hS _ hjudge]
      refine liveStep_append nofun fun hdone => ?_
      cases hdone
      exact hused

private theorem liveTurn_payload_append (hS : Composes S) {got : ℕ}
    (hv : v.rest.state = .payload hdr got)
    (a b : Octets) : liveTurn S v (a ++ b) = (liveMachine S).onward b (liveTurn S v a) := by
  rw [liveTurn_payload hv, liveTurn_payload hv, payloadTurn_append hS]
  rcases hturn : payloadTurn S v.rest hdr got a with p | ⟨e⟩ | ⟨out⟩ | ⟨e, rest, out⟩
  · rfl
  · obtain ⟨taken, -, -, rfl⟩ := absorbed_wait hturn
    rfl
  · rfl
  · rfl

theorem live_cuttable (hS : Stable S) (hutf8 : Composes S) : Cuttable (liveMachine S) := by
  intro v a b
  cases hv : v.rest.state with
  | header => exact liveTurn_header_append hS hv a b
  | payload hdr got => exact liveTurn_payload_append hutf8 hv a b

private theorem headerTurn_live (S : Seams) (e : Engine) (input : Octets) :
    (headerTurn S e input).map (Turn.map live) =
      liveStep S (live e).rest ((e.dec.buf.live ++ input).take maxHeader) input
        (judge S e.dec.rsv1Ok e.dec.buf.live.length ((e.dec.buf.live ++ input).take maxHeader)) := by
  have hfill := live_fill e.dec input
  rw [headerTurn, HeaderDecoder.step, Buffer.length_live, ← hfill]
  cases judge S e.dec.rsv1Ok e.dec.buf.filled (e.dec.fill input).live with
  | needMore => rfl
  | bad code =>
    dsimp only
    rw [fail_turn, map_map]
    rfl
  | done hdr used =>
    have hopen : onHeader S { e with dec := { e.dec with buf := (e.dec.fill input).clear } } hdr
        = _ := onHeader_withDec S _ e hdr
    have hblank : onHeader S (live e).rest hdr = _ := onHeader_withDec S _ e hdr
    dsimp only
    rw [liveStep, hopen, hblank]
    cases onHeader S e hdr with
    | error code =>
      change ((fail S code).map (Ended.turn input)).map (Turn.map live)
        = (encodeClose S code).map .shut
      rw [fail_turn, map_map]
      rfl
    | ok e' => rfl

theorem live_refines (S : Seams) : Refines (machine S) (liveMachine S) live := by
  intro e input
  cases he : e.state with
  | header =>
    have hlive : (live e).rest.state = .header := he
    have hturn : turn S e input = headerTurn S e input := by rw [turn, he]
    refine (congrArg _ hturn).trans (Eq.trans ?_ (liveTurn_header hlive input).symm)
    exact headerTurn_live S e input
  | payload hdr got =>
    have hlive : (live e).rest.state = .payload hdr got := he
    have hturn : turn S e input = payloadTurn S e hdr got input := by rw [turn, he]
    have hself := payloadTurn_frame S e.dec e hdr e.state got input
    have hblank := payloadTurn_frame S (live e).rest.dec e hdr e.state got input
    refine (congrArg _ (hturn.trans hself)).trans (Eq.trans ?_ (liveTurn_payload hlive input).symm)
    refine Eq.trans ?_ (congrArg _ hblank).symm
    rcases payloadTurn S e hdr got input with p | ⟨e'⟩ | ⟨out⟩ | ⟨e', rest, out⟩ <;> rfl

end Live

end DragonsNet.Dataplane.WsCuts
