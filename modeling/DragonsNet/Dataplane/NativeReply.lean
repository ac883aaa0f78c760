/- GID: DragonsNet/Dataplane/NativeReply
   source: migration/dataplane/host/src/uring.rs, migration/dataplane/host/src/proxy_dial.rs
   digest: The reply a shard receives from an upstream, and the one the blocking read returns. -/

import DragonsNet.Dataplane.UpstreamPumps

set_option autoImplicit false

namespace DragonsNet.Dataplane.NativeReply

open Dataplane.Chunked (wrap ChunkedParser octet advance_eq foldl_done)
open Dataplane.ResponseHeads
open Dataplane.Upstreams
open Dataplane.UpstreamPumps

/-! ## The dial -/

inductive ReplyFraming where
  | unknown
  | fixed (target : ℕ)
  | chunked
  | eof
  deriving DecidableEq, Repr

structure ProxyDial where
  upAcc : List UInt8
  framing : ReplyFraming
  headEnd : Option ℕ
  chunkParser : ChunkedParser
  chunkFed : ℕ
  stream : Bool
  streamTarget : ℕ
  streamForwarded : ℕ
  sse : Bool
  sseDone : Bool
  deriving DecidableEq, Repr

def ProxyDial.new : ProxyDial :=
  ⟨[], .unknown, none, Chunked.new, 0, false, 0, 0, false, false⟩

def ProxyDial.framed (d : ProxyDial) : Option ProxyDial :=
  match d.headEnd with
  | some _ => some d
  | none =>
    match find crlfcrlf d.upAcc with
    | none => none
    | some p =>
      let headEnd := p + 4
      let head := d.upAcc.take headEnd
      match contentLength head with
      | some clen =>
        some { d with headEnd := some headEnd, framing := .fixed (wrap (headEnd + clen)) }
      | none =>
        if isChunked head then
          some { d with headEnd := some headEnd, framing := .chunked, chunkFed := headEnd }
        else some { d with headEnd := some headEnd, framing := .eof }

def ProxyDial.replyComplete (d : ProxyDial) : Bool × ProxyDial :=
  match d.framed with
  | none => (false, d)
  | some d =>
    match d.framing with
    | .fixed target => (target ≤ d.upAcc.length, d)
    | .chunked =>
      let (done, parser) := d.chunkParser.advance (d.upAcc.drop d.chunkFed)
      (done, { d with chunkParser := parser, chunkFed := d.upAcc.length })
    | .eof => (false, d)
    | .unknown => (false, d)

/-- What a dial meets besides its upstream: whether streaming is enabled, the gate a response head
crosses, and the head the streaming seam makes for the parked request of an upstream's head and the
length of its body, none where that is not submitted and empty where the reply is to be encoded. -/
structure Streaming where
  enabled : Bool
  seams : Seams
  streamHead : List UInt8 → ℕ → Option (List UInt8)

/-- How a dial ends: the reply accumulated goes on to the resume, so many octets of its body have
been forwarded, or it failed. -/
inductive Ending where
  | replied (reply : List UInt8)
  | streamed (forwarded : ℕ)
  | failed
  deriving DecidableEq, Repr

inductive Turn where
  | waits (d : ProxyDial)
  | ends (e : Ending)

/-- Once the client has been sent what was forwarded: `proxy_sse_after_send` and
`proxy_stream_after_send`. -/
def ProxyDial.afterSend (d : ProxyDial) : Turn :=
  let done := if d.sse then d.sseDone else decide (d.streamTarget ≤ d.streamForwarded)
  if done then .ends (.streamed d.streamForwarded) else .waits d

def ProxyDial.sseForwardChunk (d : ProxyDial) : Turn :=
  let forwarded := { d with streamForwarded := d.streamForwarded + d.upAcc.length, upAcc := [] }
  match d.framing with
  | .chunked =>
    let (done, parser) := d.chunkParser.advance d.upAcc
    ProxyDial.afterSend { forwarded with chunkParser := parser, sseDone := d.sseDone || done }
  | _ => forwarded.afterSend

def ProxyDial.streamForwardChunk (d : ProxyDial) : Turn :=
  let take := min d.upAcc.length (d.streamTarget - d.streamForwarded)
  ProxyDial.afterSend { d with streamForwarded := d.streamForwarded + take, upAcc := [] }

def tryStartProxySse (W : Streaming) (d : ProxyDial) (alreadyDone : Bool) : Option Turn :=
  if !W.enabled || d.stream || d.sse then none
  else
    match d.headEnd with
    | none => none
    | some headEnd =>
      let head := d.upAcc.take headEnd
      if isEventStream head then
        match W.seams.forwardResponseHeadGated head with
        | none => some (.ends .failed)
        | some _ =>
          let leftover := d.upAcc.drop headEnd
          some (ProxyDial.afterSend { d with
            sse := true, sseDone := alreadyDone,
            streamForwarded := d.streamForwarded + leftover.length, upAcc := [] })
      else none

/-- `target - he` of two words. -/
def bodyLen (target headEnd : ℕ) : ℕ := wrap (target + 2 ^ 64 - headEnd)

def ProxyDial.streamTargetFromFraming (d : ProxyDial) : ℕ :=
  match d.framing, d.headEnd with
  | .fixed target, some headEnd => target - headEnd
  | _, _ => 0

/-- The buffered way: the whole reply goes on, or another receive is armed. -/
def buffered : Bool × ProxyDial → Turn
  | (true, d) => .ends (.replied d.upAcc)
  | (false, d) => .waits d

def onStreamHeadReply (d : ProxyDial) (head : List UInt8) : Turn :=
  if head.isEmpty then buffered d.replyComplete
  else
    let headEnd := d.headEnd.getD d.upAcc.length
    let target := d.streamTargetFromFraming
    let take := min (d.upAcc.length - headEnd) target
    ProxyDial.afterSend
      { d with stream := true, streamTarget := target, streamForwarded := take, upAcc := [] }

def tryStartProxyStream (W : Streaming) (d : ProxyDial) : Option Turn :=
  if !W.enabled || d.stream then none
  else
    match d.headEnd, d.framing with
    | some headEnd, .fixed target =>
      (W.streamHead (d.upAcc.take headEnd) (bodyLen target headEnd)).map (onStreamHeadReply d)
    | _, _ => none

/-- Once a dial that does not stream yet has asked `reply_complete`. -/
def startOrBuffer (W : Streaming) : Bool × ProxyDial → Turn
  | (complete, d) =>
    match tryStartProxySse W d complete with
    | some turn => turn
    | none =>
      match tryStartProxyStream W d with
      | some turn => turn
      | none => buffered (complete, d)

/-- `on_proxy_recv` of octets, up to the next receive: what it forwards has been sent by then. -/
def onProxyRecv (W : Streaming) (d : ProxyDial) (block : List UInt8) : Turn :=
  let d := { d with upAcc := d.upAcc ++ block }
  if d.sse then d.sseForwardChunk
  else if d.stream then d.streamForwardChunk
  else startOrBuffer W d.replyComplete

/-- `on_proxy_recv` at the upstream's end. -/
def onProxyEof (d : ProxyDial) : Ending :=
  if d.sse || d.stream then .streamed d.streamForwarded else .replied d.upAcc

/-- The receives of a dial, one after another. -/
def receives (W : Streaming) : List Cut → Turn → Upstream → Option (Ending × Upstream)
  | _, .ends e, u => some (e, u)
  | [], .waits _, _ => none
  | c :: cuts, .waits d, u =>
    match u.recv readBlock c with
    | none => none
    | some (none, u) => some (.failed, u)
    | some (some [], u) => some (onProxyEof d, u)
    | some (some (b :: block), u) => receives W cuts (onProxyRecv W d (b :: block)) u

/-! ## Agreement -/

/-- What a blocking read gives, as an ending. -/
def Ending.ofRead : Except Unit (List UInt8) × Upstream → Ending × Upstream
  | (.ok reply, u) => (.replied reply, u)
  | (.error _, u) => (.failed, u)

abbrev Reader := List Cut → Upstream → Option (Except Unit (List UInt8) × Upstream)

/-- After any number of the receives, a dial and a blocking read have both ended, alike, or neither
has. -/
def Same (W : Streaming) (t : Turn) (read : Reader) (cuts : List Cut) (u : Upstream) : Prop :=
  ∀ n, receives W (cuts.take n) t u = (read (cuts.take n) u).map Ending.ofRead

/-- What the receives bring, and whether one of them reports the end of the stream. -/
def received : List Cut → Upstream → List UInt8 × Bool
  | [], _ => ([], false)
  | c :: cuts, u =>
    match u.recv readBlock c with
    | none => ([], false)
    | some (none, _) => ([], false)
    | some (some [], _) => ([], true)
    | some (some (b :: block), u) => (b :: block ++ (received cuts u).1, (received cuts u).2)

/-- A read with this buffer waits for octets, and goes on with them in the buffer. -/
structure Waiting (read : List UInt8 → Reader) (buf : List UInt8) : Prop where
  nil (u : Upstream) : read buf [] u = none
  none {c : Cut} {u : Upstream} (h : u.recv readBlock c = .none) (cuts : List Cut) :
    read buf (c :: cuts) u = .none
  failed {c : Cut} {u u' : Upstream} (h : u.recv readBlock c = some (.none, u'))
    (cuts : List Cut) : read buf (c :: cuts) u = some (.error (), u')
  closed {c : Cut} {u u' : Upstream} (h : u.recv readBlock c = some (some [], u'))
    (cuts : List Cut) : read buf (c :: cuts) u = some (.ok buf, u')
  block {c : Cut} {u u' : Upstream} {b : UInt8} {block : List UInt8}
    (h : u.recv readBlock c = some (some (b :: block), u')) (cuts : List Cut) :
    read buf (c :: cuts) u = read (buf ++ b :: block) cuts u'

/-- What carries the comparison over the receives: a relation `M` of dial and buffer that a received
block keeps, or at which the two agree exactly where `C` holds of all octets and of the end. -/
structure Mode (W : Streaming) (read : List UInt8 → Reader) (C : List UInt8 → Bool → Prop)
    (M : ProxyDial → List UInt8 → Prop) : Prop where
  waiting {d : ProxyDial} {buf : List UInt8} (h : M d buf) : Waiting read buf
  start {d : ProxyDial} {buf : List UInt8} (h : M d buf) : C buf false
  eof {d : ProxyDial} {buf : List UInt8} (h : M d buf) : onProxyEof d = .replied buf ↔ C buf true
  block {d : ProxyDial} {buf : List UInt8} (h : M d buf) (b : UInt8) (block : List UInt8) :
    (∃ d', onProxyRecv W d (b :: block) = .waits d' ∧ M d' (buf ++ b :: block)) ∨
      ∀ cuts u, Same W (onProxyRecv W d (b :: block)) (read (buf ++ b :: block)) cuts u ↔
        C (buf ++ b :: block ++ (received cuts u).1) (received cuts u).2

variable {W : Streaming} {read : List UInt8 → Reader} {C : List UInt8 → Bool → Prop}
  {M : ProxyDial → List UInt8 → Prop} {d d' : ProxyDial} {buf : List UInt8} {u : Upstream}
  {want : ℕ} {p : ℕ}

private theorem same_cons_iff {read : Reader} (hnil : read [] u = none) (c : Cut)
    (cuts : List Cut) :
    Same W (.waits d) read (c :: cuts) u ↔
      ∀ n, receives W (c :: cuts.take n) (.waits d) u =
        (read (c :: cuts.take n) u).map Ending.ofRead := by
  constructor
  · intro h n
    exact h (n + 1)
  · intro h n
    cases n with
    | zero => simp only [List.take_zero, receives, hnil, Option.map_none]
    | succ n => exact h n

private theorem not_same {t : Turn} {read : Reader}
    (h : receives W [] t u ≠ (read [] u).map Ending.ofRead) (cuts : List Cut) :
    ¬ Same W t read cuts u := fun hsame => h (hsame 0)

private theorem Mode.same_iff (h : Mode W read C M) (hm : M d buf) (cuts : List Cut)
    (u : Upstream) :
    Same W (.waits d) (read buf) cuts u ↔
      C (buf ++ (received cuts u).1) (received cuts u).2 := by
  induction cuts generalizing d buf u with
  | nil =>
    simp only [Same, List.take_nil, receives, (h.waiting hm).nil, Option.map_none, implies_true,
      received, List.append_nil, h.start hm]
  | cons c cuts ih =>
    have hwaiting := h.waiting hm
    rw [same_cons_iff (hwaiting.nil u)]
    rcases recv_cases u readBlock c with
      hr | hr | ⟨u₁, hr, -⟩ | ⟨b, block, u₁, hr, -⟩
    · simp only [receives, received, hr, hwaiting.none hr, Option.map_none, implies_true,
        List.append_nil, h.start hm]
    · simp only [receives, received, hr, hwaiting.failed hr, Option.map_some, Ending.ofRead,
        implies_true, List.append_nil, h.start hm]
    · simp only [receives, received, hr, hwaiting.closed hr, Option.map_some, Ending.ofRead,
        List.append_nil, Option.some.injEq, Prod.mk.injEq, and_true, forall_const, h.eof hm]
    · simp only [receives, received, hr, hwaiting.block hr, ← List.append_assoc]
      rcases h.block hm b block with ⟨d', hturn, hm'⟩ | hturn
      · rw [hturn]
        exact ih hm' u₁
      · exact hturn cuts u₁

/-! ## The blocking reads -/

private theorem readToEnd_waiting (buf : List UInt8) : Waiting readToEnd buf where
  nil _ := rfl
  none h cuts := by rw [readToEnd, h]
  failed h cuts := by rw [readToEnd, h]
  closed h cuts := by rw [readToEnd, h]
  block h cuts := by rw [readToEnd, h]

private theorem readUntil_waiting (hshort : buf.length < want) :
    Waiting (readUntil want) buf where
  nil u := by rw [readUntil, if_neg (Nat.not_le.mpr hshort)]
  none h cuts := by rw [readUntil, if_neg (Nat.not_le.mpr hshort), h]
  failed h cuts := by rw [readUntil, if_neg (Nat.not_le.mpr hshort), h]
  closed h cuts := by rw [readUntil, if_neg (Nat.not_le.mpr hshort), h]
  block h cuts := by rw [readUntil, if_neg (Nat.not_le.mpr hshort), h]

private theorem readUntil_full (henough : want ≤ buf.length) (cuts : List Cut) (u : Upstream) :
    readUntil want buf cuts u = some (.ok buf, u) := by
  cases cuts with
  | nil | cons c cuts => rw [readUntil, if_pos henough]

/-- How the blocking read goes on from a head, or from where there is none. -/
def afterHead : Option (HeadRead × Upstream × List Cut) →
    Option (Except Unit (List UInt8) × Upstream)
  | none => none
  | some (.failed, u, _) => some (.error (), u)
  | some (.closed buf, u, _) => some (.ok buf, u)
  | some (.head buf headEnd, u, cuts) =>
    match contentLength (buf.take headEnd) with
    | some clen => readUntil (wrap (headEnd + clen)) buf cuts u
    | none => readToEnd buf cuts u

/-- The blocking read with this much of the reply in its buffer. -/
def readOn (buf : List UInt8) : Reader := fun cuts u => afterHead (readHead buf cuts u)

private theorem readOn_waiting (hnone : find crlfcrlf buf = none) : Waiting readOn buf where
  nil u := by simp only [readOn, readHead, hnone, afterHead]
  none h cuts := by simp only [readOn, readHead, hnone, h, afterHead]
  failed h cuts := by simp only [readOn, readHead, hnone, h, afterHead]
  closed h cuts := by simp only [readOn, readHead, hnone, h, afterHead]
  block h cuts := by simp only [readOn, readHead, hnone, h]

private theorem readOn_found (h : find crlfcrlf buf = some p) :
    readOn buf = match contentLength (buf.take (p + 4)) with
      | some clen => readUntil (wrap (p + 4 + clen)) buf
      | none => readToEnd buf := by
  funext cuts u
  have hhead : readHead buf cuts u = some (.head buf (p + 4), u, cuts) := by
    cases cuts with
    | nil | cons c cuts => simp only [readHead, h]
  simp only [readOn, hhead, afterHead]
  cases contentLength (buf.take (p + 4)) <;> rfl

/-! ## Streamed replies -/

/-- The stream is open: the dial forwards what it receives. -/
structure Forwarding (events : Bool) (framing : ReplyFraming) (d : ProxyDial) : Prop where
  acc : d.upAcc = []
  sse : d.sse = events
  stream : d.stream = !events
  sseDone : d.sseDone = false
  framing : d.framing = framing

private theorem Forwarding.eof_ne {events : Bool} {framing : ReplyFraming}
    (h : Forwarding events framing d)
    (reply : List UInt8) : onProxyEof d ≠ .replied reply := by
  rw [onProxyEof, h.sse, h.stream, Bool.or_not_self, if_pos rfl]
  exact Ending.noConfusion

private theorem onProxyRecv_sse {framing : ReplyFraming} (h : Forwarding true framing d)
    (hframing : framing ≠ .chunked) (block : List UInt8) :
    ∃ d', onProxyRecv W d block = .waits d' ∧ Forwarding true framing d' := by
  refine ⟨{ d with streamForwarded := d.streamForwarded + block.length, upAcc := [] }, ?_, ?_⟩
  · simp only [onProxyRecv, h.sse, if_true, ProxyDial.sseForwardChunk, h.acc, List.nil_append,
      h.framing]
    cases framing with
    | chunked => exact absurd rfl hframing
    | _ => simp only [ProxyDial.afterSend, h.sseDone, if_true, Bool.false_eq_true, if_false]
  · exact ⟨rfl, h.sse, h.stream, h.sseDone, h.framing⟩

private theorem sse_eof_mode : Mode W readToEnd (fun _ ended => ended = false)
    (fun d _ => Forwarding true .eof d) where
  waiting _ := readToEnd_waiting _
  start _ := rfl
  eof h := iff_of_false (h.eof_ne _) Bool.true_eq_false.mp
  block h _ _ := .inl (onProxyRecv_sse h ReplyFraming.noConfusion _)

private theorem sse_fixed_mode (want : ℕ) : Mode W (readUntil want)
    (fun octets ended => ended = false ∧ octets.length < want)
    (fun d buf => Forwarding true (.fixed want) d ∧ buf.length < want) where
  waiting h := readUntil_waiting h.2
  start h := ⟨rfl, h.2⟩
  eof h := iff_of_false (h.1.eof_ne _) fun hc => Bool.true_eq_false.mp hc.1
  block h b block := by
    rename_i buf
    obtain ⟨d', hturn, hd'⟩ := onProxyRecv_sse (W := W) h.1 ReplyFraming.noConfusion (b :: block)
    by_cases hshort : (buf ++ b :: block).length < want
    · exact .inl ⟨d', hturn, hd', hshort⟩
    · refine .inr fun cuts u => iff_of_false ?_ ?_
      · apply not_same
        rw [hturn, receives, readUntil_full (Nat.not_lt.mp hshort)]
        exact (Option.some_ne_none _).symm
      · rintro ⟨-, hlen⟩
        rw [List.length_append] at hlen
        omega

/-- The parser has been fed the body octets of the buffer and has not seen their end. -/
structure Parsing (headEnd : ℕ) (d : ProxyDial) (buf : List UInt8) : Prop where
  le : headEnd ≤ buf.length
  parser : d.chunkParser = (buf.drop headEnd).foldl octet Chunked.new
  unseen : endSeen buf headEnd buf.length = false

private theorem endSeen_length (octets : List UInt8) (headEnd : ℕ) :
    endSeen octets headEnd octets.length =
      (((octets.drop headEnd).foldl octet Chunked.new).st == .done) := by
  rw [endSeen, List.take_length]

private theorem endSeen_append {headEnd : ℕ} (hle : headEnd ≤ buf.length)
    (h : endSeen buf headEnd buf.length = true) (more : List UInt8) :
    endSeen (buf ++ more) headEnd (buf ++ more).length = true := by
  rw [endSeen_length] at h ⊢
  rw [List.drop_append_of_le_length hle, List.foldl_append]
  generalize (buf.drop headEnd).foldl octet Chunked.new = parser at h ⊢
  obtain ⟨st, size⟩ := parser
  obtain rfl : st = .done := eq_of_beq h
  rw [foldl_done]
  rfl

theorem Parsing.advance {headEnd : ℕ} (h : Parsing headEnd d buf) (block : List UInt8) :
    d.chunkParser.advance block =
      (endSeen (buf ++ block) headEnd (buf ++ block).length,
        ((buf ++ block).drop headEnd).foldl octet Chunked.new) := by
  rw [advance_eq, endSeen_length, List.drop_append_of_le_length h.le, List.foldl_append, h.parser]

private theorem sse_chunked_mode (headEnd : ℕ) : Mode W readToEnd
    (fun octets ended => ended = false ∧ endSeen octets headEnd octets.length = false)
    (fun d buf => Forwarding true .chunked d ∧ Parsing headEnd d buf) where
  waiting _ := readToEnd_waiting _
  start h := ⟨rfl, h.2.unseen⟩
  eof h := iff_of_false (h.1.eof_ne _) fun hc => Bool.true_eq_false.mp hc.1
  block h b block := by
    rename_i d buf
    have hturn : onProxyRecv W d (b :: block) = ProxyDial.afterSend { d with
        streamForwarded := d.streamForwarded + (b :: block).length, upAcc := [],
        chunkParser := ((buf ++ b :: block).drop headEnd).foldl octet Chunked.new,
        sseDone := endSeen (buf ++ b :: block) headEnd (buf ++ b :: block).length } := by
      simp only [onProxyRecv, h.1.sse, if_true, ProxyDial.sseForwardChunk, h.1.acc,
        List.nil_append, h.1.framing, h.2.advance, h.1.sseDone, Bool.false_or]
    simp only [ProxyDial.afterSend, h.1.sse, if_true] at hturn
    have hle : headEnd ≤ (buf ++ b :: block).length :=
      h.2.le.trans (by rw [List.length_append]; omega)
    cases hseen : endSeen (buf ++ b :: block) headEnd (buf ++ b :: block).length with
    | false =>
      rw [hseen, if_neg Bool.false_ne_true] at hturn
      exact .inl ⟨_, hturn, ⟨rfl, rfl, h.1.stream, rfl, h.1.framing⟩, hle, rfl, hseen⟩
    | true =>
      rw [hseen, if_pos rfl] at hturn
      refine .inr fun cuts u => iff_of_false ?_ ?_
      · apply not_same
        rw [hturn]
        exact Option.some_ne_none _
      · rintro ⟨-, hunseen⟩
        rw [endSeen_append hle hseen] at hunseen
        exact Bool.true_eq_false.mp hunseen

private theorem stream_mode (want : ℕ) : Mode W (readUntil want)
    (fun octets ended => ended = false ∧ octets.length < want)
    (fun d buf => Forwarding false (.fixed want) d ∧ buf.length < want ∧
      d.streamTarget = d.streamForwarded + (want - buf.length)) where
  waiting h := readUntil_waiting h.2.1
  start h := ⟨rfl, h.2.1⟩
  eof h := iff_of_false (h.1.eof_ne _) fun hc => Bool.true_eq_false.mp hc.1
  block h b block := by
    rename_i d buf
    obtain ⟨hd, hlt, htarget⟩ := h
    have hleft : d.streamTarget - d.streamForwarded = want - buf.length := by omega
    have hturn : onProxyRecv W d (b :: block) = ProxyDial.afterSend { d with
        streamForwarded :=
          d.streamForwarded + min (b :: block).length (want - buf.length), upAcc := [] } := by
      simp only [onProxyRecv, hd.sse, hd.stream, Bool.not_false, Bool.false_eq_true, if_false,
        if_true, ProxyDial.streamForwardChunk, hd.acc, List.nil_append, hleft]
    simp only [ProxyDial.afterSend, hd.sse, Bool.false_eq_true, if_false, decide_eq_true_eq] at hturn
    have hlen : (buf ++ b :: block).length = buf.length + (b :: block).length :=
      List.length_append
    by_cases hshort : (buf ++ b :: block).length < want
    · rw [if_neg (by omega)] at hturn
      refine .inl ⟨_, hturn, ⟨rfl, rfl, hd.stream, hd.sseDone, hd.framing⟩, hshort, ?_⟩
      dsimp only
      omega
    · rw [if_pos (by omega)] at hturn
      refine .inr fun cuts u => iff_of_false ?_ ?_
      · apply not_same
        rw [hturn, receives, readUntil_full (Nat.not_lt.mp hshort)]
        intro hsame
        cases hsame
      · rintro ⟨-, hlen⟩
        rw [List.length_append] at hlen
        omega

/-! ## Buffered replies -/

/-- The dial accumulates: all it has received, from this head on. -/
structure Accumulating (head : List UInt8) (framing : ReplyFraming) (d : ProxyDial)
    (buf : List UInt8) : Prop where
  acc : d.upAcc = buf
  sse : d.sse = false
  stream : d.stream = false
  sseDone : d.sseDone = false
  headEnd : d.headEnd = some head.length
  framing : d.framing = framing
  head : head <+: buf

/-- Whether a reply with this head is streamed: as events, or by its length through the seam. -/
def Streaming.starts (W : Streaming) (head : List UInt8) : Bool :=
  W.enabled && (isEventStream head || (contentLength head).any fun clen =>
    (W.streamHead head (bodyLen (wrap (head.length + clen)) head.length)).any (!·.isEmpty))

private theorem take_head_length {head buf : List UInt8} (h : head <+: buf) : buf.take head.length =
    head :=
  (List.prefix_iff_eq_take.mp h).symm

theorem Accumulating.append {head : List UInt8} {framing : ReplyFraming}
    (h : Accumulating head framing d buf) (block : List UInt8) :
    Accumulating head framing { d with upAcc := d.upAcc ++ block } (buf ++ block) :=
  ⟨by rw [h.acc], h.sse, h.stream, h.sseDone, h.headEnd, h.framing,
    h.head.trans (List.prefix_append _ _)⟩

private theorem Accumulating.fed {head : List UInt8} {framing : ReplyFraming}
    (h : Accumulating head framing d buf) (block : List UInt8) (parser : ChunkedParser) (fed : ℕ) :
    Accumulating head framing
      { d with upAcc := buf ++ block, chunkParser := parser, chunkFed := fed } (buf ++ block) :=
  ⟨rfl, h.sse, h.stream, h.sseDone, h.headEnd, h.framing, h.head.trans (List.prefix_append _ _)⟩

private theorem Accumulating.eof_eq {head : List UInt8} {framing : ReplyFraming}
    (h : Accumulating head framing d buf) : onProxyEof d = .replied buf := by
  rw [onProxyEof, h.sse, h.stream, Bool.or_self, if_neg Bool.false_ne_true, h.acc]

private theorem tryStartProxySse_none {head : List UInt8} {framing : ReplyFraming}
    (h : Accumulating head framing d buf) (hstarts : W.starts head = false) (complete : Bool) :
    tryStartProxySse W d complete = none := by
  rw [Streaming.starts, Bool.and_eq_false_iff, Bool.or_eq_false_iff] at hstarts
  rw [tryStartProxySse]
  rcases hstarts with henabled | ⟨hevents, -⟩
  · rw [henabled, Bool.not_false, Bool.true_or, Bool.true_or, if_pos rfl]
  · simp only [h.headEnd, h.acc, take_head_length h.head, hevents, Bool.false_eq_true, if_false,
      ite_self]

private theorem tryStartProxyStream_buffers {head : List UInt8} {framing : ReplyFraming}
    (h : Accumulating head framing d buf) (hstarts : W.starts head = false)
    (hframing : ∀ target, framing = .fixed target →
      ∃ clen, contentLength head = some clen ∧ target = wrap (head.length + clen)) :
    tryStartProxyStream W d = none ∨ tryStartProxyStream W d = some (buffered d.replyComplete) := by
  rw [Streaming.starts, Bool.and_eq_false_iff, Bool.or_eq_false_iff] at hstarts
  rw [tryStartProxyStream]
  rcases hstarts with henabled | ⟨-, hhead⟩
  · rw [henabled, Bool.not_false, Bool.true_or, if_pos rfl]
    exact .inl rfl
  · rw [h.headEnd, h.framing, h.acc, h.stream, Bool.or_false]
    cases henabled : W.enabled with
    | false => exact .inl rfl
    | true =>
      cases framing with
      | fixed target =>
        obtain ⟨clen, hclen, rfl⟩ := hframing target rfl
        rw [hclen, Option.any_some] at hhead
        simp only [Bool.not_true, Bool.false_eq_true, if_false, take_head_length h.head]
        cases hanswer : W.streamHead head (bodyLen (wrap (head.length + clen)) head.length) with
        | none => exact .inl rfl
        | some answer =>
          rw [hanswer, Option.any_some, Bool.not_eq_false'] at hhead
          rw [Option.map_some, onStreamHeadReply, if_pos hhead]
          exact .inr rfl
      | _ => exact .inl rfl

private theorem onProxyRecv_unstreamed (hsse : d.sse = false) (hstream : d.stream = false)
    (block : List UInt8) :
    onProxyRecv W d block =
      startOrBuffer W (ProxyDial.replyComplete { d with upAcc := d.upAcc ++ block }) := by
  dsimp only [onProxyRecv]
  rw [if_neg (Bool.eq_false_iff.mp hsse), if_neg (Bool.eq_false_iff.mp hstream)]

private theorem startOrBuffer_buffers {head : List UInt8} {framing : ReplyFraming} {complete : Bool}
    (h : Accumulating head framing d buf) (hstarts : W.starts head = false)
    (hagain : framing ≠ .chunked → d.replyComplete = (complete, d))
    (hframing : ∀ target, framing = .fixed target →
      ∃ clen, contentLength head = some clen ∧ target = wrap (head.length + clen)) :
    startOrBuffer W (complete, d) = buffered (complete, d) := by
  have hsse : tryStartProxySse W d complete = none := tryStartProxySse_none h hstarts complete
  rw [startOrBuffer, hsse]
  rcases tryStartProxyStream_buffers h hstarts hframing with hnone | hsome
  · rw [hnone]
  · rw [hsome]
    by_cases hchunked : framing = .chunked
    · rw [tryStartProxyStream, h.framing, hchunked, h.headEnd] at hsome
      simp only [ite_self, reduceCtorEq] at hsome
    · rw [hagain hchunked]

private theorem buffered_fixed_mode {head : List UInt8} {clen : ℕ}
    (hclen : contentLength head = some clen) (hstarts : W.starts head = false) :
    Mode W (readUntil (wrap (head.length + clen))) (fun _ _ => True)
      (fun d buf => Accumulating head (.fixed (wrap (head.length + clen))) d buf ∧
        buf.length < wrap (head.length + clen)) where
  waiting h := readUntil_waiting h.2
  start _ := trivial
  eof h := iff_of_true h.1.eof_eq trivial
  block h b block := by
    rename_i d buf
    obtain ⟨hd, hlt⟩ := h
    have hd' := hd.append (b :: block)
    have hreply : ProxyDial.replyComplete { d with upAcc := d.upAcc ++ b :: block } =
        (decide (wrap (head.length + clen) ≤ (buf ++ b :: block).length),
          { d with upAcc := d.upAcc ++ b :: block }) := by
      simp only [ProxyDial.replyComplete, ProxyDial.framed, hd.headEnd, hd.framing, hd.acc]
    have hturn := onProxyRecv_unstreamed (W := W) hd.sse hd.stream (b :: block)
    rw [hreply, startOrBuffer_buffers hd' hstarts (fun _ => hreply) fun target htarget =>
      ⟨clen, hclen, (ReplyFraming.fixed.inj htarget).symm⟩] at hturn
    by_cases hshort : (buf ++ b :: block).length < wrap (head.length + clen)
    · rw [decide_eq_false (Nat.not_le.mpr hshort), buffered] at hturn
      exact .inl ⟨_, hturn, hd', hshort⟩
    · rw [decide_eq_true (Nat.not_lt.mp hshort), buffered, hd.acc] at hturn
      refine .inr fun cuts u => iff_of_true (fun n => ?_) trivial
      rw [hturn, readUntil_full (Nat.not_lt.mp hshort)]
      cases cuts.take n <;> rfl

private theorem buffered_eof_mode {head : List UInt8} (hstarts : W.starts head = false) :
    Mode W readToEnd (fun _ _ => True) (Accumulating head .eof) where
  waiting _ := readToEnd_waiting _
  start _ := trivial
  eof h := iff_of_true h.eof_eq trivial
  block h b block := by
    rename_i d buf
    have hreply : ProxyDial.replyComplete { d with upAcc := d.upAcc ++ b :: block } =
        (false, { d with upAcc := d.upAcc ++ b :: block }) := by
      simp only [ProxyDial.replyComplete, ProxyDial.framed, h.headEnd, h.framing]
    refine .inl ⟨_, ?_, h.append (b :: block)⟩
    rw [onProxyRecv_unstreamed h.sse h.stream, hreply,
      startOrBuffer_buffers (h.append (b :: block)) hstarts (fun _ => hreply) fun target htarget =>
        ReplyFraming.noConfusion htarget, buffered]

private theorem buffered_chunked_mode {head : List UInt8} (hstarts : W.starts head = false) :
    Mode W readToEnd (fun octets _ => endSeen octets head.length octets.length = false)
      (fun d buf => Accumulating head .chunked d buf ∧ Parsing head.length d buf ∧
        d.chunkFed = buf.length) where
  waiting _ := readToEnd_waiting _
  start h := h.2.1.unseen
  eof h := iff_of_true h.1.eof_eq h.2.1.unseen
  block h b block := by
    rename_i d buf
    obtain ⟨hd, hparsing, hfed⟩ := h
    have hreply : ProxyDial.replyComplete { d with upAcc := d.upAcc ++ b :: block } =
        (endSeen (buf ++ b :: block) head.length (buf ++ b :: block).length,
          { d with
            upAcc := buf ++ b :: block
            chunkParser := ((buf ++ b :: block).drop head.length).foldl octet Chunked.new
            chunkFed := (buf ++ b :: block).length }) := by
      simp only [ProxyDial.replyComplete, ProxyDial.framed, hd.headEnd, hd.framing, hd.acc, hfed,
        List.drop_left, hparsing.advance]
    have hd' := hd.fed (b :: block) (((buf ++ b :: block).drop head.length).foldl octet Chunked.new)
      (buf ++ b :: block).length
    have hle : head.length ≤ (buf ++ b :: block).length := hd'.head.length_le
    have hturn := onProxyRecv_unstreamed (W := W) hd.sse hd.stream (b :: block)
    rw [hreply, startOrBuffer_buffers hd' hstarts (fun hne => absurd rfl hne)
      fun target htarget => ReplyFraming.noConfusion htarget] at hturn
    cases hseen : endSeen (buf ++ b :: block) head.length (buf ++ b :: block).length with
    | false =>
      rw [hseen, buffered] at hturn
      exact .inl ⟨_, hturn, hd', ⟨hle, rfl, hseen⟩, rfl⟩
    | true =>
      rw [hseen, buffered] at hturn
      refine .inr fun cuts u => iff_of_false ?_ ?_
      · apply not_same
        rw [hturn]
        exact Option.some_ne_none _
      · rw [endSeen_append hle hseen]
        exact Bool.true_eq_false.mp

/-! ## From the head on -/

/-- The gate lets a head through that starts an event stream. -/
def Streaming.Passes (W : Streaming) (head : List UInt8) : Prop :=
  W.enabled = true → isEventStream head = true →
    (W.seams.forwardResponseHeadGated head).isSome = true

/-- What is received after a head: where the reply is streamed, the head passes the gate and neither
reading comes to an end; where chunks alone frame it, the end of a chunked body is not seen. -/
structure Unended (W : Streaming) (head octets : List UInt8) (ended : Bool) : Prop where
  passes : W.Passes head
  runs : W.starts head = true → ended = false ∧
    ∀ clen, contentLength head = some clen → octets.length < wrap (head.length + clen)
  unseen : contentLength head = none → isChunked head = true →
    endSeen octets head.length octets.length = false

private theorem unended_sized {head : List UInt8} {clen : ℕ}
    (hclen : contentLength head = some clen)
    (octets : List UInt8) (ended : Bool) :
    Unended W head octets ended ↔ W.Passes head ∧ (W.starts head = true →
      ended = false ∧ octets.length < wrap (head.length + clen)) := by
  constructor
  · intro h
    exact ⟨h.passes, fun hstarts => ⟨(h.runs hstarts).1, (h.runs hstarts).2 clen hclen⟩⟩
  · rintro ⟨hpasses, hruns⟩
    refine ⟨hpasses, fun hstarts => ⟨(hruns hstarts).1, ?_⟩, fun hnone => ?_⟩
    · intro clen' hclen'
      rw [hclen] at hclen'
      obtain rfl := Option.some.inj hclen'
      exact (hruns hstarts).2
    · rw [hclen] at hnone
      cases hnone

private theorem unended_unsized {head : List UInt8} (hclen : contentLength head = none)
    (octets : List UInt8) (ended : Bool) :
    Unended W head octets ended ↔ W.Passes head ∧ (W.starts head = true → ended = false) ∧
      (isChunked head = true → endSeen octets head.length octets.length = false) := by
  constructor
  · intro h
    exact ⟨h.passes, fun hstarts => (h.runs hstarts).1, h.unseen hclen⟩
  · rintro ⟨hpasses, hopen, hunseen⟩
    refine ⟨hpasses, fun hstarts => ⟨hopen hstarts, fun clen hsome => ?_⟩, fun _ => hunseen⟩
    rw [hclen] at hsome
    cases hsome

private theorem starts_cases (W : Streaming) (head : List UInt8) :
    W.starts head = false ∨
      W.starts head = true ∧ W.enabled = true ∧ isEventStream head = true ∨
      W.starts head = true ∧ W.enabled = true ∧ isEventStream head = false ∧
        ∃ clen answer, contentLength head = some clen ∧ answer.isEmpty = false ∧
          W.streamHead head (bodyLen (wrap (head.length + clen)) head.length) = some answer := by
  cases hstarts : W.starts head with
  | false => exact .inl rfl
  | true =>
    have hboth := hstarts
    rw [Streaming.starts, Bool.and_eq_true] at hboth
    obtain ⟨henabled, hkind⟩ := hboth
    cases hevents : isEventStream head with
    | true => exact .inr (.inl ⟨rfl, henabled, rfl⟩)
    | false =>
      rw [hevents, Bool.false_or, Option.any_eq_true] at hkind
      obtain ⟨clen, hclen, hkind⟩ := hkind
      rw [Option.any_eq_true] at hkind
      obtain ⟨answer, hanswer, hfull⟩ := hkind
      have hnonempty := (Bool.not_eq_true' _).mp hfull
      exact .inr (.inr ⟨rfl, henabled, rfl, clen, answer, hclen, hnonempty, hanswer⟩)

variable {head : List UInt8} {framing : ReplyFraming}

private theorem startOrBuffer_events (h : Accumulating head framing d buf)
    (henabled : W.enabled = true)
    (hevents : isEventStream head = true) (complete : Bool) :
    startOrBuffer W (complete, d) =
      match W.seams.forwardResponseHeadGated head with
      | none => .ends .failed
      | some _ => ProxyDial.afterSend { d with
          sse := true, sseDone := complete,
          streamForwarded := d.streamForwarded + (buf.drop head.length).length, upAcc := [] } := by
  have hsse : tryStartProxySse W d complete = some (match W.seams.forwardResponseHeadGated head with
      | none => .ends .failed
      | some _ => ProxyDial.afterSend { d with
          sse := true, sseDone := complete,
          streamForwarded := d.streamForwarded + (buf.drop head.length).length, upAcc := [] }) := by
    rw [tryStartProxySse, henabled, h.sse, h.stream, h.headEnd, h.acc]
    simp only [Bool.not_true, Bool.or_self, Bool.false_eq_true, if_false, take_head_length h.head,
      hevents, if_true]
    cases W.seams.forwardResponseHeadGated head <;> rfl
  rw [startOrBuffer, hsse]

/-- Events whose head passes the gate: forwarded to the end of a reply that is complete already, and
otherwise from here on. -/
theorem startOrBuffer_forwards (h : Accumulating head framing d buf) (henabled : W.enabled = true)
    (hevents : isEventStream head = true)
    (hgated : (W.seams.forwardResponseHeadGated head).isSome = true) :
    (∃ n, startOrBuffer W (true, d) = .ends (.streamed n)) ∧
      ∃ d', startOrBuffer W (false, d) = .waits d' ∧ Forwarding true framing d' ∧
        d'.chunkParser = d.chunkParser := by
  obtain ⟨out, hout⟩ := Option.isSome_iff_exists.mp hgated
  rw [startOrBuffer_events h henabled hevents, startOrBuffer_events h henabled hevents, hout]
  simp only [ProxyDial.afterSend, if_true, Bool.false_eq_true, if_false]
  exact ⟨⟨_, rfl⟩, _, rfl, ⟨rfl, rfl, h.stream, rfl, h.framing⟩, rfl⟩

private theorem startOrBuffer_refused (h : Accumulating head framing d buf)
    (henabled : W.enabled = true)
    (hevents : isEventStream head = true)
    (hgated : ¬ (W.seams.forwardResponseHeadGated head).isSome = true) (complete : Bool) :
    startOrBuffer W (complete, d) = .ends .failed := by
  rw [startOrBuffer_events h henabled hevents, Option.not_isSome_iff_eq_none.mp hgated]

private theorem startOrBuffer_streams {want clen : ℕ} {answer : List UInt8}
    (h : Accumulating head (.fixed want) d buf) (henabled : W.enabled = true)
    (hevents : isEventStream head = false) (hwant : want = wrap (head.length + clen))
    (hfull : answer.isEmpty = false)
    (hanswer : W.streamHead head (bodyLen (wrap (head.length + clen)) head.length) = some answer)
    (complete : Bool) :
    (want ≤ buf.length → ∃ n, startOrBuffer W (complete, d) = .ends (.streamed n)) ∧
      (buf.length < want → ∃ d', startOrBuffer W (complete, d) = .waits d' ∧
        Forwarding false (.fixed want) d' ∧
        d'.streamTarget = d'.streamForwarded + (want - buf.length)) := by
  have hsse : tryStartProxySse W d complete = none := by
    rw [tryStartProxySse, h.headEnd, h.acc]
    simp only [take_head_length h.head, hevents, Bool.false_eq_true, if_false, ite_self]
  have hstream : tryStartProxyStream W d = some (ProxyDial.afterSend { d with
      stream := true, streamTarget := want - head.length,
      streamForwarded := min (buf.length - head.length) (want - head.length), upAcc := [] }) := by
    rw [tryStartProxyStream, henabled, h.stream, h.headEnd, h.framing, h.acc]
    simp only [Bool.not_true, Bool.or_self, Bool.false_eq_true, if_false, take_head_length h.head,
      hwant, hanswer, Option.map_some, onStreamHeadReply, hfull, h.headEnd, Option.getD_some, h.acc,
      ProxyDial.streamTargetFromFraming, h.framing]
  have hle : head.length ≤ buf.length := h.head.length_le
  rw [startOrBuffer, hsse, hstream]
  simp only [ProxyDial.afterSend, h.sse, Bool.false_eq_true, if_false, decide_eq_true_eq]
  constructor
  · intro henough
    rw [if_pos (by omega)]
    exact ⟨_, rfl⟩
  · intro hshort
    rw [if_neg (by omega)]
    refine ⟨_, rfl, ⟨rfl, rfl, rfl, h.sseDone, h.framing⟩, ?_⟩
    dsimp only
    omega

private theorem same_ended {t : Turn} {e : Ending} (ht : t = .ends e) (cuts : List Cut)
    (u : Upstream)
    {read : Reader} (hread : ∀ cuts, (read cuts u).map Ending.ofRead = some (e, u)) :
    Same W t read cuts u := by
  intro n
  rw [hread, ht]
  cases cuts.take n <;> rfl

/-- A head the gate refuses fails the dial, and no blocking read. -/
theorem not_same_refused (h : Accumulating head framing d buf) (hrefused : ¬ W.Passes head)
    {read : Reader} (hread : read [] u = none ∨ ∃ reply, read [] u = some (.ok reply, u))
    (complete : Bool) (cuts : List Cut) :
    ¬ Same W (startOrBuffer W (complete, d)) read cuts u := by
  rw [Streaming.Passes, Classical.not_imp, Classical.not_imp] at hrefused
  obtain ⟨henabled, hevents, hgated⟩ := hrefused
  rw [startOrBuffer_refused h henabled hevents hgated]
  apply not_same
  rcases hread with hread | ⟨reply, hread⟩
  · rw [hread]
    exact Option.some_ne_none _
  · rw [hread]
    intro hsame
    cases hsame

private theorem readUntil_nil (want : ℕ) (buf : List UInt8) (u : Upstream) :
    readUntil want buf [] u = none ∨ ∃ reply, readUntil want buf [] u = some (.ok reply, u) := by
  by_cases henough : want ≤ buf.length
  · exact .inr ⟨buf, readUntil_full henough [] u⟩
  · exact .inl ((readUntil_waiting (Nat.not_le.mp henough)).nil u)

/-- A streamed reply: once all of it is there the blocking read has it, and the dial has forwarded
it. -/
theorem same_streamed {complete : Bool}
    (hmode : Mode W (readUntil want)
      (fun octets ended => ended = false ∧ octets.length < want) M)
    (hends : want ≤ buf.length →
      ∃ n, startOrBuffer W (complete, d) = .ends (.streamed n))
    (hwaits : buf.length < want →
      ∃ d', startOrBuffer W (complete, d) = .waits d' ∧ M d' buf) (cuts : List Cut)
    (u : Upstream) :
    Same W (startOrBuffer W (complete, d)) (readUntil want buf) cuts u ↔
      (received cuts u).2 = false ∧
        (buf ++ (received cuts u).1).length < want := by
  by_cases hshort : buf.length < want
  · obtain ⟨d', hwaits, hm⟩ := hwaits hshort
    rw [hwaits]
    exact hmode.same_iff hm cuts u
  · obtain ⟨n, hends⟩ := hends (Nat.not_lt.mp hshort)
    rw [hends]
    refine iff_of_false ?_ ?_
    · apply not_same
      rw [readUntil_full (Nat.not_lt.mp hshort)]
      intro hsame
      cases hsame
    · rintro ⟨-, hlen⟩
      rw [List.length_append] at hlen
      omega

section Sized

variable {clen : ℕ} (hclen : contentLength head = some clen)
  (h : Accumulating head (.fixed (wrap (head.length + clen))) d buf)
include hclen h

private theorem same_sized_buffered (hstarts : W.starts head = false) (cuts : List Cut)
    (u : Upstream) :
    Same W (startOrBuffer W (decide (wrap (head.length + clen) ≤ buf.length), d))
      (readUntil (wrap (head.length + clen)) buf) cuts u := by
  have hreply : d.replyComplete = (decide (wrap (head.length + clen) ≤ buf.length), d) := by
    simp only [ProxyDial.replyComplete, ProxyDial.framed, h.headEnd, h.framing, h.acc]
  rw [startOrBuffer_buffers h hstarts (fun _ => hreply) fun target htarget =>
    ⟨clen, hclen, (ReplyFraming.fixed.inj htarget).symm⟩]
  by_cases hshort : buf.length < wrap (head.length + clen)
  · rw [decide_eq_false (Nat.not_le.mpr hshort), buffered]
    exact ((buffered_fixed_mode hclen hstarts).same_iff ⟨h, hshort⟩ cuts u).mpr trivial
  · have henough := Nat.not_lt.mp hshort
    rw [decide_eq_true henough, buffered, h.acc]
    exact same_ended rfl cuts u fun cuts => by rw [readUntil_full henough]; rfl

private theorem same_sized (cuts : List Cut) (u : Upstream) :
    Same W (startOrBuffer W (decide (wrap (head.length + clen) ≤ buf.length), d))
        (readUntil (wrap (head.length + clen)) buf) cuts u ↔
      Unended W head (buf ++ (received cuts u).1) (received cuts u).2 := by
  rw [unended_sized hclen]
  by_cases hpasses : W.Passes head
  · simp only [hpasses, true_and]
    rcases starts_cases W head with
      hstarts | ⟨hstarts, henabled, hevents⟩ | ⟨hstarts, henabled, hevents, clen', answer, hclen',
        hfull, hanswer⟩
    · simp only [same_sized_buffered hclen h hstarts, hstarts, Bool.false_eq_true, false_implies]
    · obtain ⟨hends, d', hwaits, hd', -⟩ :=
        startOrBuffer_forwards h henabled hevents (hpasses henabled hevents)
      simp only [hstarts, true_implies]
      refine same_streamed (sse_fixed_mode _) (fun henough => ?_) (fun hshort => ?_)
        cuts u
      · rw [decide_eq_true henough]
        exact hends
      · rw [decide_eq_false (Nat.not_le.mpr hshort)]
        exact ⟨d', hwaits, hd', hshort⟩
    · rw [hclen] at hclen'
      obtain rfl := Option.some.inj hclen'
      obtain ⟨hends, hwaits⟩ := startOrBuffer_streams h henabled hevents rfl hfull hanswer
        (decide (wrap (head.length + clen) ≤ buf.length))
      simp only [hstarts, true_implies]
      refine same_streamed (stream_mode _) hends (fun hshort => ?_) cuts u
      obtain ⟨d', hwaits, hd', htarget⟩ := hwaits hshort
      exact ⟨d', hwaits, hd', hshort, htarget⟩
  · exact iff_of_false (not_same_refused h hpasses (readUntil_nil _ _ u) _ cuts) fun hc =>
      hpasses hc.1

end Sized

section Unsized

variable (hclen : contentLength head = none)
include hclen

private theorem events_of_starts (hstarts : W.starts head = true) :
    W.enabled = true ∧ isEventStream head = true := by
  rcases starts_cases W head with h | ⟨-, henabled, hevents⟩ | ⟨-, -, -, clen, -, hsome, -⟩
  · rw [hstarts] at h
    cases h
  · exact ⟨henabled, hevents⟩
  · rw [hclen] at hsome
    cases hsome

private theorem same_eof (hchunked : isChunked head = false) (h : Accumulating head .eof d buf)
    (cuts : List Cut) (u : Upstream) :
    Same W (startOrBuffer W (false, d)) (readToEnd buf) cuts u ↔
      Unended W head (buf ++ (received cuts u).1) (received cuts u).2 := by
  rw [unended_unsized hclen]
  simp only [hchunked, Bool.false_eq_true, false_implies, and_true]
  by_cases hpasses : W.Passes head
  · simp only [hpasses, true_and]
    cases hstarts : W.starts head with
    | false =>
      have hreply : d.replyComplete = (false, d) := by
        simp only [ProxyDial.replyComplete, ProxyDial.framed, h.headEnd, h.framing]
      rw [startOrBuffer_buffers h hstarts (fun _ => hreply) fun target htarget =>
        ReplyFraming.noConfusion htarget, buffered, (buffered_eof_mode hstarts).same_iff h]
      simp only [Bool.false_eq_true, false_implies]
    | true =>
      obtain ⟨henabled, hevents⟩ := events_of_starts hclen hstarts
      obtain ⟨-, d', hwaits, hd', -⟩ :=
        startOrBuffer_forwards h henabled hevents (hpasses henabled hevents)
      rw [hwaits, sse_eof_mode.same_iff hd']
      simp only [true_implies]
  · exact iff_of_false (not_same_refused h hpasses (.inl rfl) _ cuts) fun hc => hpasses hc.1

private theorem same_chunked (hchunked : isChunked head = true)
    (h : Accumulating head .chunked d buf)
    (hparser : d.chunkParser = (buf.drop head.length).foldl octet Chunked.new)
    (hfed : d.chunkFed = buf.length) (cuts : List Cut) (u : Upstream) :
    Same W (startOrBuffer W (endSeen buf head.length buf.length, d)) (readToEnd buf) cuts u ↔
      Unended W head (buf ++ (received cuts u).1) (received cuts u).2 := by
  rw [unended_unsized hclen]
  simp only [hchunked, true_implies]
  by_cases hpasses : W.Passes head
  · simp only [hpasses, true_and]
    have hbuffers : ∀ complete, W.starts head = false →
        startOrBuffer W (complete, d) = buffered (complete, d) := fun complete hstarts =>
      startOrBuffer_buffers h hstarts (fun hne => absurd rfl hne) fun target htarget =>
        ReplyFraming.noConfusion htarget
    have hforwards := fun hstarts : W.starts head = true =>
      startOrBuffer_forwards h (events_of_starts hclen hstarts).1 (events_of_starts hclen hstarts).2
        (hpasses (events_of_starts hclen hstarts).1 (events_of_starts hclen hstarts).2)
    cases hseen : endSeen buf head.length buf.length with
    | false =>
      have hparsing : Parsing head.length d buf := ⟨h.head.length_le, hparser, hseen⟩
      cases hstarts : W.starts head with
      | false =>
        rw [hbuffers false hstarts, buffered,
          (buffered_chunked_mode hstarts).same_iff ⟨h, hparsing, hfed⟩]
        simp only [Bool.false_eq_true, false_implies, true_and]
      | true =>
        obtain ⟨-, d', hwaits, hd', hparser'⟩ := hforwards hstarts
        rw [hwaits, (sse_chunked_mode head.length).same_iff
          ⟨hd', hparsing.le, hparser'.trans hparser, hseen⟩]
        simp only [true_implies]
    | true =>
      refine iff_of_false ?_ fun hc => ?_
      · apply not_same
        cases hstarts : W.starts head with
        | false =>
          rw [hbuffers true hstarts]
          exact Option.some_ne_none _
        | true =>
          obtain ⟨⟨n, hends⟩, -⟩ := hforwards hstarts
          rw [hends]
          exact Option.some_ne_none _
      · rw [endSeen_append h.head.length_le hseen] at hc
        exact Bool.true_eq_false.mp hc.2
  · exact iff_of_false (not_same_refused h hpasses (.inl rfl) _ cuts) fun hc => hpasses hc.1

end Unsized

/-! ## Until the head is there -/

private theorem startOrBuffer_headless (h : d.headEnd = none) (complete : Bool) :
    startOrBuffer W (complete, d) = buffered (complete, d) := by
  have hsse : tryStartProxySse W d complete = none := by
    rw [tryStartProxySse, h]
    exact ite_self _
  have hstream : tryStartProxyStream W d = none := by
    rw [tryStartProxyStream, h]
    exact ite_self _
  rw [startOrBuffer, hsse, hstream]

def Agreeing (W : Streaming) (octets : List UInt8) (ended : Bool) : Prop :=
  ∀ q, find crlfcrlf octets = some q → Unended W (octets.take (q + 4)) octets ended

private theorem agreeing_append (hp : find crlfcrlf buf = some p) (more : List UInt8)
    (ended : Bool) :
    Agreeing W (buf ++ more) ended ↔ Unended W (buf.take (p + 4)) (buf ++ more) ended := by
  have hfind := find_append hp more
  have htake : (buf ++ more).take (p + 4) = buf.take (p + 4) :=
    List.take_append_of_le_length (find_length hp)
  constructor
  · intro h
    have hunended := h p hfind
    rwa [htake] at hunended
  · intro h q hq
    rw [hfind] at hq
    obtain rfl := Option.some.inj hq
    rwa [htake]

private theorem length_take_found (hp : find crlfcrlf buf = some p) :
    (buf.take (p + 4)).length = p + 4 := by
  have hle : p + 4 ≤ buf.length := find_length hp
  rw [List.length_take, Nat.min_eq_left hle]

private theorem accumulating_found (hp : find crlfcrlf buf = some p) (framing : ReplyFraming)
    (parser : ChunkedParser) (fed : ℕ) :
    Accumulating (buf.take (p + 4)) framing
      ⟨buf, framing, some (p + 4), parser, fed, false, 0, 0, false, false⟩ buf :=
  ⟨rfl, rfl, rfl, rfl, congrArg some (length_take_found hp).symm, rfl, List.take_prefix _ _⟩

private theorem same_found (hp : find crlfcrlf buf = some p) (cuts : List Cut) (u : Upstream) :
    Same W (startOrBuffer W (ProxyDial.replyComplete { ProxyDial.new with upAcc := buf }))
        (readOn buf) cuts u ↔
      Unended W (buf.take (p + 4)) (buf ++ (received cuts u).1) (received cuts u).2 := by
  have hlength := length_take_found hp
  rw [readOn_found hp]
  simp only [ProxyDial.replyComplete, ProxyDial.framed, ProxyDial.new, hp]
  cases hclen : contentLength (buf.take (p + 4)) with
  | some clen =>
    have hsame := same_sized (W := W) hclen (accumulating_found hp _ Chunked.new 0) cuts u
    rwa [hlength] at hsame
  | none =>
    cases hchunked : isChunked (buf.take (p + 4)) with
    | true =>
      have hsame := same_chunked (W := W) hclen hchunked
        (accumulating_found hp _ ((buf.drop (p + 4)).foldl octet Chunked.new) buf.length)
        (by rw [hlength]) rfl cuts u
      rw [hlength, endSeen_length] at hsame
      simp only [if_true, advance_eq]
      exact hsame
    | false =>
      simp only [Bool.false_eq_true, if_false]
      exact same_eof hclen hchunked (accumulating_found hp _ Chunked.new 0) cuts u

private theorem head_mode : Mode W readOn (Agreeing W)
    (fun d buf => d = { ProxyDial.new with upAcc := buf } ∧ find crlfcrlf buf = none) where
  waiting h := readOn_waiting h.2
  start h q hq := by
    rw [h.2] at hq
    cases hq
  eof h := by
    obtain ⟨rfl, hnone⟩ := h
    refine iff_of_true rfl fun q hq => ?_
    rw [hnone] at hq
    cases hq
  block h b block := by
    obtain ⟨rfl, -⟩ := h
    rename_i buf
    rw [onProxyRecv_unstreamed rfl rfl]
    cases hp : find crlfcrlf (buf ++ b :: block) with
    | none =>
      have hreply : ProxyDial.replyComplete { ProxyDial.new with upAcc := buf ++ b :: block } =
          (false, { ProxyDial.new with upAcc := buf ++ b :: block }) := by
        simp only [ProxyDial.replyComplete, ProxyDial.framed, ProxyDial.new, hp]
      refine .inl ⟨_, ?_, rfl, rfl⟩
      dsimp only
      rw [hreply, startOrBuffer_headless rfl, buffered]
    | some p =>
      refine .inr fun cuts u => ?_
      rw [agreeing_append hp]
      exact same_found hp cuts u

/-- For every stream, ended or left open, and every cut of it, the native reading of a reply and the
blocking one end with the same receive and the same reply, or neither ends, exactly where what is
received holds no head, or only one after which neither a streamed nor a chunked reply ends. -/
theorem native_reply_agrees_iff (W : Streaming) (cuts : List Cut) (u : Upstream) :
    (∀ n, receives W (cuts.take n) (.waits .new) u =
        (readResponse (cuts.take n) u).map Ending.ofRead) ↔
      ∀ q, find crlfcrlf (received cuts u).1 = some q →
        Unended W ((received cuts u).1.take (q + 4)) (received cuts u).1 (received cuts u).2 :=
  head_mode.same_iff ⟨rfl, rfl⟩ cuts u

def chunkedReply : List UInt8 :=
  [72, 84, 84, 80, 47, 49, 46, 49, 32, 50, 48, 48, 32, 79, 75, 13, 10, 84, 114, 97, 110, 115, 102,
   101, 114, 45, 69, 110, 99, 111, 100, 105, 110, 103, 58, 32, 99, 104, 117, 110, 107, 101, 100, 13,
   10, 13, 10, 48, 13, 10, 13, 10]

/-- A chunked reply from an upstream that stays open: complete in the shard, and waited for for ever
by the blocking read. -/
theorem chunked_reply_differs :
    receives ⟨true, ⟨id, fun _ => id⟩, fun _ _ => none⟩ [.upTo 99, .upTo 99] (.waits .new)
        ⟨chunkedReply, false, []⟩ = some (.replied chunkedReply, ⟨[], false, chunkedReply⟩) ∧
      readResponse [.upTo 99, .upTo 99] ⟨chunkedReply, false, []⟩ = none := by
  refine ⟨?_, by decide +kernel⟩
  have hrecv : Upstream.recv readBlock (.upTo 99) ⟨chunkedReply, false, []⟩ =
      some (some chunkedReply, ⟨[], false, chunkedReply⟩) := by decide +kernel
  have hframed :
      ProxyDial.framed ⟨chunkedReply, .unknown, none, Chunked.new, 0, false, 0, 0, false, false⟩ =
        some ⟨chunkedReply, .chunked, some 47, Chunked.new, 47, false, 0, 0, false, false⟩ := by
    decide +kernel
  have hdone : Chunked.new.advance (chunkedReply.drop 47) = (true, ⟨.done, 0⟩) := by
    rw [advance_eq]
    decide +kernel
  have hcomplete : ProxyDial.replyComplete
        ⟨chunkedReply, .unknown, none, Chunked.new, 0, false, 0, 0, false, false⟩ =
      (true, ⟨chunkedReply, .chunked, some 47, ⟨.done, 0⟩, chunkedReply.length, false, 0, 0, false,
        false⟩) := by
    simp only [ProxyDial.replyComplete, hframed, hdone]
  have hevents : isEventStream (chunkedReply.take 47) = false := by decide +kernel
  have hturn : onProxyRecv ⟨true, ⟨id, fun _ => id⟩, fun _ _ => none⟩ .new chunkedReply =
      .ends (.replied chunkedReply) := by
    rw [onProxyRecv_unstreamed rfl rfl]
    change startOrBuffer _ (ProxyDial.replyComplete
      ⟨chunkedReply, .unknown, none, Chunked.new, 0, false, 0, 0, false, false⟩) = _
    rw [hcomplete]
    simp only [startOrBuffer, tryStartProxySse, hevents, Bool.false_eq_true, if_false, ite_self,
      tryStartProxyStream, buffered]
  rw [receives, hrecv]
  change receives _ _ (onProxyRecv _ .new chunkedReply) _ = _
  rw [hturn]
  rfl

end DragonsNet.Dataplane.NativeReply
