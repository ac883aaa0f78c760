/- GID: DragonsNet/Dataplane/UpstreamBoundaries
   source: migration/dataplane/host/src/proxy_dial.rs
   digest: Where a pooled socket stands and where a kept-alive response ends. -/

import DragonsNet.Dataplane.UpstreamPumps
import DragonsNet.Lib.Runs

set_option autoImplicit false

namespace DragonsNet.Dataplane.UpstreamBoundaries

open Lib.HttpChunks (Body hexValue crlf CR LF oneZero_ne oneZero_zero)
open Lib.Runs (run invariant_of_step)
open Dataplane.Chunked (wrap octet advance_eq done_iff)
open Dataplane.ResponseHeads
open Dataplane.Upstreams
open Dataplane.UpstreamPumps

/-! ## The body -/

def Parked (idle : Option (List UInt8)) : Prop := ∀ pipe, idle = some pipe → pipe = []

variable {p p' : Pump} {idle idle' : Option (List UInt8)} {pipes : Bool}

private theorem acquire_parked {pipe : List UInt8} (hidle : Parked idle)
    (h : acquire idle pipes = some pipe) : pipe = [] := by
  unfold acquire at h
  split at h
  · cases h
    exact hidle _ rfl
  · split at h
    · cases h
      rfl
    · cases h

private theorem relayed_cases {r : Option (Outcome × List UInt8 × List Cut × Pump)}
    {fallback : List Cut → Pump → Option (Bool × Pump)} {ok : Bool}
    (h : relayed r fallback = some (ok, p', idle')) :
    (∃ pipe cuts, r = some (.ran true, pipe, cuts, p') ∧ ok = true ∧ idle' = some pipe) ∨
    (ok = false ∧ idle' = none) ∨
    ∃ pipe cuts p₁, r = some (.unsupported, pipe, cuts, p₁) ∧ fallback cuts p₁ = some (ok, p') ∧
      idle' = some pipe := by
  unfold relayed at h
  split at h
  · cases h
  · cases h
    exact .inl ⟨_, _, rfl, rfl, rfl⟩
  · cases h
    exact .inr (.inl ⟨rfl, rfl⟩)
  · rename_i pipe cuts p₁
    obtain ⟨⟨ok', p₂⟩, hfallback, heq⟩ := Option.map_eq_some_iff.mp h
    cases heq
    exact .inr (.inr ⟨pipe, cuts, p₁, rfl, hfallback, rfl⟩)

private theorem bodyFixed_delivers {leftover : List UInt8} {clen : ℕ} {cuts : List Cut}
    (h : bodyFixed idle pipes leftover clen cuts p = some (true, p', idle')) :
    ∃ x, Reads p.up p'.up x ∧ clen ≤ leftover.length + x.length ∧
      (Parked idle → p'.client.written = p.client.written ++ (leftover ++ x).take clen) := by
  unfold bodyFixed at h
  dsimp only at h
  split at h
  · cases h
  · rename_i p₁ hwrite
    obtain ⟨hup, hwritten⟩ := write_ok hwrite
    -- What is delivered after the octets read with the head, whoever pumps it.
    have hafter : Delivers (clen - min leftover.length clen) p₁ p' →
        ∃ x, Reads p.up p'.up x ∧ clen ≤ leftover.length + x.length ∧
          (Parked idle → p'.client.written = p.client.written ++ (leftover ++ x).take clen) := by
      rintro ⟨x, hx, hn, hx'⟩
      rw [hup] at hx
      refine ⟨x, hx, by omega, ?_⟩
      intro _
      rw [hx', hwritten, List.append_assoc, List.take_append]
      by_cases hle : clen ≤ leftover.length
      · have hmin : min leftover.length clen = clen := by omega
        have hzero : clen - leftover.length = 0 := by omega
        rw [hmin, hzero, Nat.sub_self]
      · have hmin : min leftover.length clen = leftover.length := by omega
        have hlong : leftover.length ≤ clen := by omega
        rw [hmin, List.take_length, List.take_of_length_le hlong]
    split at h
    · rename_i hzero
      cases h
      rw [hzero] at hafter
      exact hafter (Delivers.none _)
    · split at h
      · rename_i pipe hacquire
        obtain ⟨pipe', cuts', hran, -, -⟩ | ⟨hfalse, -⟩ | ⟨pipe', cuts', p₂, hrefused, hfixed, -⟩ :=
          relayed_cases h
        · obtain ⟨⟨x, hx, hn⟩, hempty⟩ := moveExact_delivers hran
          by_cases hidle : Parked idle
          · exact hafter (hempty (acquire_parked hidle hacquire)).2
          · rw [hup] at hx
            exact ⟨x, hx, by omega, fun hparked => absurd hparked hidle⟩
        · cases hfalse
        · obtain ⟨-, -, -, rfl⟩ := moveExact_unsupported hrefused
          exact hafter (streamFixed_delivers hfixed)
      · obtain ⟨⟨ok, p₂⟩, hfixed, heq⟩ := Option.map_eq_some_iff.mp h
        cases heq
        exact hafter (streamFixed_delivers hfixed)

/-- The cuts of the reads that pump a body in user space: none where the kernel moves it. -/
def pumped (relay : Bool) (cuts : List Cut) : Option (List Cut) :=
  if relay then
    match cuts with
    | .refuse :: rest => some rest
    | _ => none
  else some cuts

/-- Where the reads of the rest of a body come to, from `pos` on, when it ends at `stop`. -/
def bodyEnd (relay : Bool) (len stop : ℕ) (cuts : List Cut) (pos : ℕ) : ℕ :=
  if stop ≤ pos then pos
  else
    match pumped relay cuts with
    | none => stop
    | some cuts => (readsTo streamChunk len (stop ≤ ·) cuts pos).1

private theorem moveExact_spliced {n : ℕ} {pipe pipe' : List UInt8} {cuts cuts' : List Cut}
    (hn : n ≠ 0)
    (h : moveExact true n pipe cuts p = some (.ran true, pipe', cuts', p')) :
    pumped true cuts = none := by
  cases cuts with
  | nil => rfl
  | cons c cuts =>
    cases c with
    | upTo n => rfl
    | fail => rfl
    | refuse =>
      unfold moveExact at h
      rw [if_neg hn] at h
      cases h

private theorem streamFixed_reaches {n : ℕ} {cuts : List Cut}
    (h : streamFixed [] n cuts p = some (true, p')) :
    (readsTo streamChunk (p.up.taken.length + p.up.stream.length) (p.up.taken.length + n ≤ ·) cuts
      p.up.taken.length).1 = p'.up.taken.length := by
  unfold streamFixed at h
  simp only [List.length_nil, Nat.zero_min, List.take_nil, Nat.sub_zero] at h
  split at h
  · cases h
  · rename_i p₁ hwrite
    obtain ⟨hup, -⟩ := write_ok hwrite
    rw [← hup]
    exact streamFixedLoop_reaches (by omega) h

private theorem bodyFixed_reaches {leftover : List UInt8} {clen stop : ℕ} {cuts : List Cut}
    (hstop : stop + leftover.length = p.up.taken.length + clen)
    (h : bodyFixed idle pipes leftover clen cuts p = some (true, p', idle')) :
    bodyEnd (acquire idle pipes).isSome (p.up.taken.length + p.up.stream.length) stop cuts
      p.up.taken.length = p'.up.taken.length := by
  unfold bodyFixed at h
  dsimp only at h
  unfold bodyEnd
  split at h
  · cases h
  · rename_i p₁ hwrite
    obtain ⟨hup, -⟩ := write_ok hwrite
    split at h
    · cases h
      rw [if_pos (by omega), hup]
    · rename_i hmore
      have hgoal : p₁.up.taken.length + (clen - min leftover.length clen) = stop := by
        rw [hup]
        omega
      -- what is left of the body, read in user space
      have hpump : ∀ {cuts' : List Cut},
          streamFixed [] (clen - min leftover.length clen) cuts' p₁ = some (true, p') →
          (readsTo streamChunk (p.up.taken.length + p.up.stream.length) (stop ≤ ·) cuts'
            p.up.taken.length).1 = p'.up.taken.length := by
        intro cuts' hfixed
        have hreached := streamFixed_reaches hfixed
        rw [hgoal, hup] at hreached
        exact hreached
      rw [if_neg (by omega)]
      split at h
      · rename_i pipe hacquire
        rw [hacquire, Option.isSome_some]
        obtain ⟨pipe', cuts', hran, -, -⟩ | ⟨hfalse, -⟩ | ⟨pipe', cuts', p₂, hrefused, hfixed, -⟩ :=
          relayed_cases h
        · obtain ⟨⟨x, hx, hn⟩, -⟩ := moveExact_delivers hran
          rw [moveExact_spliced hmore hran, hx.taken, List.length_append, hn]
          exact hgoal.symm
        · cases hfalse
        · obtain ⟨-, rfl, -, rfl⟩ := moveExact_unsupported hrefused
          exact hpump hfixed
      · rename_i hnone
        obtain ⟨⟨ok, p₂⟩, hfixed, heq⟩ := Option.map_eq_some_iff.mp h
        cases heq
        rw [hnone]
        exact hpump hfixed

def socks (d : Dials) : List Sock := (d.first.map Prod.fst).toList ++ d.fresh.toList

private theorem attempt_ok {α : Type} {d : Dials} {try_ : Sock → Option (Except Unit α)} {a : α}
    (h : d.attempt try_ = some (.ok a)) : ∃ s ∈ socks d, try_ s = some (.ok a) := by
  unfold Dials.attempt at h
  split at h
  · cases h
  · rename_i s reused hfirst
    have hmem : s ∈ socks d := by simp [socks, hfirst]
    split at h
    · split at h
      · split at h
        · cases h
        · rename_i fresh hfresh
          exact ⟨fresh, by simp [socks, hfresh], h⟩
      · cases h
    · exact ⟨s, hmem, h⟩

/-- The head of an exchange: read from the start of the socket's stream, and over its end as far as
the buffer says. -/
theorem sendAndReadHead_ok {s : Sock} {uh : UpstreamHead}
    (h : sendAndReadHead s = some (.ok uh)) :
    ∃ q, find crlfcrlf uh.buf = some q ∧ uh.headEnd = q + 4 ∧
      uh.clen = contentLength (uh.buf.take (q + 4)) ∧ uh.chunked = isChunked (uh.buf.take (q + 4)) ∧
      uh.up.taken = uh.buf ∧ s.stream = uh.buf ++ uh.up.stream ∧
      readsTo readBlock s.stream.length (q + 4 ≤ ·) s.cuts 0 = (uh.buf.length, uh.cuts) := by
  unfold sendAndReadHead at h
  split at h
  · split at h
    · cases h
    · cases h
    · cases h
    · rename_i buf headEnd up cuts hread
      cases h
      obtain ⟨x, hx, hbuf, q, hq, rfl⟩ := readHead_reads hread
      rw [List.nil_append] at hbuf
      subst hbuf
      refine ⟨q, hq, rfl, rfl, rfl, hx.taken, hx.stream, ?_⟩
      have hstream : s.stream = buf ++ up.stream := hx.stream
      have hwhole : find crlfcrlf ([] ++ s.stream) = some q := by
        rw [List.nil_append, hstream]
        exact find_append hq up.stream
      have hreached := readHead_reaches hwhole hread
      rw [List.length_nil, Nat.zero_add] at hreached
      exact hreached
  · cases h

private theorem streamFrom_cases {S : Seams} {x : Exchange} {uh : UpstreamHead} {r : Streamed}
    (h : streamFrom S x idle uh = some r) :
    (r.keepalive = false ∧ r.pooled = false ∧ r.idle = idle) ∨
    ∃ (head : List UInt8) (client : Client) (p : Pump),
      S.clientRespHead (uh.buf.take uh.headEnd)
        (x.keepaliveReq && (uh.clen.isSome || uh.chunked)) = some head ∧
      x.client.writeAll head = (true, client) ∧
      body uh.clen uh.chunked idle x.pipes (uh.buf.drop uh.headEnd) uh.cuts
        ⟨uh.up, client, head.length⟩ = some (r.complete, p, r.idle) ∧
      r.head = head ∧ r.up = p.up ∧ r.client = p.client ∧
      r.keepalive = (x.keepaliveReq && (uh.clen.isSome || uh.chunked) && r.complete) ∧
      r.pooled = (r.complete && uh.clen.isSome && respUpstreamKeepalive (uh.buf.take uh.headEnd)) := by
  unfold streamFrom at h
  dsimp only at h
  split at h
  · cases h
    exact .inl ⟨rfl, rfl, rfl⟩
  · rename_i head hhead
    split at h
    · cases h
      exact .inl ⟨rfl, rfl, rfl⟩
    · rename_i client hwrite
      obtain ⟨⟨complete, p, idle'⟩, hbody, heq⟩ := Option.map_eq_some_iff.mp h
      cases heq
      exact .inr ⟨head, client, p, hhead, hwrite, hbody, rfl, rfl, rfl, rfl, rfl⟩

private theorem spliced_ok {S : Seams} {x : Exchange} {r : Streamed}
    (h : forwardStreamingSpliced S x idle = some (.ok r)) :
    ∃ s ∈ socks x.dials, ∃ uh, sendAndReadHead s = some (.ok uh) ∧
      streamFrom S x idle uh = some r := by
  unfold forwardStreamingSpliced at h
  split at h
  · cases h
  · cases h
  · rename_i uh hattempt
    obtain ⟨r', hr', heq⟩ := Option.map_eq_some_iff.mp h
    cases heq
    obtain ⟨s, hs, hsend⟩ := attempt_ok hattempt
    exact ⟨s, hs, uh, hsend, hr'⟩

/-! ## Pooled sockets -/

/-- The octets are a response head and as many after it as its Content-Length says. -/
def atBoundary (octets : List UInt8) : Bool :=
  match find crlfcrlf octets with
  | none => false
  | some q =>
    match contentLength (octets.take (q + 4)) with
    | none => false
    | some clen => octets.length == q + 4 + clen

/-- Where the reads of a response by Content-Length come to: those that find its head, and those of
what is then left of its body. -/
def readEnd (s : Sock) (relay : Bool) (headEnd clen : ℕ) : ℕ :=
  let head := readsTo readBlock s.stream.length (headEnd ≤ ·) s.cuts 0
  bodyEnd relay s.stream.length (headEnd + clen) head.2 head.1

/-- No read passes the end of a response by Content-Length. -/
def Aligned (s : Sock) (relay : Bool) : Prop :=
  ∀ q clen, find crlfcrlf s.stream = some q → contentLength (s.stream.take (q + 4)) = some clen →
    readEnd s relay (q + 4) clen ≤ q + 4 + clen

private theorem parseDigits_lt {v : List UInt8} {n : ℕ} (h : parseDigits v = some n) : n < 2 ^ 64 :=
    by
  unfold parseDigits at h
  split at h
  · cases h
  · dsimp only at h
    split at h
    · rename_i hlt
      cases h
      exact hlt
    · cases h

private theorem contentLength_lt {head : List UInt8} {n : ℕ} (h : contentLength head = some n) :
    n < 2 ^ 64 := by
  unfold contentLength at h
  obtain ⟨v, -, hv⟩ := Option.bind_eq_some_iff.mp h
  unfold parseUsize at hv
  split at hv
  · exact parseDigits_lt hv
  · exact parseDigits_lt hv

private theorem take_append_head {buf more : List UInt8} {q : ℕ} (h : find crlfcrlf buf = some q) :
    (buf ++ more).take (q + 4) = buf.take (q + 4) := by
  have hlength := find_length h
  have hle : q + 4 ≤ buf.length := hlength
  rw [List.take_append_of_le_length hle]

private theorem poolsForward_boundary {S : Seams} {resp : List UInt8}
    (h : S.poolsForward resp = true) :
    atBoundary resp = true := by
  unfold Seams.poolsForward at h
  unfold atBoundary
  cases hq : find crlfcrlf resp with
  | none =>
    rw [hq] at h
    cases h
  | some q =>
    have hlength : q + 4 ≤ resp.length := find_length hq
    simp only [hq, Bool.and_eq_true] at h ⊢
    obtain ⟨-, h⟩ := h
    cases hclen : contentLength (resp.take (q + 4)) with
    | none =>
      rw [hclen] at h
      cases h
    | some clen =>
      have hlt := contentLength_lt hclen
      simp only [hclen, Bool.and_eq_true, beq_iff_eq] at h ⊢
      -- A sum past the word would be below the head's own length.
      have hwrap : resp.length = (q + 4 + clen) % 2 ^ 64 := h.1
      have hsmall : q + 4 + clen < 2 ^ 64 := by omega
      rw [Nat.mod_eq_of_lt hsmall] at hwrap
      exact hwrap

private theorem forward_boundary {S : Seams} {d : Dials} {r : Forwarded}
    (h : forward S d = some (.ok r)) (hpooled : r.pooled = true) :
    ∃ s ∈ socks d, s.stream = r.up.taken ++ r.up.stream ∧ atBoundary r.up.taken = true := by
  obtain ⟨s, hs, hr⟩ := attempt_ok h
  obtain ⟨⟨res, up⟩, honce, heq⟩ := Option.map_eq_some_iff.mp hr
  cases res with
  | error e => cases heq
  | ok resp =>
    cases heq
    unfold forwardOnce at honce
    split at honce
    · have hreads := readResponse_reads honce
      have htaken : up.taken = resp := hreads.taken
      refine ⟨s, hs, ?_, ?_⟩
      · rw [htaken]
        exact hreads.stream
      · rw [htaken]
        exact poolsForward_boundary hpooled
    · cases honce

private theorem spliced_boundary {S : Seams} {x : Exchange} {r : Streamed}
    (h : forwardStreamingSpliced S x idle = some (.ok r)) (hpooled : r.pooled = true) :
    ∃ s ∈ socks x.dials, s.stream = r.up.taken ++ r.up.stream ∧
      (atBoundary r.up.taken = true ↔ Aligned s (acquire idle x.pipes).isSome) := by
  obtain ⟨s, hs, uh, hsend, hstream⟩ := spliced_ok h
  obtain ⟨q, hq, hend, hclen, -, htaken, hwhole, hreached⟩ := sendAndReadHead_ok hsend
  obtain ⟨-, hnot, -⟩ | ⟨head, client, p, -, -, hbody, -, hup, -, -, hpool⟩ := streamFrom_cases hstream
  · rw [hnot] at hpooled
    cases hpooled
  · rw [hpool, Bool.and_eq_true, Bool.and_eq_true] at hpooled
    obtain ⟨⟨hcomplete, hsome⟩, -⟩ := hpooled
    obtain ⟨clen, hclen'⟩ := Option.isSome_iff_exists.mp hsome
    rw [hcomplete, hclen'] at hbody
    obtain ⟨y, hy, henough, -⟩ := bodyFixed_delivers hbody
    have htaken' : p.up.taken = uh.buf ++ y := by
      rw [hy.taken]
      exact congrArg (· ++ y) htaken
    have hstream' : s.stream = uh.buf ++ (y ++ p.up.stream) := by
      rw [hwhole]
      exact congrArg (uh.buf ++ ·) hy.stream
    have hbuf : q + 4 ≤ uh.buf.length := find_length hq
    rw [List.length_drop, hend] at henough
    -- the reads come to where the socket was left
    have hposition : readEnd s (acquire idle x.pipes).isSome (q + 4) clen = p.up.taken.length := by
      have hlen : s.stream.length = uh.up.taken.length + uh.up.stream.length := by
        rw [hwhole, List.length_append, htaken]
      rw [readEnd, hreached, ← htaken, hlen]
      refine bodyFixed_reaches ?_ hbody
      show q + 4 + clen + (uh.buf.drop uh.headEnd).length = uh.up.taken.length + clen
      rw [List.length_drop, hend, htaken]
      omega
    have hboundary : atBoundary p.up.taken = true ↔ p.up.taken.length = q + 4 + clen := by
      rw [htaken', atBoundary, find_append hq]
      simp only [take_append_head hq, ← hclen, hclen', beq_iff_eq]
    refine ⟨s, hs, ?_, ?_⟩
    · rw [hup, htaken', List.append_assoc]
      exact hstream'
    · rw [hup, hboundary]
      have hlong : q + 4 + clen ≤ p.up.taken.length := by
        rw [htaken', List.length_append]
        omega
      constructor
      · intro hexact q' clen' hq' hclen''
        rw [hstream', find_append hq] at hq'
        obtain rfl := Option.some.inj hq'
        rw [hstream', take_append_head hq, ← hclen, hclen'] at hclen''
        obtain rfl := Option.some.inj hclen''
        rw [hposition, hexact]
      · intro haligned
        have hle := haligned q clen (hstream' ▸ find_append hq _)
          (by rw [hstream', take_append_head hq, ← hclen, hclen'])
        rw [hposition] at hle
        omega

/-- Whatever the upstream sends and however it is cut, whatever the client does: `forward` pools a
socket only after exactly a response head and its Content-Length octets, and the streamed forward
has left a socket it pools there just where no read passed the end of the response. -/
theorem pooled_at_boundary_iff (S : Seams) :
    (∀ (d : Dials) (r : Forwarded), forward S d = some (.ok r) → r.pooled = true →
      ∃ s ∈ socks d, s.stream = r.up.taken ++ r.up.stream ∧ atBoundary r.up.taken = true) ∧
    ∀ (x : Exchange) (idle : Option (List UInt8)) (r : Streamed),
      forwardStreamingSpliced S x idle = some (.ok r) → r.pooled = true →
      ∃ s ∈ socks x.dials, s.stream = r.up.taken ++ r.up.stream ∧
        (atBoundary r.up.taken = true ↔ Aligned s (acquire idle x.pipes).isSome) := by
  constructor
  · intro d r h hpooled
    exact forward_boundary h hpooled
  · intro x idle r h hpooled
    exact spliced_boundary h hpooled

def plainSeams : Seams := ⟨fun block => 0 :: block, fun _ head => head⟩

def fixedHead : List UInt8 :=
  [72, 84, 84, 80, 47, 49, 46, 49, 32, 50, 48, 48, 32, 79, 75, 13, 10, 67, 111, 110, 116, 101,
   110, 116, 45, 76, 101, 110, 103, 116, 104, 58, 32, 50, 13, 10, 13, 10]

def oneDial (stream : List UInt8) (cuts : List Cut) : Exchange :=
  ⟨⟨some (⟨true, stream, false, cuts⟩, false), none⟩, true, ⟨[], [100, 100, 100]⟩, true⟩

/-- The body's two octets, one read with the head and one spliced, before the start of another
response. -/
theorem twoOctets_pooled :
    ∃ r, forwardStreamingSpliced plainSeams
        (oneDial (fixedHead ++ [97, 98, 72]) [.upTo 38, .upTo 9]) none = some (.ok r) ∧
      r.pooled = true ∧ atBoundary r.up.taken = true := by
  have hrun : ∃ r, forwardStreamingSpliced plainSeams
      (oneDial (fixedHead ++ [97, 98, 72]) [.upTo 38, .upTo 9]) none = some (.ok r) ∧
      r.pooled = true := ⟨_, rfl, rfl⟩
  obtain ⟨r, hr, hpooled⟩ := hrun
  obtain ⟨s, hs, -, hboundary⟩ := (pooled_at_boundary_iff plainSeams).2 _ none r hr hpooled
  obtain rfl := List.mem_singleton.mp hs
  refine ⟨r, hr, hpooled, hboundary.mpr ?_⟩
  intro q clen hq hclen
  have hfind : find crlfcrlf (fixedHead ++ [97, 98, 72]) = some 34 := by decide
  obtain rfl : 34 = q := Option.some.inj (hfind.symm.trans hq)
  have hlength : contentLength ((fixedHead ++ [97, 98, 72]).take 38) = some 2 := by decide +kernel
  obtain rfl : 2 = clen := Option.some.inj (hlength.symm.trans hclen)
  decide +kernel

/-- An octet past the body, read with the head, is lost to the socket that is pooled. -/
theorem overread_is_pooled :
    ∃ r, forwardStreamingSpliced plainSeams (oneDial (fixedHead ++ [97, 98, 72]) [.upTo 99]) none =
        some (.ok r) ∧ r.pooled = true ∧ atBoundary r.up.taken = false :=
  ⟨_, rfl, rfl, rfl⟩

/-! ## Kept-alive responses -/

/-- The body that the octets `after` a response head begin with: where the head declares chunks, a
chunked body through the CRLF that ends its trailer section, whatever length it gives besides;
otherwise the Content-Length octets. -/
inductive Framed (head after : List UInt8) : List UInt8 → Prop
  | chunked (chunked : isChunked head = true) (body : Body) {more : List UInt8}
      (begins : after = body.octets ++ more) : Framed head after body.octets
  | fixed {clen : ℕ} (unchunked : isChunked head = false) (fixed : contentLength head = some clen)
      (whole : clen ≤ after.length) : Framed head after (after.take clen)

section Framing

variable {leftover : List UInt8} {cuts : List Cut}

end Framing

end DragonsNet.Dataplane.UpstreamBoundaries
