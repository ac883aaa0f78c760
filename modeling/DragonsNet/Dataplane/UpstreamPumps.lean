/- GID: DragonsNet/Dataplane/UpstreamPumps
   source: migration/dataplane/host/src/proxy_dial.rs
   digest: Where the octets each pump takes from an upstream go. -/

import DragonsNet.Dataplane.Upstreams

set_option autoImplicit false

namespace DragonsNet.Dataplane.UpstreamPumps

open Dataplane.Chunked (wrap ChunkedParser octet advance_eq)
open Dataplane.ResponseHeads
open Dataplane.Upstreams

/-- The octets `x` have been read from the socket between `u` and `u'`. -/
structure Reads (u u' : Upstream) (x : List UInt8) : Prop where
  taken : u'.taken = u.taken ++ x
  stream : u.stream = x ++ u'.stream

variable {u u' u'' : Upstream} {x y : List UInt8} {block : List UInt8} {c : Cut}
  {buf buf' : List UInt8} {cuts : List Cut} {n : ℕ} {pipe pipe' : List UInt8} {first : Bool}
  {parser : ChunkedParser} {stream : List UInt8} {leftover : List UInt8}

theorem Reads.refl (u : Upstream) : Reads u u [] := ⟨(List.append_nil _).symm, rfl⟩

theorem Reads.trans (h : Reads u u' x) (h' : Reads u' u'' y) : Reads u u'' (x ++ y) := by
  constructor
  · rw [h'.taken, h.taken, List.append_assoc]
  · rw [h.stream, h'.stream, List.append_assoc]

private theorem recv_reads {cap : ℕ} (h : u.recv cap c = some (some block, u')) :
    Reads u u' block ∧ block.length ≤ cap := by
  cases c with
  | fail => cases h
  | refuse => cases h
  | upTo n =>
    simp only [Upstream.recv] at h
    by_cases hend : u.stream = []
    · rw [if_pos hend] at h
      split at h
      · cases h
        exact ⟨Reads.refl u, Nat.zero_le cap⟩
      · cases h
    · rw [if_neg hend] at h
      cases h
      refine ⟨⟨rfl, (List.take_append_drop _ _).symm⟩, ?_⟩
      rw [List.length_take]
      omega

private theorem recv_error {cap : ℕ} (h : u.recv cap c = some (none, u')) : u' = u := by
  cases c with
  | fail =>
    cases h
    rfl
  | refuse =>
    cases h
    rfl
  | upTo n =>
    simp only [Upstream.recv] at h
    split at h
    · split at h <;> cases h
    · cases h

theorem recv_cases (u : Upstream) (cap : ℕ) (c : Cut) :
    u.recv cap c = none ∨ u.recv cap c = some (none, u) ∨
      (∃ u', u.recv cap c = some (some [], u') ∧ Reads u u' []) ∨
      ∃ b block u', u.recv cap c = some (some (b :: block), u') ∧ Reads u u' (b :: block) ∧
        (b :: block).length ≤ cap := by
  rcases hrecv : u.recv cap c with _ | ⟨_ | block, u'⟩
  · exact .inl rfl
  · rw [recv_error hrecv]
    exact .inr (.inl rfl)
  · obtain ⟨hreads, hcap⟩ := recv_reads hrecv
    cases block with
    | nil => exact .inr (.inr (.inl ⟨u', rfl, hreads⟩))
    | cons b block => exact .inr (.inr (.inr ⟨b, block, u', rfl, hreads, hcap⟩))

private theorem recv_block {cap : ℕ} {b : UInt8} (h : u.recv cap c = some (some (b :: block), u')) :
    ∃ n, c = .upTo n ∧ (b :: block).length = min (min (n + 1) cap) u.stream.length := by
  cases c with
  | fail => cases h
  | refuse => cases h
  | upTo n =>
    refine ⟨n, rfl, ?_⟩
    simp only [Upstream.recv] at h
    split at h
    · split at h <;> cases h
    · obtain ⟨hblock, -⟩ := Prod.mk.inj (Option.some.inj h)
      rw [← Option.some.inj hblock, List.length_take]

/-! ## Where reads end -/

/-- Where reads cut so come to from `pos` on, in a stream of `len` octets, when they go on until
something is met, and the cuts that are left. -/
def readsTo (cap len : ℕ) (met : ℕ → Bool) : List Cut → ℕ → ℕ × List Cut
  | [], pos => (pos, [])
  | c :: cuts, pos =>
    if met pos then (pos, c :: cuts)
    else
      match c with
      | .upTo n => readsTo cap len met cuts (pos + min (min (n + 1) cap) (len - pos))
      | .fail => (pos, cuts)
      | .refuse => (pos, cuts)

variable {cap len pos : ℕ} {met : ℕ → Bool}

private theorem readsTo_met (h : met pos = true) (cuts : List Cut) :
    readsTo cap len met cuts pos = (pos, cuts) := by
  cases cuts with
  | nil => rfl
  | cons c cuts =>
    unfold readsTo
    rw [if_pos h]

private theorem readsTo_block {b : UInt8} (h : u.recv cap c = some (some (b :: block), u'))
    (hlen : len = pos + u.stream.length) (hmet : met pos = false) (cuts : List Cut) :
    readsTo cap len met (c :: cuts) pos = readsTo cap len met cuts (pos + (b :: block).length) := by
  obtain ⟨n, rfl, hblock⟩ := recv_block h
  have hleft : len - pos = u.stream.length := by omega
  rw [readsTo, hmet, if_neg Bool.false_ne_true, hblock, hleft]

/-! ## The buffered reads -/

/-- What the reading of a head leaves: every octet it added to the buffer was read, and the head ends
at the buffer's first CRLFCRLF. -/
def HeadReads (buf : List UInt8) (u u' : Upstream) (r : HeadRead) : Prop :=
  ∃ x, Reads u u' x ∧
    match r with
    | .head buf' headEnd => buf' = buf ++ x ∧ ∃ p, find crlfcrlf buf' = some p ∧ headEnd = p + 4
    | .closed buf' => buf' = buf ++ x
    | .failed => True

theorem HeadReads.found {buf : List UInt8} {p : ℕ} (hp : find crlfcrlf buf = some p) :
    HeadReads buf u u (.head buf (p + 4)) :=
  ⟨[], Reads.refl u, (List.append_nil buf).symm, p, hp, rfl⟩

theorem HeadReads.cons {buf block : List UInt8} {r : HeadRead} (h : Reads u u' block)
    (hrest : HeadReads (buf ++ block) u' u'' r) : HeadReads buf u u'' r := by
  obtain ⟨x, hx, hr⟩ := hrest
  refine ⟨block ++ x, h.trans hx, ?_⟩
  cases r with
  | head buf' headEnd => exact ⟨by rw [hr.1, List.append_assoc], hr.2⟩
  | closed buf' => exact hr.trans (List.append_assoc buf block x)
  | failed => trivial

theorem readHead_reads {buf : List UInt8} {cuts cuts' : List Cut} {r : HeadRead}
    (h : readHead buf cuts u = some (r, u', cuts')) : HeadReads buf u u' r := by
  induction cuts generalizing buf u with
  | nil =>
    unfold readHead at h
    cases hp : find crlfcrlf buf with
    | none =>
      rw [hp] at h
      cases h
    | some p =>
      rw [hp] at h
      cases h
      exact HeadReads.found hp
  | cons c cuts ih =>
    unfold readHead at h
    cases hp : find crlfcrlf buf with
    | some p =>
      rw [hp] at h
      cases h
      exact HeadReads.found hp
    | none =>
      simp only [hp] at h
      rcases recv_cases u readBlock c with
          hr | hr | ⟨u₁, hr, hreads⟩ | ⟨b, block, u₁, hr, hreads, -⟩ <;> rw [hr] at h
      · cases h
      · cases h
        exact ⟨[], Reads.refl _, trivial⟩
      · cases h
        exact ⟨[], hreads, (List.append_nil buf).symm⟩
      · exact HeadReads.cons hreads (ih h)

private theorem found_within {rest : List UInt8} {p q : ℕ} (hp : find crlfcrlf buf = some p)
    (hq : find crlfcrlf (buf ++ rest) = some q) : q + 4 ≤ buf.length := by
  have hsame : p = q := Option.some.inj ((find_append hp rest).symm.trans hq)
  exact hsame ▸ find_length hp

/-- The reads of a head go on until they have its end. -/
theorem readHead_reaches {q headEnd : ℕ} {cuts cuts' : List Cut}
    (hq : find crlfcrlf (buf ++ u.stream) = some q)
    (h : readHead buf cuts u = some (.head buf' headEnd, u', cuts')) :
    readsTo readBlock (buf.length + u.stream.length) (q + 4 ≤ ·) cuts buf.length =
      (buf'.length, cuts') := by
  induction cuts generalizing buf u with
  | nil =>
    unfold readHead at h
    cases hp : find crlfcrlf buf with
    | none =>
      rw [hp] at h
      cases h
    | some p =>
      rw [hp] at h
      cases h
      rfl
  | cons c cuts ih =>
    unfold readHead at h
    cases hp : find crlfcrlf buf with
    | some p =>
      rw [hp] at h
      cases h
      exact readsTo_met (decide_eq_true (found_within hp hq)) _
    | none =>
      simp only [hp] at h
      have hshort : decide (q + 4 ≤ buf.length) = false := by
        refine decide_eq_false fun hle => ?_
        rw [find_of_append (by decide) hq hle] at hp
        cases hp
      rcases recv_cases u readBlock c with
          hr | hr | ⟨u₁, hr, hreads⟩ | ⟨b, block, u₁, hr, hreads, -⟩
      · rw [hr] at h
        cases h
      · rw [hr] at h
        cases h
      · rw [hr] at h
        cases h
      · have hstream := hreads.stream
        rw [readsTo_block hr rfl hshort]
        rw [hr] at h
        have hlen : buf.length + u.stream.length = (buf ++ b :: block).length + u₁.stream.length := by
          rw [hstream, List.length_append, List.length_append]
          omega
        have hpos : buf.length + (b :: block).length = (buf ++ b :: block).length :=
          List.length_append.symm
        rw [hlen, hpos]
        rw [hstream, ← List.append_assoc] at hq
        exact ih hq h

private theorem readUntil_reads {want : ℕ} (h : readUntil want buf cuts u = some (.ok buf', u')) :
    ∃ x, Reads u u' x ∧ buf' = buf ++ x := by
  induction cuts generalizing buf u with
  | nil =>
    unfold readUntil at h
    split at h
    · cases h
      exact ⟨[], Reads.refl _, (List.append_nil _).symm⟩
    · cases h
  | cons c cuts ih =>
    unfold readUntil at h
    split at h
    · cases h
      exact ⟨[], Reads.refl _, (List.append_nil _).symm⟩
    · rcases recv_cases u readBlock c with
          hr | hr | ⟨u₁, hr, hreads⟩ | ⟨b, block, u₁, hr, hreads, -⟩ <;> rw [hr] at h
      · cases h
      · cases h
      · cases h
        exact ⟨[], hreads, (List.append_nil _).symm⟩
      · obtain ⟨x, hx, hbuf⟩ := ih h
        exact ⟨b :: block ++ x, hreads.trans hx, by rw [hbuf, List.append_assoc]⟩

private theorem readToEnd_reads (h : readToEnd buf cuts u = some (.ok buf', u')) :
    ∃ x, Reads u u' x ∧ buf' = buf ++ x := by
  induction cuts generalizing buf u with
  | nil => cases h
  | cons c cuts ih =>
    unfold readToEnd at h
    rcases recv_cases u readBlock c with
        hr | hr | ⟨u₁, hr, hreads⟩ | ⟨b, block, u₁, hr, hreads, -⟩ <;> rw [hr] at h
    · cases h
    · cases h
    · cases h
      exact ⟨[], hreads, (List.append_nil _).symm⟩
    · obtain ⟨x, hx, hbuf⟩ := ih h
      exact ⟨b :: block ++ x, hreads.trans hx, by rw [hbuf, List.append_assoc]⟩

theorem readResponse_reads {resp : List UInt8} (h : readResponse cuts u = some (.ok resp, u')) :
    Reads u u' resp := by
  unfold readResponse at h
  cases hhead : readHead [] cuts u with
  | none =>
    rw [hhead] at h
    cases h
  | some r =>
    obtain ⟨r, u₁, cuts₁⟩ := r
    obtain ⟨x, hx, hr⟩ := readHead_reads hhead
    rw [hhead] at h
    cases r with
    | failed => cases h
    | closed buf =>
      cases h
      rw [hr, List.nil_append]
      exact hx
    | head buf headEnd =>
      obtain ⟨hbuf, -⟩ := hr
      rw [List.nil_append] at hbuf
      dsimp only at h
      split at h
      · obtain ⟨y, hy, hresp⟩ := readUntil_reads h
        rw [hresp, hbuf]
        exact hx.trans hy
      · obtain ⟨y, hy, hresp⟩ := readToEnd_reads h
        rw [hresp, hbuf]
        exact hx.trans hy

/-! ## The client -/

theorem writeAll_written {data : List UInt8} {takes : List ℕ} {written : List UInt8} {c : Client}
    (h : writeAll data takes written = (true, c)) : c.written = written ++ data := by
  induction takes generalizing data written with
  | nil =>
    unfold writeAll at h
    obtain ⟨hempty, rfl⟩ := Prod.mk.inj h
    rw [List.isEmpty_iff.mp hempty, List.append_nil]
  | cons k takes ih =>
    unfold writeAll at h
    split at h
    · rename_i hempty
      cases h
      rw [List.isEmpty_iff.mp hempty, List.append_nil]
    · split at h
      · cases h
      · rw [ih h, List.append_assoc, List.take_append_drop]

variable {p p' : Pump}

theorem write_ok {data : List UInt8} (h : p.write data = (true, p')) :
    p'.up = p.up ∧ p'.client.written = p.client.written ++ data := by
  unfold Pump.write at h
  split at h
  · rename_i client hwrite
    cases h
    exact ⟨rfl, writeAll_written hwrite⟩
  · cases h

private theorem drain_ok (h : drain n pipe p = (true, pipe', p')) :
    p'.up = p.up ∧ p'.client.written = p.client.written ++ pipe.take n ∧ pipe' = pipe.drop n := by
  unfold drain at h
  generalize hwrite : p.client.writeAll (pipe.take n) = r at h
  obtain ⟨ok, client⟩ := r
  cases h
  have hwritten := writeAll_written hwrite
  refine ⟨rfl, hwritten, ?_⟩
  have hmoved : client.written.length - p.client.written.length = min n pipe.length := by
    rw [hwritten, List.length_append, List.length_take]
    omega
  rw [hmoved]
  by_cases hle : n ≤ pipe.length
  · rw [Nat.min_eq_left hle]
  · rw [List.drop_eq_nil_of_le (by omega), List.drop_eq_nil_of_le (by omega)]

/-! ## The pumps -/

/-- At least `n` octets taken, and the first `n` of them written. -/
def Delivers (n : ℕ) (p p' : Pump) : Prop :=
  ∃ x, Reads p.up p'.up x ∧ n ≤ x.length ∧
    p'.client.written = p.client.written ++ x.take n

theorem Delivers.none (p : Pump) : Delivers 0 p p :=
  ⟨[], Reads.refl p.up, Nat.zero_le 0, (List.append_nil _).symm⟩

theorem Delivers.cons {up : Upstream} {p₁ p₂ : Pump} (hreads : Reads p.up up block)
    (hup : p₁.up = up)
    (hwritten : p₁.client.written = p.client.written ++ block.take (min block.length n))
    (hrest : Delivers (n - min block.length n) p₁ p₂) : Delivers n p p₂ := by
  obtain ⟨x, hx, hn, hx'⟩ := hrest
  rw [hup] at hx
  refine ⟨block ++ x, hreads.trans hx, ?_, ?_⟩
  · rw [List.length_append]
    omega
  · rw [hx', hwritten, List.append_assoc, List.take_append]
    by_cases hle : n ≤ block.length
    · have hmin : min block.length n = n := by omega
      have hzero : n - block.length = 0 := by omega
      rw [hmin, Nat.sub_self, hzero]
    · have hmin : min block.length n = block.length := by omega
      have hlong : block.length ≤ n := by omega
      rw [hmin, List.take_length, List.take_of_length_le hlong]

private theorem streamFixedLoop_delivers (h : streamFixedLoop n cuts p = some (true, p')) :
    Delivers n p p' := by
  induction cuts generalizing n p with
  | nil =>
    unfold streamFixedLoop at h
    split at h
    · rename_i hn
      cases h
      rw [hn]
      exact Delivers.none _
    · cases h
  | cons c cuts ih =>
    unfold streamFixedLoop at h
    split at h
    · rename_i hn
      cases h
      rw [hn]
      exact Delivers.none _
    · rcases recv_cases p.up streamChunk c with
          hr | hr | ⟨up, hr, -⟩ | ⟨b, block, up, hr, hreads, -⟩ <;> rw [hr] at h
      · cases h
      · cases h
      · cases h
      · dsimp only at h
        split at h
        · cases h
        · rename_i p₁ hwrite
          obtain ⟨hup, hwritten⟩ := write_ok hwrite
          exact Delivers.cons hreads hup hwritten (ih h)

theorem streamFixedLoop_reaches {n e : ℕ} (hn : n = e - p.up.taken.length)
    (h : streamFixedLoop n cuts p = some (true, p')) :
    (readsTo streamChunk (p.up.taken.length + p.up.stream.length) (e ≤ ·) cuts
      p.up.taken.length).1 = p'.up.taken.length := by
  induction cuts generalizing n p with
  | nil =>
    unfold streamFixedLoop at h
    split at h
    · cases h
      rfl
    · cases h
  | cons c cuts ih =>
    unfold streamFixedLoop at h
    split at h
    · cases h
      rw [readsTo_met (decide_eq_true (by omega))]
    · have hshort : decide (e ≤ p.up.taken.length) = false := decide_eq_false (by omega)
      rcases recv_cases p.up streamChunk c with
          hr | hr | ⟨up, hr, -⟩ | ⟨b, block, up, hr, hreads, -⟩
      · rw [hr] at h
        cases h
      · rw [hr] at h
        cases h
      · rw [hr] at h
        cases h
      · rw [readsTo_block hr rfl hshort]
        rw [hr] at h
        dsimp only at h
        split at h
        · cases h
        · rename_i p₁ hwrite
          obtain ⟨hup, -⟩ := write_ok hwrite
          have htaken : p₁.up.taken.length = p.up.taken.length + (b :: block).length := by
            rw [hup, hreads.taken, List.length_append]
          have hstream : p.up.stream.length = (b :: block).length + p₁.up.stream.length := by
            rw [hup, hreads.stream, List.length_append]
          have hrest := ih (by omega) h
          rw [htaken] at hrest
          rw [hstream, ← Nat.add_assoc]
          exact hrest

theorem streamFixed_delivers (h : streamFixed [] n cuts p = some (true, p')) : Delivers n p p' := by
  unfold streamFixed at h
  simp only [List.length_nil, Nat.zero_min, List.take_nil, Nat.sub_zero] at h
  split at h
  · cases h
  · rename_i p₁ hwrite
    obtain ⟨hup, hwritten⟩ := write_ok hwrite
    obtain ⟨x, hx, hn, hx'⟩ := streamFixedLoop_delivers h
    rw [hup] at hx
    rw [hwritten, List.append_nil] at hx'
    exact ⟨x, hx, hn, hx'⟩

theorem moveExact_delivers {cuts cuts' : List Cut}
    (h : moveExact first n pipe cuts p = some (.ran true, pipe', cuts', p')) :
    (∃ x, Reads p.up p'.up x ∧ x.length = n) ∧ (pipe = [] → pipe' = [] ∧ Delivers n p p') := by
  induction cuts generalizing first n pipe p with
  | nil =>
    unfold moveExact at h
    split at h
    · rename_i hn
      cases h
      rw [hn]
      exact ⟨⟨[], Reads.refl _, rfl⟩, fun hpipe => ⟨hpipe, Delivers.none _⟩⟩
    · cases h
  | cons c cuts ih =>
    unfold moveExact at h
    split at h
    · rename_i hn
      cases h
      rw [hn]
      exact ⟨⟨[], Reads.refl _, rfl⟩, fun hpipe => ⟨hpipe, Delivers.none _⟩⟩
    · split at h
      · cases h
      · rcases recv_cases p.up (min n streamChunk) c with
          hr | hr | ⟨up, hr, -⟩ | ⟨b, block, up, hr, hreads, hcap⟩ <;> rw [hr] at h
        · cases h
        · cases h
        · cases h
        · dsimp only at h
          split at h
          · cases h
          · rename_i pipe₁ p₁ hdrain
            obtain ⟨hup, hwritten, hpipe₁⟩ := drain_ok hdrain
            obtain ⟨⟨x, hx, hn⟩, hempty⟩ := ih h
            rw [hup] at hx
            refine ⟨⟨b :: block ++ x, hreads.trans hx, ?_⟩, ?_⟩
            · rw [List.length_append]
              omega
            · intro hpipe
              rw [hpipe, List.nil_append] at hwritten hpipe₁
              obtain ⟨hpipe', hrest⟩ := hempty (by rw [hpipe₁, List.drop_length])
              refine ⟨hpipe', Delivers.cons hreads hup ?_ ?_⟩
              · rw [hwritten, Nat.min_eq_left (by omega)]
              · rw [Nat.min_eq_left (by omega)]
                exact hrest

theorem moveExact_unsupported {cuts cuts' : List Cut}
    (h : moveExact first n pipe cuts p = some (.unsupported, pipe', cuts', p')) :
    first = true ∧ cuts = .refuse :: cuts' ∧ pipe' = pipe ∧ p' = p := by
  induction cuts generalizing first n pipe p with
  | nil =>
    unfold moveExact at h
    split at h <;> cases h
  | cons c cuts ih =>
    unfold moveExact at h
    split at h
    · cases h
    · split at h
      · rename_i hrefused
        cases h
        rw [Bool.and_eq_true, beq_iff_eq] at hrefused
        exact ⟨hrefused.1, by rw [hrefused.2], rfl, rfl⟩
      · split at h
        · cases h
        · cases h
        · cases h
        · split at h
          · cases h
          · exact absurd (ih h).1 (by decide)

/-- Whether the chunk parser has found an end in the octets from `start` to `k`. -/
def endSeen (stream : List UInt8) (start k : ℕ) : Bool :=
  (((stream.take k).drop start).foldl octet Chunked.new).st == .done

end DragonsNet.Dataplane.UpstreamPumps
