/- GID: DragonsNet/Dataplane/Chunked
   source: migration/dataplane/host/src/proxy_dial.rs
   digest: The incremental parser that finds where a chunked body ends. -/

import DragonsNet.Lib.HttpChunks

set_option autoImplicit false

namespace DragonsNet.Dataplane.Chunked

open Lib.HttpChunks

inductive ChunkSt where
  | size
  | sizeExt
  | sizeCr
  | data (n : ℕ)
  | dataCr
  | dataLf
  | trailerStart
  | trailerLine
  | trailerLineCr
  | trailerFinalCr
  | done
  deriving DecidableEq, Repr

structure ChunkedParser where
  st : ChunkSt
  size : ℕ
  deriving DecidableEq, Repr

def new : ChunkedParser := ⟨.size, 0⟩

/-- A `usize`: arithmetic wraps at `2 ^ 64`. -/
def wrap (n : ℕ) : ℕ := n % 2 ^ 64

/-- The states from which the loop can go round without taking an octet. -/
def ChunkSt.waits : ChunkSt → ℕ
  | .data _ => 1
  | .trailerStart => 1
  | _ => 0

/-- `ChunkedParser::advance`: one block parsed, and whether the end has been seen. -/
def ChunkedParser.advance : ChunkedParser → List UInt8 → Bool × ChunkedParser
  | p, [] => (p.st == .done, p)
  | ⟨.size, size⟩, b :: rest =>
    if 48 ≤ b ∧ b ≤ 57 then
      ChunkedParser.advance ⟨.size, wrap (size * 16 + (b.toNat - 48))⟩ rest
    else if 97 ≤ b ∧ b ≤ 102 then
      ChunkedParser.advance ⟨.size, wrap (size * 16 + (b.toNat - 97 + 10))⟩ rest
    else if 65 ≤ b ∧ b ≤ 70 then
      ChunkedParser.advance ⟨.size, wrap (size * 16 + (b.toNat - 65 + 10))⟩ rest
    else if b = CR then ChunkedParser.advance ⟨.sizeCr, size⟩ rest
    else if b = 59 then ChunkedParser.advance ⟨.sizeExt, size⟩ rest
    else ChunkedParser.advance ⟨.size, size⟩ rest
  | ⟨.sizeExt, size⟩, b :: rest =>
    ChunkedParser.advance ⟨if b = CR then .sizeCr else .sizeExt, size⟩ rest
  | ⟨.sizeCr, size⟩, _ :: rest =>
    ChunkedParser.advance ⟨if size = 0 then .trailerStart else .data size, size⟩ rest
  | ⟨.data n, size⟩, b :: rest =>
    let take := min n (b :: rest).length
    let left := n - take
    ChunkedParser.advance ⟨if left = 0 then .dataCr else .data left, size⟩ ((b :: rest).drop take)
  | ⟨.dataCr, size⟩, _ :: rest => ChunkedParser.advance ⟨.dataLf, size⟩ rest
  | ⟨.dataLf, _⟩, _ :: rest => ChunkedParser.advance ⟨.size, 0⟩ rest
  | ⟨.trailerStart, size⟩, b :: rest =>
    if b = CR then ChunkedParser.advance ⟨.trailerFinalCr, size⟩ rest
    else ChunkedParser.advance ⟨.trailerLine, size⟩ (b :: rest)
  | ⟨.trailerLine, size⟩, b :: rest =>
    ChunkedParser.advance ⟨if b = CR then .trailerLineCr else .trailerLine, size⟩ rest
  | ⟨.trailerLineCr, size⟩, _ :: rest => ChunkedParser.advance ⟨.trailerStart, size⟩ rest
  | ⟨.trailerFinalCr, size⟩, _ :: _ => (true, ⟨.done, size⟩)
  | ⟨.done, size⟩, _ :: _ => (true, ⟨.done, size⟩)
termination_by p data => (data.length, p.st.waits)
decreasing_by
  all_goals first
    | exact Prod.Lex.left _ _ (Nat.lt_succ_self _)
    | exact Prod.Lex.right _ Nat.zero_lt_one
    | skip
  rcases Nat.eq_zero_or_pos n with rfl | hn
  · simp only [Nat.zero_min, List.drop_zero]
    exact Prod.Lex.right _ Nat.zero_lt_one
  · refine Prod.Lex.left _ _ ?_
    simp only [List.length_drop, List.length_cons]
    omega

def ChunkedParser.advances (p : ChunkedParser) (blocks : List (List UInt8)) : ChunkedParser :=
  blocks.foldl (fun p block => (p.advance block).2) p

/-! ## Octet by octet -/

def octet : ChunkedParser → UInt8 → ChunkedParser
  | ⟨.size, size⟩, b =>
    if isHexDigit b then ⟨.size, wrap (hexStep size b)⟩
    else if b = CR then ⟨.sizeCr, size⟩
    else if b = 59 then ⟨.sizeExt, size⟩
    else ⟨.size, size⟩
  | ⟨.sizeExt, size⟩, b => ⟨if b = CR then .sizeCr else .sizeExt, size⟩
  | ⟨.sizeCr, size⟩, _ => ⟨if size = 0 then .trailerStart else .data size, size⟩
  | ⟨.data 0, size⟩, _ => ⟨.dataLf, size⟩
  | ⟨.data 1, size⟩, _ => ⟨.dataCr, size⟩
  | ⟨.data (n + 2), size⟩, _ => ⟨.data (n + 1), size⟩
  | ⟨.dataCr, size⟩, _ => ⟨.dataLf, size⟩
  | ⟨.dataLf, _⟩, _ => ⟨.size, 0⟩
  | ⟨.trailerStart, size⟩, b => ⟨if b = CR then .trailerFinalCr else .trailerLine, size⟩
  | ⟨.trailerLine, size⟩, b => ⟨if b = CR then .trailerLineCr else .trailerLine, size⟩
  | ⟨.trailerLineCr, size⟩, _ => ⟨.trailerStart, size⟩
  | ⟨.trailerFinalCr, size⟩, _ => ⟨.done, size⟩
  | ⟨.done, size⟩, _ => ⟨.done, size⟩

theorem foldl_done (size : ℕ) (data : List UInt8) :
    data.foldl octet ⟨.done, size⟩ = ⟨.done, size⟩ := by
  induction data with
  | nil => rfl
  | cons b data ih => exact ih

private theorem foldl_data {n size : ℕ} {data : List UInt8} (hne : data ≠ [])
    (hle : data.length ≤ n) :
    data.foldl octet ⟨.data n, size⟩ =
      ⟨if n - data.length = 0 then .dataCr else .data (n - data.length), size⟩ := by
  induction data generalizing n with
  | nil => exact absurd rfl hne
  | cons b data ih =>
    rw [List.length_cons] at hle
    obtain ⟨n, rfl⟩ : ∃ m, n = m + 1 := ⟨n - 1, by omega⟩
    rw [List.foldl_cons, List.length_cons, Nat.add_sub_add_right]
    cases data with
    | nil =>
      cases n with
      | zero => rfl
      | succ n => rfl
    | cons b' data =>
      obtain ⟨n, rfl⟩ : ∃ m, n = m + 1 := ⟨n - 1, by simp only [List.length_cons] at hle; omega⟩
      exact ih (List.cons_ne_nil b' data) (by omega)

private theorem size_digit {b : UInt8} (h : 48 ≤ b ∧ b ≤ 57) :
    isHexDigit b = true ∧ hexDigit b = b.toNat - 48 := by
  obtain ⟨hlow, hhigh⟩ := h
  exact ⟨by simp [isHexDigit, hlow, hhigh], by simp [hexDigit, hhigh]⟩

private theorem size_lower {b : UInt8} (h : 97 ≤ b ∧ b ≤ 102) :
    isHexDigit b = true ∧ hexDigit b = b.toNat - 97 + 10 := by
  obtain ⟨hlow, hhigh⟩ := h
  refine ⟨by simp [isHexDigit, hlow, hhigh], ?_⟩
  have hlow' : 97 ≤ b.toNat := UInt8.le_iff_toNat_le.mp hlow
  have h57 : ¬ b ≤ 57 := by
    rw [UInt8.le_iff_toNat_le]
    change ¬ b.toNat ≤ 57
    omega
  have h70 : ¬ b ≤ 70 := by
    rw [UInt8.le_iff_toNat_le]
    change ¬ b.toNat ≤ 70
    omega
  rw [hexDigit, if_neg h57, if_neg h70]
  omega

private theorem size_upper {b : UInt8} (h : 65 ≤ b ∧ b ≤ 70) :
    isHexDigit b = true ∧ hexDigit b = b.toNat - 65 + 10 := by
  obtain ⟨hlow, hhigh⟩ := h
  refine ⟨by simp [isHexDigit, hlow, hhigh], ?_⟩
  have hlow' : 65 ≤ b.toNat := UInt8.le_iff_toNat_le.mp hlow
  have h57 : ¬ b ≤ 57 := by
    rw [UInt8.le_iff_toNat_le]
    change ¬ b.toNat ≤ 57
    omega
  rw [hexDigit, if_neg h57, if_pos hhigh]
  omega

private theorem not_hexDigit {b : UInt8} (hdigit : ¬ (48 ≤ b ∧ b ≤ 57))
    (hlower : ¬ (97 ≤ b ∧ b ≤ 102))
    (hupper : ¬ (65 ≤ b ∧ b ≤ 70)) : isHexDigit b = false := by
  simp only [isHexDigit, Bool.or_eq_false_iff, Bool.and_eq_false_iff, decide_eq_false_iff_not]
  exact ⟨⟨not_and_or.mp hdigit, not_and_or.mp hupper⟩, not_and_or.mp hlower⟩

private theorem advance_done (size : ℕ) (data : List UInt8) :
    ChunkedParser.advance ⟨.done, size⟩ data = (true, ⟨.done, size⟩) := by
  cases data with
  | nil =>
    rw [ChunkedParser.advance]
    rfl
  | cons b rest => rw [ChunkedParser.advance]

private theorem advance_data (n size : ℕ) (b : UInt8) (rest : List UInt8) :
    ChunkedParser.advance ⟨.data n, size⟩ (b :: rest) =
      ChunkedParser.advance (octet ⟨.data n, size⟩ b) rest := by
  match n with
  | 0 =>
    rw [ChunkedParser.advance]
    simp only [Nat.zero_min, Nat.sub_self, if_true, List.drop_zero, octet]
    rw [ChunkedParser.advance]
  | 1 =>
    rw [ChunkedParser.advance]
    have htake : min 1 (b :: rest).length = 1 := Nat.min_eq_left (Nat.succ_le_succ (Nat.zero_le _))
    simp only [htake, Nat.sub_self, if_true, List.drop_succ_cons, List.drop_zero, octet]
  | n + 2 =>
    rw [ChunkedParser.advance]
    simp only [octet, List.length_cons]
    cases rest with
    | nil =>
      have htake : min (n + 2) (([] : List UInt8).length + 1) = 1 := by
        rw [List.length_nil]
        omega
      have hleft : n + 2 - 1 ≠ 0 := by omega
      simp only [htake, if_neg hleft, List.drop_succ_cons, List.drop_zero]
      rfl
    | cons b' rest =>
      rw [ChunkedParser.advance]
      have htake : min (n + 2) ((b' :: rest).length + 1) = min (n + 1) (b' :: rest).length + 1 := by
        omega
      have hleft : n + 2 - (min (n + 1) (b' :: rest).length + 1) =
          n + 1 - min (n + 1) (b' :: rest).length := by omega
      simp only [htake, hleft, List.drop_succ_cons]

private theorem advance_cons (p : ChunkedParser) (b : UInt8) (rest : List UInt8) :
    p.advance (b :: rest) = (octet p b).advance rest := by
  obtain ⟨st, size⟩ := p
  cases st with
  | size =>
    rw [ChunkedParser.advance, octet]
    by_cases hdigit : 48 ≤ b ∧ b ≤ 57
    · obtain ⟨hhex, hvalue⟩ := size_digit hdigit
      rw [if_pos hdigit, if_pos hhex, hexStep, hvalue]
    · by_cases hlower : 97 ≤ b ∧ b ≤ 102
      · obtain ⟨hhex, hvalue⟩ := size_lower hlower
        rw [if_neg hdigit, if_pos hlower, if_pos hhex, hexStep, hvalue]
      · by_cases hupper : 65 ≤ b ∧ b ≤ 70
        · obtain ⟨hhex, hvalue⟩ := size_upper hupper
          rw [if_neg hdigit, if_neg hlower, if_pos hupper, if_pos hhex, hexStep, hvalue]
        · rw [if_neg hdigit, if_neg hlower, if_neg hupper, not_hexDigit hdigit hlower hupper]
          by_cases hcr : b = CR
          · simp only [if_pos hcr, Bool.false_eq_true, if_false]
          · by_cases hsemi : b = 59
            · simp only [if_neg hcr, if_pos hsemi, Bool.false_eq_true, if_false]
            · simp only [if_neg hcr, if_neg hsemi, Bool.false_eq_true, if_false]
  | data n => exact advance_data n size b rest
  | trailerStart =>
    rw [ChunkedParser.advance, octet]
    by_cases hcr : b = CR
    · rw [if_pos hcr, if_pos hcr]
    · rw [if_neg hcr, if_neg hcr, ChunkedParser.advance, if_neg hcr]
  | trailerFinalCr | done =>
    rw [ChunkedParser.advance, octet]
    exact (advance_done size rest).symm
  | sizeExt | sizeCr | dataCr | dataLf | trailerLine | trailerLineCr =>
    rw [ChunkedParser.advance, octet]

theorem advance_eq (p : ChunkedParser) (data : List UInt8) :
    p.advance data = ((data.foldl octet p).st == .done, data.foldl octet p) := by
  induction data generalizing p with
  | nil => rw [ChunkedParser.advance, List.foldl_nil]
  | cons b rest ih => rw [advance_cons, ih, List.foldl_cons]

private theorem advances_eq (p : ChunkedParser) (blocks : List (List UInt8)) :
    p.advances blocks = blocks.flatten.foldl octet p := by
  unfold ChunkedParser.advances
  induction blocks generalizing p with
  | nil => rfl
  | cons block blocks ih =>
    rw [List.foldl_cons, ih, advance_eq, List.flatten_cons, List.foldl_append]

/-! ## A well-formed body -/

private theorem foldl_digits {digits : List UInt8} (hhex : ∀ b ∈ digits, isHexDigit b = true)
    (n : ℕ) :
    digits.foldl octet ⟨.size, wrap n⟩ = ⟨.size, wrap (digits.foldl hexStep n)⟩ := by
  induction digits generalizing n with
  | nil => rfl
  | cons b digits ih =>
    have hstep : octet ⟨.size, wrap n⟩ b = ⟨.size, wrap (hexStep n b)⟩ := by
      rw [octet, if_pos (hhex b List.mem_cons_self)]
      simp only [wrap, hexStep, Nat.add_mod, Nat.mul_mod, Nat.mod_mod]
    rw [List.foldl_cons, List.foldl_cons, hstep]
    exact ih (fun x hx => hhex x (List.mem_cons_of_mem b hx)) _

private theorem foldl_blanks {w : List UInt8} (hblank : ∀ b ∈ w, isBlank b = true) (size : ℕ) :
    w.foldl octet ⟨.size, size⟩ = ⟨.size, size⟩ := by
  induction w with
  | nil => rfl
  | cons b w ih =>
    have hstep : octet ⟨.size, size⟩ b = ⟨.size, size⟩ := by
      have hb := hblank b List.mem_cons_self
      simp only [isBlank, Bool.or_eq_true, beq_iff_eq] at hb
      obtain rfl | rfl := hb <;> rfl
    rw [List.foldl_cons, hstep]
    exact ih fun x hx => hblank x (List.mem_cons_of_mem b hx)

private theorem foldl_sizeExt {rest : List UInt8} (hcr : ∀ b ∈ rest, b ≠ CR) (size : ℕ) :
    rest.foldl octet ⟨.sizeExt, size⟩ = ⟨.sizeExt, size⟩ := by
  induction rest with
  | nil => rfl
  | cons b rest ih =>
    rw [List.foldl_cons, octet, if_neg (hcr b List.mem_cons_self)]
    exact ih fun x hx => hcr x (List.mem_cons_of_mem b hx)

private theorem foldl_trailerLine {rest : List UInt8} (hcr : ∀ b ∈ rest, b ≠ CR) (size : ℕ) :
    rest.foldl octet ⟨.trailerLine, size⟩ = ⟨.trailerLine, size⟩ := by
  induction rest with
  | nil => rfl
  | cons b rest ih =>
    rw [List.foldl_cons, octet, if_neg (hcr b List.mem_cons_self)]
    exact ih fun x hx => hcr x (List.mem_cons_of_mem b hx)

private theorem foldl_extensions {e : List UInt8} (h : Extensions e) (size : ℕ) :
    (e ++ crlf).foldl octet ⟨.size, size⟩ =
      ⟨if size = 0 then .trailerStart else .data size, size⟩ := by
  obtain rfl | ⟨w, rest, rfl, hw, hrest⟩ := h.split
  · rfl
  · rw [List.foldl_append, List.foldl_append, foldl_blanks hw, List.foldl_cons]
    have hsemi : octet ⟨.size, size⟩ 59 = ⟨.sizeExt, size⟩ := rfl
    rw [hsemi, foldl_sizeExt hrest]
    rfl

private theorem foldl_sizeLine {digits e : List UInt8} (hhex : ∀ b ∈ digits, isHexDigit b = true)
    (he : Extensions e) :
    (digits ++ e ++ crlf).foldl octet new =
      ⟨if wrap (hexValue digits) = 0 then .trailerStart else .data (wrap (hexValue digits)),
        wrap (hexValue digits)⟩ := by
  rw [List.append_assoc, List.foldl_append]
  have hdigits : digits.foldl octet new = ⟨.size, wrap (hexValue digits)⟩ := foldl_digits hhex 0
  rw [hdigits, foldl_extensions he]

private theorem foldl_chunk (c : Chunk) (hsize : hexValue c.digits < 2 ^ 64) :
    c.octets.foldl octet new = new := by
  have hwrap : wrap (hexValue c.digits) = c.data.length := by
    rw [c.sized]
    exact Nat.mod_eq_of_lt hsize
  have hpos : c.data.length ≠ 0 := by
    intro hzero
    exact c.data_ne (List.eq_nil_of_length_eq_zero hzero)
  rw [Chunk.octets, List.foldl_append, List.foldl_append, foldl_sizeLine c.hex c.extended, hwrap,
    if_neg hpos, foldl_data c.data_ne (Nat.le_refl _), Nat.sub_self, if_pos rfl]
  rfl

private theorem foldl_chunks {chunks : List Chunk}
    (hsizes : ∀ c ∈ chunks, hexValue c.digits < 2 ^ 64) :
    (chunks.flatMap Chunk.octets).foldl octet new = new := by
  induction chunks with
  | nil => rfl
  | cons c chunks ih =>
    rw [List.flatMap_cons, List.foldl_append, foldl_chunk c (hsizes c List.mem_cons_self)]
    exact ih fun x hx => hsizes x (List.mem_cons_of_mem c hx)

private theorem foldl_trailers (trailers : List FieldLine) (size : ℕ) :
    (trailers.flatMap FieldLine.octets).foldl octet ⟨.trailerStart, size⟩ =
      ⟨.trailerStart, size⟩ := by
  induction trailers with
  | nil => rfl
  | cons f trailers ih =>
    obtain ⟨b, rest, hoctets, hb, hrest⟩ := f.split
    rw [List.flatMap_cons, List.foldl_append, hoctets, List.foldl_append, List.foldl_cons, octet,
      if_neg hb, foldl_trailerLine hrest]
    exact ih

private theorem foldl_body (body : Body) (hsizes : ∀ c ∈ body.chunks, hexValue c.digits < 2 ^ 64) :
    ∃ front, body.octets = front ++ [LF] ∧ front.foldl octet new = ⟨.trailerFinalCr, 0⟩ := by
  have hzeros : ∀ b ∈ body.zeros, isHexDigit b = true := by
    intro b hb
    rw [body.zero b hb]
    decide
  have hlast : (body.zeros ++ body.extensions ++ crlf).foldl octet new = ⟨.trailerStart, 0⟩ := by
    rw [foldl_sizeLine hzeros body.extended, hexValue_zeros body.zero]
    rfl
  refine ⟨body.chunks.flatMap Chunk.octets ++ (body.zeros ++ body.extensions ++ crlf) ++
    body.trailers.flatMap FieldLine.octets ++ [CR], ?_, ?_⟩
  · simp only [Body.octets, crlf, List.append_assoc, List.cons_append, List.nil_append]
  · rw [List.foldl_append, List.foldl_append, List.foldl_append, foldl_chunks hsizes, hlast,
      foldl_trailers]
    rfl

private theorem done_of_prefix {p : ChunkedParser} {front : List UInt8} (back : List UInt8)
    (h : (front.foldl octet p).st = .done) :
    ((front ++ back).foldl octet p).st = .done := by
  rw [List.foldl_append]
  generalize front.foldl octet p = q at h
  obtain ⟨st, size⟩ := q
  obtain rfl : st = .done := h
  rw [foldl_done]

/-- After the first octets of a body and what follows it, the end has been seen exactly when they
hold the body. -/
theorem done_iff {body : Body} (hsizes : ∀ c ∈ body.chunks, hexValue c.digits < 2 ^ 64)
    {seen unseen after : List UInt8} (h : seen ++ unseen = body.octets ++ after) :
    (seen.foldl octet new).st = .done ↔ body.octets.length ≤ seen.length := by
  obtain ⟨front, hbody, hfront⟩ := foldl_body body hsizes
  rw [hbody] at h ⊢
  rw [List.length_append, List.length_singleton]
  constructor
  · intro hdone
    by_contra hshort
    -- What has been seen is then within the octets before the last.
    have hseen : seen <+: front ++ [LF] ++ after := h ▸ List.prefix_append seen unseen
    have hfrontPrefix : front <+: front ++ [LF] ++ after := by
      rw [List.append_assoc]
      exact List.prefix_append front _
    obtain ⟨back, hback⟩ := List.prefix_of_prefix_length_le hseen hfrontPrefix (by omega)
    have hlater := done_of_prefix back hdone
    rw [hback, hfront] at hlater
    cases hlater
  · intro hlong
    have hseen : seen <+: front ++ [LF] ++ after := h ▸ List.prefix_append seen unseen
    have hlength : (front ++ [LF]).length ≤ seen.length := by
      rw [List.length_append, List.length_singleton]
      exact hlong
    obtain ⟨back, hback⟩ :=
      List.prefix_of_prefix_length_le (List.prefix_append _ after) hseen hlength
    rw [← hback]
    apply done_of_prefix
    rw [List.foldl_append, hfront]
    rfl

/-- Fed any cut of a chunked body and what follows it, the parser says for each block whether the
body's last octet has come by then, where every chunk's size fits a word. -/
theorem advance_finds_end (body : Body) (hsizes : ∀ c ∈ body.chunks, hexValue c.digits < 2 ^ 64)
    {after : List UInt8} {earlier later : List (List UInt8)} {block : List UInt8}
    (hcut : (earlier ++ block :: later).flatten = body.octets ++ after) :
    ((new.advances earlier).advance block).1 =
      decide (body.octets.length ≤ (earlier ++ [block]).flatten.length) := by
  rw [advance_eq, advances_eq, ← List.foldl_append]
  have hseen : earlier.flatten ++ block = (earlier ++ [block]).flatten := by simp
  have hall : (earlier ++ [block]).flatten ++ later.flatten = body.octets ++ after := by
    rw [← hcut]
    simp
  rw [hseen]
  by_cases hdone : (List.foldl octet new (earlier ++ [block]).flatten).st = .done
  · rw [decide_eq_true ((done_iff hsizes hall).mp hdone), hdone]
    rfl
  · rw [decide_eq_false fun hle => hdone ((done_iff hsizes hall).mpr hle)]
    exact beq_eq_false_iff_ne.mpr hdone

private theorem named_extension : Extensions [59, 97] :=
  @Extensions.cons [59, 97] [] (@Extension.plain [] [] [97] nofun nofun
    ⟨by decide, List.all_eq_true.mp rfl⟩) .nil

def smallBody : Body where
  chunks := [⟨[49], [59, 97], [120], by decide, List.all_eq_true.mp rfl, named_extension, by decide,
    by decide⟩]
  zeros := [48]
  extensions := []
  trailers := [⟨[97], [32, 98], ⟨by decide, List.all_eq_true.mp rfl⟩, List.all_eq_true.mp rfl⟩]
  zeros_ne := oneZero_ne
  zero := oneZero_zero
  extended := .nil

/-- Cut inside its data, with an octet after it. -/
theorem smallBody_ends :
    ((new.advances [smallBody.octets.take 5]).advance (smallBody.octets.drop 5 ++ [72])).1 =
      decide (smallBody.octets.length ≤
        ([smallBody.octets.take 5] ++ [smallBody.octets.drop 5 ++ [72]]).flatten.length) := by
  have hcut : ([smallBody.octets.take 5] ++ (smallBody.octets.drop 5 ++ [72]) :: []).flatten =
      smallBody.octets ++ [72] := by decide
  exact advance_finds_end smallBody (by decide) hcut

/-- A size of `2 ^ 64` is read as zero: the end is seen at the first two octets of a chunk's data. -/
theorem wrapped_size_ends_early :
    ∃ (body : Body) (block rest : List UInt8), block ++ rest = body.octets ∧ rest ≠ [] ∧
      (new.advance block).1 = true := by
  obtain ⟨data, hdata⟩ : ∃ data : List UInt8, data.length = 2 ^ 64 - 2 :=
    ⟨List.replicate (2 ^ 64 - 2) 0, List.length_replicate⟩
  have hvalue : hexValue (49 :: List.replicate 16 48) = 2 ^ 64 := by decide +kernel
  have hsized : (CR :: LF :: data).length = hexValue (49 :: List.replicate 16 48) := by
    rw [List.length_cons, List.length_cons]
    omega
  refine ⟨⟨[⟨49 :: List.replicate 16 48, [], CR :: LF :: data, List.cons_ne_nil _ _,
    List.all_eq_true.mp rfl, .nil, hsized, List.cons_ne_nil _ _⟩], [48], [], [], oneZero_ne,
    oneZero_zero, .nil⟩,
    49 :: List.replicate 16 48 ++ [CR, LF, CR, LF],
    data ++ crlf ++ ([48] ++ [] ++ crlf) ++ [] ++ crlf, ?_, ?_, ?_⟩
  · simp only [Body.octets, Chunk.octets, List.flatMap_cons, List.flatMap_nil, crlf,
      List.append_assoc, List.cons_append, List.nil_append, List.append_nil]
  · intro hnil
    have hlength := congrArg List.length hnil
    simp only [List.length_append, List.length_nil, crlf, List.length_cons] at hlength
    omega
  · rw [advance_eq]
    decide +kernel

end DragonsNet.Dataplane.Chunked
