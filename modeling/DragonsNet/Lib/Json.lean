/- GID: DragonsNet/Lib/Json
   generality: G
   digest: A decoder of JSON texts, and what a text made of delimited parts decodes to. -/

import Mathlib.Data.List.Forall2
import Mathlib.Tactic.Common

set_option autoImplicit false

namespace DragonsNet.Lib.Json

universe u

/-- A number is kept as it is written. -/
inductive Value where
  | null
  | bool (b : Bool)
  | number (text : String)
  | string (s : String)
  | array (items : List Value)
  | object (members : List (String × Value))

/-- What the characters begin with, and the characters behind it. -/
abbrev Reader (β : Type u) := List Char → Option (β × List Char)

variable {β : Type u} {cs rest : List Char} {c : Char} {s : List Char} {write : Char → List Char}
  {texts : List (List Char)}

def isSpace (c : Char) : Bool := c == ' ' || c == '\t' || c == '\n' || c == '\r'

def skipSpace (cs : List Char) : List Char := cs.dropWhile isSpace

def hexValue (c : Char) : Option ℕ :=
  if '0' ≤ c ∧ c ≤ '9' then some (c.toNat - 48)
  else if 'a' ≤ c ∧ c ≤ 'f' then some (c.toNat - 87)
  else if 'A' ≤ c ∧ c ≤ 'F' then some (c.toNat - 55)
  else none

def codeUnit : Reader ℕ
  | a :: b :: c :: d :: rest =>
    match hexValue a, hexValue b, hexValue c, hexValue d with
    | some a, some b, some c, some d => some (((a * 16 + b) * 16 + c) * 16 + d, rest)
    | _, _, _, _ => none
  | _ => none

def surrogates (high low : ℕ) : Char :=
  Char.ofNat (0x10000 + (high - 0xD800) * 0x400 + (low - 0xDC00))

/-- A character by its code unit, or by the two of a surrogate pair. -/
def unicodeEscape (cs : List Char) : Option (Char × List Char) :=
  (codeUnit cs).bind fun (u, rest) =>
    if 0xD800 ≤ u ∧ u < 0xDC00 then
      match rest with
      | '\\' :: 'u' :: rest =>
        (codeUnit rest).bind fun (v, rest) =>
          if 0xDC00 ≤ v ∧ v < 0xE000 then some (surrogates u v, rest) else none
      | _ => none
    else if 0xDC00 ≤ u ∧ u < 0xE000 then none
    else some (Char.ofNat u, rest)

def escape : Reader Char
  | '"' :: rest => some ('"', rest)
  | '\\' :: rest => some ('\\', rest)
  | '/' :: rest => some ('/', rest)
  | 'b' :: rest => some ('\x08', rest)
  | 'f' :: rest => some ('\x0c', rest)
  | 'n' :: rest => some ('\n', rest)
  | 'r' :: rest => some ('\r', rest)
  | 't' :: rest => some ('\t', rest)
  | 'u' :: rest => unicodeEscape rest
  | _ => none

def next : Reader (Option Char)
  | [] => none
  | c :: rest =>
    if c = '"' then some (none, rest)
    else if c = '\\' then (escape rest).map fun (c, rest) => (some c, rest)
    else if c.toNat < 0x20 then none
    else some (some c, rest)

theorem length_codeUnit {u : ℕ} (h : codeUnit cs = some (u, rest)) : rest.length < cs.length := by
  unfold codeUnit at h
  split at h
  case h_1 =>
    split at h
    case h_1 =>
      cases h
      simp only [List.length_cons]
      omega
    case h_2 => cases h
  case h_2 => cases h

theorem length_unicodeEscape (h : unicodeEscape cs = some (c, rest)) : rest.length < cs.length := by
  obtain ⟨⟨u, rest'⟩, hu, h⟩ := Option.bind_eq_some_iff.mp h
  have hless := length_codeUnit hu
  dsimp only at h
  split at h
  case isTrue =>
    split at h
    case h_1 rest'' =>
      obtain ⟨⟨v, last⟩, hv, h⟩ := Option.bind_eq_some_iff.mp h
      have hless' := length_codeUnit hv
      dsimp only at h
      split at h
      case isTrue =>
        have hlast : last = rest := congrArg Prod.snd (Option.some.inj h)
        rw [List.length_cons, List.length_cons] at hless
        rw [← hlast]
        omega
      case isFalse => cases h
    case h_2 => cases h
  case isFalse =>
    split at h
    case isTrue => cases h
    case isFalse =>
      have hlast : rest' = rest := congrArg Prod.snd (Option.some.inj h)
      rw [← hlast]
      exact hless

theorem length_escape (h : escape cs = some (c, rest)) : rest.length < cs.length := by
  unfold escape at h
  split at h
  case h_9 =>
    have hless := length_unicodeEscape h
    rw [List.length_cons]
    omega
  case h_10 => cases h
  all_goals
    cases h
    exact Nat.lt_succ_self _

theorem length_next {c : Option Char} (h : next cs = some (c, rest)) : rest.length < cs.length := by
  cases cs with
  | nil => cases h
  | cons a cs =>
    rw [next] at h
    split at h
    case isTrue =>
      cases h
      exact Nat.lt_succ_self _
    case isFalse =>
      split at h
      case isTrue =>
        obtain ⟨⟨b, rest'⟩, hb, heq⟩ := Option.map_eq_some_iff.mp h
        have hless := length_escape hb
        cases heq
        rw [List.length_cons]
        omega
      case isFalse =>
        split at h
        case isTrue => cases h
        case isFalse =>
          cases h
          exact Nat.lt_succ_self _

def body (cs : List Char) : Option (List Char × List Char) :=
  match _h : next cs with
  | none => none
  | some (none, rest) => some ([], rest)
  | some (some c, rest) => (body rest).map fun (s, rest) => (c :: s, rest)
termination_by cs.length
decreasing_by exact length_next _h

def integer : Reader (List Char)
  | '0' :: rest => some (['0'], rest)
  | cs =>
    match cs.span Char.isDigit with
    | ([], _) => none
    | (ds, rest) => some (ds, rest)

def fraction : Reader (List Char)
  | '.' :: rest =>
    match rest.span Char.isDigit with
    | ([], _) => none
    | (ds, rest) => some ('.' :: ds, rest)
  | cs => some ([], cs)

def sign : List Char → List Char × List Char
  | '+' :: rest => (['+'], rest)
  | '-' :: rest => (['-'], rest)
  | cs => ([], cs)

def exponent : Reader (List Char)
  | c :: rest =>
    if c = 'e' ∨ c = 'E' then
      match (sign rest).2.span Char.isDigit with
      | ([], _) => none
      | (ds, rest') => some (c :: (sign rest).1 ++ ds, rest')
    else some ([], c :: rest)
  | [] => some ([], [])

def minus : List Char → List Char × List Char
  | '-' :: rest => (['-'], rest)
  | cs => ([], cs)

def number (cs : List Char) : Option (Value × List Char) :=
  (integer (minus cs).2).bind fun (whole, rest) =>
    (fraction rest).bind fun (part, rest) =>
      (exponent rest).map fun (power, rest) =>
        (.number (String.ofList ((minus cs).1 ++ whole ++ part ++ power)), rest)

/-- Items with commas between them, up to the closing character. -/
def sequence (item : Reader β) (close : Char) : ℕ → Reader (List β)
  | 0, _ => none
  | n + 1, cs =>
    (item cs).bind fun (x, rest) =>
      match skipSpace rest with
      | [] => none
      | c :: rest =>
        if c = close then some ([x], rest)
        else if c = ',' then (sequence item close n rest).map fun (xs, rest) => (x :: xs, rest)
        else none

def enclosed (item : Reader β) (close : Char) (n : ℕ) (cs : List Char) :
    Option (List β × List Char) :=
  match skipSpace cs with
  | [] => none
  | c :: rest => if c = close then some ([], rest) else sequence item close n cs

def member (item : Reader Value) (cs : List Char) : Option ((String × Value) × List Char) :=
  match skipSpace cs with
  | '"' :: rest =>
    (body rest).bind fun (name, rest) =>
      match skipSpace rest with
      | ':' :: rest => (item rest).map fun (v, rest) => ((String.ofList name, v), rest)
      | _ => none
  | _ => none

/-- A value nested at most so deep, of at most so many items in any part of it. -/
def value : ℕ → Reader Value
  | 0, _ => none
  | n + 1, cs =>
    match skipSpace cs with
    | '"' :: rest => (body rest).map fun (s, rest) => (.string (String.ofList s), rest)
    | '[' :: rest => (enclosed (value n) ']' n rest).map fun (vs, rest) => (.array vs, rest)
    | '\x7b' :: rest =>
      (enclosed (member (value n)) '\x7d' n rest).map fun (ms, rest) => (.object ms, rest)
    | 't' :: 'r' :: 'u' :: 'e' :: rest => some (.bool true, rest)
    | 'f' :: 'a' :: 'l' :: 's' :: 'e' :: rest => some (.bool false, rest)
    | 'n' :: 'u' :: 'l' :: 'l' :: rest => some (.null, rest)
    | cs => number cs

/-- The value of a text: no part of it is deeper or has more items than the text has
characters. -/
def decode (text : String) : Option Value :=
  (value (text.toList.length + 1) text.toList).bind fun (v, rest) =>
    if skipSpace rest = [] then some v else none

/-- The reader takes the text for `x`, whatever stands behind it. -/
def Reads (read : Reader β) (text : List Char) (x : β) : Prop :=
  ∀ rest, read (text ++ rest) = some (x, rest)

/-- The same of each reader that goes as far as the text is long. -/
def Denotes (read : ℕ → Reader β) (text : List Char) (x : β) : Prop :=
  ∀ n, text.length ≤ n → Reads (read n) text x

theorem Denotes.of_eq {read : ℕ → Reader β} {text text' : List Char} {x : β}
    (h : Denotes read text x) (htext : text' = text) : Denotes read text' x := by
  rw [htext]
  exact h

theorem skipSpace_cons (h : isSpace c = false) (cs : List Char) :
    skipSpace (c :: cs) = c :: cs := by
  rw [skipSpace, List.dropWhile_cons, h, if_neg Bool.false_ne_true]

theorem decode_eq {text : String} {v : Value} (h : Denotes value text.toList v) :
    decode text = some v := by
  have hvalue := h (text.toList.length + 1) (Nat.le_succ _) []
  rw [List.append_nil] at hvalue
  rw [decode, hvalue]
  rfl

/-! Strings -/

theorem body_quote (rest : List Char) : body ('"' :: rest) = some ([], rest) := by
  rw [body]
  rfl

theorem body_next (h : next cs = some (some c, rest)) :
    body cs = (body rest).map fun (s, rest) => (c :: s, rest) := by
  rw [body]
  split
  case h_1 hnone =>
    rw [h] at hnone
    cases hnone
  case h_2 hquote =>
    rw [h] at hquote
    cases hquote
  case h_3 hchar =>
    rw [h] at hchar
    cases hchar
    rfl

theorem body_flatMap (h : ∀ c ∈ s, Reads next (write c) (some c)) (rest : List Char) :
    body (s.flatMap write ++ '"' :: rest) = some (s, rest) := by
  induction s with
  | nil => exact body_quote rest
  | cons c s ih =>
    have hnext := h c List.mem_cons_self (s.flatMap write ++ '"' :: rest)
    have hrest := ih fun b hb => h b (List.mem_cons_of_mem c hb)
    rw [List.flatMap_cons, List.append_assoc, body_next hnext, hrest, Option.map_some]

def IsPlain (c : Char) : Prop := c ≠ '"' ∧ c ≠ '\\' ∧ 0x20 ≤ c.toNat

instance decidableIsPlain (c : Char) : Decidable (IsPlain c) := inferInstanceAs (Decidable (_ ∧ _))

theorem next_plain (h : IsPlain c) : Reads next [c] (some c) := by
  obtain ⟨hquote, hslash, hcode⟩ := h
  intro rest
  show next (c :: rest) = _
  rw [next, if_neg hquote, if_neg hslash, if_neg (Nat.not_lt.mpr hcode)]

def quoted (write : Char → List Char) (s : List Char) : List Char :=
  '"' :: (s.flatMap write ++ ['"'])

theorem body_quoted (h : ∀ c ∈ s, Reads next (write c) (some c)) (rest : List Char) :
    body ((s.flatMap write ++ ['"']) ++ rest) = some (s, rest) := by
  rw [List.append_assoc, List.singleton_append]
  exact body_flatMap h rest

theorem denotes_quoted (h : ∀ c ∈ s, Reads next (write c) (some c)) :
    Denotes value (quoted write s) (.string (String.ofList s)) := by
  intro n hn rest
  cases n with
  | zero => cases hn
  | succ n =>
    show (body ((s.flatMap write ++ ['"']) ++ rest)).map _ = _
    rw [body_quoted h, Option.map_some]

/-! Arrays and objects -/

section Sequences

variable {item : Reader β} {close : Char} {texts : List (List Char)} {xs : List β}

theorem sequence_succ {t : List Char} {x : β} (hitem : Reads item t x) (n : ℕ) {c : Char}
    (hc : isSpace c = false) (rest : List Char) :
    sequence item close (n + 1) (t ++ c :: rest) =
      if c = close then some ([x], rest)
      else if c = ',' then (sequence item close n rest).map fun (xs, rest) => (x :: xs, rest)
      else none := by
  rw [sequence, hitem (c :: rest), Option.bind_some]
  dsimp only
  rw [skipSpace_cons hc]

theorem sequence_reads (hspace : isSpace close = false) (hcomma : close ≠ ',')
    (h : List.Forall₂ (Reads item) texts xs) (hne : texts ≠ []) {n : ℕ} (hn : texts.length ≤ n) :
    Reads (sequence item close n) ([','].intercalate texts ++ [close]) xs := by
  induction h generalizing n with
  | nil => exact absurd rfl hne
  | @cons t x texts xs hitem hrest ih =>
    cases n with
    | zero => cases hn
    | succ n =>
      intro rest
      cases hrest with
      | nil =>
        rw [List.intercalate_singleton, List.append_assoc, List.singleton_append,
          sequence_succ hitem n hspace, if_pos rfl]
      | @cons t' x' texts xs hitem' hrest' =>
        have hmore := ih (List.cons_ne_nil t' texts) (Nat.le_of_succ_le_succ hn) rest
        have htext : [','].intercalate (t :: t' :: texts) ++ [close] ++ rest =
            t ++ ',' :: ([','].intercalate (t' :: texts) ++ [close] ++ rest) := by
          rw [List.intercalate_cons_cons]
          simp only [List.append_assoc, List.cons_append, List.nil_append]
        rw [htext, sequence_succ hitem n rfl, if_neg (Ne.symm hcomma), if_pos rfl, hmore,
          Option.map_some]

/-- What the reader takes begins, space apart, with another character. -/
def Shuns (read : Reader β) (close : Char) : Prop :=
  ∀ cs y, read cs = some y → ∃ c rest, skipSpace cs = c :: rest ∧ c ≠ close

theorem Shuns.sequence (h : Shuns item close) (n : ℕ) : Shuns (sequence item close n) close := by
  intro cs y hy
  cases n with
  | zero => cases hy
  | succ n =>
    obtain ⟨⟨x, rest⟩, hx, _⟩ := Option.bind_eq_some_iff.mp hy
    exact h cs _ hx

theorem enclosed_reads (hspace : isSpace close = false) (hcomma : close ≠ ',')
    (hshuns : Shuns item close) (h : List.Forall₂ (Reads item) texts xs) {n : ℕ}
    (hn : texts.length ≤ n) :
    Reads (enclosed item close n) ([','].intercalate texts ++ [close]) xs := by
  intro rest
  by_cases hne : texts = []
  · cases h with
    | nil =>
      show enclosed item close n (close :: rest) = _
      rw [enclosed, skipSpace_cons hspace]
      exact if_pos rfl
    | cons => cases hne
  · have hsequence := sequence_reads hspace hcomma h hne hn rest
    obtain ⟨c, rest', hc, hother⟩ := hshuns.sequence n _ _ hsequence
    rw [enclosed, hc]
    dsimp only
    rw [if_neg hother, hsequence]

end Sequences

theorem value_shuns (n : ℕ) : Shuns (value n) ']' := by
  intro cs y hy
  cases n with
  | zero => cases hy
  | succ n =>
    cases hcs : skipSpace cs with
    | nil =>
      rw [value, hcs] at hy
      cases hy
    | cons c rest =>
      refine ⟨c, rest, rfl, ?_⟩
      rintro rfl
      rw [value, hcs] at hy
      cases hy

theorem member_shuns (read : Reader Value) : Shuns (member read) '\x7d' := by
  intro cs y hy
  cases hcs : skipSpace cs with
  | nil =>
    rw [member, hcs] at hy
    cases hy
  | cons c rest =>
    refine ⟨c, rest, rfl, ?_⟩
    rintro rfl
    rw [member, hcs] at hy
    cases hy

theorem length_le_intercalate (texts : List (List Char)) :
    texts.length ≤ ([','].intercalate texts).length + 1 ∧
      ∀ t ∈ texts, t.length ≤ ([','].intercalate texts).length := by
  induction texts with
  | nil => exact ⟨Nat.zero_le _, fun t ht => by cases ht⟩
  | cons t texts ih =>
    cases texts with
    | nil =>
      rw [List.intercalate_singleton]
      refine ⟨Nat.succ_le_succ (Nat.zero_le _), ?_⟩
      intro t' ht'
      exact Nat.le_of_eq (congrArg List.length (List.mem_singleton.mp ht'))
    | cons t' texts =>
      obtain ⟨hcount, hlength⟩ := ih
      rw [List.intercalate_cons_cons]
      simp only [List.length_append, List.length_cons, List.length_nil] at hcount ⊢
      refine ⟨by omega, ?_⟩
      intro u hu
      rcases List.mem_cons.mp hu with rfl | hu
      · omega
      · have hle := hlength u hu
        omega

section Texts

variable {read : ℕ → Reader β} {close : Char} {texts : List (List Char)} {xs : List β}

theorem forall₂_reads (h : List.Forall₂ (Denotes read) texts xs) {n : ℕ}
    (hn : ∀ t ∈ texts, t.length ≤ n) : List.Forall₂ (Reads (read n)) texts xs := by
  induction h with
  | nil => exact .nil
  | @cons t x texts xs hfirst _ ih =>
    refine .cons (hfirst n (hn t List.mem_cons_self)) (ih ?_)
    intro u hu
    exact hn u (List.mem_cons_of_mem t hu)

theorem enclosed_denotes (hspace : isSpace close = false) (hcomma : close ≠ ',') {n : ℕ}
    (hshuns : Shuns (read n) close) (h : List.Forall₂ (Denotes read) texts xs)
    (hn : ([','].intercalate texts ++ [close]).length ≤ n) :
    Reads (enclosed (read n) close n) ([','].intercalate texts ++ [close]) xs := by
  rw [List.length_append, List.length_singleton] at hn
  obtain ⟨hcount, hlength⟩ := length_le_intercalate texts
  refine enclosed_reads hspace hcomma hshuns (forall₂_reads h ?_) (by omega)
  intro t ht
  have hle := hlength t ht
  omega

end Texts

theorem denotes_array {vs : List Value} (h : List.Forall₂ (Denotes value) texts vs) :
    Denotes value ('[' :: ([','].intercalate texts ++ [']'])) (.array vs) := by
  intro n hn rest
  cases n with
  | zero => cases hn
  | succ n =>
    have henclosed := enclosed_denotes rfl (by decide) (value_shuns n) h
      (Nat.le_of_succ_le_succ hn) rest
    show (enclosed (value n) ']' n ([','].intercalate texts ++ [']'] ++ rest)).map _ = _
    rw [henclosed, Option.map_some]

theorem denotes_object {ms : List (String × Value)}
    (h : List.Forall₂ (Denotes fun n => member (value n)) texts ms) :
    Denotes value ('\x7b' :: ([','].intercalate texts ++ ['\x7d'])) (.object ms) := by
  intro n hn rest
  cases n with
  | zero => cases hn
  | succ n =>
    have henclosed := enclosed_denotes rfl (by decide) (member_shuns (value n)) h
      (Nat.le_of_succ_le_succ hn) rest
    show (enclosed (member (value n)) '\x7d' n ([','].intercalate texts ++ ['\x7d'] ++ rest)).map _ = _
    rw [henclosed, Option.map_some]

theorem denotes_member {name text : List Char} {v : Value}
    (hname : ∀ c ∈ name, Reads next (write c) (some c)) (h : Denotes value text v) :
    Denotes (fun n => member (value n)) (quoted write name ++ ':' :: text) (String.ofList name, v) := by
  intro n hn rest
  have htext : text.length ≤ n := by
    rw [List.length_append, List.length_cons] at hn
    omega
  show (body (((name.flatMap write ++ ['"']) ++ ':' :: text) ++ rest)).bind _ = _
  rw [List.append_assoc, body_quoted hname, Option.bind_some]
  show (value n (text ++ rest)).map _ = _
  rw [h n htext, Option.map_some]

end DragonsNet.Lib.Json
