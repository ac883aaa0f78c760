/- GID: DragonsNet/Lib/HttpChunks
   generality: G
   digest: The grammar of an HTTP/1.1 chunked body, and where its lines end. -/

import Mathlib.Algebra.Group.Nat.Defs
import Mathlib.Data.List.Basic
import Mathlib.Tactic.Common

set_option autoImplicit false

namespace DragonsNet.Lib.HttpChunks

def CR : UInt8 := 13

def LF : UInt8 := 10

def crlf : List UInt8 := [CR, LF]

def isHexDigit (b : UInt8) : Bool :=
  (48 ≤ b && b ≤ 57) || (65 ≤ b && b ≤ 70) || (97 ≤ b && b ≤ 102)

def hexDigit (b : UInt8) : ℕ :=
  if b ≤ 57 then b.toNat - 48 else if b ≤ 70 then b.toNat - 55 else b.toNat - 87

def hexStep (n : ℕ) (b : UInt8) : ℕ := n * 16 + hexDigit b

def hexValue (digits : List UInt8) : ℕ := digits.foldl hexStep 0

def isBlank (b : UInt8) : Bool := b == 32 || b == 9

/-- An octet of a token: a digit, a letter, or one of `!#$%&'*+-.^_|~` and the grave accent. -/
def isTchar (b : UInt8) : Bool :=
  (48 ≤ b && b ≤ 57) || (65 ≤ b && b ≤ 90) || (97 ≤ b && b ≤ 122) ||
    [33, 35, 36, 37, 38, 39, 42, 43, 45, 46, 94, 95, 96, 124, 126].contains b

def isText (b : UInt8) : Bool := b == 9 || (32 ≤ b && b != 127)

def Token (t : List UInt8) : Prop := t ≠ [] ∧ ∀ b ∈ t, isTchar b = true

/-- The inside of a quoted string: text other than quote and backslash, and quoted pairs. -/
inductive Quoted : List UInt8 → Prop
  | nil : Quoted []
  | text {b : UInt8} {rest : List UInt8} (text : isText b = true) (quote : b ≠ 34)
      (backslash : b ≠ 92) (more : Quoted rest) : Quoted (b :: rest)
  | pair {b : UInt8} {rest : List UInt8} (text : isText b = true) (more : Quoted rest) :
      Quoted (92 :: b :: rest)

inductive ExtensionValue : List UInt8 → Prop
  | token {v : List UInt8} (token : Token v) : ExtensionValue v
  | quoted {v : List UInt8} (quoted : Quoted v) : ExtensionValue (34 :: (v ++ [34]))

/-- One extension: `BWS ";" BWS name`, and `BWS "=" BWS value` after it where it has a value. -/
inductive Extension : List UInt8 → Prop
  | plain {w w' name : List UInt8} (before : ∀ b ∈ w, isBlank b = true)
      (after : ∀ b ∈ w', isBlank b = true) (named : Token name) :
      Extension (w ++ 59 :: (w' ++ name))
  | valued {w w' name w₁ w₂ v : List UInt8} (before : ∀ b ∈ w, isBlank b = true)
      (after : ∀ b ∈ w', isBlank b = true) (named : Token name)
      (before' : ∀ b ∈ w₁, isBlank b = true) (after' : ∀ b ∈ w₂, isBlank b = true)
      (value : ExtensionValue v) :
      Extension (w ++ 59 :: (w' ++ name ++ w₁ ++ 61 :: (w₂ ++ v)))

inductive Extensions : List UInt8 → Prop
  | nil : Extensions []
  | cons {e rest : List UInt8} (first : Extension e) (more : Extensions rest) :
      Extensions (e ++ rest)

/-- A chunk: its size, its extensions, and as many octets of data as the size says, at least one. -/
structure Chunk where
  digits : List UInt8
  extensions : List UInt8
  data : List UInt8
  digits_ne : digits ≠ []
  hex : ∀ b ∈ digits, isHexDigit b = true
  extended : Extensions extensions
  sized : data.length = hexValue digits
  data_ne : data ≠ []

def Chunk.octets (c : Chunk) : List UInt8 := c.digits ++ c.extensions ++ crlf ++ c.data ++ crlf

/-- A line of the trailer section: a field's name, a colon and its value with the blanks around. -/
structure FieldLine where
  name : List UInt8
  value : List UInt8
  token : Token name
  text : ∀ b ∈ value, isText b = true

def FieldLine.octets (f : FieldLine) : List UInt8 := f.name ++ 58 :: f.value ++ crlf

/-- A chunked body: chunks, the last one of size zero, and the trailer section. -/
structure Body where
  chunks : List Chunk
  zeros : List UInt8
  extensions : List UInt8
  trailers : List FieldLine
  zeros_ne : zeros ≠ []
  zero : ∀ b ∈ zeros, b = 48
  extended : Extensions extensions

theorem oneZero_ne : ([48] : List UInt8) ≠ [] := List.cons_ne_nil _ _

theorem oneZero_zero : ∀ b ∈ ([48] : List UInt8), b = 48 := fun _ h => List.mem_singleton.mp h

def Body.octets (b : Body) : List UInt8 :=
  b.chunks.flatMap Chunk.octets ++ (b.zeros ++ b.extensions ++ crlf) ++
    b.trailers.flatMap FieldLine.octets ++ crlf

/-! ## Lines have no CR inside -/

theorem tchar_ne_cr {b : UInt8} (h : isTchar b = true) : b ≠ CR := by
  rintro rfl
  exact absurd h (by decide)

theorem blank_ne_cr {b : UInt8} (h : isBlank b = true) : b ≠ CR := by
  rintro rfl
  exact absurd h (by decide)

theorem text_ne_cr {b : UInt8} (h : isText b = true) : b ≠ CR := by
  rintro rfl
  exact absurd h (by decide)

theorem Quoted.ne_cr {v : List UInt8} (h : Quoted v) : ∀ b ∈ v, b ≠ CR := by
  induction h with
  | nil =>
    intro b hb
    cases hb
  | @text x rest text quote backslash more ih =>
    intro b hb
    obtain rfl | hb := List.mem_cons.mp hb
    · exact text_ne_cr text
    · exact ih b hb
  | @pair x rest text more ih =>
    intro b hb
    obtain rfl | hb := List.mem_cons.mp hb
    · decide
    · obtain rfl | hb := List.mem_cons.mp hb
      · exact text_ne_cr text
      · exact ih b hb

theorem ExtensionValue.ne_cr {v : List UInt8} (h : ExtensionValue v) : ∀ b ∈ v, b ≠ CR := by
  cases h with
  | token token =>
    intro b hb
    exact tchar_ne_cr (token.2 b hb)
  | quoted quoted =>
    intro b hb
    obtain rfl | hb := List.mem_cons.mp hb
    · decide
    · obtain hb | hb := List.mem_append.mp hb
      · exact quoted.ne_cr b hb
      · obtain rfl := List.mem_singleton.mp hb
        decide

theorem Extension.split {e : List UInt8} (h : Extension e) :
    ∃ w rest, e = w ++ 59 :: rest ∧ (∀ b ∈ w, isBlank b = true) ∧ ∀ b ∈ rest, b ≠ CR := by
  cases h with
  | @plain w w' name before after token =>
    refine ⟨w, w' ++ name, by simp, before, ?_⟩
    intro b hb
    obtain hb | hb := List.mem_append.mp hb
    · exact blank_ne_cr (after b hb)
    · exact tchar_ne_cr (token.2 b hb)
  | @valued w w' name w₁ w₂ v before after token before' after' value =>
    refine ⟨w, w' ++ name ++ w₁ ++ 61 :: (w₂ ++ v), rfl, before, ?_⟩
    intro b hb
    simp only [List.mem_append, List.mem_cons] at hb
    obtain ((hb | hb) | hb) | rfl | hb | hb := hb
    · exact blank_ne_cr (after b hb)
    · exact tchar_ne_cr (token.2 b hb)
    · exact blank_ne_cr (before' b hb)
    · decide
    · exact blank_ne_cr (after' b hb)
    · exact value.ne_cr b hb

theorem Extensions.split {e : List UInt8} (h : Extensions e) :
    e = [] ∨ ∃ w rest, e = w ++ 59 :: rest ∧ (∀ b ∈ w, isBlank b = true) ∧ ∀ b ∈ rest, b ≠ CR := by
  induction h with
  | nil => exact .inl rfl
  | @cons e more first _ ih =>
    right
    obtain ⟨w, rest, rfl, hw, hrest⟩ := first.split
    refine ⟨w, rest ++ more, by simp, hw, ?_⟩
    intro b hb
    obtain hb | hb := List.mem_append.mp hb
    · exact hrest b hb
    · obtain rfl | ⟨w', rest', rfl, hw', hrest'⟩ := ih
      · cases hb
      · obtain hb | hb := List.mem_append.mp hb
        · exact blank_ne_cr (hw' b hb)
        · obtain rfl | hb := List.mem_cons.mp hb
          · decide
          · exact hrest' b hb

theorem FieldLine.split (f : FieldLine) :
    ∃ b rest, f.octets = b :: rest ++ crlf ∧ b ≠ CR ∧ ∀ x ∈ rest, x ≠ CR := by
  obtain ⟨hne, htchar⟩ := f.token
  obtain ⟨b, name, hname⟩ := List.exists_cons_of_ne_nil hne
  rw [hname] at htchar
  refine ⟨b, name ++ 58 :: f.value, ?_, tchar_ne_cr (htchar b List.mem_cons_self), ?_⟩
  · simp only [FieldLine.octets, hname, List.cons_append]
  · intro x hx
    obtain hx | hx := List.mem_append.mp hx
    · exact tchar_ne_cr (htchar x (List.mem_cons_of_mem b hx))
    · obtain rfl | hx := List.mem_cons.mp hx
      · decide
      · exact text_ne_cr (f.text x hx)

theorem hexValue_zeros {zeros : List UInt8} (h : ∀ b ∈ zeros, b = 48) : hexValue zeros = 0 := by
  unfold hexValue
  induction zeros with
  | nil => rfl
  | cons b zeros ih =>
    have hb : b = 48 := h b List.mem_cons_self
    have hstep : hexStep 0 b = 0 := by rw [hb]; decide
    rw [List.foldl_cons, hstep]
    exact ih fun x hx => h x (List.mem_cons_of_mem b hx)

end DragonsNet.Lib.HttpChunks
