/- GID: DragonsNet/Dataplane/ResponseHeads
   source: migration/dataplane/host/src/proxy_dial.rs
   digest: What the host reads from an upstream's response head. -/

import Mathlib.Algebra.Group.Nat.Defs
import Mathlib.Data.List.Infix
import Mathlib.Tactic.Common

set_option autoImplicit false

namespace DragonsNet.Dataplane.ResponseHeads

def find (needle : List UInt8) : List UInt8 → Option ℕ
  | [] => none
  | b :: rest =>
    if needle.isPrefixOf (b :: rest) then some 0 else (find needle rest).map (· + 1)

def crlfcrlf : List UInt8 := [13, 10, 13, 10]

/-- The octets between one LF and the next, `head.split(|&c| c == b'\n')`. -/
def lines : List UInt8 → List (List UInt8)
  | [] => [[]]
  | b :: rest =>
    if b = 10 then [] :: lines rest
    else
      match lines rest with
      | [] => [[b]]
      | line :: more => (b :: line) :: more

def stripCr (line : List UInt8) : List UInt8 :=
  if line.getLast? = some 13 then line.dropLast else line

def toAsciiLowercase (b : UInt8) : UInt8 := if 65 ≤ b ∧ b ≤ 90 then b + 32 else b

def eqIgnoreAsciiCase (a b : List UInt8) : Bool :=
  a.map toAsciiLowercase == b.map toAsciiLowercase

def isAsciiWhitespace (b : UInt8) : Bool := b == 32 || b == 9 || b == 10 || b == 12 || b == 13

def trimBy (p : UInt8 → Bool) (v : List UInt8) : List UInt8 :=
  ((v.dropWhile p).reverse.dropWhile p).reverse

def trimAscii : List UInt8 → List UInt8 := trimBy isAsciiWhitespace

/-- The octets after a leading white space character of Unicode, if one leads. -/
def afterWhitespace : List UInt8 → Option (List UInt8)
  | 0xC2 :: 0x85 :: rest => some rest
  | 0xC2 :: 0xA0 :: rest => some rest
  | 0xE1 :: 0x9A :: 0x80 :: rest => some rest
  | 0xE2 :: 0x80 :: b :: rest =>
    if (0x80 ≤ b ∧ b ≤ 0x8A) ∨ b = 0xA8 ∨ b = 0xA9 ∨ b = 0xAF then some rest else none
  | 0xE2 :: 0x81 :: 0x9F :: rest => some rest
  | 0xE3 :: 0x80 :: 0x80 :: rest => some rest
  | b :: rest => if (9 ≤ b ∧ b ≤ 13) ∨ b = 32 then some rest else none
  | [] => none

/-- The same, read from the end. -/
def beforeWhitespace : List UInt8 → Option (List UInt8)
  | 0x85 :: 0xC2 :: rest => some rest
  | 0xA0 :: 0xC2 :: rest => some rest
  | 0x80 :: 0x9A :: 0xE1 :: rest => some rest
  | 0x9F :: 0x81 :: 0xE2 :: rest => some rest
  | 0x80 :: 0x80 :: 0xE3 :: rest => some rest
  | b :: 0x80 :: 0xE2 :: rest =>
    if (0x80 ≤ b ∧ b ≤ 0x8A) ∨ b = 0xA8 ∨ b = 0xA9 ∨ b = 0xAF then some rest else none
  | b :: rest => if (9 ≤ b ∧ b ≤ 13) ∨ b = 32 then some rest else none
  | [] => none

def stripWith (strip : List UInt8 → Option (List UInt8)) : ℕ → List UInt8 → List UInt8
  | 0, v => v
  | n + 1, v =>
    match strip v with
    | some rest => stripWith strip n rest
    | none => v

/-- `str::trim`, on the octets of the text: where they are no UTF-8, what is left is no number. -/
def trim (v : List UInt8) : List UInt8 :=
  let v := stripWith afterWhitespace v.length v
  (stripWith beforeWhitespace v.length v.reverse).reverse

def parseDigits (v : List UInt8) : Option ℕ :=
  if v = [] ∨ v.any (fun b => b < 48 || 57 < b) then none
  else
    let n := v.foldl (fun n b => n * 10 + (b.toNat - 48)) 0
    if n < 2 ^ 64 then some n else none

def parseUsize : List UInt8 → Option ℕ
  | 43 :: v => parseDigits v
  | v => parseDigits v

/-- The value of the first line whose name, with its colon, is this one. -/
def fieldValue (name : List UInt8) (head : List UInt8) : Option (List UInt8) :=
  ((lines head).map stripCr).findSome? fun line =>
    if name.length ≤ line.length && eqIgnoreAsciiCase (line.take name.length) name then
      some (trimAscii (line.drop name.length))
    else none

def contentLengthName : List UInt8 :=
  [99, 111, 110, 116, 101, 110, 116, 45, 108, 101, 110, 103, 116, 104, 58]

/-- `content_length`: the number the first such line gives, none where it gives none. -/
def contentLength (head : List UInt8) : Option ℕ :=
  (fieldValue contentLengthName head).bind fun v => parseUsize (trim v)

def transferEncodingName : List UInt8 :=
  [116, 114, 97, 110, 115, 102, 101, 114, 45, 101, 110, 99, 111, 100, 105, 110, 103, 58]

def chunkedText : List UInt8 := [99, 104, 117, 110, 107, 101, 100]

/-- `is_chunked`: the first such line holds the word, in any case. -/
def isChunked (head : List UInt8) : Bool :=
  (fieldValue transferEncodingName head).any fun v =>
    (find chunkedText (v.map toAsciiLowercase)).isSome

def contentTypeName : List UInt8 :=
  [99, 111, 110, 116, 101, 110, 116, 45, 116, 121, 112, 101, 58]

def eventStreamText : List UInt8 :=
  [116, 101, 120, 116, 47, 101, 118, 101, 110, 116, 45, 115, 116, 114, 101, 97, 109]

/-- `is_event_stream`: the first such line gives this media type, whatever parameter follows it. -/
def isEventStream (head : List UInt8) : Bool :=
  (fieldValue contentTypeName head).any fun v =>
    let mediaType := if v.contains 59 then trimAscii (v.takeWhile (· != 59)) else v
    eqIgnoreAsciiCase mediaType eventStreamText

def versionText : List UInt8 := [104, 116, 116, 112, 47, 49, 46, 49]

def connectionText : List UInt8 := [99, 111, 110, 110, 101, 99, 116, 105, 111, 110]

def closeText : List UInt8 := [99, 108, 111, 115, 101]

def keepAliveText : List UInt8 := [107, 101, 101, 112, 45, 97, 108, 105, 118, 101]

def headerNameLower (line : List UInt8) : List UInt8 :=
  (line.takeWhile (· != 58)).map toAsciiLowercase

def commaSplit : List UInt8 → List (List UInt8)
  | [] => [[]]
  | b :: rest =>
    if b = 44 then [] :: commaSplit rest
    else
      match commaSplit rest with
      | [] => [[b]]
      | piece :: more => (b :: piece) :: more

/-- The words of a line that is a Connection field, in lower case. -/
def connectionTokens (line : List UInt8) : List (List UInt8) :=
  if headerNameLower line == connectionText then
    (commaSplit ((line.dropWhile (· != 58)).drop 1)).map fun t =>
      (trimBy (fun b => b == 32 || b == 9) t).map toAsciiLowercase
  else []

/-- `resp_upstream_keepalive`: whether the upstream's connection may serve again. -/
def respUpstreamKeepalive (head : List UInt8) : Bool :=
  match (lines head).map stripCr with
  | [] => false
  | status :: fields =>
    let http11 := (find versionText (status.map toAsciiLowercase)).isSome
    let tokens := fields.flatMap connectionTokens
    if tokens.contains closeText then false else http11 || tokens.contains keepAliveText

/-! ## Where the head ends -/

theorem find_length {needle hay : List UInt8} {p : ℕ} (h : find needle hay = some p) :
    p + needle.length ≤ hay.length := by
  induction hay generalizing p with
  | nil => cases h
  | cons b rest ih =>
    unfold find at h
    by_cases hprefix : needle.isPrefixOf (b :: rest) = true
    · rw [if_pos hprefix] at h
      cases h
      rw [Nat.zero_add]
      exact (List.isPrefixOf_iff_prefix.mp hprefix).length_le
    · rw [if_neg hprefix] at h
      obtain ⟨q, hq, rfl⟩ := Option.map_eq_some_iff.mp h
      have := ih hq
      rw [List.length_cons]
      omega

theorem find_append {needle hay : List UInt8} {p : ℕ} (h : find needle hay = some p)
    (more : List UInt8) : find needle (hay ++ more) = some p := by
  induction hay generalizing p with
  | nil => cases h
  | cons b rest ih =>
    unfold find at h
    rw [List.cons_append, find]
    by_cases hprefix : needle.isPrefixOf (b :: rest) = true
    · rw [if_pos hprefix] at h
      cases h
      rw [if_pos]
      rw [List.isPrefixOf_iff_prefix] at hprefix ⊢
      exact hprefix.trans (List.prefix_append (b :: rest) more)
    · rw [if_neg hprefix] at h
      obtain ⟨q, hq, rfl⟩ := Option.map_eq_some_iff.mp h
      have hlength := find_length hq
      rw [if_neg, ih hq, Option.map_some]
      intro hlong
      apply hprefix
      rw [List.isPrefixOf_iff_prefix] at hlong ⊢
      refine List.prefix_of_prefix_length_le hlong (List.prefix_append (b :: rest) more) ?_
      rw [List.length_cons]
      omega

theorem find_of_append {needle hay more : List UInt8} {p : ℕ} (hne : needle ≠ [])
    (h : find needle (hay ++ more) = some p) (hle : p + needle.length ≤ hay.length) :
    find needle hay = some p := by
  induction hay generalizing p with
  | nil =>
    have hpos := List.length_pos_iff.mpr hne
    rw [List.length_nil] at hle
    omega
  | cons b rest ih =>
    rw [List.cons_append, find] at h
    rw [find]
    by_cases hprefix : needle.isPrefixOf (b :: (rest ++ more)) = true
    · rw [if_pos hprefix] at h
      cases h
      rw [if_pos]
      rw [List.isPrefixOf_iff_prefix] at hprefix ⊢
      refine List.prefix_of_prefix_length_le hprefix (List.prefix_append (b :: rest) more) ?_
      omega
    · rw [if_neg hprefix] at h
      obtain ⟨q, hq, rfl⟩ := Option.map_eq_some_iff.mp h
      rw [List.length_cons] at hle
      rw [if_neg, ih hq (by omega), Option.map_some]
      intro hshort
      apply hprefix
      rw [List.isPrefixOf_iff_prefix] at hshort ⊢
      exact hshort.trans (List.prefix_append (b :: rest) more)

end DragonsNet.Dataplane.ResponseHeads
