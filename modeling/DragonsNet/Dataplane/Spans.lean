/- GID: DragonsNet/Dataplane/Spans
   source: migration/dataplane/host/src/otel.rs, migration/dataplane/host/src/admin.rs
   digest: The text of a request's span, and what a JSON decoder reads in it. -/

import DragonsNet.Lib.Json

set_option autoImplicit false

namespace DragonsNet.Dataplane.Spans

open Lib.Json

structure ReqLine where
  method : String
  path : String
  deriving DecidableEq, Repr

def lowerHex (width n : ℕ) : String := String.ofList ((Nat.toDigits 16 n).leftpad width '0')

def escapeChar (c : Char) : List Char :=
  if c = '"' then "\\\"".toList
  else if c = '\\' then "\\\\".toList
  else if c = '\n' then "\\n".toList
  else if c = '\r' then "\\r".toList
  else if c = '\t' then "\\t".toList
  else if c.toNat < 0x20 then "\\u".toList ++ (lowerHex 4 c.toNat).toList
  else [c]

def jsonEscape (s : String) : String := String.ofList (s.toList.flatMap escapeChar)

def jsonStr (s : String) : String :=
  String.ofList ('"' :: (s.toList.flatMap escapeChar ++ ['"']))

def attr (key val : String) : String :=
  "\x7b\"key\":\"" ++ key ++ "\",\"value\":\x7b\"stringValue\":\"" ++ jsonEscape val ++ "\"\x7d\x7d"

def spanText (trace span parent name attrs : String) : String :=
  "\x7b\"traceId\":\"" ++ trace ++ "\",\"spanId\":\"" ++ span ++ "\",\"parentSpanId\":\"" ++ parent ++
    "\",\"name\":\"" ++ name ++ "\",\"attributes\":[" ++ attrs ++ "]\x7d"

/-- The span of a request is a root: its parent is the all-zero id. -/
def renderSpanWith (trace : BitVec 128) (span : BitVec 64) (req : ReqLine) (status : String)
    (durUs : BitVec 128) (extra : List String) : String :=
  let name := req.method ++ " " ++ req.path
  let all := [attr "http.request.method" req.method, attr "url.path" req.path,
    attr "http.response.status_code" status, attr "duration_us" (Nat.repr durUs.toNat)] ++ extra
  spanText (lowerHex 32 trace.toNat) (lowerHex 16 span.toNat) (lowerHex 16 0) (jsonEscape name)
    (",".intercalate all)

def Plain (key : String) : Prop := ∀ c ∈ key.toList, IsPlain c

instance decidablePlain (key : String) : Decidable (Plain key) :=
  List.decidableBAll IsPlain key.toList

def attrValue (key val : String) : Value :=
  .object [("key", .string key), ("value", .object [("stringValue", .string val)])]

/-- What a span is to say: the ids, the name and, before the others, what every request has. -/
def spanValue (trace : BitVec 128) (span : BitVec 64) (req : ReqLine) (status : String)
    (durUs : BitVec 128) (extra : List (String × String)) : Value :=
  .object [("traceId", .string (lowerHex 32 trace.toNat)),
    ("spanId", .string (lowerHex 16 span.toNat)),
    ("parentSpanId", .string (lowerHex 16 0)),
    ("name", .string (req.method ++ " " ++ req.path)),
    ("attributes", .array ([attrValue "http.request.method" req.method,
      attrValue "url.path" req.path, attrValue "http.response.status_code" status,
      attrValue "duration_us" (Nat.repr durUs.toNat)] ++ extra.map fun a => attrValue a.1 a.2))]

private theorem hexValue_digitChar : ∀ d < 16, hexValue (Nat.digitChar d) = some d := by decide

private theorem lowerHex_four : ∀ n < 32,
    (lowerHex 4 n).toList = ['0', '0', Nat.digitChar (n / 16), Nat.digitChar (n % 16)] := by decide

private theorem codeUnit_lowerHex {n : ℕ} (hn : n < 32) (rest : List Char) :
    codeUnit ((lowerHex 4 n).toList ++ rest) = some (n, rest) := by
  rw [lowerHex_four n hn]
  show codeUnit ('0' :: '0' :: Nat.digitChar (n / 16) :: Nat.digitChar (n % 16) :: rest) = _
  have hzero : hexValue '0' = some 0 := rfl
  rw [codeUnit, hzero, hexValue_digitChar (n / 16) (by omega), hexValue_digitChar (n % 16) (by omega)]
  show some (((0 * 16 + 0) * 16 + n / 16) * 16 + n % 16, rest) = some (n, rest)
  have hsum : ((0 * 16 + 0) * 16 + n / 16) * 16 + n % 16 = n := by omega
  rw [hsum]

private theorem unicodeEscape_lowerHex {n : ℕ} (hn : n < 32) (rest : List Char) :
    unicodeEscape ((lowerHex 4 n).toList ++ rest) = some (Char.ofNat n, rest) := by
  rw [unicodeEscape, codeUnit_lowerHex hn, Option.bind_some]
  dsimp only
  rw [if_neg (by omega), if_neg (by omega)]

private theorem next_escapeChar (c : Char) : Reads next (escapeChar c) (some c) := by
  intro rest
  by_cases hquote : c = '"'
  · rw [hquote]
    rfl
  by_cases hslash : c = '\\'
  · rw [hslash]
    rfl
  by_cases hnewline : c = '\n'
  · rw [hnewline]
    rfl
  by_cases hreturn : c = '\r'
  · rw [hreturn]
    rfl
  by_cases htab : c = '\t'
  · rw [htab]
    rfl
  rw [escapeChar, if_neg hquote, if_neg hslash, if_neg hnewline, if_neg hreturn, if_neg htab]
  split
  case isTrue hcode =>
    have hescape := unicodeEscape_lowerHex hcode rest
    have hstart : "\\u".toList = ['\\', 'u'] := rfl
    generalize (lowerHex 4 c.toNat).toList = digits at hescape ⊢
    rw [hstart]
    show (unicodeEscape (digits ++ rest)).map _ = _
    rw [hescape, Option.map_some, Char.ofNat_toNat]
  case isFalse hcode => exact next_plain ⟨hquote, hslash, Nat.le_of_not_lt hcode⟩ rest

private theorem denotes_escaped (s : String) :
    Denotes value (quoted escapeChar s.toList) (.string s) := by
  have hdenotes := denotes_quoted fun c (_ : c ∈ s.toList) => next_escapeChar c
  rwa [String.ofList_toList] at hdenotes

private theorem jsonStr_decodes (s : String) : decode (jsonStr s) = some (.string s) := by
  refine decode_eq ?_
  rw [jsonStr, String.toList_ofList]
  exact denotes_escaped s

private theorem denotes_plain {s : String} (h : Plain s) :
    Denotes value (quoted (fun c => [c]) s.toList) (.string s) := by
  have hdenotes := denotes_quoted fun c (hc : c ∈ s.toList) => next_plain (h c hc)
  rwa [String.ofList_toList] at hdenotes

private theorem denotes_plain_member (name : String) {text : List Char} {v : Value} (h : Plain name)
    (htext : Denotes value text v) :
    Denotes (fun n => member (value n)) (quoted (fun c => [c]) name.toList ++ ':' :: text)
      (name, v) := by
  have hdenotes := denotes_member (fun c (hc : c ∈ name.toList) => next_plain (h c hc)) htext
  rwa [String.ofList_toList] at hdenotes

private theorem denotes_attr (key : String) (hkey : Plain key) (val : String) :
    Denotes value (attr key val).toList (attrValue key val) := by
  have hstring := denotes_plain_member "stringValue" (by decide) (denotes_escaped val)
  have hvalue := denotes_plain_member "value" (by decide) (denotes_object (.cons hstring .nil))
  have hname := denotes_plain_member "key" (by decide) (denotes_plain hkey)
  have hobject := denotes_object (.cons hname (.cons hvalue .nil))
  refine hobject.of_eq ?_
  simp [attr, jsonEscape, quoted]

private theorem isPlain_digitChar : ∀ d < 16, IsPlain (Nat.digitChar d) := by decide

private theorem isPlain_of_mem_toDigits {c : Char} (base n : ℕ) (hone : 1 < base)
    (hbase : base ≤ 16)
    (hc : c ∈ Nat.toDigits base n) : IsPlain c := by
  induction n using Nat.strongRecOn with
  | ind n ih =>
    by_cases hn : n < base
    · rw [Nat.toDigits_of_lt_base hn] at hc
      rw [List.mem_singleton.mp hc]
      exact isPlain_digitChar n (by omega)
    · have hquotient : 0 < n / base := Nat.div_pos (Nat.le_of_not_lt hn) (by omega)
      have hlast : n % base < base := Nat.mod_lt n (by omega)
      rw [← Nat.div_add_mod n base, ← Nat.toDigits_append_toDigits hone hquotient hlast] at hc
      rcases List.mem_append.mp hc with hfirst | hdigit
      · exact ih (n / base) (Nat.div_lt_self (by omega) hone) hfirst
      · rw [Nat.toDigits_of_lt_base hlast] at hdigit
        rw [List.mem_singleton.mp hdigit]
        exact isPlain_digitChar (n % base) (by omega)

private theorem plain_lowerHex (width n : ℕ) : Plain (lowerHex width n) := by
  intro c hc
  rw [lowerHex, String.toList_ofList, List.leftpad] at hc
  rcases List.mem_append.mp hc with hzero | hdigit
  · rw [List.eq_of_mem_replicate hzero]
    decide
  · exact isPlain_of_mem_toDigits 16 n (by decide) (Nat.le_refl 16) hdigit

private theorem forall₂_attr {attrs : List (String × String)} (h : ∀ a ∈ attrs, Plain a.1) :
    List.Forall₂ (Denotes value) (attrs.map fun a => (attr a.1 a.2).toList)
      (attrs.map fun a => attrValue a.1 a.2) := by
  induction attrs with
  | nil => exact .nil
  | cons a attrs ih =>
    refine .cons (denotes_attr a.1 (h a List.mem_cons_self) a.2) (ih ?_)
    intro b hb
    exact h b (List.mem_cons_of_mem a hb)

private theorem toList_spanText (trace span parent name attrs : String) :
    (spanText trace span parent name attrs).toList =
      '\x7b' :: ([','].intercalate
        [quoted (fun c => [c]) "traceId".toList ++ ':' :: '"' :: (trace.toList ++ ['"']),
          quoted (fun c => [c]) "spanId".toList ++ ':' :: '"' :: (span.toList ++ ['"']),
          quoted (fun c => [c]) "parentSpanId".toList ++ ':' :: '"' :: (parent.toList ++ ['"']),
          quoted (fun c => [c]) "name".toList ++ ':' :: '"' :: (name.toList ++ ['"']),
          quoted (fun c => [c]) "attributes".toList ++ ':' :: '[' :: (attrs.toList ++ [']'])]
        ++ ['\x7d']) := by
  unfold spanText
  simp only [String.toList_append]
  simp only [quoted, List.intercalate_cons_cons, List.intercalate_singleton, String.reduceToList,
    List.flatMap_cons, List.flatMap_nil, List.append_assoc, List.cons_append, List.nil_append]

private theorem quoted_plain (s : List Char) : quoted (fun c => [c]) s = '"' :: (s ++ ['"']) := by
  rw [quoted, List.flatMap_singleton']

private theorem quoted_escaped (s : String) :
    quoted escapeChar s.toList = '"' :: ((jsonEscape s).toList ++ ['"']) := by
  rw [jsonEscape, String.toList_ofList, quoted]

private theorem denotes_span (trace : BitVec 128) (span : BitVec 64) (req : ReqLine)
    (status : String)
    (durUs : BitVec 128) {extra : List (String × String)} (hextra : ∀ a ∈ extra, Plain a.1) :
    Denotes value
      (renderSpanWith trace span req status durUs (extra.map fun a => attr a.1 a.2)).toList
      (spanValue trace span req status durUs extra) := by
  -- the attributes of every request come first, each with a plain key
  have hattrs := List.Forall₂.cons (denotes_attr "http.request.method" (by decide) req.method)
    (.cons (denotes_attr "url.path" (by decide) req.path)
      (.cons (denotes_attr "http.response.status_code" (by decide) status)
        (.cons (denotes_attr "duration_us" (by decide) (Nat.repr durUs.toNat))
          (forall₂_attr hextra))))
  have htrace := denotes_plain_member "traceId" (by decide)
    (denotes_plain (plain_lowerHex 32 trace.toNat))
  have hspan := denotes_plain_member "spanId" (by decide)
    (denotes_plain (plain_lowerHex 16 span.toNat))
  have hparent := denotes_plain_member "parentSpanId" (by decide)
    (denotes_plain (plain_lowerHex 16 0))
  have hname := denotes_plain_member "name" (by decide)
    (denotes_escaped (req.method ++ " " ++ req.path))
  have hlist := denotes_plain_member "attributes" (by decide) (denotes_array hattrs)
  have hobject := denotes_object (.cons htrace (.cons hspan (.cons hparent (.cons hname
    (.cons hlist .nil)))))
  refine hobject.of_eq ?_
  have hcomma : ",".toList = [','] := rfl
  rw [renderSpanWith, toList_spanText, String.toList_intercalate, hcomma, List.map_append,
    List.map_map]
  rw [quoted_plain (lowerHex 32 trace.toNat).toList, quoted_plain (lowerHex 16 span.toNat).toList,
    quoted_plain (lowerHex 16 0).toList, quoted_escaped]
  simp only [List.map_cons, List.map_nil, List.cons_append, List.nil_append, Function.comp_def]

theorem span_decodes (trace : BitVec 128) (span : BitVec 64) (req : ReqLine) (status : String)
    (durUs : BitVec 128) (extra : List (String × String)) (hextra : ∀ a ∈ extra, Plain a.1) :
    decode (renderSpanWith trace span req status durUs (extra.map fun a => attr a.1 a.2)) =
        some (spanValue trace span req status durUs extra) ∧
      ∀ s, decode (jsonStr s) = some (.string s) :=
  ⟨decode_eq (denotes_span trace span req status durUs hextra), jsonStr_decodes⟩

/-- A path with a quote, a backslash, a line end and another control character. -/
theorem odd_span_decodes :
    decode (renderSpanWith 1 2 ⟨"GET", "/\"\\\n\x01"⟩ "200" 7 [attr "tls.group" "x25519"]) =
        some (spanValue 1 2 ⟨"GET", "/\"\\\n\x01"⟩ "200" 7 [("tls.group", "x25519")]) :=
  (span_decodes 1 2 ⟨"GET", "/\"\\\n\x01"⟩ "200" 7 [("tls.group", "x25519")] (by decide)).1

end DragonsNet.Dataplane.Spans
