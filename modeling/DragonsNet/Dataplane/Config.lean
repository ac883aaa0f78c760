/- GID: DragonsNet/Dataplane/Config
   source: migration/dataplane/host/src/config.rs
   digest: The running configuration's cells, and what a reload leaves in them. -/

import DragonsNet.Dataplane.Cache
import Mathlib.Algebra.Group.Nat.Defs

set_option autoImplicit false

namespace DragonsNet.Dataplane.Config

open Cache (Bytes ascii)

abbrev Text := List Char

/-! ## Reading text -/

def replacement : Char := Char.ofNat 0xFFFD

def isContinuation (b : UInt8) : Bool := 0x80 ≤ b && b ≤ 0xBF

/-- Whether `b` may come second after `b0`: neither overlong, nor a surrogate, nor too large. -/
def secondOk (b0 b : UInt8) : Bool :=
  isContinuation b && (b0 != 0xE0 || 0xA0 ≤ b) && (b0 != 0xED || b ≤ 0x9F) &&
    (b0 != 0xF0 || 0x90 ≤ b) && (b0 != 0xF4 || b ≤ 0x8F)

def low6 (b : UInt8) : ℕ := b.toNat % 64

/-- `String::from_utf8_lossy`: what cannot go on to be a character is one replacement character. -/
def fromUtf8Lossy : Bytes → Text
  | [] => []
  | b0 :: rest =>
    if b0 < 0x80 then .ofNat b0.toNat :: fromUtf8Lossy rest
    else if b0 < 0xC2 || 0xF4 < b0 then replacement :: fromUtf8Lossy rest
    else
      match rest with
      | [] => [replacement]
      | b1 :: rest1 =>
        if !secondOk b0 b1 then replacement :: fromUtf8Lossy (b1 :: rest1)
        else if b0 < 0xE0 then
          .ofNat (b0.toNat % 32 * 64 + low6 b1) :: fromUtf8Lossy rest1
        else
          match rest1 with
          | [] => [replacement]
          | b2 :: rest2 =>
            if !isContinuation b2 then replacement :: fromUtf8Lossy (b2 :: rest2)
            else if b0 < 0xF0 then
              .ofNat ((b0.toNat % 16 * 64 + low6 b1) * 64 + low6 b2) :: fromUtf8Lossy rest2
            else
              match rest2 with
              | [] => [replacement]
              | b3 :: rest3 =>
                if !isContinuation b3 then replacement :: fromUtf8Lossy (b3 :: rest3)
                else
                  .ofNat (((b0.toNat % 8 * 64 + low6 b1) * 64 + low6 b2) * 64 + low6 b3) ::
                    fromUtf8Lossy rest3

def stripCr (line : Text) : Text := if line.getLast? = some '\r' then line.dropLast else line

/-- `str::lines`. A carriage return is dropped only before a line feed, and nothing after the last
line feed is no line. -/
def lines (s : Text) : List Text :=
  let pieces := s.splitOn '\n'
  pieces.dropLast.map stripCr ++ pieces.getLast?.toList.filter (· ≠ [])

def isWhitespace (c : Char) : Bool :=
  (0x9 ≤ c.toNat && c.toNat ≤ 0xD) || c.toNat == 0x20 || c.toNat == 0x85 || c.toNat == 0xA0 ||
    c.toNat == 0x1680 || (0x2000 ≤ c.toNat && c.toNat ≤ 0x200A) || c.toNat == 0x2028 ||
    c.toNat == 0x2029 || c.toNat == 0x202F || c.toNat == 0x205F || c.toNat == 0x3000

def splitWhitespace (line : Text) : List Text := (line.splitOnP isWhitespace).filter (· ≠ [])

/-- One more digit, unless it is none or takes the value out of its range. -/
def pushDigit (bits value : ℕ) (c : Char) : Option ℕ :=
  if '0' ≤ c ∧ c ≤ '9' ∧ value * 10 + (c.toNat - 48) < 2 ^ bits then
    some (value * 10 + (c.toNat - 48))
  else none

/-- `str::parse` of an unsigned integer: an optional plus sign, then one digit or more. -/
def parseUnsigned (bits : ℕ) (s : Text) : Option ℕ :=
  let digits := if s.head? = some '+' then s.tail else s
  if digits = [] then none else digits.foldlM (pushDigit bits) 0

/-! ## The directives -/

def defaultMaxConnections : ℕ := 512

def defaultRateLimit : ℕ := 2000

def defaultRateWindowMs : ℕ := 1000

def defaultSlowlorisMs : ℕ := 30000

def defaultMaxBodySize : ℕ := 128 * 1024 * 1024

def defaultBurstCap : ℕ := 512

def defaultBurstRefill : ℕ := 64

/-- What an explicit directive puts in place of `old`, where its number parses. -/
def override (bits : ℕ) (n : Text) (old : ℕ) : ℕ := (parseUnsigned bits n).getD old

def scanConnectionLine (cap : ℕ) (toks : List Text) : ℕ :=
  match toks with
  | [name, n] => if name = "max-connections".toList then override 32 n cap else cap
  | _ => cap

def scanMaxConnections (bytes : Bytes) : ℕ :=
  ((lines (fromUtf8Lossy bytes)).map splitWhitespace).foldl scanConnectionLine defaultMaxConnections

/-- The settings of the accept path and of a connection's bucket. -/
structure Dos where
  rate : ℕ
  windowMs : ℕ
  slowMs : ℕ
  maxBody : ℕ
  burstCap : ℕ
  burstRefill : ℕ
  deriving DecidableEq, Repr

def Dos.default : Dos where
  rate := defaultRateLimit
  windowMs := defaultRateWindowMs
  slowMs := defaultSlowlorisMs
  maxBody := defaultMaxBodySize
  burstCap := defaultBurstCap
  burstRefill := defaultBurstRefill

/-- One line of `scan_dos_directives`. A window is never zero. -/
def scanDosLine (d : Dos) (toks : List Text) : Dos :=
  match toks with
  | [name, n] =>
    if name = "rate-limit".toList then { d with rate := override 32 n d.rate }
    else if name = "rate-window".toList then
      { d with windowMs := ((parseUnsigned 64 n).map (max · 1)).getD d.windowMs }
    else if name = "slowloris-timeout".toList then { d with slowMs := override 64 n d.slowMs }
    else if name = "max-body-size".toList then { d with maxBody := override 64 n d.maxBody }
    else if name = "burst-cap".toList then { d with burstCap := override 32 n d.burstCap }
    else if name = "burst-refill".toList then { d with burstRefill := override 32 n d.burstRefill }
    else d
  | _ => d

def scanDosDirectives (bytes : Bytes) : Dos :=
  ((lines (fromUtf8Lossy bytes)).map splitWhitespace).foldl scanDosLine .default

/-! ## The cells -/

structure Deployment where
  lbPolicy : ℕ
  l4Binds : List Text
  configText : Bytes
  routeCount : ℕ
  vproxyHosts : List Text
  deriving DecidableEq, Repr

/-- The active deployment, its generation, the raw bytes, and the eight settings. -/
structure Cells where
  cell : Option Deployment
  generation : ℕ
  raw : Bytes
  maxConnections : ℕ
  rateLimit : ℕ
  rateWindowMs : ℕ
  slowlorisMs : ℕ
  maxBodySize : ℕ
  burstCap : ℕ
  burstRefill : ℕ
  deriving DecidableEq, Repr

def Cells.start : Cells where
  cell := none
  generation := 0
  raw := []
  maxConnections := defaultMaxConnections
  rateLimit := defaultRateLimit
  rateWindowMs := defaultRateWindowMs
  slowlorisMs := defaultSlowlorisMs
  maxBodySize := defaultMaxBodySize
  burstCap := defaultBurstCap
  burstRefill := defaultBurstRefill

def setRaw (c : Cells) (bytes : Bytes) : Cells :=
  let d := scanDosDirectives bytes
  { c with
    raw := bytes
    maxConnections := scanMaxConnections bytes
    rateLimit := d.rate
    rateWindowMs := d.windowMs
    slowlorisMs := d.slowMs
    maxBodySize := d.maxBody
    burstCap := d.burstCap
    burstRefill := d.burstRefill }

/-- What the readers answer: `get`, `raw_text`, `max_connections`, `rate_limit`, `rate_window`,
`slowloris_timeout`, `max_body_size`, `burst_cap` and `burst_refill`. -/
structure Answers where
  get : Option Deployment
  rawText : Bytes
  maxConnections : ℕ
  rateLimit : ℕ
  rateWindow : ℕ
  slowlorisTimeout : ℕ
  maxBodySize : ℕ
  burstCap : ℕ
  burstRefill : ℕ
  deriving DecidableEq, Repr

/-- The cells of 64 bits are read as numbers of 32 where the source casts them. -/
def Cells.answers (c : Cells) : Answers where
  get := c.cell
  rawText := c.raw
  maxConnections := c.maxConnections % 2 ^ 32
  rateLimit := c.rateLimit % 2 ^ 32
  rateWindow := max c.rateWindowMs 1
  slowlorisTimeout := c.slowlorisMs
  maxBodySize := c.maxBodySize
  burstCap := c.burstCap % 2 ^ 32
  burstRefill := c.burstRefill % 2 ^ 32

/-! ## Loading -/

structure Projected where
  lbPolicy : Option ℕ
  routeCount : ℕ
  l4Binds : List Text
  vproxyHosts : List Text

def projectLine (p : Projected) (line : Text) : Projected :=
  if "lb\t".toList <+: line then { p with lbPolicy := parseUnsigned 8 (line.drop 3) }
  else if "routes\t".toList <+: line then
    { p with routeCount := (parseUnsigned 32 (line.drop 7)).getD 0 }
  else if "vproxy\t".toList <+: line then
    { p with vproxyHosts := p.vproxyHosts ++ [line.drop 7] }
  else if line ≠ [] then { p with l4Binds := p.l4Binds ++ [line] }
  else p

/-- The seam's answer to a text, none where the serve thread is gone. -/
abbrev Seam := Bytes → Option Bytes

def parseText (seam : Seam) (text : Bytes) : Except String Deployment :=
  match seam text with
  | none => .error "serve thread gone"
  | some [] => .error "did not parse (proven parser returned none)"
  | some out =>
    let p := (lines (fromUtf8Lossy out)).foldl projectLine ⟨none, 0, [], []⟩
    match p.lbPolicy with
    | none => .error "parser returned no lb policy"
    | some lbPolicy => .ok ⟨lbPolicy, p.l4Binds, text, p.routeCount, p.vproxyHosts⟩

abbrev Reading := Except String Bytes

def parseFromPath (seam : Seam) (reading : Reading) : Except String Deployment :=
  match reading with
  | .error e => .error ("cannot read (" ++ e ++ ")")
  | .ok text => parseText seam text

/-- The policy scan's bytes are kept whether or not the parser accepts them. -/
def keepRaw (c : Cells) (reading : Reading) : Cells :=
  match reading with
  | .ok bytes => setRaw c bytes
  | .error _ => c

inductive ReloadOutcome where
  | applied (generation : ℕ)
  | keptOld (reason : String)
  | noConfig
  deriving DecidableEq, Repr

/-- What a call meets: whether a path is set, the parser, and the file at each of its reads. -/
structure Surroundings where
  configured : Bool
  seam : Seam
  first : Reading
  second : Reading

def install (c : Cells) (dep : Deployment) (generation : ℕ) : Cells :=
  { c with cell := some dep, generation }

def load (w : Surroundings) (c : Cells) : Cells :=
  if !w.configured then c
  else
    let c := keepRaw c w.first
    match parseFromPath w.seam w.second with
    | .ok dep => install c dep 1
    | .error _ => c

def reload (w : Surroundings) (c : Cells) : ReloadOutcome × Cells :=
  if !w.configured then (.noConfig, c)
  else
    let c := keepRaw c w.first
    match parseFromPath w.seam w.second with
    | .ok dep =>
      let generation := (c.generation + 1) % 2 ^ 64
      (.applied generation, install c dep generation)
    | .error reason => (.keptOld reason, c)

/-- The running configuration: one load, and any number of reloads. -/
def running (boot : Surroundings) (reloads : List Surroundings) : Cells :=
  reloads.foldl (fun c w => (reload w c).2) (load boot .start)

/-! ## The cells lose nothing -/

private theorem pushDigit_lt {bits value n : ℕ} {c : Char} (h : pushDigit bits value c = some n) :
    n < 2 ^ bits := by
  rw [pushDigit] at h
  split at h
  · rename_i hc
    exact Option.some.inj h ▸ hc.2.2
  · cases h

private theorem parseUnsigned_lt {bits n : ℕ} {s : Text} (h : parseUnsigned bits s = some n) :
    n < 2 ^ bits := by
  have hfold : ∀ (digits : Text) (value : ℕ), value < 2 ^ bits →
      ∀ v, digits.foldlM (pushDigit bits) value = some v → v < 2 ^ bits := by
    intro digits
    induction digits with
    | nil => exact fun value hvalue v hv => Option.some.inj hv ▸ hvalue
    | cons c rest ih =>
      intro value _ v hv
      rw [List.foldlM_cons] at hv
      obtain ⟨next, hnext, hv⟩ := Option.bind_eq_some_iff.mp hv
      exact ih next (pushDigit_lt hnext) v hv
  simp only [parseUnsigned] at h
  generalize (if s.head? = some '+' then s.tail else s) = digits at h
  split at h
  · cases h
  · exact hfold digits 0 (Nat.two_pow_pos bits) n h

private theorem override_lt {bits old : ℕ} (n : Text) (h : old < 2 ^ bits) : override bits n old < 2
    ^ bits := by
  rw [override]
  cases hn : parseUnsigned bits n with
  | none => exact h
  | some v => exact parseUnsigned_lt hn

private theorem scanMaxConnections_lt (bytes : Bytes) : scanMaxConnections bytes < 2 ^ 32 := by
  have hfold : ∀ (toks : List (List Text)) (cap : ℕ), cap < 2 ^ 32 →
      toks.foldl scanConnectionLine cap < 2 ^ 32 := by
    intro toks
    induction toks with
    | nil => exact fun cap hcap => hcap
    | cons line rest ih =>
      intro cap hcap
      refine ih _ ?_
      unfold scanConnectionLine
      split
      · split
        · exact override_lt _ hcap
        · exact hcap
      · exact hcap
  exact hfold _ _ (by decide)

structure Dos.Fits (d : Dos) : Prop where
  rate : d.rate < 2 ^ 32
  windowMs : 1 ≤ d.windowMs
  burstCap : d.burstCap < 2 ^ 32
  burstRefill : d.burstRefill < 2 ^ 32

private theorem scanDosLine_fits {d : Dos} (h : d.Fits) (toks : List Text) :
    (scanDosLine d toks).Fits := by
  unfold scanDosLine
  split
  · rename_i name n
    split
    · exact { h with rate := override_lt n h.rate }
    split
    · refine { h with windowMs := ?_ }
      cases parseUnsigned 64 n with
      | none => exact h.windowMs
      | some v => exact Nat.le_max_right v 1
    split
    · exact { h with }
    split
    · exact { h with }
    split
    · exact { h with burstCap := override_lt n h.burstCap }
    split
    · exact { h with burstRefill := override_lt n h.burstRefill }
    · exact h
  · exact h

private theorem scanDosDirectives_fits (bytes : Bytes) : (scanDosDirectives bytes).Fits := by
  have hfold : ∀ (toks : List (List Text)) (d : Dos), d.Fits → (toks.foldl scanDosLine d).Fits := by
    intro toks
    induction toks with
    | nil => exact fun d hd => hd
    | cons line rest ih => exact fun d hd => ih _ (scanDosLine_fits hd line)
  exact hfold _ _ ⟨by decide, by decide, by decide, by decide⟩

/-! ## Reloading -/

/-- What the readers answer where everything comes from one text and the deployment parsed from
it. -/
def projections (text : Bytes) (dep : Deployment) : Answers where
  get := some dep
  rawText := text
  maxConnections := scanMaxConnections text
  rateLimit := (scanDosDirectives text).rate
  rateWindow := (scanDosDirectives text).windowMs
  slowlorisTimeout := (scanDosDirectives text).slowMs
  maxBodySize := (scanDosDirectives text).maxBody
  burstCap := (scanDosDirectives text).burstCap
  burstRefill := (scanDosDirectives text).burstRefill

private theorem install_answers (c : Cells) (text : Bytes) (dep : Deployment) (generation : ℕ) :
    (install (setRaw c text) dep generation).answers = projections text dep := by
  have hfits := scanDosDirectives_fits text
  simp only [Cells.answers, install, setRaw, projections,
    Nat.mod_eq_of_lt (scanMaxConnections_lt text), Nat.mod_eq_of_lt hfits.rate,
    Nat.mod_eq_of_lt hfits.burstCap, Nat.mod_eq_of_lt hfits.burstRefill,
    Nat.max_eq_left hfits.windowMs]

/-- The settings are those of the raw bytes. -/
def Settled (c : Cells) : Prop := setRaw c c.raw = c

private theorem Settled.keepRaw {c : Cells} (h : Settled c) (reading : Reading) :
    Settled (keepRaw c reading) := by
  cases reading with
  | ok bytes => exact rfl
  | error e => exact h

private theorem Settled.install {c : Cells} (h : Settled c) (dep : Deployment) (generation : ℕ) :
    Settled (install c dep generation) :=
  congrArg (Config.install · dep generation) h

theorem Settled.load {c : Cells} (h : Settled c) (w : Surroundings) : Settled (load w c) := by
  rw [Config.load]
  split
  · exact h
  · cases parseFromPath w.seam w.second with
    | ok dep => exact (h.keepRaw w.first).install dep 1
    | error e => exact h.keepRaw w.first

private theorem Settled.reload {c : Cells} (h : Settled c) (w : Surroundings) : Settled
    (reload w c).2 := by
  rw [Config.reload]
  split
  · exact h
  · cases parseFromPath w.seam w.second with
    | ok dep => exact (h.keepRaw w.first).install dep _
    | error e => exact h.keepRaw w.first

private theorem running_settled (boot : Surroundings) (reloads : List Surroundings) :
    Settled (running boot reloads) := by
  have hfold : ∀ c, Settled c → Settled (reloads.foldl (fun c w => (reload w c).2) c) := by
    induction reloads with
    | nil => exact fun c hc => hc
    | cons w rest ih => exact fun c hc => ih _ (hc.reload w)
  refine hfold _ (Settled.load ?_ boot)
  rfl

private theorem parseText_configText {seam : Seam} {text : Bytes} {dep : Deployment}
    (h : parseText seam text = .ok dep) : dep.configText = text := by
  rw [parseText] at h
  split at h
  · cases h
  · cases h
  · dsimp only at h
    split at h
    · cases h
    · exact (Except.ok.inj h) ▸ rfl

/-- A reload that keeps the old configuration leaves every answer; one that applies a new one takes
every answer from the text that the installed deployment was parsed from. -/
structure AllOrNothing (w : Surroundings) (c : Cells) : Prop where
  kept : ∀ reason, (reload w c).1 = .keptOld reason → (reload w c).2.answers = c.answers
  applied : ∀ generation, (reload w c).1 = .applied generation →
    ∃ text dep, w.second = .ok text ∧ parseText w.seam text = .ok dep ∧ dep.configText = text ∧
      (reload w c).2.answers = projections text dep

/-- The bytes in force once the file has been read for the scan: a read that fails leaves those
before it. -/
def scanned (w : Surroundings) (c : Cells) : Bytes :=
  match w.first with
  | .ok text => text
  | .error _ => c.raw

/-- The first read has found what the second does, where the parser accepts that, and what was in
force already where it does not or nothing is read. -/
structure Coherent (w : Surroundings) (c : Cells) : Prop where
  accepted : ∀ text dep, w.second = .ok text → parseText w.seam text = .ok dep → scanned w c = text
  refused : (∀ text dep, w.second = .ok text → parseText w.seam text ≠ .ok dep) →
    scanned w c = c.raw

private theorem Settled.keepRaw_eq {c : Cells} (h : Settled c) (w : Surroundings) :
    Config.keepRaw c w.first = setRaw c (scanned w c) := by
  rw [scanned]
  cases w.first with
  | ok text => rfl
  | error e => exact h.symm

private theorem reload_accepted {w : Surroundings} {c : Cells} (hset : w.configured = true)
    (hsettled : Settled c) {text : Bytes} {dep : Deployment} (hsecond : w.second = .ok text)
    (hparse : parseText w.seam text = .ok dep) :
    reload w c = (.applied ((c.generation + 1) % 2 ^ 64),
      install (setRaw c (scanned w c)) dep ((c.generation + 1) % 2 ^ 64)) := by
  rw [reload, hset, hsecond, hsettled.keepRaw_eq]
  simp only [parseFromPath, hparse]
  rfl

private theorem reload_refused {w : Surroundings} {c : Cells} (hset : w.configured = true)
    (hsettled : Settled c)
    (hrefused : ∀ text dep, w.second = .ok text → parseText w.seam text ≠ .ok dep) :
    ∃ reason, reload w c = (.keptOld reason, setRaw c (scanned w c)) := by
  rw [reload, hset, hsettled.keepRaw_eq]
  cases hsecond : w.second with
  | error e => exact ⟨_, rfl⟩
  | ok text =>
    cases hparse : parseText w.seam text with
    | ok dep => exact absurd hparse (hrefused text dep hsecond)
    | error reason =>
      simp only [parseFromPath, hparse]
      exact ⟨reason, rfl⟩

/-- A reload is all or nothing just where its two reads agree so: for every running configuration,
every content of the file at each read and every parser. -/
theorem reload_whole_iff (boot : Surroundings) (reloads : List Surroundings) (w : Surroundings) :
    AllOrNothing w (running boot reloads) ↔
      (w.configured = true → Coherent w (running boot reloads)) := by
  have hsettled := running_settled boot reloads
  generalize running boot reloads = c at hsettled ⊢
  cases hset : w.configured with
  | false =>
    have hnothing : reload w c = (.noConfig, c) := by rw [reload, hset]; rfl
    refine ⟨fun _ h => absurd h Bool.false_ne_true, fun _ => ⟨fun _ h => ?_, fun _ h => ?_⟩⟩
    · rw [hnothing] at h
      cases h
    · rw [hnothing] at h
      cases h
  | true =>
    by_cases haccepted : ∃ text dep, w.second = .ok text ∧ parseText w.seam text = .ok dep
    · obtain ⟨text, dep, hsecond, hparse⟩ := haccepted
      have happlied := reload_accepted hset hsettled hsecond hparse
      constructor
      · rintro h -
        obtain ⟨text', dep', hsecond', -, -, hanswers⟩ := h.applied _ (congrArg Prod.fst happlied)
        obtain rfl := Except.ok.inj (hsecond.symm.trans hsecond')
        rw [happlied, install_answers] at hanswers
        have hscanned : scanned w c = text := congrArg Answers.rawText hanswers
        refine ⟨fun text₁ _ h₁ _ => ?_, fun hrefused => absurd hparse (hrefused text dep hsecond)⟩
        exact hscanned.trans (Except.ok.inj (hsecond.symm.trans h₁))
      · intro h
        have hscanned := (h rfl).accepted text dep hsecond hparse
        refine ⟨fun reason hkept => ?_, fun _ _ => ⟨text, dep, hsecond, hparse, ?_, ?_⟩⟩
        · rw [happlied] at hkept
          cases hkept
        · exact parseText_configText hparse
        · rw [happlied, install_answers, hscanned]
    · have hrefused : ∀ text dep, w.second = .ok text → parseText w.seam text ≠ .ok dep :=
        fun text dep hsecond hparse => haccepted ⟨text, dep, hsecond, hparse⟩
      obtain ⟨reason, hkept⟩ := reload_refused hset hsettled hrefused
      constructor
      · rintro h -
        have hanswers := h.kept reason (congrArg Prod.fst hkept)
        rw [hkept] at hanswers
        refine ⟨fun text dep h₁ h₂ => absurd h₂ (hrefused text dep h₁), fun _ => ?_⟩
        exact congrArg Answers.rawText hanswers
      · intro h
        refine ⟨fun _ _ => ?_, fun generation happlied => ?_⟩
        · rw [hkept, (h rfl).refused hrefused, hsettled]
        · rw [hkept] at happlied
          cases happlied

/-- One text at both reads, and a parser that answers it with `out`. -/
def rewritten (text out : String) : Surroundings :=
  ⟨true, fun _ => some (ascii out), .ok (ascii text), .ok (ascii text)⟩

theorem accepted_text_whole :
    (reload (rewritten "max-connections 1" "lb\t0") (running (rewritten "" "lb\t0") [])).1 =
        .applied 2 ∧
      AllOrNothing (rewritten "max-connections 1" "lb\t0") (running (rewritten "" "lb\t0") []) := by
  refine ⟨by decide +kernel, (reload_whole_iff _ [] _).mpr fun _ => ⟨fun text _ h _ => ?_, ?_⟩⟩
  · exact Except.ok.inj h
  · exact fun h => absurd rfl (h (ascii "max-connections 1") ⟨0, [], _, 0, []⟩ rfl)

/-- The parser rejects the text and its directive is in force all the same; and what is installed is
parsed from another text than the one the settings come from. -/
theorem reload_mixes_texts :
    ((reload (rewritten "max-connections 1" "") (running (rewritten "" "lb\t0") [])).1 =
        .keptOld "did not parse (proven parser returned none)" ∧
      (running (rewritten "" "lb\t0") []).answers.maxConnections = 512 ∧
      (reload (rewritten "max-connections 1" "")
        (running (rewritten "" "lb\t0") [])).2.answers.maxConnections = 1) ∧
    let w := { rewritten "max-connections 1" "lb\t0" with second := .ok (ascii "max-connections 2") }
    (reload w (running (rewritten "" "lb\t0") [])).1 = .applied 2 ∧
      (reload w (running (rewritten "" "lb\t0") [])).2.answers.maxConnections = 1 ∧
      ((reload w (running (rewritten "" "lb\t0") [])).2.answers.get.map
        (scanMaxConnections ·.configText)) = some 2 := by
  decide +kernel

end DragonsNet.Dataplane.Config
