/- GID: DragonsNet/Dataplane/Cache
   source: migration/dataplane/host/src/cache.rs
   digest: The response cache with its coalescing, and whom a response may reach. -/

import DragonsNet.Lib.Runs
import Mathlib.Tactic.Common

set_option autoImplicit false

namespace DragonsNet.Dataplane.Cache

open Lib.Runs (run Meets invariant_of_meets)

abbrev Bytes := List UInt8

def ascii (s : String) : Bytes := s.toList.map fun c => c.toNat.toUInt8

/-- The position loop of `find`, for a needle that is not empty. -/
def findFrom (needle : Bytes) : Bytes → Option ℕ
  | [] => none
  | b :: rest =>
    if needle.isPrefixOf (b :: rest) then some 0 else (findFrom needle rest).map (· + 1)

def find (hay needle : Bytes) : Option ℕ :=
  if needle = [] ∨ hay.length < needle.length then none else findFrom needle hay

def crlf : Bytes := ascii "\r\n"

def lower (b : UInt8) : UInt8 := if 65 ≤ b ∧ b ≤ 90 then b + 32 else b

def eqIgnoreAsciiCase (a b : Bytes) : Bool := a.map lower == b.map lower

def isAsciiWhitespace (b : UInt8) : Bool := b == 32 || b == 9 || b == 10 || b == 12 || b == 13

def trim (b : Bytes) : Bytes :=
  ((b.dropWhile isAsciiWhitespace).reverse.dropWhile isAsciiWhitespace).reverse

/-- The header names, with the line break before them, that keep a request out of the
cache. -/
def bypassHeaders : List Bytes :=
  [ascii "\r\nif-none-match:", ascii "\r\nif-match:", ascii "\r\nif-modified-since:",
    ascii "\r\nif-unmodified-since:", ascii "\r\nif-range:", ascii "\r\nrange:"]

/-- `method + b' ' + request-target`, for a GET that is not conditional and has no range. -/
def cacheKey (req : Bytes) : Option Bytes := do
  let lineEnd ← find req crlf
  match (req.take lineEnd).splitOn 32 with
  | method :: target :: _ =>
    if method ≠ ascii "GET" then none
    else
      let headEnd := ((find req (ascii "\r\n\r\n")).map (· + 4)).getD req.length
      let headLower := (req.take headEnd).map lower
      if bypassHeaders.any fun hdr => (find headLower hdr).isSome then none
      else some (method ++ 32 :: target)
  | _ => none

def statusIs2xx (resp : Bytes) : Bool :=
  let line := resp.take ((find resp crlf).getD resp.length)
  match line.splitOn 32 with
  | _ :: code :: _ => code.head? == some 50 && code.length == 3
  | _ => false

/-- `str::parse::<u64>`: an optional plus sign, then one digit or more, below 2^64. A byte
that is not ASCII is refused here as `from_utf8` or the parse refuses it. -/
def parseU64 (digits : Bytes) : Option ℕ :=
  let body := if digits.head? = some 43 then digits.tail else digits
  if body = [] then none
  else
    (body.foldl (fun acc b => acc.bind fun value =>
      if 48 ≤ b ∧ b ≤ 57 then
        let next := value * 10 + (b.toNat - 48)
        if next < 2 ^ 64 then some next else none
      else none) (some 0))

/-- The `max-age=` directive of one `Cache-Control` value. The outer option says whether
the directive was found, which ends the scan, the inner one whether it parsed. -/
def maxAgeOf : List Bytes → Option (Option ℕ)
  | [] => none
  | directive :: rest =>
    let d := trim directive
    match d.findIdx? (· == 61) with
    | none => maxAgeOf rest
    | some eq =>
      if eqIgnoreAsciiCase (trim (d.take eq)) (ascii "max-age") then
        some (parseU64 (trim (d.drop (eq + 1))))
      else maxAgeOf rest

def maxAgeInLines : List Bytes → Option ℕ
  | [] => none
  | line :: rest =>
    let line := if line.getLast? = some 13 then line.dropLast else line
    match line.findIdx? (· == 58) with
    | none => maxAgeInLines rest
    | some colon =>
      if eqIgnoreAsciiCase (line.take colon) (ascii "cache-control") then
        match maxAgeOf ((line.drop (colon + 1)).splitOn 44) with
        | some parsed => parsed
        | none => maxAgeInLines rest
      else maxAgeInLines rest

def parseMaxAge (head : Bytes) : Option ℕ := maxAgeInLines (head.splitOn 10)

/-- Some lifetime iff the response is a 2xx with a positive `Cache-Control: max-age`. -/
def cacheableLifetime (resp : Bytes) : Option ℕ :=
  if !statusIs2xx resp then none
  else
    let headEnd := ((find resp (ascii "\r\n\r\n")).map (· + 2)).getD resp.length
    match parseMaxAge (resp.take headEnd) with
    | none => none
    | some maxAge => if maxAge = 0 then none else some maxAge

/-- Insert `X-Cache`, and `Age` where there is one, after the status line. -/
def stamp (resp xcache : Bytes) (age : Option ℕ) : Bytes :=
  match find resp crlf with
  | none => resp
  | some p =>
    resp.take (p + 2) ++ ascii "X-Cache: " ++ xcache ++ crlf ++
      (match age with
        | some a => ascii "Age: " ++ (Nat.toDigits 10 a).map (fun c => c.toNat.toUInt8) ++ crlf
        | none => []) ++
      resp.drop (p + 2)

example : cacheKey (ascii "GET /a HTTP/1.1\r\nHost: x\r\n\r\n") = some (ascii "GET /a") := by
  decide

example : cacheKey (ascii "GET /a HTTP/1.1\r\nRANGE: bytes=0-\r\n\r\n") = none := by decide

example : cacheableLifetime
    (ascii "HTTP/1.1 200 OK\r\nCache-control: private , Max-Age = 60\r\n\r\nhi") = some 60 := by
  decide

example : stamp (ascii "HTTP/1.1 200 OK\r\n\r\nhi") (ascii "HIT") (some 12) =
    ascii "HTTP/1.1 200 OK\r\nX-Cache: HIT\r\nAge: 12\r\n\r\nhi" := by decide

/-- A stored response. `origin` records the call whose fetch produced it. -/
structure Entry (n : ℕ) where
  body : Bytes
  storedAt : ℕ
  maxAge : ℕ
  origin : Fin n

/-- Where a call of `serve` stands: before `try_hit`, before the in-flight map, waiting on
the leader of its flight, before a fetch (without a key, or as the leader of a key), and
with the leader's response before the store, before the publication to the waiters and
before the in-flight marker is removed. A call that returned keeps its answer and the call
whose fetch the answer came from. -/
inductive Call (n : ℕ) where
  | idle
  | looking (key : Bytes)
  | joining (key : Bytes)
  | waiting (leader : Fin n)
  | bypassing
  | leading (key : Bytes)
  | storing (key resp : Bytes)
  | publishing (key resp : Bytes)
  | clearing (key resp : Bytes)
  | returned (answer : Bytes) (origin : Fin n)

/-- The store, the in-flight map and the published response of each flight, a flight being
named by the call that leads it; the clock in nanoseconds; the calls; and, as a record of
the run, what each call's own fetch gave. -/
structure State (n : ℕ) where
  store : Bytes → Option (Entry n)
  inflight : Bytes → Option (Fin n)
  done : Fin n → Option Bytes
  now : ℕ
  calls : Fin n → Call n
  fetched : Fin n → Option Bytes

def start (n : ℕ) : State n where
  store := fun _ => none
  inflight := fun _ => none
  done := fun _ => none
  now := 0
  calls := fun _ => .idle
  fetched := fun _ => none

inductive Action (n : ℕ) where
  | serve (i : Fin n) (req : Bytes)
  | fetch (i : Fin n) (resp : Bytes)
  | advance (i : Fin n)
  | tick (nanos : ℕ)

variable {n : ℕ} {c : Call n} {i : Fin n} {s : State n} {fetched : Fin n → Option Bytes}

def State.setCall (s : State n) (i : Fin n) (c : Call n) : State n :=
  { s with calls := Function.update s.calls i c }

def hit : Bytes := ascii "HIT"

def miss : Bytes := ascii "MISS"

/-- `try_hit` under the store's lock: a fresh entry is replayed with its age in seconds, a
stale one is dropped. -/
def tryHit (s : State n) (i : Fin n) (key : Bytes) : State n :=
  match s.store key with
  | none => s.setCall i (.joining key)
  | some e =>
    let age := (s.now - e.storedAt) / 10 ^ 9
    if age < e.maxAge then s.setCall i (.returned (stamp e.body hit (some age)) e.origin)
    else { s.setCall i (.joining key) with store := Function.update s.store key none }

def join (s : State n) (i : Fin n) (key : Bytes) : State n :=
  match s.inflight key with
  | some leader => s.setCall i (.waiting leader)
  | none => { s.setCall i (.leading key) with inflight := Function.update s.inflight key (some i) }

def storeFetched (s : State n) (i : Fin n) (key resp : Bytes) : State n :=
  match cacheableLifetime resp with
  | some maxAge =>
    { s.setCall i (.publishing key resp) with
      store := Function.update s.store key (some ⟨resp, s.now, maxAge, i⟩) }
  | none => s.setCall i (.publishing key resp)

def advance (s : State n) (i : Fin n) : Option (State n) :=
  match s.calls i with
  | .looking key => some (tryHit s i key)
  | .joining key => some (join s i key)
  | .waiting leader =>
    match s.done leader with
    | some resp => some (s.setCall i (.returned (stamp resp hit (some 0)) leader))
    | none => none
  | .storing key resp => some (storeFetched s i key resp)
  | .publishing key resp =>
    some { s.setCall i (.clearing key resp) with done := Function.update s.done i (some resp) }
  | .clearing key resp =>
    some { s.setCall i (.returned (stamp resp miss none) i) with
      inflight := Function.update s.inflight key none }
  | _ => none

/-- The fetch of a call without a key, whose bytes are the answer, or of a leader. -/
def fetch (s : State n) (i : Fin n) (resp : Bytes) : Option (State n) :=
  match s.calls i with
  | .bypassing =>
    some { s.setCall i (.returned resp i) with
      fetched := Function.update s.fetched i (some resp) }
  | .leading key =>
    some { s.setCall i (.storing key resp) with
      fetched := Function.update s.fetched i (some resp) }
  | _ => none

def step (s : State n) : Action n → Option (State n)
  | .serve i req =>
    match s.calls i with
    | .idle =>
      match cacheKey req with
      | none => some (s.setCall i .bypassing)
      | some key => some (s.setCall i (.looking key))
    | _ => none
  | .fetch i resp => fetch s i resp
  | .advance i => advance s i
  | .tick nanos => some { s with now := s.now + nanos }

/-- The answer of a call is the fetch it names, and a fetch without a lifetime answers its
own call only, octet for octet; another call's fetch answers with the stamp of a hit. -/
def Private (fetched : Fin n → Option Bytes) (i : Fin n) (answer : Bytes) (origin : Fin n) :
    Prop :=
  ∃ resp, fetched origin = some resp ∧
    (cacheableLifetime resp = none → origin = i ∧ answer = resp) ∧
    (origin ≠ i → (cacheableLifetime resp).isSome ∧ ∃ age, answer = stamp resp hit (some age))

def Separate (s : State n) : Prop :=
  ∀ i answer origin, s.calls i = .returned answer origin → Private s.fetched i answer origin

/-- A leader's fetch gives a response that has a lifetime, or one without a line break, which
is not stamped; and a waiter takes a response that has a lifetime. -/
def shareable (s : State n) : Action n → Bool
  | .fetch i resp =>
    match s.calls i with
    | .leading _ => (cacheableLifetime resp).isSome || (find resp crlf).isNone
    | _ => true
  | .advance i =>
    match s.calls i with
    | .waiting leader => (s.done leader).all fun resp => (cacheableLifetime resp).isSome
    | _ => true
  | _ => true

def Call.before : Call n → Bool
  | .storing _ _ | .publishing _ _ | .clearing _ _ | .returned _ _ => false
  | _ => true

def Call.resp : Call n → Option Bytes
  | .storing _ resp | .publishing _ resp | .clearing _ resp => some resp
  | _ => none

/-- A response a leader may answer with: stamped, it has a lifetime. -/
def Stampable (resp : Bytes) : Prop := (cacheableLifetime resp).isSome ∨ find resp crlf = none

structure Inv (s : State n) : Prop where
  unfetched : ∀ i, (s.calls i).before = true → s.fetched i = none
  entries : ∀ key e, s.store key = some e →
    s.fetched e.origin = some e.body ∧ cacheableLifetime e.body = some e.maxAge
  published : ∀ leader resp, s.done leader = some resp → s.fetched leader = some resp
  carried : ∀ i resp, (s.calls i).resp = some resp → s.fetched i = some resp ∧ Stampable resp
  separate : Separate s

theorem start_inv : Inv (start n) where
  unfetched := fun _ _ => rfl
  entries := fun _ _ h => by cases h
  published := fun _ _ h => by cases h
  carried := fun _ _ h => by cases h
  separate := fun _ _ _ h => by cases h

private theorem stamp_of_find_none {resp xcache : Bytes} {age : Option ℕ}
    (h : find resp crlf = none) :
    stamp resp xcache age = resp := by
  simp only [stamp, h]

private theorem Inv.setCall (h : Inv s)
    (hbefore : c.before = true → s.fetched i = none)
    (hcarried : ∀ resp, c.resp = some resp → s.fetched i = some resp ∧ Stampable resp)
    (hreturned : ∀ answer origin, c = .returned answer origin →
      Private s.fetched i answer origin) : Inv (s.setCall i c) := by
  refine ⟨fun j hj => ?_, h.entries, h.published, fun j resp hj => ?_,
    fun j answer origin hj => ?_⟩
  · by_cases hji : j = i
    · subst hji
      exact hbefore (by simpa [State.setCall] using hj)
    · exact h.unfetched j (by simpa [State.setCall, hji] using hj)
  · by_cases hji : j = i
    · subst hji
      exact hcarried resp (by simpa [State.setCall] using hj)
    · exact h.carried j resp (by simpa [State.setCall, hji] using hj)
  · by_cases hji : j = i
    · subst hji
      exact hreturned answer origin (by simpa [State.setCall] using hj)
    · exact h.separate j answer origin (by simpa [State.setCall, hji] using hj)

private theorem Inv.wander (h : Inv s) (hi : (s.calls i).before = true) (hc : c.resp = none)
    (hret : ∀ answer origin, c ≠ .returned answer origin) : Inv (s.setCall i c) :=
  h.setCall (fun _ => h.unfetched i hi) (fun resp hresp => by rw [hc] at hresp; cases hresp)
    (fun answer origin heq => absurd heq (hret answer origin))

private theorem Inv.record (h : Inv s) {resp : Bytes} (hi : (s.calls i).before = true)
    (hbefore : c.before = false) (hcarried : ∀ r, c.resp = some r → r = resp ∧ Stampable resp)
    (hreturned : ∀ answer origin, c = .returned answer origin → answer = resp ∧ origin = i) :
    Inv { s.setCall i c with fetched := Function.update s.fetched i (some resp) } := by
  have keep : ∀ j r, s.fetched j = some r →
      Function.update s.fetched i (some resp) j = some r := by
    intro j r hj
    have hji : j ≠ i := by
      rintro rfl
      rw [h.unfetched j hi] at hj
      cases hj
    simpa [hji] using hj
  refine ⟨fun j hj => ?_, fun key e he => ?_, fun leader r hr => keep _ _ (h.published _ _ hr),
    fun j r hr => ?_, fun j answer origin hj => ?_⟩
  · have hji : j ≠ i := by
      rintro rfl
      simp [State.setCall, hbefore] at hj
    simpa [hji] using h.unfetched j (by simpa [State.setCall, hji] using hj)
  · obtain ⟨hbody, hlife⟩ := h.entries key e he
    exact ⟨keep _ _ hbody, hlife⟩
  · by_cases hji : j = i
    · subst hji
      obtain ⟨rfl, hstamp⟩ := hcarried r (by simpa [State.setCall] using hr)
      exact ⟨by simp, hstamp⟩
    · obtain ⟨hfetched, hstamp⟩ := h.carried j r (by simpa [State.setCall, hji] using hr)
      exact ⟨keep _ _ hfetched, hstamp⟩
  · by_cases hji : j = i
    · subst hji
      obtain ⟨rfl, rfl⟩ := hreturned answer origin (by simpa [State.setCall] using hj)
      exact ⟨answer, by simp, fun _ => ⟨rfl, rfl⟩, fun hne => absurd rfl hne⟩
    · obtain ⟨r, hr, hrest⟩ :=
        h.separate j answer origin (by simpa [State.setCall, hji] using hj)
      exact ⟨r, keep _ _ hr, hrest⟩

private theorem private_own {resp answer : Bytes} (h : fetched i = some resp)
    (hnone : cacheableLifetime resp = none → answer = resp) : Private fetched i answer i :=
  ⟨resp, h, fun hlife => ⟨rfl, hnone hlife⟩, fun hne => absurd rfl hne⟩

private theorem private_hit {i origin : Fin n} {resp : Bytes} {age : ℕ}
    (h : fetched origin = some resp) (hlife : (cacheableLifetime resp).isSome) :
    Private fetched i (stamp resp hit (some age)) origin := by
  refine ⟨resp, h, fun hnone => ?_, fun _ => ⟨hlife, age, rfl⟩⟩
  rw [hnone] at hlife
  cases hlife

theorem tryHit_inv {key : Bytes} (h : Inv s) (hi : s.calls i = .looking key) :
    Inv (tryHit s i key) := by
  have hbefore : (s.calls i).before = true := by rw [hi]; rfl
  have hjoin : Inv (s.setCall i (.joining key)) := h.wander hbefore rfl (by simp)
  unfold tryHit
  split
  · exact hjoin
  · rename_i e he
    obtain ⟨hbody, hlife⟩ := h.entries key e he
    dsimp only
    split_ifs
    · refine h.setCall (by simp [Call.before]) (by simp [Call.resp]) fun answer origin heq => ?_
      obtain ⟨rfl, rfl⟩ := Call.returned.inj heq
      exact private_hit hbody (by rw [hlife]; rfl)
    · refine ⟨hjoin.unfetched, fun key' e' he' => ?_, hjoin.published, hjoin.carried,
        hjoin.separate⟩
      by_cases hkey : key' = key
      · simp [hkey] at he'
      · exact h.entries key' e' (by simpa [hkey] using he')

theorem join_inv {key : Bytes} (h : Inv s) (hi : s.calls i = .joining key) :
    Inv (join s i key) := by
  have hbefore : (s.calls i).before = true := by rw [hi]; rfl
  unfold join
  split
  · exact h.wander hbefore rfl (by simp)
  · have hlead : Inv (s.setCall i (.leading key)) := h.wander hbefore rfl (by simp)
    exact ⟨hlead.unfetched, hlead.entries, hlead.published, hlead.carried, hlead.separate⟩

theorem storeFetched_inv {key resp : Bytes} (h : Inv s) (hi : s.calls i = .storing key resp) :
    Inv (storeFetched s i key resp) := by
  have hcarried := h.carried i resp (by rw [hi]; rfl)
  have hpub : Inv (s.setCall i (.publishing key resp)) := by
    refine h.setCall (by simp [Call.before]) (fun r hr => ?_) (by simp)
    obtain rfl : resp = r := by simpa [Call.resp] using hr
    exact hcarried
  unfold storeFetched
  split
  · rename_i maxAge hlife
    refine ⟨hpub.unfetched, fun key' e he => ?_, hpub.published, hpub.carried, hpub.separate⟩
    by_cases hkey : key' = key
    · subst hkey
      obtain rfl : (⟨resp, s.now, maxAge, i⟩ : Entry n) = e := by simpa using he
      exact ⟨hcarried.1, hlife⟩
    · exact h.entries key' e (by simpa [hkey] using he)
  · exact hpub

theorem advance_inv {s t : State n} (h : Inv s) (hok : shareable s (.advance i) = true)
    (hstep : advance s i = some t) : Inv t := by
  unfold advance at hstep
  split at hstep
  · rename_i key hi
    cases hstep
    exact tryHit_inv h hi
  · rename_i key hi
    cases hstep
    exact join_inv h hi
  · rename_i leader hi
    split at hstep
    · rename_i resp hdone
      cases hstep
      have hlife : (cacheableLifetime resp).isSome := by
        simpa [shareable, hi, hdone] using hok
      refine h.setCall (by simp [Call.before]) (by simp [Call.resp]) fun answer origin heq => ?_
      obtain ⟨rfl, rfl⟩ := Call.returned.inj heq
      exact private_hit (h.published leader resp hdone) hlife
    · cases hstep
  · rename_i key resp hi
    cases hstep
    exact storeFetched_inv h hi
  · rename_i key resp hi
    cases hstep
    have hcarried := h.carried i resp (by rw [hi]; rfl)
    have hclear : Inv (s.setCall i (.clearing key resp)) := by
      refine h.setCall (by simp [Call.before]) (fun r hr => ?_) (by simp)
      obtain rfl : resp = r := by simpa [Call.resp] using hr
      exact hcarried
    refine ⟨hclear.unfetched, hclear.entries, fun leader r hr => ?_, hclear.carried,
      hclear.separate⟩
    by_cases hl : leader = i
    · subst hl
      obtain rfl : resp = r := by simpa using hr
      exact hcarried.1
    · exact h.published leader r (by simpa [hl] using hr)
  · rename_i key resp hi
    cases hstep
    obtain ⟨hfetched, hstamp⟩ := h.carried i resp (by rw [hi]; rfl)
    have hret : Inv (s.setCall i (.returned (stamp resp miss none) i)) := by
      refine h.setCall (by simp [Call.before]) (by simp [Call.resp]) fun answer origin heq => ?_
      obtain ⟨rfl, rfl⟩ := Call.returned.inj heq
      refine private_own hfetched fun hnone => ?_
      rcases hstamp with hlife | hfind
      · rw [hnone] at hlife
        cases hlife
      · exact stamp_of_find_none hfind
    exact ⟨hret.unfetched, hret.entries, hret.published, hret.carried, hret.separate⟩
  · cases hstep

theorem fetch_inv {s t : State n} {resp : Bytes} (h : Inv s)
    (hok : shareable s (.fetch i resp) = true) (hstep : fetch s i resp = some t) : Inv t := by
  unfold fetch at hstep
  split at hstep
  · rename_i hi
    cases hstep
    refine h.record (by rw [hi]; rfl) rfl (by simp [Call.resp]) fun answer origin heq => ?_
    obtain ⟨rfl, rfl⟩ := Call.returned.inj heq
    exact ⟨rfl, rfl⟩
  · rename_i key hi
    cases hstep
    have hstamp : Stampable resp := by simpa [shareable, hi, Stampable] using hok
    refine h.record (by rw [hi]; rfl) rfl (fun r hr => ?_) (by simp)
    obtain rfl : resp = r := by simpa [Call.resp] using hr
    exact ⟨rfl, hstamp⟩
  · cases hstep

theorem step_inv {s t : State n} {a : Action n} (h : Inv s) (hok : shareable s a = true)
    (hstep : step s a = some t) : Inv t := by
  cases a with
  | serve i req =>
    simp only [step] at hstep
    split at hstep
    · rename_i hi
      have hbefore : (s.calls i).before = true := by rw [hi]; rfl
      split at hstep
      · cases hstep
        exact h.wander hbefore rfl (by simp)
      · cases hstep
        exact h.wander hbefore rfl (by simp)
    · cases hstep
  | fetch i resp => exact fetch_inv h hok hstep
  | advance i => exact advance_inv h hok hstep
  | tick nanos =>
    cases hstep
    exact ⟨h.unfetched, h.entries, h.published, h.carried, h.separate⟩

/-- In every run whose steps share only what may be shared, a response without a lifetime is
returned by the call that fetched it and by no other, octet for octet, and a call answered
from another call's fetch gets the stamp of a response that has a lifetime. -/
theorem serve_separate (n : ℕ) (acts : List (Action n)) (s : State n)
    (hshare : Meets step (fun s a => shareable s a = true) (start n) acts)
    (hrun : run step (start n) acts = some s) : Separate s :=
  (invariant_of_meets step_inv start_inv hshare hrun).separate

def getA : Bytes := ascii "GET /a HTTP/1.1\r\n\r\n"

def plainOk : Bytes := ascii "HTTP/1.1 200 OK\r\n\r\nown"

def freshOk : Bytes := ascii "HTTP/1.1 200 OK\r\nCache-Control: max-age=9\r\n\r\nall"

/-- Two calls with one key: the second coalesces onto the fetch of the first. -/
def coalesced (resp : Bytes) : List (Action 2) :=
  [.serve 0 getA, .serve 1 getA, .advance 0, .advance 1, .advance 0, .advance 1,
    .fetch 0 resp, .advance 0, .advance 0, .advance 0, .advance 1]

/-- The response has no lifetime, and the waiter returns it all the same. -/
theorem coalesced_shares_uncacheable : ∃ s, run step (start 2) (coalesced plainOk) = some s ∧
    ¬ Separate s := by
  refine ⟨_, rfl, fun h => ?_⟩
  obtain ⟨resp, hresp, hnone, -⟩ := h 1 (stamp plainOk hit (some 0)) 0 rfl
  obtain rfl : plainOk = resp := Option.some.inj hresp
  exact absurd (hnone (by decide)).1 (by decide)

theorem coalesced_shares_fresh : ∃ s, run step (start 2) (coalesced freshOk) = some s ∧
    s.calls 1 = .returned (stamp freshOk hit (some 0)) 0 ∧ Separate s :=
  ⟨_, rfl, rfl, serve_separate 2 (coalesced freshOk) _ (by decide) rfl⟩

end DragonsNet.Dataplane.Cache
