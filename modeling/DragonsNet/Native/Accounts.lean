/- GID: DragonsNet/Native/Accounts
   source: native/accounts.c, native/nntp_host.c
   digest: The checking thread and the host: which check a verdict answers. -/

import DragonsNet.Lib.Runs
import Mathlib.Algebra.Order.BigOperators.Group.Finset
import Mathlib.Tactic.Common

set_option autoImplicit false

namespace DragonsNet.Native.Accounts

open Lib.Runs (run invariant_of_step sum_update)

def conns : ℕ := 64

def batch : ℕ := 16

/-- `DN_SESSION_GEN_LIMIT`: an index given out at it is not given out again. -/
def genLimit : ℕ := 2 ^ 62

def nameMax : ℕ := 64

def passwordMax : ℕ := 256

abbrev Bytes := List UInt8

structure Account where
  name : Bytes
  salt : Bytes
  key : Bytes
  iterations : ℕ

/-- The accounts of the file, the account no name finds, and the key derivation of the
cryptographic library, which may fail. -/
structure Users where
  accounts : List Account
  unknown : Account
  pbkdf2 : Bytes → Bytes → ℕ → Option Bytes

def Users.find (u : Users) (name : Bytes) : Option Account :=
  u.accounts.find? fun a => a.name == name

/-- Whether the password is the account's of that name. The iterations an account lacks are
derived for their time only and leave the answer alone. -/
def verify (u : Users) (name password : Bytes) : Bool :=
  let a := u.find name
  let use := a.getD u.unknown
  u.pbkdf2 password use.salt use.iterations == some use.key && a.isSome

/-- `struct check`: queued in the order it came, or its verdict waiting to be given out. -/
structure Check where
  queued : Bool
  judged : Bool
  ok : Bool
  gen : ℕ
  order : ℕ
  name : Bytes
  password : Bytes

def Check.zero : Check := ⟨false, false, false, 0, 0, [], []⟩

/-- What the host keeps of a connection. `ask` records the number of its last check. -/
structure Conn where
  isOpen : Bool
  gen : ℕ
  checking : Bool
  ask : ℕ

/-- The checking thread: before its lock, or with a copy of the entry it took. -/
inductive Thread (n : ℕ) where
  | resting
  | verifying (at_ : Fin n) (c : Check)

structure Ask (n : ℕ) where
  idx : Fin n
  gen : ℕ
  name : Bytes
  password : Bytes

/-- A `VERIFIED` event, with the number of the check that was outstanding. -/
structure Given (n : ℕ) where
  ask : ℕ
  idx : Fin n
  gen : ℕ
  ok : Bool

/-- The shared entries, the thread and the host, which is in `give_verdicts` with the events
of the turn so far, or outside it. A fault is a violation reported or a thread that picks no
entry. The last four fields are a record of the run: the checks asked, by number, those the
thread took and those forgotten while queued, and the events given. -/
structure State (n : ℕ) where
  checks : Fin n → Check
  orders : ℕ
  queued : ℤ
  thread : Thread n
  conn : Fin n → Conn
  giving : Option ℕ
  fault : Bool
  asked : List (Ask n)
  taken : List ℕ
  forgotten : List ℕ
  given : List (Given n)

def start (n : ℕ) : State n where
  checks := fun _ => .zero
  orders := 0
  queued := 0
  thread := .resting
  conn := fun _ => ⟨false, 0, false, 0⟩
  giving := none
  fault := false
  asked := []
  taken := []
  forgotten := []
  given := []

/-- The host opens and closes connections, asks for checks and gives verdicts out; the
thread takes an entry and writes its verdict. `noVerdict` and `batchFull` are the two ends
of the loop of `give_verdicts`. -/
inductive Action (n : ℕ) where
  | open_ (k : Fin n)
  | close (k : Fin n)
  | check (k : Fin n) (name password : Bytes)
  | giveVerdicts
  | verdict
  | noVerdict
  | batchFull
  | take
  | judge

variable {n : ℕ} {k : Fin n} {s t : State n} {u : Users} {checks : Fin n → Check}
  {asked : List (Ask n)}

def State.setCheck (s : State n) (k : Fin n) (c : Check) : State n :=
  { s with checks := Function.update s.checks k c }

def State.setConn (s : State n) (k : Fin n) (c : Conn) : State n :=
  { s with conn := Function.update s.conn k c }

/-- A connection admitted at a free index, at the next generation of the index. -/
def openConn (s : State n) (k : Fin n) : Option (State n) :=
  if s.giving.isNone ∧ (s.conn k).isOpen = false ∧ (s.conn k).gen < genLimit then
    some (s.setConn k ⟨true, (s.conn k).gen + 1, false, (s.conn k).ask⟩)
  else none

def forget (s : State n) (k : Fin n) : State n :=
  { s.setCheck k .zero with
    queued := if (s.checks k).queued then s.queued - 1 else s.queued
    forgotten := if (s.checks k).queued then (s.checks k).order :: s.forgotten else s.forgotten }

/-- `free_index`: the check of a connection being checked is forgotten. -/
def closeConn (s : State n) (k : Fin n) : Option (State n) :=
  if s.giving.isNone ∧ (s.conn k).isOpen then
    let gone := (if (s.conn k).checking then forget s k else s)
    some (gone.setConn k { s.conn k with isOpen := false, checking := false })
  else none

/-- `dn_accounts_check`, which the host calls for an open connection that is not being
checked. -/
def check (s : State n) (k : Fin n) (name password : Bytes) : Option (State n) :=
  if s.giving.isNone ∧ (s.conn k).isOpen ∧ (s.conn k).checking = false ∧
      name.length ≤ nameMax ∧ password.length ≤ passwordMax then
    if (s.checks k).queued then some { s with fault := true }
    else
      some
        { (s.setCheck k ⟨true, false, false, (s.conn k).gen, s.orders, name, password⟩).setConn k
            { s.conn k with checking := true, ask := s.orders } with
          orders := s.orders + 1
          queued := s.queued + 1
          asked := s.asked ++ [⟨k, (s.conn k).gen, name, password⟩] }
  else none

/-- The body of the loop of `checking`: the better of the entry found so far and this one. -/
def better (checks : Fin n → Check) (at_ : Option (Fin n)) (k : Fin n) :
    Option (Fin n) :=
  if (checks k).queued then
    match at_ with
    | none => some k
    | some b => if (checks k).order < (checks b).order then some k else some b
  else at_

def pick (checks : Fin n → Check) : Option (Fin n) :=
  (List.finRange n).foldl (better checks) none

/-- The first locked step of `checking`, which waits while nothing is queued. -/
def take (s : State n) : Option (State n) :=
  match s.thread with
  | .resting =>
    if s.queued = 0 then none
    else
      match pick s.checks with
      | none => some { s with fault := true }
      | some k =>
        some { s.setCheck k { s.checks k with queued := false, password := [] } with
          queued := s.queued - 1
          thread := .verifying k (s.checks k)
          taken := s.taken ++ [(s.checks k).order] }
  | .verifying _ _ => none

/-- The second locked step: the verdict is written unless a new check is queued there. -/
def judge (u : Users) (s : State n) : Option (State n) :=
  match s.thread with
  | .resting => none
  | .verifying k c =>
    let rested := { s with thread := .resting }
    if (s.checks k).queued then some rested
    else some (rested.setCheck k
      { Check.zero with judged := true, ok := verify u c.name c.password, gen := c.gen })

/-- The lowest index with a verdict, as the loop of `dn_accounts_verdict` finds it. -/
def lowest (checks : Fin n → Check) : Option (Fin n) :=
  Fin.find? fun k => (checks k).judged

/-- `dn_accounts_verdict` at the index it found: the verdict is read and cleared. -/
def readVerdict (s : State n) (k : Fin n) : State n :=
  s.setCheck k { s.checks k with judged := false }

/-- One round of `give_verdicts`: a verdict of a connection gone is dropped. -/
def verdict (b : ℕ) (s : State n) : Option (State n) :=
  match s.giving with
  | none => none
  | some events =>
    if events < b then
      match lowest s.checks with
      | none => none
      | some k =>
        if (s.conn k).isOpen = false ∨ (s.conn k).gen ≠ (s.checks k).gen ∨
            (s.conn k).checking = false then some (readVerdict s k)
        else
          some { (readVerdict s k).setConn k { s.conn k with checking := false } with
            giving := some (events + 1)
            given := ⟨(s.conn k).ask, k, (s.checks k).gen, (s.checks k).ok⟩ :: s.given }
    else none

def step (u : Users) (b : ℕ) (s : State n) : Action n → Option (State n)
  | .open_ k => openConn s k
  | .close k => closeConn s k
  | .check k name password => check s k name password
  | .giveVerdicts => if s.giving.isNone then some { s with giving := some 0 } else none
  | .verdict => verdict b s
  | .noVerdict =>
    if s.giving.any (· < b) ∧ lowest s.checks = none then some { s with giving := none }
    else none
  | .batchFull => if s.giving = some b then some { s with giving := none } else none
  | .take => take s
  | .judge => judge u s

section Loops

variable {checks : Fin n → Check} {acc : Option (Fin n)}

private theorem better_none {x : Fin n} (h : better checks acc x = none) :
    acc = none ∧ (checks x).queued = false := by
  unfold better at h
  split_ifs at h with hq
  · cases acc with
    | none => cases h
    | some b => dsimp only at h; split_ifs at h
  · exact ⟨h, by simpa using hq⟩

private theorem better_some {x k : Fin n} (h : better checks acc x = some k) :
    (acc = some k ∨ (checks k).queued = true) ∧
    ((checks x).queued = true → (checks k).order ≤ (checks x).order) ∧
    ∀ b, acc = some b → (checks k).order ≤ (checks b).order := by
  unfold better at h
  split_ifs at h with hq
  · cases acc with
    | none =>
      obtain rfl : x = k := by simpa using h
      exact ⟨.inr hq, fun _ => le_rfl, by simp⟩
    | some b =>
      dsimp only at h
      split_ifs at h with hlt
      · obtain rfl : x = k := by simpa using h
        exact ⟨.inr hq, fun _ => le_rfl, by simpa using hlt.le⟩
      · obtain rfl : b = k := by simpa using h
        exact ⟨.inl rfl, fun _ => by omega, by simp⟩
  · subst h
    exact ⟨.inl rfl, fun hq' => absurd hq' hq, by simp⟩

private theorem pick_fold (l : List (Fin n)) (acc : Option (Fin n)) :
    (l.foldl (better checks) acc = none → acc = none ∧ ∀ j ∈ l, (checks j).queued = false) ∧
    ∀ k, l.foldl (better checks) acc = some k →
      (acc = some k ∨ (checks k).queued = true) ∧
      (∀ j ∈ l, (checks j).queued = true → (checks k).order ≤ (checks j).order) ∧
      ∀ b, acc = some b → (checks k).order ≤ (checks b).order := by
  induction l generalizing acc with
  | nil =>
    refine ⟨by simp, fun k h => ⟨.inl h, by simp, fun b hb => ?_⟩⟩
    obtain rfl : k = b := Option.some.inj (h.symm.trans hb)
    exact le_rfl
  | cons x l ih =>
    simp only [List.foldl_cons]
    obtain ⟨hnone, hsome⟩ := ih (better checks acc x)
    refine ⟨fun h => ?_, fun k h => ?_⟩
    · obtain ⟨hacc, hrest⟩ := hnone h
      obtain ⟨hacc', hx⟩ := better_none hacc
      exact ⟨hacc', by simpa [hx] using hrest⟩
    · obtain ⟨hfrom, hle, hacc⟩ := hsome k h
      cases hb : better checks acc x with
      | none =>
        obtain ⟨rfl, hx⟩ := better_none hb
        rw [hb] at hfrom
        exact ⟨.inr (by simpa using hfrom), by simpa [hx] using hle, by simp⟩
      | some b =>
        obtain ⟨hbfrom, hbx, hbacc⟩ := better_some hb
        have hkb := hacc b hb
        refine ⟨?_, fun j hj hq => ?_, fun c hc => le_trans hkb (hbacc c hc)⟩
        · rcases hfrom with hfrom | hfrom
          · obtain rfl : b = k := Option.some.inj (hb.symm.trans hfrom)
            exact hbfrom
          · exact .inr hfrom
        · rcases List.mem_cons.mp hj with rfl | hj
          · exact le_trans hkb (hbx hq)
          · exact hle j hj hq

theorem pick_some {k : Fin n} (h : pick checks = some k) :
    (checks k).queued = true ∧
      ∀ j, (checks j).queued = true → (checks k).order ≤ (checks j).order := by
  obtain ⟨hfrom, hle, -⟩ := (pick_fold (List.finRange n) none).2 k h
  refine ⟨?_, fun j hj => hle j (List.mem_finRange j) hj⟩
  rcases hfrom with hnone | hq
  · cases hnone
  · exact hq

theorem pick_none (h : pick checks = none) (k : Fin n) : (checks k).queued = false := by
  exact ((pick_fold (List.finRange n) none).1 h).2 k (List.mem_finRange k)

theorem lowest_some {k : Fin n} (h : lowest checks = some k) : (checks k).judged = true :=
  (Fin.find?_eq_some_iff.mp h).1

theorem lowest_none (h : lowest checks = none) (k : Fin n) : (checks k).judged = false :=
  Fin.find?_eq_none_iff.mp h k

end Loops

/-- A queued entry is the outstanding check of the connection now at its index. -/
structure Queued (asked : List (Ask n)) (k : Fin n) (c : Conn) (e : Check) : Prop where
  isOpen : c.isOpen = true
  checking : c.checking = true
  gen : e.gen = c.gen
  order : e.order = c.ask
  unjudged : e.judged = false
  recorded : asked[e.order]? = some ⟨k, e.gen, e.name, e.password⟩

/-- The copy `v` the thread works on: while the connection that asked is still there, it is its
outstanding check and nothing is queued at the index. -/
structure Held (asked : List (Ask n)) (k : Fin n) (c : Conn) (e v : Check) : Prop where
  unjudged : e.judged = false
  recorded : asked[v.order]? = some ⟨k, v.gen, v.name, v.password⟩
  gen : v.gen ≤ c.gen
  same : c.isOpen = true → c.gen = v.gen →
    c.checking = true ∧ c.ask = v.order ∧ e.queued = false

/-- A verdict that waits: while the connection that asked is still there, it is the verdict of
its outstanding check. -/
structure Verdict (u : Users) (asked : List (Ask n)) (k : Fin n) (c : Conn) (e : Check) :
    Prop where
  unqueued : e.queued = false
  gen : e.gen ≤ c.gen
  same : c.isOpen = true → c.gen = e.gen → c.checking = true ∧
    ∃ q, asked[c.ask]? = some q ∧ q.idx = k ∧ q.gen = e.gen ∧ e.ok = verify u q.name q.password

/-- The outstanding check of a connection has had no event, and is queued, in the thread's
hands or judged. -/
structure Outstanding (asked : List (Ask n)) (given : List (Given n)) (thread : Thread n) (k : Fin n)
    (c : Conn) (e : Check) : Prop where
  recorded : ∃ q, asked[c.ask]? = some q ∧ q.idx = k
  ungiven : ∀ ev ∈ given, ev.ask ≠ c.ask
  stage : e.queued = true ∨ (∃ v, thread = .verifying k v ∧ v.gen = c.gen ∧ v.order = c.ask) ∨
    (e.judged = true ∧ e.gen = c.gen)

def queuedCount (checks : Fin n → Check) : ℕ := ∑ k, (checks k).queued.toNat

/-- An event answers the check it names: the same connection's, with the verdict of its name
and password. -/
def Answers (u : Users) (asked : List (Ask n)) (ev : Given n) : Prop :=
  ∃ q, asked[ev.ask]? = some q ∧ q.idx = ev.idx ∧ q.gen = ev.gen ∧
    ev.ok = verify u q.name q.password

structure Inv (u : Users) (s : State n) : Prop where
  quiet : s.fault = false
  numbers : s.orders = s.asked.length
  count : s.queued = queuedCount s.checks
  queue : ∀ k, (s.checks k).queued = true → Queued s.asked k (s.conn k) (s.checks k)
  held : ∀ k v, s.thread = .verifying k v → Held s.asked k (s.conn k) (s.checks k) v
  verdicts : ∀ k, (s.checks k).judged = true → Verdict u s.asked k (s.conn k) (s.checks k)
  waiting : ∀ k, (s.conn k).isOpen = true → (s.conn k).checking = true →
    Outstanding s.asked s.given s.thread k (s.conn k) (s.checks k)
  events : ∀ ev ∈ s.given, Answers u s.asked ev
  once : (s.given.map Given.ask).Nodup
  ordered : s.taken.Pairwise (· < ·)
  behind : ∀ id ∈ s.taken, id < s.orders ∧
    ∀ k, (s.checks k).queued = true → id < (s.checks k).order
  accounted : ∀ id < s.orders, id ∈ s.taken ∨ id ∈ s.forgotten ∨
    ∃ k, (s.checks k).queued = true ∧ (s.checks k).order = id

theorem start_inv (u : Users) : Inv u (start n) where
  quiet := rfl
  numbers := rfl
  count := by simp [start, queuedCount, Check.zero]
  queue := by simp [start, Check.zero]
  held := by simp [start]
  verdicts := by simp [start, Check.zero]
  waiting := by simp [start]
  events := by simp [start]
  once := by simp [start]
  ordered := by simp [start]
  behind := by simp [start]
  accounted := by simp [start]

private theorem queuedCount_update (checks : Fin n → Check) (k : Fin n) (e : Check) :
    queuedCount (Function.update checks k e) + (checks k).queued.toNat =
      queuedCount checks + e.queued.toNat :=
  sum_update (fun e => e.queued.toNat) checks k e

theorem openConn_inv (h : Inv u s) (hstep : openConn s k = some t) : Inv u t := by
  unfold openConn at hstep
  split_ifs at hstep with hguard
  cases hstep
  obtain ⟨-, hclosed, -⟩ := hguard
  refine ⟨h.quiet, h.numbers, h.count, fun j hj => ?_, fun j v hj => ?_, fun j hj => ?_,
    fun j ho hc => ?_, h.events, h.once, h.ordered, h.behind, h.accounted⟩ <;>
    rcases eq_or_ne j k with rfl | hjk
  · have := (h.queue j hj).isOpen
    rw [hclosed] at this
    cases this
  · simpa [State.setConn, hjk] using h.queue j hj
  · have hold := h.held j v hj
    refine ⟨hold.unjudged, hold.recorded, ?_, fun _ hgen => ?_⟩
    · simpa [State.setConn] using Nat.le_succ_of_le hold.gen
    · have hle := hold.gen
      simp only [State.setConn, Function.update_self] at hgen
      omega
  · simpa [State.setConn, hjk] using h.held j v hj
  · have hold := h.verdicts j hj
    refine ⟨hold.unqueued, ?_, fun _ hgen => ?_⟩
    · simpa [State.setConn] using Nat.le_succ_of_le hold.gen
    · have hle := hold.gen
      simp only [State.setConn, Function.update_self] at hgen
      omega
  · simpa [State.setConn, hjk] using h.verdicts j hj
  · simp [State.setConn] at hc
  · simp only [State.setConn, Function.update_of_ne hjk] at ho hc ⊢
    exact h.waiting j ho hc

private theorem queued_update {k j : Fin n} {e : Check} (he : e.queued = false)
    (hj : (Function.update checks k e j).queued = true) : j ≠ k ∧ (checks j).queued = true := by
  rcases eq_or_ne j k with rfl | hjk
  · rw [Function.update_self, he] at hj
    cases hj
  · rw [Function.update_of_ne hjk] at hj
    exact ⟨hjk, hj⟩

private theorem forget_queued {s : State n} {k j : Fin n}
    (h : ((forget s k).checks j).queued = true) : j ≠ k ∧ (s.checks j).queued = true :=
  queued_update rfl h

private theorem forget_count {s : State n} (h : Inv u s) :
    (forget s k).queued = queuedCount (forget s k).checks := by
  have hcard := queuedCount_update s.checks k .zero
  have hcount := h.count
  simp only [forget, State.setCheck]
  cases hq : (s.checks k).queued
  · rw [hq] at hcard
    simp only [Bool.false_eq_true, if_false, Check.zero, Bool.toNat_false] at hcard ⊢
    omega
  · rw [hq] at hcard
    simp only [if_true, Check.zero, Bool.toNat_false, Bool.toNat_true] at hcard ⊢
    omega

private theorem forget_accounted {s : State n} (h : Inv u s) {id : ℕ} (hid : id < s.orders) :
    id ∈ s.taken ∨ id ∈ (forget s k).forgotten ∨
      ∃ j, ((forget s k).checks j).queued = true ∧ ((forget s k).checks j).order = id := by
  rcases h.accounted id hid with htaken | hforgotten | ⟨j, hq, hord⟩
  · exact .inl htaken
  · refine .inr (.inl ?_)
    simp only [forget]
    split_ifs
    · exact List.mem_cons_of_mem _ hforgotten
    · exact hforgotten
  · rcases eq_or_ne j k with rfl | hjk
    · exact .inr (.inl (by simp [forget, hq, hord]))
    · exact .inr (.inr ⟨j, by simpa [forget, State.setCheck, hjk] using hq,
        by simpa [forget, State.setCheck, hjk] using hord⟩)

theorem closeConn_inv (h : Inv u s) (hstep : closeConn s k = some t) : Inv u t := by
  unfold closeConn at hstep
  split_ifs at hstep with hguard hc
  · cases hstep
    refine ⟨h.quiet, h.numbers, forget_count h, fun j hj => ?_, fun j v hj => ?_, fun j hj => ?_,
      fun j ho hc => ?_, h.events, h.once, h.ordered, fun id hid => ?_,
      fun id hid => forget_accounted h hid⟩
    · obtain ⟨hjk, hq⟩ := forget_queued hj
      simpa [State.setConn, forget, State.setCheck, hjk] using h.queue j hq
    · have hold := h.held j v hj
      rcases eq_or_ne j k with rfl | hjk
      · exact ⟨by simp [State.setConn, forget, State.setCheck, Check.zero], hold.recorded,
          by simpa [State.setConn] using hold.gen, by simp [State.setConn]⟩
      · simpa [State.setConn, forget, State.setCheck, hjk] using hold
    · rcases eq_or_ne j k with rfl | hjk
      · simp [State.setConn, forget, State.setCheck, Check.zero] at hj
      · simp only [State.setConn, forget, State.setCheck, Function.update_of_ne hjk] at hj ⊢
        exact h.verdicts j hj
    · rcases eq_or_ne j k with rfl | hjk
      · simp [State.setConn] at ho
      · simp only [State.setConn, forget, State.setCheck, Function.update_of_ne hjk] at ho hc ⊢
        exact h.waiting j ho hc
    · obtain ⟨hlt, hbehind⟩ := h.behind id hid
      refine ⟨hlt, fun j hj => ?_⟩
      obtain ⟨hjk, hq⟩ := forget_queued hj
      simpa [State.setConn, forget, State.setCheck, hjk] using hbehind j hq
  · cases hstep
    refine ⟨h.quiet, h.numbers, h.count, fun j hj => ?_, fun j v hj => ?_, fun j hj => ?_,
      fun j ho hc => ?_, h.events, h.once, h.ordered, h.behind, h.accounted⟩ <;>
      rcases eq_or_ne j k with rfl | hjk
    · exact absurd (h.queue j hj).checking hc
    · simpa [State.setConn, hjk] using h.queue j hj
    · have hold := h.held j v hj
      exact ⟨hold.unjudged, hold.recorded, by simpa [State.setConn] using hold.gen,
        by simp [State.setConn]⟩
    · simpa [State.setConn, hjk] using h.held j v hj
    · have hold := h.verdicts j hj
      exact ⟨hold.unqueued, by simpa [State.setConn] using hold.gen, by simp [State.setConn]⟩
    · simpa [State.setConn, hjk] using h.verdicts j hj
    · simp [State.setConn] at ho
    · simp only [State.setConn, Function.update_of_ne hjk] at ho hc ⊢
      exact h.waiting j ho hc

private theorem recorded_append {i : ℕ} {q q' : Ask n} (h : asked[i]? = some q) :
    (asked ++ [q'])[i]? = some q := by
  have hlt : i < asked.length := (List.getElem?_eq_some_iff.mp h).1
  rw [List.getElem?_append_left hlt, h]

private theorem recorded_lt {i : ℕ} {q : Ask n} (h : asked[i]? = some q) : i < asked.length :=
  (List.getElem?_eq_some_iff.mp h).1

section More

variable {u : Users} {asked : List (Ask n)} {given : List (Given n)} {thread : Thread n}
  {k : Fin n} {c : Conn} {e v : Check} (q : Ask n)

private theorem Queued.more (h : Queued asked k c e) : Queued (asked ++ [q]) k c e :=
  { h with recorded := recorded_append h.recorded }

private theorem Held.more (h : Held asked k c e v) : Held (asked ++ [q]) k c e v :=
  { h with recorded := recorded_append h.recorded }

private theorem Verdict.more (h : Verdict u asked k c e) : Verdict u (asked ++ [q]) k c e := by
  refine ⟨h.unqueued, h.gen, fun ho hg => ?_⟩
  obtain ⟨hc, p, hp, hrest⟩ := h.same ho hg
  exact ⟨hc, p, recorded_append hp, hrest⟩

private theorem Outstanding.more (h : Outstanding asked given thread k c e) :
    Outstanding (asked ++ [q]) given thread k c e := by
  obtain ⟨p, hp, hidx⟩ := h.recorded
  exact ⟨⟨p, recorded_append hp, hidx⟩, h.ungiven, h.stage⟩

end More

/-- A connection that is not being checked has no entry queued, so the host's own rule keeps
`dn_accounts_check` from its violation. -/
theorem check_inv {name password : Bytes} (h : Inv u s) (hstep : check s k name password = some t) :
    Inv u t := by
  unfold check at hstep
  split_ifs at hstep with hguard hq
  · exact absurd (h.queue k hq).checking (by simp [hguard.2.2.1])
  · cases hstep
    obtain ⟨-, hopen, hidle, -, -⟩ := hguard
    have hlen := h.numbers
    have hcount := queuedCount_update s.checks k
      ⟨true, false, false, (s.conn k).gen, s.orders, name, password⟩
    have hold := h.count
    rw [Bool.not_eq_true] at hq
    refine ⟨h.quiet, ?_, ?_, fun j hj => ?_, fun j v hj => ?_, fun j hj => ?_,
      fun j ho hc => ?_, fun ev hev => ?_, h.once, h.ordered, fun id hid => ?_, fun id hid => ?_⟩
    · simp [hlen]
    · simp only [State.setConn, State.setCheck]
      rw [hq] at hcount
      simp only [Bool.toNat_false, Bool.toNat_true] at hcount
      omega
    · rcases eq_or_ne j k with rfl | hjk
      · simp only [State.setConn, State.setCheck, Function.update_self]
        exact ⟨hopen, rfl, rfl, rfl, rfl, by simp [hlen]⟩
      · simp only [State.setConn, State.setCheck, Function.update_of_ne hjk] at hj ⊢
        exact (h.queue j hj).more _
    · have hold := h.held j v hj
      rcases eq_or_ne j k with rfl | hjk
      · simp only [State.setConn, State.setCheck, Function.update_self]
        refine ⟨rfl, recorded_append hold.recorded, hold.gen, fun ho hg => ?_⟩
        have := (hold.same ho hg).1
        rw [hidle] at this
        cases this
      · simp only [State.setConn, State.setCheck, Function.update_of_ne hjk]
        exact hold.more _
    · rcases eq_or_ne j k with rfl | hjk
      · simp [State.setConn, State.setCheck] at hj
      · simp only [State.setConn, State.setCheck, Function.update_of_ne hjk] at hj ⊢
        exact (h.verdicts j hj).more _
    · rcases eq_or_ne j k with rfl | hjk
      · simp only [State.setConn, State.setCheck, Function.update_self]
        refine ⟨⟨⟨j, (s.conn j).gen, name, password⟩, by simp [hlen], rfl⟩, fun ev hev => ?_,
          .inl rfl⟩
        obtain ⟨q, hq', -⟩ := h.events ev hev
        have := recorded_lt hq'
        simp only
        omega
      · simp only [State.setConn, State.setCheck, Function.update_of_ne hjk] at ho hc ⊢
        exact (h.waiting j ho hc).more _
    · obtain ⟨q, hq', hrest⟩ := h.events ev hev
      exact ⟨q, recorded_append hq', hrest⟩
    · obtain ⟨hlt, hbehind⟩ := h.behind id hid
      refine ⟨Nat.lt_succ_of_lt hlt, fun j hj => ?_⟩
      rcases eq_or_ne j k with rfl | hjk
      · simpa [State.setConn, State.setCheck] using hlt
      · simp only [State.setConn, State.setCheck, Function.update_of_ne hjk] at hj ⊢
        exact hbehind j hj
    · simp only [State.setConn, State.setCheck] at hid ⊢
      rcases Nat.lt_succ_iff_lt_or_eq.mp hid with hid | rfl
      · rcases h.accounted id hid with htaken | hforgotten | ⟨j, hqj, hord⟩
        · exact .inl htaken
        · exact .inr (.inl hforgotten)
        · have hjk : j ≠ k := by
            rintro rfl
            rw [hq] at hqj
            cases hqj
          exact .inr (.inr ⟨j, by simpa [hjk] using hqj, by simpa [hjk] using hord⟩)
      · exact .inr (.inr ⟨k, by simp, by simp⟩)

theorem order_ne {s : State n} (h : Inv u s) {j k : Fin n} (hjk : j ≠ k)
    (hj : (s.checks j).queued = true) (hk : (s.checks k).queued = true) :
    (s.checks j).order ≠ (s.checks k).order := by
  intro heq
  have hrj := (h.queue j hj).recorded
  rw [heq, (h.queue k hk).recorded] at hrj
  exact hjk (Ask.mk.inj (Option.some.inj hrj)).1.symm

theorem queuedCount_pos (h : (checks k).queued = true) : 0 < queuedCount checks := by
  refine lt_of_lt_of_le ?_ (Finset.single_le_sum (f := fun j => (checks j).queued.toNat)
    (fun _ _ => zero_le) (Finset.mem_univ k))
  simp [h]

theorem take_some (h : take s = some t) :
    s.thread = .resting ∧ s.queued ≠ 0 ∧
      (pick s.checks = none ∧ t = { s with fault := true } ∨
        ∃ k, pick s.checks = some k ∧
          t = { s.setCheck k { s.checks k with queued := false, password := [] } with
            queued := s.queued - 1
            thread := .verifying k (s.checks k)
            taken := s.taken ++ [(s.checks k).order] }) := by
  unfold take at h
  split at h
  · rename_i hrest
    split_ifs at h with hzero
    split at h
    · rename_i hnone
      cases h
      exact ⟨hrest, hzero, .inl ⟨hnone, rfl⟩⟩
    · rename_i k hpick
      cases h
      exact ⟨hrest, hzero, .inr ⟨k, hpick, rfl⟩⟩
  · cases h

theorem take_inv (h : Inv u s) (hstep : take s = some t) : Inv u t := by
  obtain ⟨hrest, hzero, ⟨hnone, -⟩ | ⟨k, hpick, rfl⟩⟩ := take_some hstep
  · have hcount := h.count
    have : queuedCount s.checks = 0 :=
      Finset.sum_eq_zero fun k _ => by rw [pick_none hnone k]; rfl
    omega
  · obtain ⟨hq, hmin⟩ := pick_some hpick
    have hk := h.queue k hq
    have horder : (s.checks k).order < s.orders := by
      rw [h.numbers]
      exact recorded_lt hk.recorded
    have hcount := queuedCount_update s.checks k
      { s.checks k with queued := false, password := [] }
    have hold := h.count
    refine ⟨h.quiet, h.numbers, ?_, fun j hj => ?_, fun j v hj => ?_, fun j hj => ?_,
      fun j ho hc => ?_, h.events, h.once, ?_, fun id hid => ?_, fun id hid => ?_⟩
    · simp only [State.setCheck]
      rw [hq] at hcount
      simp only [Bool.toNat_false, Bool.toNat_true] at hcount
      omega
    · obtain ⟨hjk, hj⟩ := queued_update rfl hj
      simp only [State.setCheck, Function.update_of_ne hjk]
      exact h.queue j hj
    · obtain ⟨rfl, rfl⟩ := Thread.verifying.inj hj
      simp only [State.setCheck, Function.update_self]
      exact ⟨hk.unjudged, hk.recorded, hk.gen.le, fun _ _ => ⟨hk.checking, hk.order.symm, rfl⟩⟩
    · rcases eq_or_ne j k with rfl | hjk
      · simp only [State.setCheck, Function.update_self, hk.unjudged] at hj
        cases hj
      · simp only [State.setCheck, Function.update_of_ne hjk] at hj ⊢
        exact h.verdicts j hj
    · have hout := h.waiting j ho hc
      refine ⟨hout.recorded, hout.ungiven, ?_⟩
      rcases eq_or_ne j k with rfl | hjk
      · exact .inr (.inl ⟨_, rfl, hk.gen, hk.order⟩)
      · simp only [State.setCheck, Function.update_of_ne hjk]
        rcases hout.stage with hs | ⟨v, hv, -⟩ | hs
        · exact .inl hs
        · rw [hrest] at hv
          cases hv
        · exact .inr (.inr hs)
    · refine List.pairwise_append.mpr ⟨h.ordered, List.pairwise_singleton _ _, ?_⟩
      intro a ha b hb
      obtain rfl : b = (s.checks k).order := by simpa using hb
      exact (h.behind a ha).2 k hq
    · rcases List.mem_append.mp hid with hid | hid
      · obtain ⟨hlt, hbehind⟩ := h.behind id hid
        refine ⟨hlt, fun j hj => ?_⟩
        obtain ⟨hjk, hj⟩ := queued_update rfl hj
        simp only [State.setCheck, Function.update_of_ne hjk]
        exact hbehind j hj
      · obtain rfl : id = (s.checks k).order := by simpa using hid
        refine ⟨horder, fun j hj => ?_⟩
        obtain ⟨hjk, hj⟩ := queued_update rfl hj
        simp only [State.setCheck, Function.update_of_ne hjk]
        exact lt_of_le_of_ne (hmin j hj) (order_ne h hjk hj hq).symm
    · rcases h.accounted id hid with htaken | hforgotten | ⟨j, hqj, hord⟩
      · exact .inl (List.mem_append_left _ htaken)
      · exact .inr (.inl hforgotten)
      · rcases eq_or_ne j k with rfl | hjk
        · exact .inl (List.mem_append_right _ (by simp [hord]))
        · exact .inr (.inr ⟨j, by simpa [State.setCheck, hjk] using hqj,
            by simpa [State.setCheck, hjk] using hord⟩)

private theorem dropped_inv {s : State n} {v : Check} (h : Inv u s)
    (hthread : s.thread = .verifying k v) (hq : (s.checks k).queued = true) :
    Inv u { s with thread := .resting } := by
  refine ⟨h.quiet, h.numbers, h.count, h.queue, by simp, h.verdicts, fun j ho hc => ?_,
    h.events, h.once, h.ordered, h.behind, h.accounted⟩
  have hout := h.waiting j ho hc
  refine ⟨hout.recorded, hout.ungiven, ?_⟩
  rcases hout.stage with hs | ⟨w, hw, -⟩ | hs
  · exact .inl hs
  · obtain ⟨rfl, rfl⟩ := Thread.verifying.inj (hthread.symm.trans hw)
    exact .inl hq
  · exact .inr (.inr hs)

section Judged

variable {u : Users} {s : State n} {k : Fin n} {v e : Check}

private theorem verdict_judged (h : Inv u s) (hthread : s.thread = .verifying k v)
    (hqueued : e.queued = false) (hgen : e.gen = v.gen)
    (hok : e.ok = verify u v.name v.password) :
    Verdict u s.asked k (s.conn k) e := by
  have hheld := h.held k v hthread
  refine ⟨hqueued, hgen ▸ hheld.gen, fun ho hg => ?_⟩
  rw [hgen] at hg
  obtain ⟨hc, hask, -⟩ := hheld.same ho hg
  exact ⟨hc, ⟨k, v.gen, v.name, v.password⟩, by rw [hask]; exact hheld.recorded, rfl, hgen.symm,
    hok⟩

private theorem stage_judged (h : Inv u s) (hthread : s.thread = .verifying k v)
    (hq : (s.checks k).queued = false) (hjudged : e.judged = true) (hgen : e.gen = v.gen)
    {j : Fin n} (hout : Outstanding s.asked s.given s.thread j (s.conn j) (s.checks j)) :
    Outstanding s.asked s.given .resting j (s.conn j) (Function.update s.checks k e j) := by
  refine ⟨hout.recorded, hout.ungiven, ?_⟩
  rcases eq_or_ne j k with rfl | hjk
  · rw [Function.update_self]
    refine .inr (.inr ⟨hjudged, ?_⟩)
    rcases hout.stage with hs | ⟨w, hw, hw', -⟩ | ⟨hs, -⟩
    · rw [hq] at hs
      cases hs
    · obtain ⟨-, rfl⟩ := Thread.verifying.inj (hthread.symm.trans hw)
      exact hgen.trans hw'
    · rw [(h.held j v hthread).unjudged] at hs
      cases hs
  · rw [Function.update_of_ne hjk]
    rcases hout.stage with hs | ⟨w, hw, -⟩ | hs
    · exact .inl hs
    · obtain ⟨rfl, -⟩ := Thread.verifying.inj (hthread.symm.trans hw)
      exact absurd rfl hjk
    · exact .inr (.inr hs)

private theorem judged_inv (h : Inv u s) (hthread : s.thread = .verifying k v)
    (hq : (s.checks k).queued = false) (hqueued : e.queued = false) (hjudged : e.judged = true)
    (hgen : e.gen = v.gen) (hok : e.ok = verify u v.name v.password) :
    Inv u (State.setCheck { s with thread := .resting } k e) := by
  refine ⟨h.quiet, h.numbers, ?_, fun j hj => ?_, by simp [State.setCheck], fun j hj => ?_,
    fun j ho hc => stage_judged h hthread hq hjudged hgen (h.waiting j ho hc), h.events, h.once,
    h.ordered, fun id hid => ?_, fun id hid => ?_⟩
  · have hcount := queuedCount_update s.checks k e
    have hold := h.count
    rw [hq, hqueued] at hcount
    simp only [State.setCheck]
    omega
  · obtain ⟨hjk, hj⟩ := queued_update hqueued hj
    simp only [State.setCheck, Function.update_of_ne hjk]
    exact h.queue j hj
  · rcases eq_or_ne j k with rfl | hjk
    · simp only [State.setCheck, Function.update_self]
      exact verdict_judged h hthread hqueued hgen hok
    · simp only [State.setCheck, Function.update_of_ne hjk] at hj ⊢
      exact h.verdicts j hj
  · obtain ⟨hlt, hbehind⟩ := h.behind id hid
    refine ⟨hlt, fun j hj => ?_⟩
    obtain ⟨hjk, hj⟩ := queued_update hqueued hj
    simp only [State.setCheck, Function.update_of_ne hjk]
    exact hbehind j hj
  · rcases h.accounted id hid with htaken | hforgotten | ⟨j, hqj, hord⟩
    · exact .inl htaken
    · exact .inr (.inl hforgotten)
    · have hjk : j ≠ k := by
        rintro rfl
        rw [hq] at hqj
        cases hqj
      exact .inr (.inr ⟨j, by simpa [State.setCheck, hjk] using hqj,
        by simpa [State.setCheck, hjk] using hord⟩)

end Judged

theorem judge_inv (h : Inv u s) (hstep : judge u s = some t) : Inv u t := by
  unfold judge at hstep
  split at hstep
  · cases hstep
  · rename_i k v hthread
    dsimp only at hstep
    split_ifs at hstep with hq
    · cases hstep
      exact dropped_inv h hthread hq
    · cases hstep
      rw [Bool.not_eq_true] at hq
      exact judged_inv h hthread hq rfl rfl rfl rfl

section Read

variable {u : Users} {s : State n} {k j : Fin n}

private theorem read_of_ne (h : j ≠ k) : (readVerdict s k).checks j = s.checks j := by
  simp [readVerdict, State.setCheck, h]

private theorem read_queued : ((readVerdict s k).checks j).queued = (s.checks j).queued := by
  rcases eq_or_ne j k with rfl | hjk
  · simp [readVerdict, State.setCheck]
  · rw [read_of_ne hjk]

private theorem read_order : ((readVerdict s k).checks j).order = (s.checks j).order := by
  rcases eq_or_ne j k with rfl | hjk
  · simp [readVerdict, State.setCheck]
  · rw [read_of_ne hjk]

private theorem read_judged (h : ((readVerdict s k).checks j).judged = true) :
    j ≠ k ∧ (s.checks j).judged = true := by
  rcases eq_or_ne j k with rfl | hjk
  · simp [readVerdict, State.setCheck] at h
  · exact ⟨hjk, by simpa [read_of_ne hjk] using h⟩

private theorem read_count : queuedCount (readVerdict s k).checks = queuedCount s.checks :=
  Finset.sum_congr rfl fun _ _ => by rw [read_queued]

private theorem Inv.not_verifying (h : Inv u s) (hk : (s.checks k).judged = true) (v : Check) :
    s.thread ≠ .verifying k v := by
  intro hv
  have hunjudged := (h.held k v hv).unjudged
  rw [hk] at hunjudged
  cases hunjudged

/-- Reading a verdict keeps the invariant for whatever becomes of the connection and of the
record of events, as long as they agree. -/
private theorem Inv.after_read {t : State n} (h : Inv u s) (hk : (s.checks k).judged = true)
    (hchecks : t.checks = (readVerdict s k).checks) (hconn : ∀ j ≠ k, t.conn j = s.conn j)
    (hrest : t.fault = s.fault ∧ t.orders = s.orders ∧ t.queued = s.queued ∧
      t.thread = s.thread ∧ t.asked = s.asked ∧ t.taken = s.taken ∧ t.forgotten = s.forgotten)
    (hidle : (t.conn k).isOpen = true → (t.conn k).checking = false)
    (hevents : ∀ ev ∈ t.given, Answers u t.asked ev) (honce : (t.given.map Given.ask).Nodup)
    (hungiven : ∀ j ≠ k, (s.conn j).isOpen = true → (s.conn j).checking = true →
      ∀ ev ∈ t.given, ev.ask ≠ (s.conn j).ask) : Inv u t := by
  obtain ⟨hfault, horders, hqueued, hthread, hasked, htaken, hforgotten⟩ := hrest
  have hunqueued := (h.verdicts k hk).unqueued
  have hne : ∀ j, ((readVerdict s k).checks j).queued = true → j ≠ k := by
    rintro j hq rfl
    rw [read_queued, hunqueued] at hq
    cases hq
  refine ⟨hfault.trans h.quiet, ?_, ?_, fun j hq => ?_, fun j v hv => ?_, fun j hj => ?_,
    fun j ho hc => ?_, hevents, honce, htaken ▸ h.ordered, fun id hid => ?_, fun id hid => ?_⟩
  · rw [horders, hasked]
    exact h.numbers
  · rw [hqueued, hchecks, read_count]
    exact h.count
  · rw [hchecks] at hq
    rw [hchecks, hasked, hconn j (hne j hq), read_of_ne (hne j hq)]
    exact h.queue j (by rw [← read_queued]; exact hq)
  · rw [hthread] at hv
    have hjk : j ≠ k := by
      rintro rfl
      exact h.not_verifying hk v hv
    rw [hchecks, hasked, hconn j hjk, read_of_ne hjk]
    exact h.held j v hv
  · rw [hchecks] at hj
    obtain ⟨hjk, hj'⟩ := read_judged hj
    rw [hchecks, hasked, hconn j hjk, read_of_ne hjk]
    exact h.verdicts j hj'
  · have hjk : j ≠ k := by
      rintro rfl
      rw [hidle ho] at hc
      cases hc
    rw [hconn j hjk] at ho hc
    have hout := h.waiting j ho hc
    rw [hchecks, hasked, hthread, hconn j hjk, read_of_ne hjk]
    exact ⟨hout.recorded, hungiven j hjk ho hc, hout.stage⟩
  · rw [htaken] at hid
    obtain ⟨hlt, hbehind⟩ := h.behind id hid
    refine ⟨horders ▸ hlt, fun j hq => ?_⟩
    rw [hchecks] at hq ⊢
    rw [read_order]
    exact hbehind j (by rw [← read_queued]; exact hq)
  · rw [horders] at hid
    rw [htaken, hforgotten, hchecks]
    rcases h.accounted id hid with ht | hf | ⟨j, hq, ho⟩
    · exact .inl ht
    · exact .inr (.inl hf)
    · exact .inr (.inr ⟨j, by rw [read_queued]; exact hq, by rw [read_order]; exact ho⟩)

end Read

theorem verdict_some {b : ℕ} (h : verdict b s = some t) :
    ∃ events k, s.giving = some events ∧ lowest s.checks = some k ∧
      (((s.conn k).isOpen = false ∨ (s.conn k).gen ≠ (s.checks k).gen ∨
          (s.conn k).checking = false) ∧ t = readVerdict s k ∨
        (s.conn k).isOpen = true ∧ (s.conn k).gen = (s.checks k).gen ∧
          (s.conn k).checking = true ∧
          t = { (readVerdict s k).setConn k { s.conn k with checking := false } with
            giving := some (events + 1)
            given := ⟨(s.conn k).ask, k, (s.checks k).gen, (s.checks k).ok⟩ :: s.given }) := by
  unfold verdict at h
  split at h
  · cases h
  · rename_i events hgiving
    split_ifs at h
    split at h
    · cases h
    · rename_i k hlow
      refine ⟨events, k, hgiving, hlow, ?_⟩
      split_ifs at h with hgone
      · cases h
        exact .inl ⟨hgone, rfl⟩
      · cases h
        push Not at hgone
        obtain ⟨ho, hgen, hc⟩ := hgone
        rw [ne_eq, Bool.not_eq_false] at ho hc
        exact .inr ⟨ho, hgen, hc, rfl⟩

/-- A dropped verdict is of no connection now being checked; the given one is of the check
its connection is waiting for. -/
theorem verdict_inv {b : ℕ} (h : Inv u s) (hstep : verdict b s = some t) : Inv u t := by
  obtain ⟨events, k, -, hlow, hcases⟩ := verdict_some hstep
  have hk := lowest_some hlow
  have hverdict := h.verdicts k hk
  rcases hcases with ⟨hgone, rfl⟩ | ⟨ho, hgen, hc, rfl⟩
  · refine h.after_read hk rfl (fun _ _ => rfl) ⟨rfl, rfl, rfl, rfl, rfl, rfl, rfl⟩ (fun ho => ?_)
      h.events h.once fun j _ ho hc => (h.waiting j ho hc).ungiven
    have hidle : (s.conn k).checking = false := by
      by_contra hc
      rw [Bool.not_eq_false] at hc
      rcases (h.waiting k ho hc).stage with hs | ⟨w, hw, -⟩ | ⟨-, hs⟩
      · rw [hverdict.unqueued] at hs
        cases hs
      · exact h.not_verifying hk w hw
      · rcases hgone with hg | hg | hg
        · rw [show (s.conn k).isOpen = true from ho] at hg
          cases hg
        · exact hg hs.symm
        · rw [hc] at hg
          cases hg
    exact hidle
  · obtain ⟨-, q, hq, hidx, hqgen, hok⟩ := hverdict.same ho hgen
    have hout := h.waiting k ho hc
    refine h.after_read hk rfl (fun j hjk => ?_) ⟨rfl, rfl, rfl, rfl, rfl, rfl, rfl⟩ (fun _ => ?_)
      ?_ ?_ ?_
    · simp [State.setConn, readVerdict, State.setCheck, hjk]
    · simp [State.setConn]
    · intro ev hev
      rcases List.mem_cons.mp hev with rfl | hev
      · exact ⟨q, hq, hidx, hqgen, hok⟩
      · exact h.events ev hev
    · rw [List.map_cons, List.nodup_cons]
      refine ⟨fun hmem => ?_, h.once⟩
      obtain ⟨ev, hev, heq⟩ := List.mem_map.mp hmem
      exact hout.ungiven ev hev heq
    · intro j hjk hoj hcj ev hev
      rcases List.mem_cons.mp hev with rfl | hev
      · intro heq
        obtain ⟨p, hp, hpidx⟩ := (h.waiting j hoj hcj).recorded
        obtain rfl : q = p := Option.some.inj (hq.symm.trans ((congrArg _ heq).trans hp))
        exact hjk (hpidx.symm.trans hidx)
      · exact (h.waiting j hoj hcj).ungiven ev hev

theorem step_inv {b : ℕ} {a : Action n} (h : Inv u s) (hstep : step u b s a = some t) :
    Inv u t := by
  have hgiving : ∀ g, Inv u { s with giving := g } := fun g =>
    ⟨h.quiet, h.numbers, h.count, h.queue, h.held, h.verdicts, h.waiting, h.events, h.once,
      h.ordered, h.behind, h.accounted⟩
  cases a with
  | open_ k => exact openConn_inv h hstep
  | close k => exact closeConn_inv h hstep
  | check k name password => exact check_inv h hstep
  | take => exact take_inv h hstep
  | judge => exact judge_inv h hstep
  | verdict => exact verdict_inv h hstep
  | giveVerdicts | noVerdict | batchFull =>
    simp only [step] at hstep
    split_ifs at hstep
    cases hstep
    exact hgiving _

end DragonsNet.Native.Accounts
