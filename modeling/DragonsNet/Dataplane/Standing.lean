/- GID: DragonsNet/Dataplane/Standing
   source: migration/dataplane/host/src/standing.rs
   digest: The shared connection counters under every interleaving of their atomic steps. -/

import DragonsNet.Lib.Runs
import Mathlib.Data.Multiset.Count
import Mathlib.Algebra.Order.BigOperators.Group.Finset
import Mathlib.Algebra.BigOperators.Group.Finset.Basic
import Mathlib.Tactic.Abel
import Mathlib.Tactic.Common

set_option autoImplicit false

namespace DragonsNet.Dataplane.Standing

open Lib.Runs (run Meets invariant_of_meets sum_update)

universe u

/-- Where a thread stands in a call on the counters. `entering` and `reserving` are the
load and the compare-exchange of the `fetch_update` of `enter_counted`; `counting` is before
`count_source`; `admitting` and `admitted` are before and after the per-source increment of
`admit`, whose stripe lock is held in `admitted`; `closing` is before the per-source decrement
of `on_close`, and `closed` and `releasing` are the two steps of its `fetch_update`. -/
inductive Thread (ι : Type u) where
  | idle
  | entering (ip : ι) (cap hard : ℕ)
  | reserving (ip : ι) (cap hard seen : ℕ)
  | admittingCounted (ip : ι) (cap : ℕ)
  | counting (ip : ι) (cap : ℕ)
  | admitting (ip : ι) (cap : ℕ)
  | admitted (ip : ι)
  | closing (ip : ι) (wasAdmitted : Bool)
  | closed
  | releasing (seen : ℕ)

/-- The per-source map (all stripes together), the total, the stripe locks held between
steps, and the threads. The last two fields are a record of the run: the connections whose
entering call has returned and whose `on_close` has not begun, and the connections counted
at their source, each with the answer it was given. -/
structure State (ι : Type u) (n : ℕ) where
  active : ι → Option ℕ
  total : ℕ
  locked : ℕ → Bool
  threads : Fin n → Thread ι
  opened : Multiset (ι × Bool)
  counted : Multiset (ι × Bool)

def start (ι : Type u) (n : ℕ) : State ι n where
  active := fun _ => none
  total := 0
  locked := fun _ => false
  threads := fun _ => .idle
  opened := 0
  counted := 0

/-- Calls begin on an idle thread; `onClose` closes a connection that is open; `advance`
takes a thread's next atomic step, in which a weak compare-exchange may fail spuriously. -/
inductive Action (ι : Type u) (n : ℕ) where
  | enterCounted (i : Fin n) (ip : ι) (cap hard : ℕ)
  | admitCounted (i : Fin n) (ip : ι) (cap : ℕ)
  | admitPlain (i : Fin n) (ip : ι) (cap : ℕ)
  | onClose (i : Fin n) (ip : ι) (wasAdmitted : Bool)
  | advance (i : Fin n) (spurious : Bool)

def countLimit : ℕ := 2 ^ 32

def totalLimit : ℕ := 2 ^ 64

variable {ι : Type u} [DecidableEq ι] {n : ℕ}

def State.setThread (s : State ι n) (i : Fin n) (p : Thread ι) : State ι n :=
  { s with threads := Function.update s.threads i p }

/-- The closure of the `fetch_update` in `enter_counted`, at the total just seen. -/
def reserve (ip : ι) (cap hard seen : ℕ) : Thread ι :=
  if hard ≠ 0 ∧ hard ≤ seen then .idle else .reserving ip cap hard seen

/-- `count_source`, one critical section: the rule, then the saturating increment. -/
def countSource (s : State ι n) (i : Fin n) (ip : ι) (cap : ℕ) : State ι n :=
  let seen := (s.active ip).getD 0
  let admitted := decide (cap = 0 ∨ seen < cap)
  { s.setThread i .idle with
    active := Function.update s.active ip (some (min (seen + 1) (countLimit - 1)))
    opened := (ip, admitted) ::ₘ s.opened
    counted := (ip, admitted) ::ₘ s.counted }

/-- The critical section of `admit` up to its `fetch_add`: a refusal returns uncounted. -/
def admitPlain (s : State ι n) (i : Fin n) (stripe : ℕ) (ip : ι) (cap : ℕ) : State ι n :=
  let seen := (s.active ip).getD 0
  if cap ≠ 0 ∧ cap ≤ seen then s.setThread i .idle
  else
    { s.setThread i (.admitted ip) with
      active := Function.update s.active ip (some ((seen + 1) % countLimit))
      locked := Function.update s.locked stripe true
      counted := (ip, true) ::ₘ s.counted }

/-- The critical section of `on_close`. The entry is dropped at zero; a source without an
entry leaves the total alone. -/
def onClose (s : State ι n) (i : Fin n) (ip : ι) (wasAdmitted : Bool) : State ι n :=
  match s.active ip with
  | some seen =>
    { s.setThread i .closed with
      active := Function.update s.active ip (if seen - 1 = 0 then none else some (seen - 1))
      counted := s.counted.erase (ip, wasAdmitted) }
  | none => s.setThread i .idle

/-- One atomic step of the call a thread is in. `stripeOf` names the lock of a source. -/
def advance (stripeOf : ι → ℕ) (s : State ι n) (i : Fin n) (spurious : Bool) :
    Option (State ι n) :=
  match s.threads i with
  | .idle => none
  | .entering ip cap hard => some (s.setThread i (reserve ip cap hard s.total))
  | .reserving ip cap hard seen =>
    if s.total = seen ∧ spurious = false then
      some { s.setThread i (.counting ip cap) with total := (seen + 1) % totalLimit }
    else some (s.setThread i (reserve ip cap hard s.total))
  | .admittingCounted ip cap =>
    some { s.setThread i (.counting ip cap) with total := (s.total + 1) % totalLimit }
  | .counting ip cap =>
    if s.locked (stripeOf ip) then none else some (countSource s i ip cap)
  | .admitting ip cap =>
    if s.locked (stripeOf ip) then none else some (admitPlain s i (stripeOf ip) ip cap)
  | .admitted ip =>
    some { s.setThread i .idle with
      total := (s.total + 1) % totalLimit
      locked := Function.update s.locked (stripeOf ip) false
      opened := (ip, true) ::ₘ s.opened }
  | .closing ip wasAdmitted =>
    if s.locked (stripeOf ip) then none else some (onClose s i ip wasAdmitted)
  | .closed => some (s.setThread i (.releasing s.total))
  | .releasing seen =>
    if s.total = seen ∧ spurious = false then
      some { s.setThread i .idle with total := seen - 1 }
    else some (s.setThread i (.releasing s.total))

def step (stripeOf : ι → ℕ) (s : State ι n) : Action ι n → Option (State ι n)
  | .enterCounted i ip cap hard =>
    match s.threads i with
    | .idle => some (s.setThread i (.entering ip cap hard))
    | _ => none
  | .admitCounted i ip cap =>
    match s.threads i with
    | .idle => some (s.setThread i (.admittingCounted ip cap))
    | _ => none
  | .admitPlain i ip cap =>
    match s.threads i with
    | .idle => some (s.setThread i (.admitting ip cap))
    | _ => none
  | .onClose i ip wasAdmitted =>
    match s.threads i with
    | .idle =>
      if (ip, wasAdmitted) ∈ s.opened then
        some { s.setThread i (.closing ip wasAdmitted) with
          opened := s.opened.erase (ip, wasAdmitted) }
      else none
    | _ => none
  | .advance i spurious => advance stripeOf s i spurious

/-- The connections of a source that are counted and not closed. -/
def countOf (counted : Multiset (ι × Bool)) (ip : ι) : ℕ := (counted.map Prod.fst).count ip

/-- The connection a call accounts for between its record and its effect. -/
def Thread.held : Thread ι → Multiset (ι × Bool)
  | .admitted ip => {(ip, true)}
  | .closing ip wasAdmitted => {(ip, wasAdmitted)}
  | _ => 0

/-- A call that has moved the total and not the source, or the source down and not yet the
total: the total is one above the sum. -/
def Thread.over : Thread ι → ℕ
  | .counting _ _ | .closed | .releasing _ => 1
  | _ => 0

/-- A call of `admit` between its two updates: the total is one below the sum. -/
def Thread.under : Thread ι → ℕ
  | .admitted _ => 1
  | _ => 0

def State.over (s : State ι n) : ℕ := ∑ i, (s.threads i).over

def State.under (s : State ι n) : ℕ := ∑ i, (s.threads i).under

def State.held (s : State ι n) : Multiset (ι × Bool) := ∑ i, (s.threads i).held

/-- The counters are exact: each source's entry is its number of counted connections and is
absent at zero; the total is off by the calls between their updates; and the counted
connections are the open ones and those in the hands of a call. -/
structure Exact (s : State ι n) : Prop where
  sources : ∀ ip, s.active ip = if countOf s.counted ip = 0 then none
    else some (countOf s.counted ip)
  balance : s.total + s.under = s.counted.card + s.over
  owned : s.counted = s.opened + s.held

/-- No counter is at its limit: a source's below 2^32, the total's below 2^64. -/
def Below (s : State ι n) : Prop :=
  (∀ c ∈ s.counted, countOf s.counted c.1 < countLimit) ∧ s.counted.card + s.over < totalLimit

instance (s : State ι n) : Decidable (Below s) := inferInstanceAs (Decidable (_ ∧ _))

/-- The step leaves every counter below its limit. -/
def StaysBelow (stripeOf : ι → ℕ) (s : State ι n) (a : Action ι n) : Prop :=
  ∀ t ∈ step stripeOf s a, Below t

instance (stripeOf : ι → ℕ) (s : State ι n) (a : Action ι n) :
    Decidable (StaysBelow stripeOf s a) :=
  inferInstanceAs (Decidable (∀ t ∈ step stripeOf s a, Below t))

/-- What a step can do, case by case: the calls that begin, then the atomic steps. -/
inductive Steps (s : State ι n) : Action ι n → State ι n → Prop where
  | enterCounted {i ip cap hard} (hi : s.threads i = .idle) :
      Steps s (.enterCounted i ip cap hard) (s.setThread i (.entering ip cap hard))
  | admitCounted {i ip cap} (hi : s.threads i = .idle) :
      Steps s (.admitCounted i ip cap) (s.setThread i (.admittingCounted ip cap))
  | admitPlain {i ip cap} (hi : s.threads i = .idle) :
      Steps s (.admitPlain i ip cap) (s.setThread i (.admitting ip cap))
  | onClose {i ip wasAdmitted} (hi : s.threads i = .idle) (hopen : (ip, wasAdmitted) ∈ s.opened) :
      Steps s (.onClose i ip wasAdmitted) { s.setThread i (.closing ip wasAdmitted) with
        opened := s.opened.erase (ip, wasAdmitted) }
  | load {i ip cap hard spurious} (hi : s.threads i = .entering ip cap hard) :
      Steps s (.advance i spurious) (s.setThread i (reserve ip cap hard s.total))
  | reserve {i ip cap hard spurious} (hi : s.threads i = .reserving ip cap hard s.total) :
      Steps s (.advance i spurious)
        { s.setThread i (.counting ip cap) with total := (s.total + 1) % totalLimit }
  | retry {i ip cap hard seen spurious} (hi : s.threads i = .reserving ip cap hard seen) :
      Steps s (.advance i spurious)
        (s.setThread i (Dataplane.Standing.reserve ip cap hard s.total))
  | add {i ip cap spurious} (hi : s.threads i = .admittingCounted ip cap) :
      Steps s (.advance i spurious)
        { s.setThread i (.counting ip cap) with total := (s.total + 1) % totalLimit }
  | count {i ip cap spurious} (hi : s.threads i = .counting ip cap) :
      Steps s (.advance i spurious) (countSource s i ip cap)
  | refuse {i ip cap spurious} (hi : s.threads i = .admitting ip cap) :
      Steps s (.advance i spurious) (s.setThread i .idle)
  | admitOne {i stripe ip cap spurious} (hi : s.threads i = .admitting ip cap)
      (room : cap = 0 ∨ (s.active ip).getD 0 < cap) :
      Steps s (.advance i spurious) { s.setThread i (.admitted ip) with
        active := Function.update s.active ip (some (((s.active ip).getD 0 + 1) % countLimit))
        locked := Function.update s.locked stripe true
        counted := (ip, true) ::ₘ s.counted }
  | addAdmitted {i stripe ip spurious} (hi : s.threads i = .admitted ip) :
      Steps s (.advance i spurious) { s.setThread i .idle with
        total := (s.total + 1) % totalLimit
        locked := Function.update s.locked stripe false
        opened := (ip, true) ::ₘ s.opened }
  | close {i ip wasAdmitted spurious} (hi : s.threads i = .closing ip wasAdmitted) :
      Steps s (.advance i spurious) (Dataplane.Standing.onClose s i ip wasAdmitted)
  | look {i spurious} (hi : s.threads i = .closed ∨ ∃ seen, s.threads i = .releasing seen) :
      Steps s (.advance i spurious) (s.setThread i (.releasing s.total))
  | release {i spurious} (hi : s.threads i = .releasing s.total) :
      Steps s (.advance i spurious) { s.setThread i .idle with total := s.total - 1 }

private theorem advance_steps {stripeOf : ι → ℕ} {s t : State ι n} {i : Fin n} {spurious : Bool}
    (h : advance stripeOf s i spurious = some t) : Steps s (.advance i spurious) t := by
  unfold advance at h
  split at h
  · cases h
  · rename_i hi
    cases h
    exact .load hi
  · rename_i hi
    split_ifs at h with hseen
    · obtain ⟨rfl, -⟩ := hseen
      cases h
      exact .reserve hi
    · cases h
      exact .retry hi
  · rename_i hi
    cases h
    exact .add hi
  · rename_i hi
    split_ifs at h
    cases h
    exact .count hi
  · rename_i ip cap hi
    split_ifs at h
    cases h
    unfold admitPlain
    dsimp only
    split_ifs with hfull
    · exact .refuse hi
    · exact .admitOne hi (by omega)
  · rename_i hi
    cases h
    exact .addAdmitted hi
  · rename_i hi
    split_ifs at h
    cases h
    exact .close hi
  · rename_i hi
    cases h
    exact .look (.inl hi)
  · rename_i seen hi
    split_ifs at h with hseen
    · obtain ⟨rfl, -⟩ := hseen
      cases h
      exact .release hi
    · cases h
      exact .look (.inr ⟨seen, hi⟩)

theorem step_steps {stripeOf : ι → ℕ} {s t : State ι n} {a : Action ι n}
    (h : step stripeOf s a = some t) : Steps s a t := by
  cases a with
  | advance i spurious => exact advance_steps h
  | onClose i ip wasAdmitted =>
    simp only [step] at h
    split at h
    · rename_i hi
      split_ifs at h with hopen
      cases h
      exact .onClose hi hopen
    · cases h
  | enterCounted i ip cap hard =>
    simp only [step] at h
    split at h
    · rename_i hi
      cases h
      exact .enterCounted hi
    · cases h
  | admitCounted i ip cap =>
    simp only [step] at h
    split at h
    · rename_i hi
      cases h
      exact .admitCounted hi
    · cases h
  | admitPlain i ip cap =>
    simp only [step] at h
    split at h
    · rename_i hi
      cases h
      exact .admitPlain hi
    · cases h

section Sums

variable {s t : State ι n} {i : Fin n} {p q : Thread ι}

omit [DecidableEq ι] in
private theorem over_set (hi : s.threads i = q) (ht : t.threads = Function.update s.threads i p) :
    t.over + q.over = s.over + p.over := by
  rw [State.over, ht, ← hi]
  exact sum_update Thread.over s.threads i p

omit [DecidableEq ι] in
private theorem under_set (hi : s.threads i = q)
    (ht : t.threads = Function.update s.threads i p) :
    t.under + q.under = s.under + p.under := by
  rw [State.under, ht, ← hi]
  exact sum_update Thread.under s.threads i p

omit [DecidableEq ι] in
private theorem held_set (hi : s.threads i = q)
    (ht : t.threads = Function.update s.threads i p) :
    t.held + q.held = s.held + p.held := by
  rw [State.held, ht, ← hi]
  exact sum_update Thread.held s.threads i p

end Sums

section Counts

variable {m : Multiset (ι × Bool)} {c : ι × Bool}

private theorem countOf_cons (ip : ι) :
    countOf (c ::ₘ m) ip = countOf m ip + if ip = c.1 then 1 else 0 := by
  rw [countOf, Multiset.map_cons, Multiset.count_cons]
  rfl

private theorem countOf_erase (h : c ∈ m) (ip : ι) :
    countOf (m.erase c) ip + (if ip = c.1 then 1 else 0) = countOf m ip := by
  rw [← countOf_cons, Multiset.cons_erase h]

private theorem countOf_pos (h : c ∈ m) : 0 < countOf m c.1 :=
  Multiset.count_pos.mpr (Multiset.mem_map_of_mem Prod.fst h)

end Counts

theorem Exact.getD {s : State ι n} (h : Exact s) (ip : ι) :
    (s.active ip).getD 0 = countOf s.counted ip := by
  rw [h.sources ip]
  split_ifs with hz
  · exact hz.symm
  · rfl

private theorem start_exact : Exact (start ι n) where
  sources := by
    intro ip
    simp [start, countOf]
  balance := by simp [start, State.under, State.over, Thread.under, Thread.over]
  owned := by simp [start, State.held, Thread.held]

/-- A step of one thread keeps the counters exact if it moves the total and the number of
counted connections in step with what the thread is over or under by. -/
private theorem Exact.move {s t : State ι n} {i : Fin n} {p q : Thread ι} (h : Exact s)
    (hi : s.threads i = q) (ht : t.threads = Function.update s.threads i p)
    (sources : ∀ ip, t.active ip = if countOf t.counted ip = 0 then none
      else some (countOf t.counted ip))
    (balance : t.total + p.under + s.counted.card + q.over =
      t.counted.card + p.over + s.total + q.under)
    (owned : t.counted + (s.opened + q.held) = s.counted + (t.opened + p.held)) : Exact t := by
  have hover := over_set hi ht
  have hunder := under_set hi ht
  have hheld := held_set hi ht
  have hbal := h.balance
  refine ⟨sources, by omega, ?_⟩
  rw [h.owned] at owned
  have hsum : t.counted + (s.opened + q.held) = t.opened + t.held + (s.opened + q.held) := by
    calc t.counted + (s.opened + q.held)
        = t.opened + s.opened + (s.held + p.held) := by rw [owned]; abel
      _ = t.opened + s.opened + (t.held + q.held) := by rw [hheld]
      _ = t.opened + t.held + (s.opened + q.held) := by abel
  exact add_right_cancel hsum

private theorem Exact.quiet {s : State ι n} {i : Fin n} {p q : Thread ι} (h : Exact s)
    (hi : s.threads i = q) (hover : p.over = q.over) (hunder : p.under = q.under)
    (hheld : p.held = q.held) : Exact (s.setThread i p) := by
  refine h.move hi rfl h.sources ?_ ?_
  · rw [hover, hunder]
    change s.total + _ + s.counted.card + _ = s.counted.card + _ + s.total + _
    omega
  · rw [hheld]
    rfl

private theorem Exact.first {s : State ι n} {i : Fin n} {q : Thread ι} {ip : ι} {cap : ℕ}
    (h : Exact s) (hi : s.threads i = q) (hover : q.over = 0) (hunder : q.under = 0)
    (hheld : q.held = 0) (hlimit : s.total + 1 < totalLimit) :
    Exact { s.setThread i (.counting ip cap) with total := (s.total + 1) % totalLimit } := by
  refine h.move (p := .counting ip cap) hi rfl h.sources ?_ ?_
  · rw [hover, hunder]
    change (s.total + 1) % totalLimit + 0 + s.counted.card + 0 = s.counted.card + 1 + s.total + 0
    rw [Nat.mod_eq_of_lt hlimit]
    omega
  · rw [hheld]
    rfl

private theorem total_lt {s t : State ι n} {i : Fin n} {p q : Thread ι} (h : Exact s)
    (hi : s.threads i = q) (ht : t.threads = Function.update s.threads i p)
    (hbelow : Below t) {k : ℕ} (hk : k + p.under + s.counted.card + q.over =
      t.counted.card + p.over + s.total + q.under) : k < totalLimit := by
  have hover := over_set hi ht
  have hunder := under_set hi ht
  have hbal := h.balance
  have hlimit := hbelow.2
  omega

private theorem countSource_exact {s : State ι n} {i : Fin n} {ip : ι} {cap : ℕ} (h : Exact s)
    (hi : s.threads i = .counting ip cap) (hbelow : Below (countSource s i ip cap)) :
    Exact (countSource s i ip cap) := by
  have hlt := hbelow.1 (ip, decide (cap = 0 ∨ (s.active ip).getD 0 < cap))
    (Multiset.mem_cons_self _ _)
  have hcount : min ((s.active ip).getD 0 + 1) (countLimit - 1) = countOf s.counted ip + 1 := by
    simp only [countSource, countOf_cons, if_pos] at hlt
    rw [h.getD]
    omega
  refine h.move hi rfl (fun ip' => ?_) ?_ ?_
  · simp only [countSource, countOf_cons, hcount]
    by_cases hip : ip' = ip
    · subst hip
      simp
    · simp [hip, h.sources ip']
  · simp only [countSource, State.setThread, Multiset.card_cons, Thread.under, Thread.over]
    omega
  · simp only [countSource, Thread.held, ← Multiset.singleton_add]
    abel

private theorem admitOne_exact {s t : State ι n} {i : Fin n} {ip : ι} {cap : ℕ} (h : Exact s)
    (hi : s.threads i = .admitting ip cap)
    (ht : t.threads = Function.update s.threads i (.admitted ip))
    (hactive : t.active =
      Function.update s.active ip (some (((s.active ip).getD 0 + 1) % countLimit)))
    (hcounted : t.counted = (ip, true) ::ₘ s.counted) (htotal : t.total = s.total)
    (hopened : t.opened = s.opened) (hbelow : Below t) : Exact t := by
  have hlt : countOf s.counted ip + 1 < countLimit := by
    have := hbelow.1 (ip, true) (by rw [hcounted]; exact Multiset.mem_cons_self _ _)
    simpa only [hcounted, countOf_cons, if_pos] using this
  refine h.move hi ht (fun ip' => ?_) ?_ ?_
  · simp only [hactive, hcounted, countOf_cons, h.getD, Nat.mod_eq_of_lt hlt]
    by_cases hip : ip' = ip
    · subst hip
      simp
    · simp [hip, h.sources ip']
  · simp only [hcounted, htotal, Multiset.card_cons, Thread.under, Thread.over]
    omega
  · simp only [hcounted, hopened, Thread.held, ← Multiset.singleton_add]
    abel

private theorem onClose_exact {s : State ι n} {i : Fin n} {ip : ι} {wasAdmitted : Bool}
    (h : Exact s)
    (hi : s.threads i = .closing ip wasAdmitted) : Exact (onClose s i ip wasAdmitted) := by
  have hmem : (ip, wasAdmitted) ∈ s.counted := by
    rw [h.owned, State.held]
    refine Multiset.mem_add.mpr (.inr ?_)
    refine Multiset.mem_of_le (Finset.single_le_sum (fun _ _ => zero_le) (Finset.mem_univ i)) ?_
    rw [hi]
    exact Multiset.mem_singleton_self _
  have hpos := countOf_pos hmem
  have hentry : s.active ip = some (countOf s.counted ip) := by
    rw [h.sources ip, if_neg hpos.ne']
  simp only [onClose, hentry]
  refine h.move (p := .closed) hi rfl (fun ip' => ?_) ?_ ?_
  · have herase := countOf_erase hmem ip'
    by_cases hip : ip' = ip
    · subst hip
      simp only [if_pos] at herase
      simp only [Function.update_self]
      rw [← herase]
      rfl
    · simp only [if_neg hip] at herase
      simp only [Function.update_of_ne hip, h.sources ip']
      rw [← herase]
      rfl
  · have hcard := Multiset.card_erase_add_one hmem
    simp only [State.setThread, Thread.under, Thread.over]
    omega
  · have hcons := Multiset.cons_erase hmem
    rw [← Multiset.singleton_add] at hcons
    simp only [State.setThread, Thread.held]
    nth_rewrite 2 [← hcons]
    abel

private theorem Exact.total_pos {s : State ι n} {i : Fin n} (h : Exact s)
    (hi : (s.threads i).over = 1) : 0 < s.total := by
  have hunder : s.under ≤ s.held.card := by
    rw [State.under, State.held, Multiset.card_sum]
    refine Finset.sum_le_sum fun j _ => ?_
    cases s.threads j <;> simp [Thread.under, Thread.held]
  have hheld : s.held.card ≤ s.counted.card := by
    rw [h.owned, Multiset.card_add]
    omega
  have hover : 1 ≤ s.over := by
    rw [← hi]
    exact Finset.single_le_sum (f := fun j => (s.threads j).over) (fun _ _ => zero_le)
      (Finset.mem_univ i)
  have hbal := h.balance
  omega

private theorem step_exact {stripeOf : ι → ℕ} {s t : State ι n} {a : Action ι n} (h : Exact s)
    (hbelow : StaysBelow stripeOf s a) (hstep : step stripeOf s a = some t) : Exact t := by
  have hb : Below t := hbelow t hstep
  cases step_steps hstep with
  | enterCounted hi | admitCounted hi | admitPlain hi => exact h.quiet hi rfl rfl rfl
  | @onClose i ip wasAdmitted hi hopen =>
    refine h.move hi rfl h.sources ?_ ?_
    · simp only [State.setThread, Thread.under, Thread.over]
      omega
    · have hcons := Multiset.cons_erase hopen
      rw [← Multiset.singleton_add] at hcons
      simp only [State.setThread, Thread.held]
      nth_rewrite 1 [← hcons]
      abel
  | load hi | retry hi =>
    unfold Dataplane.Standing.reserve
    split_ifs
    · exact h.quiet hi rfl rfl rfl
    · exact h.quiet hi rfl rfl rfl
  | @reserve i ip cap hard _ hi | @add i ip cap _ hi =>
    refine h.first hi rfl rfl rfl (total_lt h hi rfl hb ?_)
    simp only [State.setThread, Thread.under, Thread.over]
    omega
  | count hi => exact countSource_exact h hi hb
  | refuse hi => exact h.quiet hi rfl rfl rfl
  | admitOne hi room => exact admitOne_exact h hi rfl rfl rfl rfl rfl hb
  | @addAdmitted i stripe ip _ hi =>
    have hlt : s.total + 1 < totalLimit := by
      refine total_lt h hi rfl hb ?_
      simp only [State.setThread, Thread.under, Thread.over]
      omega
    refine h.move hi rfl h.sources ?_ ?_
    · simp only [State.setThread, Thread.under, Thread.over, Nat.mod_eq_of_lt hlt]
      omega
    · simp only [State.setThread, Thread.held, ← Multiset.singleton_add]
      abel
  | close hi => exact onClose_exact h hi
  | look hi =>
    rcases hi with hi | ⟨seen, hi⟩
    · exact h.quiet hi rfl rfl rfl
    · exact h.quiet hi rfl rfl rfl
  | @release i _ hi =>
    have hpos : 0 < s.total := h.total_pos (i := i) (by rw [hi]; rfl)
    refine h.move hi rfl h.sources ?_ ?_
    · simp only [State.setThread, Thread.under, Thread.over]
      omega
    · rfl

def Action.EntersWith (hard : ℕ) : Action ι n → Prop
  | .enterCounted _ _ _ h => h = hard
  | .admitCounted _ _ _ | .admitPlain _ _ _ => False
  | _ => True

/-- Where a thread can stand when every entry is an `enter_counted` with this ceiling. -/
def Thread.Under (hard : ℕ) : Thread ι → Prop
  | .entering _ _ h => h = hard
  | .reserving _ _ h seen => h = hard ∧ seen < hard
  | .admittingCounted _ _ | .admitting _ _ | .admitted _ => False
  | _ => True

/-- Every thread stands where that leaves it, and the total is not past the ceiling. -/
def AtMostHard (hard : ℕ) (s : State ι n) : Prop :=
  (∀ j, (s.threads j).Under hard) ∧ s.total ≤ hard

def Action.UsesCap (ip : ι) (cap : ℕ) : Action ι n → Prop
  | .enterCounted _ ip' c _ | .admitCounted _ ip' c | .admitPlain _ ip' c => ip' = ip → c = cap
  | _ => True

def Thread.Capped (ip : ι) (cap : ℕ) : Thread ι → Prop
  | .entering ip' c _ | .reserving ip' c _ _ | .admittingCounted ip' c | .counting ip' c
  | .admitting ip' c => ip' = ip → c = cap
  | _ => True

/-- Every thread carries the cap, and the source's admitted connections are within it. -/
def AtMostCap (ip : ι) (cap : ℕ) (s : State ι n) : Prop :=
  (∀ j, (s.threads j).Capped ip cap) ∧ s.counted.count (ip, true) ≤ cap

omit [DecidableEq ι] in
private theorem forall_set {P : Thread ι → Prop} {s : State ι n} {i : Fin n} {p : Thread ι}
    (h : ∀ j, P (s.threads j)) (hp : P p) : ∀ j, P ((s.setThread i p).threads j) := by
  intro j
  by_cases hj : j = i
  · subst hj
    simpa [State.setThread] using hp
  · simpa [State.setThread, hj] using h j

/-- The ceiling is never passed, because the compare-exchange adds one to the total it saw
under the ceiling. -/
private theorem step_hard {stripeOf : ι → ℕ} {hard : ℕ} (hpos : 0 < hard) {s t : State ι n}
    {a : Action ι n} (h : AtMostHard hard s) (ha : a.EntersWith hard)
    (hstep : step stripeOf s a = some t) : AtMostHard hard t := by
  obtain ⟨hthreads, htotal⟩ := h
  have hreserve : ∀ (ip : ι) (cap : ℕ), (reserve ip cap hard s.total).Under hard := by
    intro ip cap
    unfold reserve
    split_ifs with hfull
    · trivial
    · exact ⟨rfl, by omega⟩
  have hmod := Nat.mod_le (s.total + 1) totalLimit
  cases step_steps hstep with
  | enterCounted hi => exact ⟨forall_set hthreads ha, htotal⟩
  | admitCounted hi => exact ha.elim
  | admitPlain hi => exact ha.elim
  | onClose hi hopen => exact ⟨forall_set hthreads trivial, htotal⟩
  | @load i ip cap h _ hi =>
    have heq : h = hard := by simpa [hi, Thread.Under] using hthreads i
    exact ⟨forall_set hthreads (heq ▸ hreserve ip cap), htotal⟩
  | @retry i ip cap h seen _ hi =>
    have heq : h = hard ∧ seen < hard := by simpa [hi, Thread.Under] using hthreads i
    exact ⟨forall_set hthreads (heq.1 ▸ hreserve ip cap), htotal⟩
  | @reserve i ip cap h _ hi =>
    have heq : h = hard ∧ s.total < hard := by simpa [hi, Thread.Under] using hthreads i
    exact ⟨forall_set hthreads trivial, by simp only; omega⟩
  | @add i ip cap _ hi => exact absurd (hthreads i) (by simp [hi, Thread.Under])
  | count hi | refuse hi => exact ⟨forall_set hthreads trivial, htotal⟩
  | @admitOne i _ ip cap _ hi room | @addAdmitted i _ ip _ hi =>
    exact absurd (hthreads i) (by simp [hi, Thread.Under])
  | @close i ip wasAdmitted _ hi =>
    unfold onClose
    split
    · exact ⟨forall_set hthreads trivial, htotal⟩
    · exact ⟨forall_set hthreads trivial, htotal⟩
  | look hi => exact ⟨forall_set hthreads trivial, htotal⟩
  | release hi => exact ⟨forall_set hthreads trivial, by simp only; omega⟩

private theorem count_le_countOf (m : Multiset (ι × Bool)) (ip : ι) :
    m.count (ip, true) ≤ countOf m ip := by
  rw [countOf, Multiset.count_map]
  have hsub : m.filter (fun c => (ip, true) = c) ≤ m.filter (fun c => ip = c.1) :=
    Multiset.monotone_filter_right m fun c hc => by rw [← hc]
  rw [Multiset.count_eq_card_filter_eq]
  exact Multiset.card_le_card hsub

private theorem step_cap {stripeOf : ι → ℕ} {ip : ι} {cap : ℕ} (hpos : 0 < cap)
    {s t : State ι n} {a : Action ι n} (hexact : Exact s) (h : AtMostCap ip cap s)
    (ha : a.UsesCap ip cap) (hstep : step stripeOf s a = some t) : AtMostCap ip cap t := by
  obtain ⟨hthreads, hcount⟩ := h
  have hle := count_le_countOf s.counted ip
  have hreserve : ∀ (ip' : ι) (c hard : ℕ), (ip' = ip → c = cap) →
      (reserve ip' c hard s.total).Capped ip cap := by
    intro ip' c hard hc
    unfold reserve
    split_ifs
    · trivial
    · exact hc
  cases step_steps hstep with
  | enterCounted hi | admitCounted hi | admitPlain hi => exact ⟨forall_set hthreads ha, hcount⟩
  | onClose hi hopen => exact ⟨forall_set hthreads trivial, hcount⟩
  | @load i ip' c hard _ hi | @retry i ip' c hard seen _ hi =>
    have hc : ip' = ip → c = cap := by simpa [hi, Thread.Capped] using hthreads i
    exact ⟨forall_set hthreads (hreserve ip' c hard hc), hcount⟩
  | @reserve i ip' c hard _ hi | @add i ip' c _ hi =>
    have hc : ip' = ip → c = cap := by simpa [hi, Thread.Capped] using hthreads i
    exact ⟨forall_set hthreads hc, hcount⟩
  | @count i ip' c _ hi =>
    have hc : ip' = ip → c = cap := by simpa [hi, Thread.Capped] using hthreads i
    refine ⟨forall_set hthreads trivial, ?_⟩
    simp only [countSource, hexact.getD, Multiset.count_cons]
    split_ifs with heq
    · obtain ⟨rfl, hadm⟩ := Prod.mk.inj heq
      have hadm' := of_decide_eq_true hadm.symm
      have := hc rfl
      omega
    · exact hcount
  | refuse hi => exact ⟨forall_set hthreads trivial, hcount⟩
  | @admitOne i _ ip' c _ hi room =>
    have hc : ip' = ip → c = cap := by simpa [hi, Thread.Capped] using hthreads i
    refine ⟨forall_set hthreads trivial, ?_⟩
    rw [hexact.getD] at room
    simp only [Multiset.count_cons]
    split_ifs with heq
    · obtain ⟨rfl, -⟩ := Prod.mk.inj heq
      have := hc rfl
      omega
    · exact hcount
  | addAdmitted hi => exact ⟨forall_set hthreads trivial, hcount⟩
  | @close i ip' wasAdmitted _ hi =>
    unfold onClose
    split
    · refine ⟨forall_set hthreads trivial, le_trans ?_ hcount⟩
      exact Multiset.count_le_of_le _ (Multiset.erase_le _ _)
    · exact ⟨forall_set hthreads trivial, hcount⟩
  | look hi | release hi => exact ⟨forall_set hthreads trivial, hcount⟩

/-- In every run whose counters stay below their limits, the counts are exact: each source's
is its number of counted connections, which are the open ones and those in the hands of a
call; the total is their sum, above it by the calls between their updates in `enter_counted`,
`admit_counted` and `on_close` and below it by those in `admit`. One hard ceiling bounds the
counted connections, and one cap of a source bounds its admitted ones. -/
theorem counts_exact (stripeOf : ι → ℕ) (n : ℕ) (acts : List (Action ι n)) (s : State ι n)
    (hrun : run (step stripeOf) (start ι n) acts = some s)
    (hbelow : Meets (step stripeOf) (StaysBelow stripeOf) (start ι n) acts) :
    (∀ ip, (s.active ip).getD 0 = countOf s.counted ip) ∧
    s.counted = s.opened + s.held ∧
    (∃ F : Finset ι, ∀ ip, s.active ip ≠ none → ip ∈ F) ∧
    (∀ F : Finset ι, (∀ ip, s.active ip ≠ none → ip ∈ F) →
      s.total + s.under = ∑ ip ∈ F, (s.active ip).getD 0 + s.over) ∧
    (∀ hard, 0 < hard → (∀ a ∈ acts, a.EntersWith hard) → s.counted.card ≤ hard) ∧
    (∀ ip cap, 0 < cap → (∀ a ∈ acts, a.UsesCap ip cap) →
      s.counted.count (ip, true) ≤ cap) := by
  have hexact : Exact s := invariant_of_meets step_exact start_exact hbelow hrun
  have hmem : ∀ ip, s.active ip ≠ none ↔ ip ∈ s.counted.map Prod.fst := by
    intro ip
    rw [hexact.sources ip, ← Multiset.count_pos, Nat.pos_iff_ne_zero]
    change (if countOf s.counted ip = 0 then none else some (countOf s.counted ip)) ≠ none ↔
      countOf s.counted ip ≠ 0
    split_ifs with hz <;> simp [hz]
  refine ⟨hexact.getD, hexact.owned, ⟨(s.counted.map Prod.fst).toFinset, fun ip hip => ?_⟩,
    fun F hF => ?_, fun hard hpos hacts => ?_, fun ip cap hpos hacts => ?_⟩
  · exact Multiset.mem_toFinset.mpr ((hmem ip).mp hip)
  · have hsum : ∑ ip ∈ F, (s.active ip).getD 0 = s.counted.card := by
      simp only [hexact.getD, countOf]
      rw [Multiset.sum_count_eq_card fun ip hip => hF ip ((hmem ip).mpr hip), Multiset.card_map]
    rw [hsum]
    exact hexact.balance
  · have hstart : AtMostHard hard (start ι n) := ⟨fun _ => trivial, Nat.zero_le _⟩
    have hhard : AtMostHard hard s := invariant_of_meets
      (fun h ha => step_hard hpos h ha.2) hstart (hbelow.and_forall hacts) hrun
    have hunder : s.under = 0 := by
      refine Finset.sum_eq_zero fun j _ => ?_
      have := hhard.1 j
      cases hj : s.threads j <;> simp_all [Thread.under, Thread.Under]
    have hbal := hexact.balance
    have := hhard.2
    omega
  · have hstart : Exact (start ι n) ∧ AtMostCap ip cap (start ι n) :=
      ⟨start_exact, fun _ => trivial, Nat.zero_le _⟩
    have keep : ∀ {s t : State ι n} {a : Action ι n}, Exact s ∧ AtMostCap ip cap s →
        StaysBelow stripeOf s a ∧ a.UsesCap ip cap → step stripeOf s a = some t →
        Exact t ∧ AtMostCap ip cap t := fun h ha hs =>
      ⟨step_exact h.1 ha.1 hs, step_cap hpos h.1 h.2 ha.2 hs⟩
    exact (invariant_of_meets keep hstart (hbelow.and_forall hacts) hrun).2.2

/-- Two threads enter one source under a ceiling of two and a cap of one, then the admitted
connection closes. -/
def twoEnter : List (Action ℕ 2) :=
  [.enterCounted 0 7 1 2, .enterCounted 1 7 1 2, .advance 0 false, .advance 1 false,
    .advance 0 false, .advance 1 false, .advance 1 false, .advance 1 true, .advance 0 false,
    .onClose 0 7 true, .advance 0 false]

theorem twoEnter_counts : ∃ s, run (step id) (start ℕ 2) twoEnter = some s ∧
    s.counted = {(7, false)} ∧ s.over = 1 ∧ s.total = 2 ∧ (s.active 7).getD 0 = 1 ∧
    s.counted.card ≤ 2 :=
  ⟨_, rfl, by decide, by decide, by decide,
    (counts_exact id 2 twoEnter _ rfl (by decide)).1 7,
    (counts_exact id 2 twoEnter _ rfl (by decide)).2.2.2.2.1 2 (by decide)
      (by simp [twoEnter, Action.EntersWith])⟩

end DragonsNet.Dataplane.Standing
