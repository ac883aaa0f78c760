/- GID: DragonsNet/Dataplane/Arrivals
   source: migration/dataplane/host/src/standing.rs
   digest: The arrival windows of a source, noted, read and pruned. -/

import DragonsNet.Lib.Windows
import Mathlib.Logic.Function.Basic

set_option autoImplicit false

namespace DragonsNet.Dataplane.Arrivals

open Lib.Windows

/-- The window of a source: when it began, and the arrivals counted in it. -/
structure RateWindow where
  start : ℕ
  count : ℕ
  deriving DecidableEq, Repr

def countMax : ℕ := 2 ^ 32 - 1

/-- The entry as `note_window` finds it: inserted where there is none, begun anew where its
window has passed. -/
def aged (entry : Option RateWindow) (window now : ℕ) : RateWindow :=
  let w := entry.getD ⟨now, 0⟩
  if window ≤ now - w.start then ⟨now, 0⟩ else w

def RateWindow.counted (w : RateWindow) : RateWindow := { w with count := min (w.count + 1) countMax }

variable {ι κ : Type} [DecidableEq ι] [DecidableEq κ]

/-- `note_window`, under the lock of a stripe: the count before this arrival. -/
def noteWindow (map : ι → Option RateWindow) (ip : ι) (window now : ℕ) :
    ℕ × (ι → Option RateWindow) :=
  let w := aged (map ip) window now
  (w.count, Function.update map ip (some w.counted))

structure SharedStanding (ι κ : Type) where
  rateStripes : κ → ι → Option RateWindow
  reqStripes : κ → ι → Option RateWindow

def start (ι κ : Type) : SharedStanding ι κ := ⟨fun _ _ => none, fun _ _ => none⟩

/-- What the calls are made with: the stripe of a source (`stripe_idx` under the table's key), the
limit and the window. -/
structure Gate (ι κ : Type) where
  stripeIdx : ι → κ
  limit : ℕ
  window : ℕ

namespace Gate

variable (g : Gate ι κ)

def rateNote (s : SharedStanding ι κ) (ip : ι) (now : ℕ) : Bool × SharedStanding ι κ :=
  if g.limit = 0 then (false, s)
  else
    let r := noteWindow (s.rateStripes (g.stripeIdx ip)) ip g.window now
    (g.limit < (r.1 + 1) % 2 ^ 32,
      { s with rateStripes := Function.update s.rateStripes (g.stripeIdx ip) r.2 })

def reqNotePrior (s : SharedStanding ι κ) (ip : ι) (now : ℕ) : ℕ × SharedStanding ι κ :=
  if g.limit = 0 then (0, s)
  else
    let r := noteWindow (s.reqStripes (g.stripeIdx ip)) ip g.window now
    (r.1, { s with reqStripes := Function.update s.reqStripes (g.stripeIdx ip) r.2 })

def retained (map : ι → Option RateWindow) (now : ℕ) : ι → Option RateWindow :=
  fun ip => (map ip).filter fun w => now - w.start < g.window

def ratePrune (s : SharedStanding ι κ) (now : ℕ) : SharedStanding ι κ :=
  ⟨fun k => g.retained (s.rateStripes k) now, fun k => g.retained (s.reqStripes k) now⟩

end Gate

inductive Kind where
  | rate
  | req
  deriving DecidableEq, Repr

inductive Call (ι : Type) where
  | note (kind : Kind) (ip : ι)
  | ratePrune
  deriving DecidableEq, Repr

structure Event (ι : Type) where
  time : ℕ
  call : Call ι
  deriving DecidableEq, Repr

inductive Answer where
  | refused (yes : Bool)
  | prior (count : ℕ)
  | done
  deriving DecidableEq, Repr

def Gate.apply (g : Gate ι κ) (s : SharedStanding ι κ) (e : Event ι) :
    Answer × SharedStanding ι κ :=
  match e.call with
  | .note .rate ip =>
    let r := g.rateNote s ip e.time
    (.refused r.1, r.2)
  | .note .req ip =>
    let r := g.reqNotePrior s ip e.time
    (.prior r.1, r.2)
  | .ratePrune => (.done, g.ratePrune s e.time)

def Gate.after (g : Gate ι κ) (es : List (Event ι)) : SharedStanding ι κ :=
  es.foldl (fun s e => (g.apply s e).2) (start ι κ)

def Gate.answer (g : Gate ι κ) (before : List (Event ι)) (e : Event ι) : Answer :=
  (g.apply (g.after before) e).1

def Gate.answers (g : Gate ι κ) (es : List (Event ι)) : List (Event ι × Answer) :=
  eachPast (fun before e => (e, g.answer before e)) [] es

def timesOf (kind : Kind) (ip : ι) (es : List (Event ι)) : List ℕ :=
  (es.filter fun e => e.call = .note kind ip).map Event.time

def Event.isOf (ip : ι) (e : Event ι) : Bool :=
  e.call = .note .rate ip || e.call = .note .req ip

/-- The times of the `rate_note` calls of a source that are answered false. -/
def admittedAt (ip : ι) (answers : List (Event ι × Answer)) : List ℕ :=
  (answers.filter fun a => a.1.call = .note .rate ip && a.2 = .refused false).map (·.1.time)

/-- Fewer than `u32::MAX` calls in each window. -/
def Sparse (window : ℕ) (ts : List ℕ) : Prop :=
  ∀ b, Begins window ts b → within window b ts < countMax

/-! ## One entry -/

/-- The entry of a source noted at `ts`, by the time `now`: it holds the last window and what has
come in it, or the last window has passed. -/
def Tracks (window : ℕ) (ts : List ℕ) (now : ℕ) : Option RateWindow → Prop
  | some w => beginning window ts = some w.start ∧ w.count = within window w.start ts
  | none => ∀ b, beginning window ts = some b → b + window ≤ now

section Entry

variable {window now t : ℕ} {ts : List ℕ} {entry : Option RateWindow}

theorem Tracks.later (h : Tracks window ts now entry) (hle : now ≤ t) :
    Tracks window ts t entry := by
  cases entry with
  | none => exact fun b hb => (h b hb).trans hle
  | some w => exact h

private theorem Tracks.retain (hw : 0 < window) (h : Tracks window ts now entry) :
    Tracks window ts now (entry.filter fun w => now - w.start < window) := by
  cases entry with
  | none => exact h
  | some w =>
    rw [Option.filter_some]
    split
    · exact h
    · rename_i hpassed
      intro b hb
      obtain rfl : w.start = b := Option.some.inj (h.1.symm.trans hb)
      simp only [decide_eq_true_eq] at hpassed
      omega

private theorem aged_spec (hw : 0 < window) (hord : Ordered (ts ++ [t]))
    (h : Tracks window ts t entry) :
    (aged entry window t).start = current window (beginning window ts) t ∧
      (aged entry window t).count = earlier window ts t := by
  cases entry with
  | none =>
    have hnew : aged none window t = ⟨t, 0⟩ := ite_self _
    rw [hnew, earlier_of_new hw hord h]
    refine ⟨?_, rfl⟩
    cases hb : beginning window ts with
    | none => rfl
    | some b => rw [current, if_pos (h b hb)]
  | some w =>
    obtain ⟨hstart, hcount⟩ := h
    rw [aged, Option.getD_some]
    rcases current_cases window t w.start with ⟨hpassed, hcur⟩ | ⟨hin, hcur⟩
    · have hnew : earlier window ts t = 0 := by
        refine earlier_of_new hw hord fun b hb => ?_
        obtain rfl : w.start = b := Option.some.inj (hstart.symm.trans hb)
        exact hpassed
      rw [if_pos (by omega), hstart, hcur, hnew]
      exact ⟨rfl, rfl⟩
    · rw [if_neg (by omega), earlier, hstart, hcur]
      exact ⟨rfl, hcount⟩

private theorem within_current_snoc (hw : 0 < window) (hord : Ordered (ts ++ [t])) :
    within window (current window (beginning window ts) t) (ts ++ [t]) =
      earlier window ts t + 1 := by
  have hle : current window (beginning window ts) t ≤ t :=
    current_le window t _ fun b hb => beginning_le hw hord hb
  have hlt : t < current window (beginning window ts) t + window := lt_current_add hw _
  rw [within, List.countP_append, List.countP_singleton, if_pos]
  · rfl
  · simp [hle, hlt]

private theorem Tracks.note (hw : 0 < window) (hord : Ordered (ts ++ [t]))
    (hsparse : Sparse window (ts ++ [t])) (h : Tracks window ts t entry) :
    Tracks window (ts ++ [t]) t (some (aged entry window t).counted) := by
  obtain ⟨hstart, hcount⟩ := aged_spec hw hord h
  have hin := within_current_snoc hw hord
  have hfew := hsparse _ ((begins_snoc _).mpr (.inr rfl))
  refine ⟨?_, ?_⟩
  · rw [beginning_snoc, RateWindow.counted, hstart]
  · change min ((aged entry window t).count + 1) countMax =
      within window (aged entry window t).start (ts ++ [t])
    rw [hstart, hcount, hin]
    omega

private theorem sparse_of_few (h : ts.length < countMax) : Sparse window ts :=
  fun _ _ => lt_of_le_of_lt List.countP_le_length h

theorem Sparse.left {us : List ℕ} (h : Sparse window (ts ++ us)) : Sparse window ts := by
  rintro b ⟨before, u, after, rfl, hb⟩
  refine lt_of_le_of_lt ?_ (h b ⟨before, u, after ++ us, by simp, hb⟩)
  exact (List.sublist_append_left _ us).countP_le

end Entry

/-! ## The tables -/

section Tables

variable {g : Gate ι κ} {kind : Kind} {ip : ι} {es : List (Event ι)} {e : Event ι}

def Gate.entry (g : Gate ι κ) (s : SharedStanding ι κ) (kind : Kind) (ip : ι) : Option RateWindow :=
  match kind with
  | .rate => s.rateStripes (g.stripeIdx ip) ip
  | .req => s.reqStripes (g.stripeIdx ip) ip

private theorem noteWindow_entry (stripes : κ → ι → Option RateWindow) (k k' : κ) (ip ip' : ι)
    (window now : ℕ) (hk : ip' = ip → k' = k) :
    Function.update stripes k (noteWindow (stripes k) ip window now).2 k' ip' =
      if ip' = ip then some (aged (stripes k ip) window now).counted else stripes k' ip' := by
  by_cases hip : ip' = ip
  · obtain rfl := hk hip
    rw [if_pos hip, Function.update_self, hip]
    exact Function.update_self ..
  · rw [if_neg hip]
    by_cases hkk : k' = k
    · rw [hkk, Function.update_self]
      exact Function.update_of_ne hip ..
    · rw [Function.update_of_ne hkk]

private theorem entry_apply (hlimit : 0 < g.limit) (s : SharedStanding ι κ) (e : Event ι) :
    g.entry (g.apply s e).2 kind ip =
      if e.call = .note kind ip then some (aged (g.entry s kind ip) g.window e.time).counted
      else if e.call = .ratePrune then
        (g.entry s kind ip).filter fun w => e.time - w.start < g.window
      else g.entry s kind ip := by
  have hne : g.limit ≠ 0 := Nat.ne_of_gt hlimit
  obtain ⟨now, call⟩ := e
  cases call with
  | ratePrune => cases kind <;> rfl
  | note kind' ip' =>
    cases kind <;> cases kind' <;>
      simp only [Gate.apply, Gate.entry, Gate.rateNote, Gate.reqNotePrior, hne, if_false,
        Call.note.injEq, reduceCtorEq, false_and, true_and]
    all_goals
      rw [noteWindow_entry _ _ _ _ _ _ _ fun h => h ▸ rfl]
      by_cases hip : ip = ip'
      · simp [hip]
      · simp [hip, Ne.symm hip]

private theorem apply_note (hlimit : 0 < g.limit) (s : SharedStanding ι κ) (now : ℕ) (ip : ι) :
    (g.apply s ⟨now, .note .rate ip⟩).1 = .refused
        (g.limit < ((aged (g.entry s .rate ip) g.window now).count + 1) % 2 ^ 32) ∧
      (g.apply s ⟨now, .note .req ip⟩).1 = .prior (aged (g.entry s .req ip) g.window now).count := by
  have hne : g.limit ≠ 0 := Nat.ne_of_gt hlimit
  simp only [Gate.apply, Gate.rateNote, Gate.reqNotePrior, hne, if_false]
  exact ⟨rfl, rfl⟩

private theorem timesOf_snoc (kind : Kind) (ip : ι) (es : List (Event ι)) (e : Event ι) :
    timesOf kind ip (es ++ [e]) =
      timesOf kind ip es ++ if e.call = .note kind ip then [e.time] else [] := by
  rw [timesOf, List.filter_append, List.map_append]
  by_cases h : e.call = .note kind ip <;> simp [h, timesOf]

def InOrder (es : List (Event ι)) : Prop := es.Pairwise fun e e' => e.time ≤ e'.time

omit [DecidableEq ι] in
theorem InOrder.snoc (h : InOrder (es ++ [e])) : InOrder es ∧ ∀ e' ∈ es, e'.time ≤ e.time := by
  obtain ⟨hes, -, hle⟩ := List.pairwise_append.mp h
  exact ⟨hes, fun e' he' => hle e' he' e (List.mem_singleton_self e)⟩

private theorem InOrder.timesOf (h : InOrder es) (kind : Kind) (ip : ι) : Ordered
    (timesOf kind ip es) :=
  List.pairwise_map.mpr (h.filter _)

private theorem after_snoc (g : Gate ι κ) (es : List (Event ι)) (e : Event ι) :
    g.after (es ++ [e]) = (g.apply (g.after es) e).2 := by
  rw [Gate.after, List.foldl_append]
  rfl

private theorem after_tracks (hlimit : 0 < g.limit) (hw : 0 < g.window) (hord : InOrder es)
    (hsparse : Sparse g.window (timesOf kind ip es)) {now : ℕ} (hnow : ∀ e ∈ es, e.time ≤ now) :
    Tracks g.window (timesOf kind ip es) now (g.entry (g.after es) kind ip) := by
  induction es using List.reverseRecOn generalizing now with
  | nil =>
    have hnone : g.entry (g.after []) kind ip = none := by cases kind <;> rfl
    rw [hnone]
    exact fun b hb => by cases hb
  | append_singleton es e ih =>
    obtain ⟨hes, hle⟩ := hord.snoc
    have hsnoc := timesOf_snoc kind ip es e
    have htimes := hord.timesOf kind ip
    rw [hsnoc] at hsparse htimes
    have hbefore := ih hes hsparse.left hle
    refine Tracks.later ?_ (hnow e (by simp))
    rw [hsnoc, after_snoc, entry_apply hlimit]
    by_cases hnote : e.call = .note kind ip
    · rw [if_pos hnote, if_pos hnote]
      rw [if_pos hnote] at hsparse htimes
      exact hbefore.note hw htimes hsparse
    · rw [if_neg hnote, if_neg hnote, List.append_nil]
      split
      · exact hbefore.retain hw
      · exact hbefore

/-- What a note answers, from the earlier calls of its kind and source. -/
def ideal (limit window : ℕ) (before : List (Event ι)) (e : Event ι) : Answer :=
  match e.call with
  | .note .rate ip => .refused (decide (limit ≤ earlier window (timesOf .rate ip before) e.time))
  | .note .req ip => .prior (earlier window (timesOf .req ip before) e.time)
  | .ratePrune => .done

private theorem answer_note (hlimit : 0 < g.limit) (hw : 0 < g.window) (hord : InOrder (es ++ [e]))
    (hcall : e.call = .note kind ip) (hsparse : Sparse g.window (timesOf kind ip (es ++ [e]))) :
    g.answer es e = ideal g.limit g.window es e := by
  obtain ⟨hes, hle⟩ := hord.snoc
  have htimes := hord.timesOf kind ip
  rw [timesOf_snoc, if_pos hcall] at hsparse htimes
  have htracks := after_tracks hlimit hw hes hsparse.left hle
  have hcount := (aged_spec hw htimes htracks).2
  have hfew := hsparse _ ((begins_snoc _).mpr (.inr rfl))
  rw [within_current_snoc hw htimes, countMax] at hfew
  obtain ⟨now, call⟩ := e
  obtain rfl : call = .note kind ip := hcall
  cases kind with
  | rate =>
    rw [Gate.answer, (apply_note hlimit _ now ip).1, hcount, ideal, Nat.mod_eq_of_lt (by omega)]
    exact congrArg _ (decide_eq_decide.mpr Nat.lt_add_one_iff)
  | req => rw [Gate.answer, (apply_note hlimit _ now ip).2, hcount, ideal]

private theorem answers_snoc (g : Gate ι κ) (es : List (Event ι)) (e : Event ι) :
    g.answers (es ++ [e]) = g.answers es ++ [(e, g.answer es e)] :=
  eachPast_snoc _ [] es e

private theorem timesOf_isOf (kind : Kind) (ip : ι) (es : List (Event ι)) :
    timesOf kind ip (es.filter (·.isOf ip)) = timesOf kind ip es := by
  rw [timesOf, List.filter_filter, timesOf]
  congr 1
  refine List.filter_congr fun e _ => ?_
  by_cases h : e.call = .note kind ip
  · cases kind <;> simp [Event.isOf, h]
  · simp [h]

private theorem answers_isOf (hlimit : 0 < g.limit) (hw : 0 < g.window) (hord : InOrder es)
    (hsparse : ∀ kind, Sparse g.window (timesOf kind ip es)) :
    (g.answers es).filter (·.1.isOf ip) =
      eachPast (fun before e => (e, ideal g.limit g.window before e)) []
        (es.filter (·.isOf ip)) := by
  induction es using List.reverseRecOn with
  | nil => rfl
  | append_singleton es e ih =>
    have hes := ih hord.snoc.1 fun kind => Sparse.left (timesOf_snoc kind ip es e ▸ hsparse kind)
    rw [answers_snoc, List.filter_append, List.filter_append, hes]
    by_cases hof : e.isOf ip = true
    · obtain ⟨kind, hcall⟩ : ∃ kind, e.call = .note kind ip := by
        simp only [Event.isOf, Bool.or_eq_true, decide_eq_true_eq] at hof
        rcases hof with h | h <;> exact ⟨_, h⟩
      have hideal : ideal g.limit g.window es e =
          ideal g.limit g.window (es.filter (·.isOf ip)) e := by
        cases kind <;> simp only [ideal, hcall, timesOf_isOf]
      rw [List.filter_cons_of_pos (by exact hof), List.filter_cons_of_pos (by exact hof),
        List.filter_nil, List.filter_nil, eachPast_snoc, List.nil_append,
        answer_note hlimit hw hord hcall (hsparse kind), hideal]
    · rw [List.filter_cons_of_neg (by exact hof), List.filter_cons_of_neg (by exact hof),
        List.filter_nil, List.filter_nil, List.append_nil, List.append_nil]

private theorem admittedAt_answers (hlimit : 0 < g.limit) (hw : 0 < g.window) (hord : InOrder es)
    (hsparse : Sparse g.window (timesOf .rate ip es)) :
    admittedAt ip (g.answers es) = admitted g.limit g.window (timesOf .rate ip es) := by
  induction es using List.reverseRecOn with
  | nil => rfl
  | append_singleton es e ih =>
    have hes := ih hord.snoc.1 (Sparse.left (timesOf_snoc .rate ip es e ▸ hsparse))
    rw [admittedAt] at hes
    rw [admittedAt, answers_snoc, List.filter_append, List.map_append, hes, timesOf_snoc]
    by_cases hcall : e.call = .note .rate ip
    · rw [if_pos hcall, admitted_snoc, answer_note hlimit hw hord hcall hsparse]
      by_cases hroom : earlier g.window (timesOf .rate ip es) e.time < g.limit
      · simp [ideal, hcall, hroom]
      · simp [ideal, hcall, hroom, Nat.le_of_not_lt hroom]
    · simp [hcall]

end Tables

/-- Every answer is the one of the source's windows; prunes and other sources' calls make no
difference to it; and a stretch of one window's length has no more than two limits of calls
answered false. -/
theorem windows_exact (g : Gate ι κ) (es : List (Event ι)) (hlimit : 0 < g.limit)
    (hw : 0 < g.window) (hord : InOrder es)
    (hsparse : ∀ kind ip, Sparse g.window (timesOf kind ip es)) :
    (∀ before now ip after, es = before ++ ⟨now, .note .rate ip⟩ :: after →
      g.answer before ⟨now, .note .rate ip⟩ =
        .refused (decide (g.limit ≤ earlier g.window (timesOf .rate ip before) now))) ∧
    (∀ before now ip after, es = before ++ ⟨now, .note .req ip⟩ :: after →
      g.answer before ⟨now, .note .req ip⟩ =
        .prior (earlier g.window (timesOf .req ip before) now)) ∧
    (∀ ip es', InOrder es' → es'.filter (·.isOf ip) = es.filter (·.isOf ip) →
      (g.answers es').filter (·.1.isOf ip) = (g.answers es).filter (·.1.isOf ip)) ∧
    ∀ ip a, within g.window a (admittedAt ip (g.answers es)) ≤ 2 * g.limit := by
  have hnote : ∀ before now kind ip after, es = before ++ ⟨now, .note kind ip⟩ :: after →
      g.answer before ⟨now, .note kind ip⟩ = ideal g.limit g.window before ⟨now, .note kind ip⟩ := by
    rintro before now kind ip after rfl
    rw [List.append_cons] at hord hsparse
    have hfirst := (List.pairwise_append.mp hord).1
    have hall := hsparse kind ip
    rw [timesOf, List.filter_append, List.map_append] at hall
    exact answer_note hlimit hw hfirst rfl hall.left
  refine ⟨fun before now ip after heq => hnote before now .rate ip after heq,
    fun before now ip after heq => hnote before now .req ip after heq, ?_, ?_⟩
  · intro ip es' hord' hsame
    have hsparse' : ∀ kind, Sparse g.window (timesOf kind ip es') := by
      intro kind
      rw [← timesOf_isOf, hsame, timesOf_isOf]
      exact hsparse kind ip
    rw [answers_isOf hlimit hw hord' hsparse', hsame,
      answers_isOf hlimit hw hord fun kind => hsparse kind ip]
  · intro ip a
    rw [admittedAt_answers hlimit hw hord (hsparse .rate ip)]
    exact stretch_admitted_le hw (hord.timesOf .rate ip) a

def twoInTen : Gate ℕ ℕ := ⟨(· % 4), 2, 10⟩

/-- A third call in a window, another source's, a prune, and a call in the next window. -/
def fiveCalls : List (Event ℕ) :=
  [⟨0, .note .rate 7⟩, ⟨3, .note .rate 7⟩, ⟨4, .note .rate 3⟩, ⟨5, .note .rate 7⟩, ⟨10, .ratePrune⟩,
    ⟨12, .note .rate 7⟩]

theorem fiveCalls_answers :
    twoInTen.answer (fiveCalls.take 3) ⟨5, .note .rate 7⟩ = .refused true ∧
      twoInTen.answer (fiveCalls.take 5) ⟨12, .note .rate 7⟩ = .refused false ∧
      within 10 3 (admittedAt 7 (twoInTen.answers fiveCalls)) ≤ 2 * 2 := by
  have hfew : ∀ kind ip, Sparse twoInTen.window (timesOf kind ip fiveCalls) := fun kind ip =>
    sparse_of_few (lt_of_le_of_lt ((List.length_map _).trans_le (List.length_filter_le ..))
      (by decide))
  obtain ⟨hrate, -, -, hstretch⟩ := windows_exact twoInTen fiveCalls (by decide) (by decide)
    (by unfold InOrder; decide) hfew
  exact ⟨(hrate (fiveCalls.take 3) 5 7 _ rfl).trans (by decide),
    (hrate (fiveCalls.take 5) 12 7 _ rfl).trans (by decide), hstretch 7 3⟩

end DragonsNet.Dataplane.Arrivals
