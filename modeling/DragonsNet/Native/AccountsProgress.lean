/- GID: DragonsNet/Native/AccountsProgress
   source: native/accounts.c, native/nntp_host.c
   digest: When a check gets its verdict, and how lower indexes can keep it waiting. -/

import DragonsNet.Lib.Progress
import DragonsNet.Native.Accounts
import Mathlib.Order.Interval.Finset.Fin

set_option autoImplicit false

namespace DragonsNet.Native.AccountsProgress

open Lib.Runs (run run_cons run_append Meets invariant_of_step sum_update)
open Lib.Progress (Unending Ranked exists_of_cycle)
open Native.Accounts

variable {n : ℕ} {k : Fin n} {u : Users}

def ahead (checks : Fin n → Check) (ask : ℕ) : ℕ :=
  ∑ j, ((checks j).queued && decide ((checks j).order < ask)).toNat

def busy : Thread n → ℕ
  | .resting => 0
  | .verifying _ _ => 1

/-- Connection `k` is open and its check number `ask` is outstanding. -/
structure Tracked (s : State n) (k : Fin n) (ask : ℕ) : Prop where
  isOpen : (s.conn k).isOpen = true
  checking : (s.conn k).checking = true
  ask : (s.conn k).ask = ask

def Answered (s : State n) (ask : ℕ) : Prop := ∃ ev ∈ s.given, ev.ask = ask

/-- The check is queued, with a rank that counts what the thread has to do before it, or it
is in the thread's hands. -/
def Within (u : Users) (k : Fin n) (ask p : ℕ) (s : State n) : Prop :=
  Inv u s ∧ Tracked s k ask ∧
    (((s.checks k).queued = true ∧ p = 2 * ahead s.checks ask + busy s.thread + 1) ∨
      (p = 0 ∧ (s.checks k).queued = false ∧
        ∃ v, s.thread = .verifying k v ∧ v.gen = (s.conn k).gen))

def Waits (u : Users) (k : Fin n) (ask : ℕ) (s : State n) : Prop :=
  Inv u s ∧ Tracked s k ask ∧ (s.checks k).judged = true ∧ (s.checks k).gen = (s.conn k).gen

def Judged (u : Users) (k : Fin n) (ask : ℕ) (s : State n) : Prop :=
  Waits u k ask s ∨ Answered s ask

private theorem ahead_update (checks : Fin n → Check) (j : Fin n) (e : Check) (ask : ℕ) :
    ahead (Function.update checks j e) ask +
        ((checks j).queued && decide ((checks j).order < ask)).toNat =
      ahead checks ask + (e.queued && decide (e.order < ask)).toNat :=
  sum_update (fun e : Check => (e.queued && decide (e.order < ask)).toNat) checks j e

/-- A step that leaves the connection, its entry and the thread alone, and puts nothing
before the check. -/
structure Calm (s t : State n) (k : Fin n) (ask : ℕ) : Prop where
  conn : t.conn k = s.conn k
  entry : t.checks k = s.checks k
  thread : t.thread = s.thread
  ahead_le : ahead t.checks ask ≤ ahead s.checks ask

section Steps

variable {u : Users} {b ask : ℕ} {s t : State n} {k : Fin n} {j : Fin n} {act : Action n}
  {as : List (Action n)}

private theorem Tracked.lt (h : Inv u s) (hk : Tracked s k ask) : ask < s.orders := by
  obtain ⟨q, hq, -⟩ := (h.waiting k hk.isOpen hk.checking).recorded
  rw [hk.ask] at hq
  rw [h.numbers]
  exact (List.getElem?_eq_some_iff.mp hq).1

private theorem calm_close (hjk : j ≠ k) (hstep : closeConn s j = some t) : Calm s t k ask := by
  unfold closeConn at hstep
  split_ifs at hstep
  · cases hstep
    have hahead := ahead_update s.checks j .zero ask
    simp only [Check.zero, Bool.false_and, Bool.toNat_false] at hahead
    refine ⟨?_, ?_, rfl, ?_⟩
    · simp [State.setConn, forget, State.setCheck, hjk.symm]
    · simp [State.setConn, forget, State.setCheck, hjk.symm]
    · simp only [State.setConn, forget, State.setCheck, Check.zero]
      omega
  · cases hstep
    exact ⟨by simp [State.setConn, hjk.symm], rfl, rfl, le_rfl⟩

private theorem calm_check {name password : Bytes} (h : Inv u s) (hk : Tracked s k ask)
    (hstep : check s j name password = some t) : Calm s t k ask := by
  unfold check at hstep
  split_ifs at hstep with hguard hq
  · cases hstep
    exact ⟨rfl, rfl, rfl, le_rfl⟩
  · cases hstep
    have hjk : k ≠ j := by
      rintro rfl
      rw [hk.checking] at hguard
      exact absurd hguard.2.2.1 (by simp)
    have hlt := hk.lt h
    have hahead := ahead_update s.checks j
      ⟨true, false, false, (s.conn j).gen, s.orders, name, password⟩ ask
    rw [decide_eq_false (show ¬ s.orders < ask by omega)] at hahead
    simp only [Bool.and_false, Bool.toNat_false] at hahead
    refine ⟨?_, ?_, rfl, ?_⟩
    · simp [State.setConn, State.setCheck, hjk]
    · simp [State.setConn, State.setCheck, hjk]
    · simp only [State.setConn, State.setCheck]
      omega

private theorem ahead_read : ahead (readVerdict s j).checks ask = ahead s.checks ask := by
  have hahead := ahead_update s.checks j { s.checks j with judged := false } ask
  simp only [readVerdict, State.setCheck] at hahead ⊢
  omega

private theorem calm_verdict (hk : Tracked s k ask) (hstep : verdict b s = some t) :
    Calm s t k ask ∨ ((s.checks k).judged = true ∧
      ((s.checks k).gen = (s.conn k).gen → Answered t ask)) := by
  obtain ⟨events, j, -, hlow, hcases⟩ := verdict_some hstep
  rcases eq_or_ne k j with rfl | hkj
  · refine .inr ⟨lowest_some hlow, fun hgen => ?_⟩
    rcases hcases with ⟨hgone, -⟩ | ⟨-, -, -, rfl⟩
    · simp [hk.isOpen, hk.checking, hgen] at hgone
    · exact ⟨_, List.mem_cons_self, hk.ask⟩
  · refine .inl ?_
    rcases hcases with ⟨-, rfl⟩ | ⟨-, -, -, rfl⟩
    · exact ⟨rfl, by simp [readVerdict, State.setCheck, hkj], rfl, ahead_read.le⟩
    · refine ⟨?_, ?_, rfl, ahead_read.le⟩
      · simp [State.setConn, readVerdict, State.setCheck, hkj]
      · simp [State.setConn, readVerdict, State.setCheck, hkj]

private theorem calm_step (h : Inv u s) (hk : Tracked s k ask) (hclose : act ≠ .close k)
    (htake : act ≠ .take) (hjudge : act ≠ .judge) (hstep : step u b s act = some t) :
    Calm s t k ask ∨ ((s.checks k).judged = true ∧
      ((s.checks k).gen = (s.conn k).gen → Answered t ask)) := by
  cases act with
  | open_ j =>
    simp only [step, openConn] at hstep
    split_ifs at hstep with hguard
    cases hstep
    have hjk : k ≠ j := by
      rintro rfl
      rw [hk.isOpen] at hguard
      exact absurd hguard.2.1 (by simp)
    exact .inl ⟨by simp [State.setConn, hjk], rfl, rfl, le_rfl⟩
  | close j =>
    exact .inl (calm_close (fun e => hclose (e ▸ rfl)) hstep)
  | check j name password => exact .inl (calm_check h hk hstep)
  | verdict => exact calm_verdict hk hstep
  | giveVerdicts | noVerdict | batchFull =>
    simp only [step] at hstep
    split_ifs at hstep
    cases hstep
    exact .inl ⟨rfl, rfl, rfl, le_rfl⟩
  | take => exact absurd rfl htake
  | judge => exact absurd rfl hjudge

private theorem Within.unjudged {p : ℕ} (h : Within u k ask p s) :
    (s.checks k).judged = false := by
  obtain ⟨hinv, -, ⟨hq, -⟩ | ⟨-, -, v, hv, -⟩⟩ := h
  · exact (hinv.queue k hq).unjudged
  · exact (hinv.held k v hv).unjudged

private theorem Tracked.of_conn (hk : Tracked s k ask) (hconn : t.conn k = s.conn k) :
    Tracked t k ask :=
  ⟨hconn ▸ hk.isOpen, hconn ▸ hk.checking, hconn ▸ hk.ask⟩

private theorem take_within {p : ℕ} (h : Within u k ask p s) (hstep : take s = some t) :
    ∃ q < p, Within u k ask q t := by
  have hinv' := take_inv h.1 hstep
  obtain ⟨hinv, hk, hstage⟩ := h
  obtain ⟨hrest, -, ⟨-, rfl⟩ | ⟨j, hpick, rfl⟩⟩ := take_some hstep
  · exact absurd hinv'.quiet (by simp)
  · obtain ⟨hqj, hmin⟩ := pick_some hpick
    rcases hstage with ⟨hq, rfl⟩ | ⟨-, -, v, hv, -⟩
    · have hord : (s.checks k).order = ask := (hinv.queue k hq).order.trans hk.ask
      rcases eq_or_ne k j with rfl | hkj
      · refine ⟨0, by omega, hinv', hk.of_conn rfl, .inr ⟨rfl, ?_, _, rfl, ?_⟩⟩
        · simp [State.setCheck]
        · exact (hinv.queue k hq).gen
      · have hlt : (s.checks j).order < ask := by
          rw [← hord]
          exact lt_of_le_of_ne (hmin k hq) (order_ne hinv hkj.symm hqj hq)
        have hahead := ahead_update s.checks j
          { s.checks j with queued := false, password := [] } ask
        rw [hqj, decide_eq_true hlt] at hahead
        simp only [Bool.and_self, Bool.false_and, Bool.toNat_true, Bool.toNat_false] at hahead
        refine ⟨_, ?_, hinv', hk.of_conn rfl, .inl ⟨?_, rfl⟩⟩
        · simp only [State.setCheck, hrest, busy]
          omega
        · simpa [State.setCheck, hkj] using hq
    · rw [hrest] at hv
      cases hv

private theorem judge_within {p : ℕ} (h : Within u k ask p s) (hstep : judge u s = some t) :
    (∃ q < p, Within u k ask q t) ∨ Judged u k ask t := by
  have hinv' := judge_inv h.1 hstep
  obtain ⟨hinv, hk, hstage⟩ := h
  unfold judge at hstep
  split at hstep
  · cases hstep
  · rename_i j v hthread
    dsimp only at hstep
    split_ifs at hstep with hqj
    · cases hstep
      rcases hstage with ⟨hq, rfl⟩ | ⟨-, hq, w, hw, -⟩
      · refine .inl ⟨_, ?_, hinv', hk.of_conn rfl, .inl ⟨hq, rfl⟩⟩
        simp only [hthread, busy]
        omega
      · obtain ⟨rfl, -⟩ := Thread.verifying.inj (hthread.symm.trans hw)
        exact absurd hqj (by simp [hq])
    · cases hstep
      rw [Bool.not_eq_true] at hqj
      rcases hstage with ⟨hq, rfl⟩ | ⟨rfl, hq, w, hw, hgen⟩
      · have hkj : k ≠ j := by
          rintro rfl
          rw [hq] at hqj
          cases hqj
        have hahead := ahead_update s.checks j
          { Check.zero with judged := true, ok := verify u v.name v.password, gen := v.gen } ask
        rw [hqj] at hahead
        simp only [Check.zero, Bool.false_and, Bool.toNat_false] at hahead
        refine .inl ⟨_, ?_, hinv', hk.of_conn rfl, .inl ⟨?_, rfl⟩⟩
        · simp only [State.setCheck, Check.zero, hthread, busy]
          omega
        · simpa [State.setCheck, hkj] using hq
      · obtain ⟨rfl, rfl⟩ := Thread.verifying.inj (hthread.symm.trans hw)
        refine .inr (.inl ⟨hinv', hk.of_conn rfl, ?_, ?_⟩)
        · simp [State.setCheck]
        · simpa [State.setCheck] using hgen

/-- Only a round of `give_verdicts` gives an event, and only the host's calls outside it change
what the host keeps of a connection. -/
private theorem step_frame (hstep : step u b s act = some t) (hact : act ≠ .verdict) :
    t.given = s.given ∧
      (t.giving = none ∨ t.giving = some 0 ∨ t.giving = s.giving ∧ t.conn = s.conn) := by
  cases act with
  | open_ j =>
    simp only [step, openConn] at hstep
    split_ifs at hstep with hguard
    cases hstep
    exact ⟨rfl, .inl (Option.isNone_iff_eq_none.mp hguard.1)⟩
  | close j =>
    simp only [step, closeConn] at hstep
    split_ifs at hstep with hguard <;> cases hstep <;>
      exact ⟨rfl, .inl (Option.isNone_iff_eq_none.mp hguard.1)⟩
  | check j name password =>
    simp only [step, check] at hstep
    split_ifs at hstep with hguard <;> cases hstep <;>
      exact ⟨rfl, .inl (Option.isNone_iff_eq_none.mp hguard.1)⟩
  | verdict => exact absurd rfl hact
  | take =>
    simp only [step, take] at hstep
    split at hstep
    · split_ifs at hstep
      split at hstep <;> cases hstep <;> exact ⟨rfl, .inr (.inr ⟨rfl, rfl⟩)⟩
    · cases hstep
  | judge =>
    simp only [step, judge] at hstep
    split at hstep
    · cases hstep
    · split_ifs at hstep <;> cases hstep <;> exact ⟨rfl, .inr (.inr ⟨rfl, rfl⟩)⟩
  | giveVerdicts =>
    simp only [step] at hstep
    split_ifs at hstep
    cases hstep
    exact ⟨rfl, .inr (.inl rfl)⟩
  | noVerdict | batchFull =>
    simp only [step] at hstep
    split_ifs at hstep
    cases hstep
    exact ⟨rfl, .inl rfl⟩

/-- An event goes to an open connection, of the event's generation, that waits for the verdict of
the check it names. -/
private theorem step_gives (hstep : step u b s act = some t) :
    t.given = s.given ∨ ∃ ev, t.given = ev :: s.given ∧ Tracked s ev.idx ev.ask ∧
      (s.conn ev.idx).gen = ev.gen := by
  by_cases hact : act = .verdict
  · subst hact
    obtain ⟨events, k, -, -, ⟨-, rfl⟩ | ⟨hopen, hgen, hchecking, rfl⟩⟩ := verdict_some hstep
    · exact .inl rfl
    · exact .inr ⟨_, rfl, ⟨hopen, hchecking, rfl⟩, hgen⟩
  · exact .inl (step_frame hstep hact).1

private theorem given_mono (hstep : step u b s act = some t) {ev : Given n} (hev : ev ∈ s.given) :
    ev ∈ t.given := by
  rcases step_gives hstep with hsame | ⟨new, hnew, -⟩
  · exact hsame ▸ hev
  · exact hnew ▸ List.mem_cons_of_mem new hev

private theorem waits_thread (h : Waits u k ask s) (hact : act = .take ∨ act = .judge)
    (hstep : step u b s act = some t) : Waits u k ask t := by
  have hinv' := step_inv h.1 hstep
  obtain ⟨hinv, hk, hj, hgen⟩ := h
  have hsame : t.conn = s.conn ∧ t.checks k = s.checks k := by
    rcases hact with rfl | rfl
    · simp only [step, take] at hstep
      split at hstep
      · split_ifs at hstep
        split at hstep
        · cases hstep
          exact ⟨rfl, rfl⟩
        · rename_i j hpick
          cases hstep
          have hkj : k ≠ j := by
            rintro rfl
            have hq := (pick_some hpick).1
            rw [(hinv.verdicts k hj).unqueued] at hq
            cases hq
          exact ⟨rfl, by simp [State.setCheck, hkj]⟩
      · cases hstep
    · simp only [step, judge] at hstep
      split at hstep
      · cases hstep
      · rename_i j v hthread
        have hkj : k ≠ j := by
          rintro rfl
          have hunjudged := (hinv.held k v hthread).unjudged
          rw [hj] at hunjudged
          cases hunjudged
        split_ifs at hstep
        · cases hstep
          exact ⟨rfl, rfl⟩
        · cases hstep
          exact ⟨rfl, by simp [State.setCheck, hkj]⟩
  obtain ⟨hconn, hentry⟩ := hsame
  exact ⟨hinv', hk.of_conn (by rw [hconn]), by rw [hentry]; exact hj, by rw [hentry, hconn]; exact hgen⟩

private theorem judged_stay (hclose : act ≠ .close k) (h : Judged u k ask s)
    (hstep : step u b s act = some t) : Judged u k ask t := by
  rcases h with hw | ⟨ev, hev, heq⟩
  · by_cases hthread : act = .take ∨ act = .judge
    · exact .inl (waits_thread hw hthread hstep)
    · push Not at hthread
      obtain ⟨hinv, hk, hj, hgen⟩ := hw
      rcases calm_step hinv hk hclose hthread.1 hthread.2 hstep with hcalm | ⟨-, hgiven⟩
      · exact .inl ⟨step_inv hinv hstep, hk.of_conn hcalm.conn, by rw [hcalm.entry]; exact hj,
          by rw [hcalm.entry, hcalm.conn]; exact hgen⟩
      · exact .inr (hgiven hgen)
  · exact .inr ⟨ev, given_mono hstep hev, heq⟩

private theorem ranked_judged (u : Users) (b : ℕ) (k : Fin n) (ask : ℕ) :
    Ranked (step u b) (· ≠ .close k) (fun a => a = .take ∨ a = .judge) (Within u k ask)
      (Judged u k ask) where
  keep := by
    intro p s t act hclose hw hstep
    by_cases htake : act = .take
    · subst htake
      obtain ⟨q, hq, hw'⟩ := take_within hw hstep
      exact .inl ⟨q, hq.le, hw'⟩
    · by_cases hjudge : act = .judge
      · subst hjudge
        exact (judge_within hw hstep).imp_left fun ⟨q, hq, hw'⟩ => ⟨q, hq.le, hw'⟩
      · have hunjudged := hw.unjudged
        have hinv' := step_inv hw.1 hstep
        obtain ⟨hinv, hk, hstage⟩ := hw
        rcases calm_step hinv hk hclose htake hjudge hstep with hcalm | ⟨hj, -⟩
        · have hk' := hk.of_conn hcalm.conn
          have hle := hcalm.ahead_le
          rcases hstage with ⟨hq, rfl⟩ | ⟨rfl, hq, v, hv, hgen⟩
          · refine .inl ⟨_, ?_, hinv', hk', .inl ⟨by rw [hcalm.entry]; exact hq, rfl⟩⟩
            rw [hcalm.thread]
            omega
          · exact .inl ⟨0, le_rfl, hinv', hk', .inr ⟨rfl, by rw [hcalm.entry]; exact hq, v,
              by rw [hcalm.thread]; exact hv, by rw [hcalm.conn]; exact hgen⟩⟩
        · rw [hunjudged] at hj
          cases hj
  drop := by
    intro p s t act _ hhelp hw hstep
    rcases hhelp with rfl | rfl
    · exact .inl (take_within hw hstep)
    · exact judge_within hw hstep
  stay := judged_stay

/-! ## Calls filled by lower indexes -/

/-- The events of the call that goes on are of different indexes: none asks again meanwhile. -/
def Turn (s : State n) : Prop :=
  ∀ events, s.giving = some events → events ≤ s.given.length ∧
    ((s.given.take events).map Given.idx).Nodup ∧
    ∀ ev ∈ s.given.take events, (s.conn ev.idx).checking = false

private theorem turn_step (h : Turn s) (hstep : step u b s act = some t) : Turn t := by
  intro events hevents
  by_cases hact : act = .verdict
  · subst hact
    obtain ⟨before, k, hgiving, -, ⟨-, rfl⟩ | ⟨-, -, hchecking, rfl⟩⟩ := verdict_some hstep
    · exact h events hevents
    · obtain ⟨hle, hnodup, hidle⟩ := h before hgiving
      obtain rfl : before + 1 = events := Option.some.inj hevents
      have hnew : ∀ ev ∈ s.given.take before, ev.idx ≠ k := by
        rintro ev hev rfl
        rw [hidle ev hev] at hchecking
        cases hchecking
      refine ⟨Nat.succ_le_succ hle, ?_, fun ev hev => ?_⟩
      · simp only [List.take_succ_cons, List.map_cons, List.nodup_cons]
        refine ⟨fun hmem => ?_, hnodup⟩
        obtain ⟨ev, hev, heq⟩ := List.mem_map.mp hmem
        exact hnew ev hev heq
      · rcases List.mem_cons.mp hev with rfl | hev
        · simp [State.setConn]
        · simpa [State.setConn, readVerdict, State.setCheck, hnew ev hev] using hidle ev hev
  · obtain ⟨hgiven, hnone | hzero | ⟨hsame, hconn⟩⟩ := step_frame hstep hact
    · cases hnone.symm.trans hevents
    · obtain rfl : 0 = events := Option.some.inj (hzero.symm.trans hevents)
      simp
    · rw [hgiven, hconn]
      exact h events (hsame.symm.trans hevents)

/-- The call that goes on, if one does, has given its verdicts to indexes below `k`. -/
def Below (k : Fin n) (s : State n) : Prop :=
  ∀ events, s.giving = some events → ∀ ev ∈ s.given.take events, ev.idx < k

/-- A call ends only with its batch full, and full of verdicts for indexes below `k`. -/
def Crowded (b : ℕ) (k : Fin n) (s : State n) : Action n → Prop
  | .noVerdict => False
  | .batchFull => ∀ ev ∈ s.given.take b, ev.idx < k
  | _ => True

/-- While the verdict of `k` waits, a call gives the verdicts below it first. -/
private theorem below_step (hw : Waits u k ask s) (h : Below k s) (hstep : step u b s act = some t)
    :
    Below k t ∨ Answered t ask := by
  by_cases hact : act = .verdict
  · subst hact
    obtain ⟨before, j, hgiving, hlow, ⟨-, rfl⟩ | ⟨-, -, -, rfl⟩⟩ := verdict_some hstep
    · exact .inl h
    · obtain ⟨-, hk, hjudged, -⟩ := hw
      rcases lt_trichotomy j k with hjk | rfl | hkj
      · refine .inl fun events hevents ev hev => ?_
        obtain rfl : before + 1 = events := Option.some.inj hevents
        rcases List.mem_cons.mp hev with rfl | hev
        · exact hjk
        · exact h before hgiving ev hev
      · exact .inr ⟨_, List.mem_cons_self, hk.ask⟩
      · have hfirst := (Fin.find?_eq_some_iff.mp hlow).2 k hkj
        rw [hjudged] at hfirst
        cases hfirst
  · refine .inl fun events hevents => ?_
    obtain ⟨hgiven, hnone | hzero | ⟨hsame, -⟩⟩ := step_frame hstep hact
    · cases hnone.symm.trans hevents
    · obtain rfl : 0 = events := Option.some.inj (hzero.symm.trans hevents)
      simp
    · rw [hgiven]
      exact h events (hsame.symm.trans hevents)

/-- A call that ends leaves none going on. -/
private theorem below_of_end (hend : act = .noVerdict ∨ act = .batchFull)
    (hstep : step u b s act = some t) : Below k t := by
  intro events hevents
  rcases hend with rfl | rfl
  all_goals
    simp only [step] at hstep
    split_ifs at hstep
    cases hstep
    cases hevents

private theorem crowded_of_below (hw : Waits u k ask s) (h : Below k s)
    (hstep : step u b s act = some t) : Crowded b k s act := by
  cases act with
  | noVerdict =>
    simp only [step] at hstep
    split_ifs at hstep with hguard
    have hjudged := hw.2.2.1
    rw [lowest_none hguard.2 k] at hjudged
    cases hjudged
  | batchFull =>
    simp only [step] at hstep
    split_ifs at hstep with hguard
    exact h b hguard
  | _ => trivial

private theorem answered_run (h : Answered s ask) (hrun : run (step u b) s as = some t) :
    Answered t ask := by
  have keep : ∀ {s t : State n} {act : Action n}, Answered s ask → step u b s act = some t →
      Answered t ask := by
    rintro s t act ⟨ev, hev, heq⟩ hstep
    exact ⟨ev, given_mono hstep hev, heq⟩
  exact invariant_of_step keep h hrun

private theorem crowded_run (hclose : Action.close k ∉ as) (hw : Waits u k ask s) (h : Below k s)
    (hrun : run (step u b) s as = some t) (hnot : ¬ Answered t ask) :
    Meets (step u b) (Crowded b k) s as ∧ Waits u k ask t ∧ Below k t := by
  induction as generalizing s with
  | nil =>
    obtain rfl : s = t := Option.some.inj hrun
    exact ⟨trivial, hw, h⟩
  | cons a as ih =>
    obtain ⟨m, hm, hrest⟩ := run_cons hrun
    obtain ⟨ha, has⟩ := not_or.mp (mt List.mem_cons.mpr hclose)
    have hwaits := (judged_stay (Ne.symm ha) (.inl hw) hm).resolve_right fun h =>
      hnot (answered_run h hrest)
    have hbelow := (below_step hw h hm).resolve_right fun h => hnot (answered_run h hrest)
    obtain ⟨hmeets, hlast⟩ := ih has hwaits hbelow hrest
    refine ⟨⟨crowded_of_below hw h hm, ?_⟩, hlast⟩
    rw [hm]
    exact hmeets

/-- Until a call ends, nothing is asked of how calls end. -/
private theorem waits_run (hclose : Action.close k ∉ as) (hw : Waits u k ask s)
    (hrun : run (step u b) s as = some t) (hnot : ¬ Answered t ask) :
    Waits u k ask t ∧ (Below k t ∨ Meets (step u b) (Crowded b k) s as) := by
  induction as generalizing s with
  | nil =>
    obtain rfl : s = t := Option.some.inj hrun
    exact ⟨hw, .inr trivial⟩
  | cons a as ih =>
    obtain ⟨m, hm, hrest⟩ := run_cons hrun
    obtain ⟨ha, has⟩ := not_or.mp (mt List.mem_cons.mpr hclose)
    have hwaits := (judged_stay (Ne.symm ha) (.inl hw) hm).resolve_right fun h =>
      hnot (answered_run h hrest)
    obtain ⟨hlast, hmeets⟩ := ih has hwaits hrest
    refine ⟨hlast, ?_⟩
    by_cases hend : a = .noVerdict ∨ a = .batchFull
    · exact .inl (crowded_run has hwaits (below_of_end hend hm) hrest hnot).2.2
    · refine hmeets.imp_right fun hmeets => ⟨?_, by rw [hm]; exact hmeets⟩
      cases a with
      | noVerdict | batchFull => exact absurd (by simp) hend
      | _ => trivial

/-- A call does not give `b` verdicts below an index lower than `b`. -/
private theorem no_end_of_crowded (hk : k.val < b) (h : Turn s)
    (hrun : run (step u b) s as = some t) (hmeets : Meets (step u b) (Crowded b k) s as) :
    Action.noVerdict ∉ as ∧ Action.batchFull ∉ as := by
  induction as generalizing s with
  | nil => simp
  | cons a as ih =>
    obtain ⟨m, hm, hrest⟩ := run_cons hrun
    obtain ⟨hcrowded, hafter⟩ := hmeets
    rw [hm] at hafter
    obtain ⟨hno, hfull⟩ := ih (turn_step h hm) hrest hafter
    refine ⟨fun hmem => ?_, fun hmem => ?_⟩
    · rcases List.mem_cons.mp hmem with rfl | hmem
      · exact hcrowded
      · exact hno hmem
    · rcases List.mem_cons.mp hmem with rfl | hmem
      · simp only [step] at hm
        split_ifs at hm with hguard
        obtain ⟨hle, hnodup, -⟩ := h b hguard
        have hsub : ((s.given.take b).map Given.idx).toFinset ⊆ Finset.Iio k := by
          intro i hi
          obtain ⟨ev, hev, rfl⟩ := List.mem_map.mp (List.mem_toFinset.mp hi)
          exact Finset.mem_Iio.mpr (hcrowded ev hev)
        have hcard := Finset.card_le_card hsub
        rw [List.toFinset_card_of_nodup hnodup, Fin.card_Iio, List.length_map, List.length_take,
          min_eq_left hle] at hcard
        omega
      · exact hfull hmem

end Steps

/-- The thread takes steps for ever, or is found waiting with nothing queued. -/
def KeepsStepping {u : Users} {b : ℕ} (r : Unending (step (n := n) u b)) : Prop :=
  ∀ m, ∃ l, m ≤ l ∧ ((∃ a ∈ r.acts l, a = .take ∨ a = .judge) ∨
    ((r.state l).queued = 0 ∧ (r.state l).thread = .resting))

/-- The host's calls of `give_verdicts` come to their end again and again. -/
def KeepsGiving {u : Users} {b : ℕ} (r : Unending (step (n := n) u b)) : Prop :=
  ∀ m, ∃ l, m ≤ l ∧ (Action.noVerdict ∈ r.acts l ∨ Action.batchFull ∈ r.acts l)

private theorem Tracked.within {s : State n} {ask : ℕ} (h : Inv u s) (hk : Tracked s k ask) :
    (∃ p, Within u k ask p s) ∨ Judged u k ask s := by
  rcases (h.waiting k hk.isOpen hk.checking).stage with hq | ⟨v, hv, hgen, -⟩ | ⟨hj, hgen⟩
  · exact .inl ⟨_, h, hk, .inl ⟨hq, rfl⟩⟩
  · exact .inl ⟨0, h, hk, .inr ⟨rfl, ((h.held k v hv).same hk.isOpen hgen.symm).2.2, v, hv, hgen⟩⟩
  · exact .inr (.inl ⟨h, hk, hj, hgen⟩)

private theorem eventually_judged {b : ℕ} (r : Unending (step (n := n) u b))
    (hstart : r.state 0 = start n)
    (hthread : KeepsStepping r) {ask m : ℕ} (hk : Tracked (r.state m) k ask)
    (hstays : ∀ l, m ≤ l → Action.close k ∉ r.acts l) :
    ∃ l, m ≤ l ∧ Judged u k ask (r.state l) := by
  have hinv : ∀ l, Inv u (r.state l) := r.invariant step_inv (hstart ▸ start_inv u)
  rcases hk.within (hinv m) with ⟨p, hw⟩ | hj
  · refine (ranked_judged u b k ask).eventually r (fun l hl a ha e => hstays l hl (e ▸ ha))
      (fun l _ => ?_) hw
    obtain ⟨i, hi, hhelp | ⟨hzero, hrest⟩⟩ := hthread l
    · exact ⟨i, hi, .inl hhelp⟩
    · refine ⟨i, hi, .inr fun q hq => ?_⟩
      obtain ⟨hinv', -, ⟨hqueued, -⟩ | ⟨-, -, v, hv, -⟩⟩ := hq
      · have hcount := hinv'.count
        have := queuedCount_pos hqueued
        omega
      · rw [hrest] at hv
        cases hv
  · exact ⟨m, le_rfl, hj⟩

/-- A verdict that waits is given, or from some time on every call ends crowded. -/
theorem answered_or_crowded {b : ℕ} (r : Unending (step (n := n) u b)) {ask m : ℕ}
    (hw : Waits u k ask (r.state m)) (hstays : ∀ l, m ≤ l → Action.close k ∉ r.acts l) :
    (∃ l, m ≤ l ∧ Answered (r.state l) ask) ∨
      ∃ l, m ≤ l ∧ ∀ i, l ≤ i → Meets (step u b) (Crowded b k) (r.state i) (r.acts i) := by
  by_cases hans : ∃ l, m ≤ l ∧ Answered (r.state l) ask
  · exact .inl hans
  refine .inr ?_
  have hnot : ∀ l, m ≤ l → ¬ Answered (r.state l) ask := fun l hl h => hans ⟨l, hl, h⟩
  have hwaits : ∀ l, m ≤ l → Waits u k ask (r.state l) := by
    intro l hl
    induction l, hl using Nat.le_induction with
    | base => exact hw
    | succ l hl ih => exact (waits_run (hstays l hl) ih (r.next l) (hnot _ (by omega))).1
  by_cases hbelow : ∃ l, m ≤ l ∧ Below k (r.state l)
  · obtain ⟨l, hl, hbelow⟩ := hbelow
    have hfrom : ∀ i, l ≤ i → Below k (r.state i) := by
      intro i hi
      induction i, hi using Nat.le_induction with
      | base => exact hbelow
      | succ i hi ih =>
        exact (crowded_run (hstays i (by omega)) (hwaits i (by omega)) ih (r.next i)
          (hnot _ (by omega))).2.2
    exact ⟨l, hl, fun i hi => (crowded_run (hstays i (by omega)) (hwaits i (by omega)) (hfrom i hi)
      (r.next i) (hnot _ (by omega))).1⟩
  · refine ⟨m, le_rfl, fun i hi => ?_⟩
    exact (waits_run (hstays i hi) (hwaits i hi) (r.next i)
      (hnot _ (by omega))).2.resolve_left fun h => hbelow ⟨i + 1, by omega, h⟩

private theorem not_crowded {b : ℕ} (r : Unending (step (n := n) u b))
    (hstart : r.state 0 = start n)
    (hgiving : KeepsGiving r) (hk : k.val < b) {l : ℕ} :
    ¬ ∀ i, l ≤ i → Meets (step u b) (Crowded b k) (r.state i) (r.acts i) := by
  intro hcrowded
  have hturn : ∀ i, Turn (r.state i) := r.invariant turn_step fun events h => by
    rw [hstart] at h
    cases h
  obtain ⟨i, hi, hend⟩ := hgiving l
  obtain ⟨hno, hfull⟩ := no_end_of_crowded hk (hturn i) (r.next i) (hcrowded i hi)
  exact hend.elim hno hfull

section Starving

variable {u : Users} {b : ℕ} {s : State n} {k : Fin n}

private theorem unqueued (h : Inv u s) (hnone : s.queued = 0) (j : Fin n) :
    (s.checks j).queued = false := by
  by_contra hq
  have := queuedCount_pos (Bool.not_eq_false _ ▸ hq)
  have := h.count
  omega

private theorem check_take_judge (h : Inv u s) (hrest : s.thread = .resting)
    (hnone : s.queued = 0) (hout : s.giving = none) (hopen : (s.conn k).isOpen = true)
    (hidle : (s.conn k).checking = false) :
    ∃ t, run (step u b) s [.check k [] [], .take, .judge] = some t ∧ t.thread = .resting ∧
      t.queued = 0 ∧ t.giving = none ∧
      t.conn = Function.update s.conn k { s.conn k with checking := true, ask := s.orders } ∧
      t.checks = Function.update s.checks k { Check.zero with
        judged := true, ok := verify u [] [], gen := (s.conn k).gen } := by
  have hunqueued := unqueued h hnone
  let asked : Check := ⟨true, false, false, (s.conn k).gen, s.orders, [], []⟩
  have hcheck : step u b s (.check k [] []) = some
      { (s.setCheck k asked).setConn k { s.conn k with checking := true, ask := s.orders } with
        orders := s.orders + 1
        queued := s.queued + 1
        asked := s.asked ++ [⟨k, (s.conn k).gen, [], []⟩] } := by
    simp only [step, check]
    rw [if_pos ⟨by simp [hout], hopen, hidle, Nat.zero_le _, Nat.zero_le _⟩,
      if_neg (by simp [hunqueued k])]
  have hpick : pick (Function.update s.checks k asked) = some k := by
    cases hp : pick (Function.update s.checks k asked) with
    | none =>
      have := pick_none hp k
      simp [asked] at this
    | some j =>
      have hj := (pick_some hp).1
      rcases eq_or_ne j k with rfl | hjk
      · rfl
      · simp [hjk, hunqueued j] at hj
  simp only [run, hcheck, Option.bind_some]
  simp only [step, take, State.setConn, State.setCheck, hrest, hnone, hpick, judge,
    Function.update_self]
  simp only [zero_add, one_ne_zero, if_false, Option.bind_some, Function.update_self,
    Bool.false_eq_true, Function.update_idem]
  exact ⟨_, rfl, rfl, rfl, hout, rfl, rfl⟩

/-- A round of the starving run: the indexes below `b` are open, those from `lo` up to `hi`
have a verdict waiting and the others are idle, and so has the victim. -/
structure Round (u : Users) (b : ℕ) (victim : Fin n) (giving : Option ℕ) (lo hi : ℕ)
    (s : State n) : Prop where
  inv : Inv u s
  rest : s.thread = .resting
  unqueued : s.queued = 0
  giving : s.giving = giving
  isOpen : ∀ j : Fin n, j.val < b → (s.conn j).isOpen = true
  waits : ∀ j : Fin n, lo ≤ j.val → j.val < hi → j.val < b → (s.conn j).checking = true ∧
    (s.checks j).judged = true ∧ (s.checks j).gen = (s.conn j).gen
  idle : ∀ j : Fin n, j.val < lo ∨ hi ≤ j.val → j.val < b → (s.conn j).checking = false ∧
    (s.checks j).judged = false
  victim : Waits u victim 0 s

section Rounds

variable {victim : Fin n} {m : ℕ}

private theorem Round.ask (hv : victim.val = b) (hm : m < b)
    (h : Round u b victim none 0 m s) :
    ∃ as t, run (step u b) s as = some t ∧ Round u b victim none 0 (m + 1) t ∧
      Action.take ∈ as ∧ Action.close victim ∉ as := by
  let k : Fin n := ⟨m, by omega⟩
  have hkv : victim ≠ k := fun e => by
    have := congrArg Fin.val e
    simp only [k] at this
    omega
  obtain ⟨hidle, hunjudged⟩ := h.idle k (.inr le_rfl) hm
  obtain ⟨t, hrun, hrest, hnone, hgiving, hconn, hchecks⟩ :=
    check_take_judge (b := b) h.inv h.rest h.unqueued h.giving (h.isOpen k hm) hidle
  have hinv : Inv u t := invariant_of_step step_inv h.inv hrun
  refine ⟨_, t, hrun, ⟨hinv, hrest, hnone, hgiving, fun j hj => ?_, fun j _ hj hjb => ?_,
    fun j hj hjb => ?_, hinv, ?_, ?_, ?_⟩, by simp, by simp⟩
  · rw [hconn]
    rcases eq_or_ne j k with rfl | hjk
    · simpa using h.isOpen _ hj
    · simpa [hjk] using h.isOpen j hj
  · rw [hconn, hchecks]
    rcases eq_or_ne j k with rfl | hjk
    · simp
    · have hlt : j.val < m := by
        have : j.val ≠ m := fun e => hjk (Fin.ext e)
        omega
      simpa [hjk] using h.waits j (Nat.zero_le _) hlt hjb
  · have hjk : j ≠ k := by
      rintro rfl
      simp only [k] at hj
      omega
    rw [hconn, hchecks]
    simpa [hjk] using h.idle j (by omega) hjb
  · have hw := h.victim.2.1
    exact hw.of_conn (by simp [hconn, hkv])
  · simpa [hchecks, hkv] using h.victim.2.2.1
  · simpa [hchecks, hconn, hkv] using h.victim.2.2.2

private theorem Round.askAll (hv : victim.val = b) (h : Round u b victim none 0 0 s) :
    ∀ m ≤ b, ∃ as t, run (step u b) s as = some t ∧ Round u b victim none 0 m t ∧
      (0 < m → Action.take ∈ as) ∧ Action.close victim ∉ as := by
  intro m
  induction m with
  | zero => exact fun _ => ⟨[], s, rfl, h, by simp, by simp⟩
  | succ m ih =>
    intro hm
    obtain ⟨as, t, hrun, hround, -, hclose⟩ := ih (by omega)
    obtain ⟨bs, t', hrun', hround', htake, hclose'⟩ := hround.ask hv (by omega)
    exact ⟨as ++ bs, t', run_append.mpr ⟨t, hrun, hrun'⟩, hround',
      fun _ => List.mem_append_right _ htake, by simp [hclose, hclose']⟩

private theorem Round.give (hv : victim.val = b) (hm : m < b)
    (h : Round u b victim (some m) m b s) :
    ∃ t, step u b s .verdict = some t ∧ Round u b victim (some (m + 1)) (m + 1) b t := by
  let k : Fin n := ⟨m, by omega⟩
  have hkv : victim ≠ k := fun e => by
    have := congrArg Fin.val e
    simp only [k] at this
    omega
  obtain ⟨hchecking, hjudged, hgen⟩ := h.waits k le_rfl hm hm
  have hlow : lowest s.checks = some k :=
    Fin.find?_eq_some_iff.mpr ⟨hjudged, fun j hj => (h.idle j (.inl hj) (lt_trans hj hm)).2⟩
  have hstep : step u b s .verdict = some
      { (readVerdict s k).setConn k { s.conn k with checking := false } with
        giving := some (m + 1)
        given := ⟨(s.conn k).ask, k, (s.checks k).gen, (s.checks k).ok⟩ :: s.given } := by
    simp only [step, verdict, h.giving, hlow]
    rw [if_pos hm, if_neg (by simp [h.isOpen k hm, hgen, hchecking])]
  have hinv := step_inv h.inv hstep
  refine ⟨_, hstep, ⟨hinv, h.rest, h.unqueued, rfl, fun j hj => ?_, fun j hlo hj hjb => ?_,
    fun j hj hjb => ?_, hinv, ?_, ?_, ?_⟩⟩
  · rcases eq_or_ne j k with rfl | hjk
    · simpa [State.setConn] using h.isOpen _ hj
    · simpa [State.setConn, readVerdict, State.setCheck, hjk] using h.isOpen j hj
  · have hjk : j ≠ k := by
      rintro rfl
      simp only [k] at hlo
      omega
    simpa [State.setConn, readVerdict, State.setCheck, hjk] using h.waits j (by omega) hj hjb
  · rcases eq_or_ne j k with rfl | hjk
    · simp [State.setConn, readVerdict, State.setCheck]
    · have hlt : j.val ≠ m := fun e => hjk (Fin.ext e)
      simpa [State.setConn, readVerdict, State.setCheck, hjk] using h.idle j (by omega) hjb
  · exact h.victim.2.1.of_conn (by simp [State.setConn, readVerdict, State.setCheck, hkv])
  · simpa [State.setConn, readVerdict, State.setCheck, hkv] using h.victim.2.2.1
  · simpa [State.setConn, readVerdict, State.setCheck, hkv] using h.victim.2.2.2

private theorem Round.giveAll (hv : victim.val = b) (h : Round u b victim (some 0) 0 b s) :
    ∀ m ≤ b, ∃ as t, run (step u b) s as = some t ∧ Round u b victim (some m) m b t ∧
      Action.close victim ∉ as := by
  intro m
  induction m with
  | zero => exact fun _ => ⟨[], s, rfl, h, by simp⟩
  | succ m ih =>
    intro hm
    obtain ⟨as, t, hrun, hround, hclose⟩ := ih (by omega)
    obtain ⟨t', hstep, hround'⟩ := hround.give hv (by omega)
    refine ⟨as ++ [.verdict], t', run_append.mpr ⟨t, hrun, ?_⟩, hround', by simp [hclose]⟩
    simp [run, hstep]

private theorem Round.turn {g g' : Option ℕ} {lo hi : ℕ} (h : Round u b victim g lo hi s) :
    Round u b victim g' lo hi { s with giving := g' } := by
  have hinv : Inv u { s with giving := g' } :=
    ⟨h.inv.quiet, h.inv.numbers, h.inv.count, h.inv.queue, h.inv.held, h.inv.verdicts,
      h.inv.waiting, h.inv.events, h.inv.once, h.inv.ordered, h.inv.behind, h.inv.accounted⟩
  exact ⟨hinv, h.rest, h.unqueued, rfl, h.isOpen, h.waits, h.idle,
    ⟨hinv, ⟨h.victim.2.1.isOpen, h.victim.2.1.checking, h.victim.2.1.ask⟩, h.victim.2.2⟩⟩

private theorem Round.cycle (hv : victim.val = b) (hb : 0 < b)
    (h : Round u b victim none 0 0 s) :
    ∃ as t, (Action.take ∈ as ∧ Action.giveVerdicts ∈ as ∧ Action.close victim ∉ as) ∧
      run (step u b) s as = some t ∧ Round u b victim none 0 0 t := by
  obtain ⟨as, x, hx, hround, htake, hclose⟩ := h.askAll hv b le_rfl
  obtain ⟨bs, y, hy, hround', hclose'⟩ := hround.turn.giveAll hv b le_rfl
  have hbegin : step u b x .giveVerdicts = some { x with giving := some 0 } := by
    simp [step, hround.giving]
  have hend : step u b y .batchFull = some { y with giving := none } := by
    simp [step, hround'.giving]
  refine ⟨as ++ (.giveVerdicts :: bs ++ [.batchFull]), { y with giving := none },
    ⟨List.mem_append_left _ (htake hb), by simp, by simp [hclose, hclose']⟩, ?_, ?_⟩
  · refine run_append.mpr ⟨x, hx, ?_⟩
    simp only [List.cons_append, run, hbegin, Option.bind_some]
    refine run_append.mpr ⟨y, hy, ?_⟩
    simp [run, hend]
  · have hturn : Round u b victim none b b { y with giving := none } := hround'.turn
    exact { hturn with
      waits := fun j _ hj _ => absurd hj (Nat.not_lt_zero _)
      idle := fun j _ hjb => hturn.idle j (.inl hjb) hjb }

end Rounds

/-- The connections below `m` are open and idle, and nothing else has happened. -/
structure Opened (u : Users) (m : ℕ) (s : State n) : Prop where
  inv : Inv u s
  rest : s.thread = .resting
  unqueued : s.queued = 0
  giving : s.giving = none
  orders : s.orders = 0
  isOpen : ∀ j : Fin n, j.val < m → (s.conn j).isOpen = true
  closed : ∀ j : Fin n, m ≤ j.val → (s.conn j).isOpen = false ∧ (s.conn j).gen = 0
  idle : ∀ j, (s.conn j).checking = false ∧ (s.checks j).judged = false

private theorem opened_upto (u : Users) (b : ℕ) (k : Fin n) : ∀ m ≤ n, ∃ as t,
    run (step u b) (start n) as = some t ∧ Opened u m t ∧ Action.close k ∉ as := by
  intro m
  induction m with
  | zero =>
    exact fun _ => ⟨[], start n, rfl, ⟨start_inv u, rfl, rfl, rfl, rfl, by simp,
      fun _ _ => ⟨rfl, rfl⟩, fun _ => ⟨rfl, rfl⟩⟩, by simp⟩
  | succ m ih =>
    intro hm
    obtain ⟨as, t, hrun, h, hclose⟩ := ih (by omega)
    let j : Fin n := ⟨m, hm⟩
    obtain ⟨hj, hgen⟩ := h.closed j le_rfl
    have hstep : step u b t (.open_ j) =
        some (t.setConn j ⟨true, (t.conn j).gen + 1, false, (t.conn j).ask⟩) := by
      simp only [step, openConn]
      rw [if_pos ⟨by simp [h.giving], hj, by simp [hgen, genLimit]⟩]
    refine ⟨as ++ [.open_ j], _, run_append.mpr ⟨t, hrun, by simp [run, hstep]⟩,
      ⟨step_inv h.inv hstep, h.rest, h.unqueued, h.giving, h.orders, fun i hi => ?_,
        fun i hi => ?_, fun i => ?_⟩, by simp [hclose]⟩
    · rcases eq_or_ne i j with rfl | hij
      · simp [State.setConn]
      · have : i.val ≠ m := fun e => hij (Fin.ext e)
        simpa [State.setConn, hij] using h.isOpen i (by omega)
    · have hij : i ≠ j := by
        rintro rfl
        simp only [j] at hi
        omega
      simpa [State.setConn, hij] using h.closed i (by omega)
    · rcases eq_or_ne i j with rfl | hij
      · simpa [State.setConn] using (h.idle _).2
      · simpa [State.setConn, hij] using h.idle i

private theorem round_of_start (u : Users) {victim : Fin n} (hv : victim.val = b) :
    ∃ as t, run (step u b) (start n) as = some t ∧ Round u b victim none 0 0 t ∧
      Action.close victim ∉ as := by
  obtain ⟨as, x, hx, h, hclose⟩ := opened_upto u b victim n le_rfl
  obtain ⟨t, hrun, hrest, hnone, hgiving, hconn, hchecks⟩ :=
    check_take_judge (b := b) h.inv h.rest h.unqueued h.giving (h.isOpen victim victim.2)
      (h.idle victim).1
  have hinv : Inv u t := invariant_of_step step_inv h.inv hrun
  have hne : ∀ j : Fin n, j.val < b → j ≠ victim := by
    rintro j hj rfl
    omega
  refine ⟨as ++ [.check victim [] [], .take, .judge], t, run_append.mpr ⟨x, hx, hrun⟩,
    ⟨hinv, hrest, hnone, hgiving, fun j hj => ?_, fun j _ hj _ => absurd hj (Nat.not_lt_zero _),
      fun j _ hj => ?_, hinv, ⟨?_, ?_, ?_⟩, ?_, ?_⟩, by simp [hclose]⟩
  · simpa [hconn, hne j hj] using h.isOpen j j.2
  · simpa [hconn, hchecks, hne j hj] using h.idle j
  · simpa [hconn] using h.isOpen victim victim.2
  · simp [hconn]
  · simp [hconn, h.orders]
  · simp [hchecks]
  · simp [hchecks, hconn]

end Starving

/-- The interface of the accounts, with the host's and the thread's steps in any order. An
event answers a check of the connection it is given to, with the verdict of its name and
password, and a check has one event at most; it is given only to an open connection, of its
generation, that waits for it; checks are taken in the order they were asked, forgotten ones
aside; the count of queued entries is exact and nothing faults. While a connection stays, the
thread's steps bring its check to a verdict, and the verdict is given unless from some time on
every call of `give_verdicts` is filled by lower indexes, which cannot be below index 16. -/
theorem verdict_answers_its_check (u : Users) :
    (∀ (acts : List (Action conns)) (s : State conns),
      run (step u batch) (start conns) acts = some s →
        (∀ ev ∈ s.given, Answers u s.asked ev) ∧ (s.given.map Given.ask).Nodup ∧
        (∀ act t, step u batch s act = some t → t.given = s.given ∨
          ∃ ev, t.given = ev :: s.given ∧ Tracked s ev.idx ev.ask ∧
            (s.conn ev.idx).gen = ev.gen) ∧
        (s.taken.Pairwise (· < ·) ∧
          ∀ id ∈ s.taken, ∀ old < id, old ∈ s.taken ∨ old ∈ s.forgotten) ∧
        s.queued = queuedCount s.checks ∧ s.fault = false) ∧
    ∀ r : Unending (step (n := conns) u batch), r.state 0 = start conns → KeepsStepping r →
      ∀ (k : Fin conns) (ask m : ℕ), Tracked (r.state m) k ask →
        (∀ l, m ≤ l → Action.close k ∉ r.acts l) →
          (∃ l, m ≤ l ∧ Judged u k ask (r.state l)) ∧
          ((∃ l, m ≤ l ∧ Answered (r.state l) ask) ∨
            ∃ l, m ≤ l ∧
              ∀ i, l ≤ i → Meets (step u batch) (Crowded batch k) (r.state i) (r.acts i)) ∧
          (k.val < batch → KeepsGiving r → ∃ l, m ≤ l ∧ Answered (r.state l) ask) := by
  refine ⟨fun acts s hrun => ?_, fun r hstart hthread k ask m hk hstays => ?_⟩
  · have h : Inv u s := invariant_of_step step_inv (start_inv u) hrun
    refine ⟨h.events, h.once, fun act t hstep => step_gives hstep,
      ⟨h.ordered, fun id hid old hold => ?_⟩, h.count, h.quiet⟩
    obtain ⟨hlt, hbehind⟩ := h.behind id hid
    rcases h.accounted old (by omega) with ht | hf | ⟨k, hq, hord⟩
    · exact .inl ht
    · exact .inr hf
    · have := hbehind k hq
      omega
  · have hjudged := eventually_judged r hstart hthread hk hstays
    have hends : (∃ l, m ≤ l ∧ Answered (r.state l) ask) ∨ ∃ l, m ≤ l ∧
        ∀ i, l ≤ i → Meets (step u batch) (Crowded batch k) (r.state i) (r.acts i) := by
      obtain ⟨l, hl, hw | hdone⟩ := hjudged
      · refine (answered_or_crowded r hw fun i hi => hstays i (hl.trans hi)).imp ?_ ?_ <;>
          rintro ⟨i, hi, h⟩ <;> exact ⟨i, hl.trans hi, h⟩
      · exact .inl ⟨l, hl, hdone⟩
    refine ⟨hjudged, hends, fun hlow hgiving => hends.resolve_right ?_⟩
    rintro ⟨l, -, hcrowded⟩
    exact not_crowded r hstart hgiving hlow hcrowded

/-- An account, and a derivation under which its password is its key. -/
def oneUser : Users := ⟨[⟨[97], [1], [120], 1⟩], ⟨[], [], [], 1⟩, fun p _ _ => some p⟩

def oneCheck : List (Action conns) :=
  [.open_ ⟨5, by decide⟩, .check ⟨5, by decide⟩ [97] [120], .take, .judge, .giveVerdicts,
    .verdict, .noVerdict]

theorem oneCheck_answered : ∃ s, run (step oneUser batch) (start conns) oneCheck = some s ∧
    s.given.map Given.ok = [true] ∧ (∀ ev ∈ s.given, Answers oneUser s.asked ev) ∧
    s.fault = false :=
  ⟨_, rfl, rfl, ((verdict_answers_its_check oneUser).1 oneCheck _ rfl).1,
    ((verdict_answers_its_check oneUser).1 oneCheck _ rfl).2.2.2.2.2⟩

def victim : Fin conns := ⟨16, by decide⟩

/-- Sixteen lower indexes that ask again each time fill every batch, so that the verdict of
index 16 waits for ever although the thread keeps stepping and the host keeps giving. -/
theorem lower_indexes_starve : ∃ r : Unending (step (n := conns) oneUser batch),
    r.state 0 = start conns ∧ KeepsStepping r ∧ (∀ m, Action.giveVerdicts ∈ r.acts m) ∧
    (∀ m, Action.close victim ∉ r.acts m) ∧ Tracked (r.state 1) victim 0 ∧
    ∀ m, ¬ Answered (r.state m) 0 := by
  have hv : victim.val = batch := rfl
  obtain ⟨as, x, hx, hround, hclose⟩ := round_of_start oneUser hv
  obtain ⟨bs, y, ⟨htake, hgive, hclose'⟩, hy, hround'⟩ := hround.cycle hv (by decide)
  obtain ⟨r, rfl, hr⟩ := exists_of_cycle (fun s h => Round.cycle (s := s) hv (by decide) h) hround'
  have hacts : ∀ m, Action.take ∈ (r.cons (run_append.mpr ⟨x, hx, hy⟩)).acts m ∧
      Action.giveVerdicts ∈ (r.cons (run_append.mpr ⟨x, hx, hy⟩)).acts m ∧
      Action.close victim ∉ (r.cons (run_append.mpr ⟨x, hx, hy⟩)).acts m := by
    rintro (_ | m)
    · refine ⟨List.mem_append_right _ htake, List.mem_append_right _ hgive, ?_⟩
      simp [Unending.cons, hclose, hclose']
    · exact (hr m).1
  refine ⟨r.cons (run_append.mpr ⟨x, hx, hy⟩), rfl,
    fun m => ⟨m, le_rfl, .inl ⟨_, (hacts m).1, .inl rfl⟩⟩, fun m => (hacts m).2.1,
    fun m => (hacts m).2.2, (hr 0).2.victim.2.1, ?_⟩
  rintro (_ | m) ⟨ev, hev, hask⟩
  · cases hev
  · obtain ⟨hinv, hk, -⟩ := (hr m).2.victim
    exact (hinv.waiting victim hk.isOpen hk.checking).ungiven ev hev (hask.trans hk.ask.symm)

end DragonsNet.Native.AccountsProgress
