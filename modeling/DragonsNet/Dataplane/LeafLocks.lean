/- GID: DragonsNet/Dataplane/LeafLocks
   source: migration/dataplane/host/src/tls/ondemand.rs
   digest: The locks of the on-demand leaves by SNI, who waits for them, and that calls return. -/

import DragonsNet.Dataplane.LeafFiles
import DragonsNet.Lib.Fairness

set_option autoImplicit false

namespace DragonsNet.Dataplane.LeafFiles

open Lib.Fairness (Trace StronglyFair eventually_of_rank free_again exists_settling)
open Lib.Runs (run Meets invariant_of_step)

variable {ι : Type} {cfg : Cfg} {e : Effect} {ok : Bool} {p q : Phase} {s : State ι}

/-! ## Who holds a lock -/

def Phase.held : Phase → Option Sni
  | .probing sni locked | .statting sni locked _ _ | .awaiting sni locked _ =>
    if locked then some sni else none
  | .asking sni | .readingCert sni _ | .readingKey sni _ _ | .tagging sni _ _
  | .inserting sni _ _ _ | .preparing sni | .minting sni _ | .negating sni _
  | .leaving sni _ => some sni
  | .idle | .locking _ | .returned _ _ => none

def Phase.wants : Phase → Option Sni
  | .awaiting sni _ _ | .locking sni => some sni
  | _ => none

def Phase.selfWaits : Phase → Bool
  | .awaiting _ locked _ => locked
  | _ => false

private theorem Phase.held_of_wants {p : Phase} {sni : Sni} (h : p.wants = some sni) :
    p.held = none ∨ p.held = some sni ∧ p.selfWaits = true := by
  cases p with
  | awaiting other locked purpose =>
    cases h
    cases locked with
    | false => exact .inl rfl
    | true => exact .inr ⟨rfl, rfl⟩
  | locking other => exact .inl rfl
  | _ => cases h

private theorem finish_held (sni : Sni) (locked : Bool) (outcome : Outcome) :
    (finish sni locked outcome).held = if locked then some sni else none := by
  cases locked <;> rfl

private theorem proceed_held (cfg : Cfg) (sni : Sni) (locked : Bool) :
    (proceed cfg sni locked).held = if locked then some sni else none := by
  unfold proceed
  cases locked with
  | false => rfl
  | true => by_cases hasks : cfg.asks <;> simp [hasks, Phase.held]

private theorem unloaded_held (sni : Sni) (purpose : Purpose) :
    (unloaded sni purpose).held = some sni := by
  cases purpose <;> rfl

/-- A step takes a free lock that the call asks for, gives up the one it holds, or leaves the
locks as they are. -/
theorem Does.locking (h : Does cfg s ok p e q) :
    (∃ sni, e = .acquire sni ∧ p.wants = some sni ∧ s.holder sni = none ∧ q.held = some sni) ∨
    (∃ sni, e = .release sni ∧ p.held = some sni ∧ q.held = none) ∨
    (q.held = p.held ∧ ∀ sni, e ≠ .acquire sni ∧ e ≠ .release sni) := by
  cases h with
  | @reloads sni _ _ free | @locks sni free => exact .inl ⟨sni, rfl, rfl, free, rfl⟩
  | @leaves sni _ => exact .inr (.inl ⟨sni, rfl, rfl, rfl⟩)
  | refused | current => exact .inr (.inr ⟨finish_held _ _ _, by simp⟩)
  | elapsed | missed => exact .inr (.inr ⟨proceed_held _ _ _, by simp⟩)
  | noCert | noKey => exact .inr (.inr ⟨unloaded_held _ _, by simp⟩)
  | found | newer | readsCert | readsKey | tags | inserts | spawns | unspawned | minted
  | unminted | negates => exact .inr (.inr ⟨rfl, by simp⟩)

def Locked (s : State ι) : Prop :=
  ∀ sni i, s.holder sni = some i ↔ (s.threads i).held = some sni

theorem Locked.start (left : Sni → Option (Bytes × Bytes × ℕ)) : Locked (start ι left) := by
  intro sni i
  constructor <;> intro h <;> cases h

section Locked

variable [DecidableEq ι] {cfg : Cfg} {s t : State ι} {i : ι} {p q : Phase} {sni : Sni}

theorem Locked.goto (hs : Locked s) (hheld : q.held = (s.threads i).held) :
    Locked (s.goto i q) := by
  intro sni j
  by_cases hj : j = i
  · subst hj
    simpa [State.goto, hheld] using hs sni j
  · simpa [State.goto, hj] using hs sni j

theorem Locked.acquire (hs : Locked s) (hwants : (s.threads i).wants = some sni)
    (hfree : s.holder sni = none) (hheld : q.held = some sni) :
    Locked ((Effect.on s i (.acquire sni)).goto i q) := by
  have hempty : (s.threads i).held = none := by
    refine (Phase.held_of_wants hwants).resolve_right ?_
    rintro ⟨hheld, -⟩
    rw [← hs sni i, hfree] at hheld
    cases hheld
  intro other j
  by_cases hother : other = sni
  · subst hother
    by_cases hj : j = i
    · subst hj
      simp [State.goto, Effect.on, hheld]
    · have hnone := hs other j
      rw [hfree] at hnone
      simpa [State.goto, Effect.on, hj, Ne.symm hj] using hnone
  · by_cases hj : j = i
    · subst hj
      have hnone := hs other j
      rw [hempty] at hnone
      simpa [State.goto, Effect.on, hother, hheld, Ne.symm hother] using hnone
    · simpa [State.goto, Effect.on, hother, hj] using hs other j

theorem Locked.release (hs : Locked s) (hheld : (s.threads i).held = some sni)
    (hgiven : q.held = none) : Locked ((Effect.on s i (.release sni)).goto i q) := by
  intro other j
  by_cases hother : other = sni
  · subst hother
    by_cases hj : j = i
    · subst hj
      simp [State.goto, Effect.on, hgiven]
    · have hothers : (s.threads j).held ≠ some other := by
        intro hj'
        have h₁ := (hs other j).mpr hj'
        have h₂ := (hs other i).mpr hheld
        rw [h₁] at h₂
        exact hj (Option.some.inj h₂)
      simpa [State.goto, Effect.on, hj] using hothers
  · by_cases hj : j = i
    · subst hj
      have hnone := hs other j
      rw [hheld] at hnone
      simpa [State.goto, Effect.on, hother, hgiven, Ne.symm hother] using hnone
    · simpa [State.goto, Effect.on, hother, hj] using hs other j

theorem Locked.advance (hs : Locked s) {ok : Bool} {e : Effect}
    (h : Does cfg s ok (s.threads i) e q) : Locked ((e.on s i).goto i q) := by
  rcases h.locking with ⟨sni, rfl, hwants, hfree, hheld⟩ | ⟨sni, rfl, hheld, hgiven⟩ |
    ⟨hsame, hnot⟩
  · exact hs.acquire hwants hfree hheld
  · exact hs.release hheld hgiven
  · cases e with
    | acquire sni => exact absurd rfl (hnot sni).1
    | release sni => exact absurd rfl (hnot sni).2
    | nothing | remember | spawn => exact Locked.goto hs hsame

theorem Phase.held_of_ended {p : Phase} (h : p.ended = true) : p.held = none := by
  cases p with
  | idle | returned => rfl
  | _ => cases h

theorem answered_held (sni : Sni) (reply : Option Bool) : (answered sni reply).held = some sni := by
  rcases reply with _ | _ | _ <;> rfl

theorem Locked.step {a : Action ι} (hs : Locked s) (h : step cfg s a = some t) : Locked t := by
  cases takes_of_step h with
  | resolve ended =>
    apply hs.goto
    rw [Phase.held_of_ended ended, resolve]
    split <;> rfl
  | reloadSni ended =>
    apply hs.goto
    rw [Phase.held_of_ended ended, reloadSni]
    split <;> rfl
  | advance does => exact hs.advance does
  | answer asking =>
    apply hs.goto
    rw [answered_held, asking]
    rfl
  | issue | writeCert | writeKey | exit | tick => exact hs

end Locked

/-! ## Who waits for itself -/

/-- A stat of `serve_cached` made under the SNI's lock: the SNI and the cached time. -/
def Phase.lockedStat : Phase → Option (Sni × Option ℕ)
  | .statting sni true _ mtime => some (sni, mtime)
  | _ => none

/-- No stat made under the SNI's lock finds the disk newer than the cached leaf. -/
def Calm (s : State ι) : Action ι → Prop
  | .advance i ok => ∀ stat ∈ (s.threads i).lockedStat,
    diskIsNewer ((s.disk stat.1).seen ok) stat.2 = false
  | .resolve _ _ | .reloadSni _ _ | .answer _ _ | .issue _ | .writeCert _ _ | .writeKey _ _ _
  | .exit _ _ | .tick _ => True

instance (s : State ι) : ∀ a, Decidable (Calm s a)
  | .advance i ok => inferInstanceAs (Decidable (∀ stat ∈ (s.threads i).lockedStat,
    diskIsNewer ((s.disk stat.1).seen ok) stat.2 = false))
  | .resolve _ _ | .reloadSni _ _ | .answer _ _ | .issue _ | .writeCert _ _ | .writeKey _ _ _
  | .exit _ _ | .tick _ => isTrue trivial

private theorem Does.selfWaits (h : Does cfg s ok p e q) (hself : q.selfWaits = true) :
    ∃ stat ∈ p.lockedStat, diskIsNewer ((s.disk stat.1).seen ok) stat.2 = true := by
  cases h with
  | @newer sni locked _ mtime hnewer =>
    obtain rfl : locked = true := hself
    exact ⟨(sni, mtime), rfl, hnewer⟩
  | @refused _ locked | @current _ locked _ _ => cases locked <;> cases hself
  | @elapsed _ locked _ | @missed _ locked _ =>
    unfold proceed at hself
    split at hself
    · cases hself
    · split at hself <;> cases hself
  | @noCert _ purpose | @noKey _ purpose _ => cases purpose <;> cases hself
  | found | reloads | locks | readsCert | readsKey | tags | inserts | spawns | unspawned
  | minted | unminted | negates | leaves => cases hself

/-- Locks are held by the calls that hold them, and no call asks for its own. -/
structure Orderly (s : State ι) : Prop where
  locked : Locked s
  others : ∀ i, (s.threads i).selfWaits = false

theorem Orderly.start (left : Sni → Option (Bytes × Bytes × ℕ)) : Orderly (start ι left) :=
  ⟨Locked.start left, fun _ => rfl⟩

theorem Orderly.step [DecidableEq ι] {s t : State ι} {a : Action ι} (hs : Orderly s)
    (hcalm : Calm s a) (h : step cfg s a = some t) : Orderly t := by
  refine ⟨hs.locked.step h, ?_⟩
  have hgoto : ∀ {i : ι} {q : Phase}, q.selfWaits = false →
      ∀ j, ((s.goto i q).threads j).selfWaits = false := by
    intro i q hq j
    by_cases hj : j = i
    · subst hj
      simpa [State.goto] using hq
    · simpa [State.goto, hj] using hs.others j
  cases takes_of_step h with
  | resolve =>
    apply hgoto
    unfold resolve
    split <;> rfl
  | reloadSni =>
    apply hgoto
    unfold reloadSni
    split <;> rfl
  | @advance i ok e q does =>
    have hq : q.selfWaits = false := by
      by_contra hself
      obtain ⟨stat, hstat, hnewer⟩ := does.selfWaits (eq_true_of_ne_false hself)
      rw [hcalm stat hstat] at hnewer
      cases hnewer
    cases e <;> exact hgoto hq
  | @answer _ _ reply _ =>
    apply hgoto
    rcases reply with _ | _ | _ <;> rfl
  | issue | writeCert | writeKey | exit | tick => exact hs.others

private theorem Orderly.wants (hs : Orderly s) {i : ι} {sni : Sni}
    (hwants : (s.threads i).wants = some sni)
    :
    s.holder sni ≠ some i := by
  intro hholder
  have hheld : (s.threads i).held = some sni := (hs.locked sni i).mp hholder
  have hself : (s.threads i).selfWaits = false := hs.others i
  rcases Phase.held_of_wants hwants with hnone | ⟨-, htrue⟩
  · cases hnone.symm.trans hheld
  · cases htrue.symm.trans hself

/-! ## How far a call is from its return -/

def Purpose.rank : Purpose → ℕ
  | .reuse => 5
  | .refresh _ | .sweep | .minted => 0

def Phase.rank : Phase → ℕ
  | .idle | .returned _ _ => 0
  | .leaving _ _ => 1
  | .inserting _ _ _ _ | .negating _ _ => 2
  | .tagging _ _ _ => 3
  | .readingKey _ purpose _ => 4 + purpose.rank
  | .readingCert _ purpose => 5 + purpose.rank
  | .awaiting _ _ purpose => 6 + purpose.rank
  | .minting _ _ => 6
  | .preparing _ => 7
  | .statting _ _ _ _ => 7
  | .asking _ => 11
  | .probing _ locked => if locked then 12 else 14
  | .locking _ => 13

def Phase.call : Phase → Option Sni
  | .idle => none
  | .probing sni _ | .statting sni _ _ _ | .awaiting sni _ _ | .locking sni | .asking sni
  | .readingCert sni _ | .readingKey sni _ _ | .tagging sni _ _ | .inserting sni _ _ _
  | .preparing sni | .minting sni _ | .negating sni _ | .leaving sni _ | .returned sni _ =>
    some sni

private theorem Does.nearer (h : Does cfg s ok p e q) : q.rank < p.rank ∧ q.call = p.call := by
  cases h with
  | @refused _ locked | @current _ locked _ _ =>
    cases locked <;> simp [finish, Phase.rank, Phase.call]
  | @elapsed _ locked _ | @missed _ locked _ =>
    cases locked with
    | false => simp [proceed, Phase.rank, Phase.call]
    | true =>
      by_cases hasks : cfg.asks <;> simp [proceed, hasks, Phase.rank, Phase.call, Purpose.rank]
  | @found _ locked _ _ _ => cases locked <;> simp [Phase.rank, Phase.call]
  | @noCert _ purpose | @noKey _ purpose _ =>
    cases purpose <;> simp [unloaded, Phase.rank, Phase.call, Purpose.rank]
  | newer | locks | minted | unminted | spawns | unspawned | tags | inserts | negates
  | leaves => simp [Phase.rank, Phase.call, Purpose.rank]
  | reloads | readsCert | readsKey =>
    simp only [Phase.rank, Phase.call, and_true]
    omega

private theorem answered_nearer (sni : Sni) (reply : Option Bool) :
    (answered sni reply).rank < (Phase.asking sni).rank ∧
      (answered sni reply).call = some sni := by
  rcases reply with _ | _ | _ <;> simp [answered, Phase.rank, Phase.call, Purpose.rank]

def Phase.issuing : Phase → Option ℕ
  | .minting _ r => some r
  | _ => none

def Phase.isAsking : Phase → Bool
  | .asking _ => true
  | _ => false

private theorem work_isSome {p : Phase} (hended : p.ended = false) (hasking : p.isAsking = false)
    (hwants : ∀ sni ∈ p.wants, s.holder sni = none)
    (hissuing : ∀ r ∈ p.issuing, ∃ sni success, s.runs r = some (sni, .exited success)) :
    (work cfg s ok p).isSome := by
  cases p with
  | idle | returned => cases hended
  | asking => cases hasking
  | awaiting sni | locking sni => simp [work, hwants sni rfl]
  | minting sni r =>
    obtain ⟨other, success, hruns⟩ := hissuing r rfl
    cases success <;> simp [work, hruns]
  | probing =>
    simp only [work]
    split
    case h_1 | h_4 => rfl
    case h_2 | h_3 => split <;> rfl
  | readingKey =>
    simp only [work]
    split
    case h_1 => split <;> rfl
    case h_2 => rfl
  | statting | readingCert | preparing =>
    simp only [work]
    split <;> rfl
  | tagging | inserting | negating | leaving => rfl

section Returns

variable [DecidableEq ι] {cfg : Cfg} {a : Action ι} {i : ι} {s t : State ι} {sni : Sni} {k : ℕ}
  {p : Phase}

private theorem step_call (h : step cfg s a = some t) (hended : (s.threads i).ended = false) :
    t.threads i = s.threads i ∧ (∀ ok, a ≠ .advance i ok) ∨
      ((t.threads i).rank < (s.threads i).rank ∧ (t.threads i).call = (s.threads i).call) := by
  have hother : ∀ {j : ι} {q : Phase}, j ≠ i → (s.goto j q).threads i = s.threads i := by
    intro j q hj
    rw [goto_threads, if_neg (Ne.symm hj)]
  cases takes_of_step h with
  | @resolve j _ ended | @reloadSni j _ ended =>
    refine .inl ⟨hother ?_, by simp⟩
    rintro rfl
    rw [hended] at ended
    cases ended
  | @advance j ok e q does =>
    rw [goto_threads, on_threads]
    by_cases hj : i = j
    · subst hj
      rw [if_pos rfl]
      exact .inr does.nearer
    · rw [if_neg hj]
      exact .inl ⟨rfl, by simp [Ne.symm hj]⟩
  | @answer j sni reply asking =>
    rw [goto_threads]
    by_cases hj : i = j
    · subst hj
      rw [if_pos rfl, asking]
      exact .inr (answered_nearer sni reply)
    · rw [if_neg hj]
      exact .inl ⟨rfl, by simp⟩
  | issue | writeCert | writeKey | exit | tick => exact .inl ⟨rfl, by simp⟩

private theorem step_holder (h : step cfg s a = some t) (hholder : s.holder sni = some i) :
    t.holder sni = some i ∨ t.holder sni = none := by
  cases takes_of_step h with
  | @advance j ok e q does =>
    cases e with
    | acquire other =>
      have hne : sni ≠ other := by
        rintro rfl
        rcases does.locking with ⟨_, heq, -, hfree, -⟩ | ⟨_, heq, -⟩ | ⟨-, hnot⟩
        · cases heq
          rw [hholder] at hfree
          cases hfree
        · cases heq
        · exact absurd rfl (hnot sni).1
      exact .inl (by simpa [State.goto, Effect.on, hne] using hholder)
    | release other =>
      by_cases hne : sni = other
      · subst hne
        exact .inr (by simp [State.goto, Effect.on])
      · exact .inl (by simpa [State.goto, Effect.on, hne] using hholder)
    | nothing | remember | spawn => exact .inl hholder
  | resolve | reloadSni | answer | issue | writeCert | writeKey | exit | tick =>
    exact .inl hholder

/-- Every thread that can go on again and again does, which for a lock means that no waiting
thread is passed over for ever. -/
def Fair (r : Trace (@step ι _ cfg)) : Prop :=
  ∀ i, StronglyFair r fun a => ∃ ok, a = .advance i ok

/-- Every call of the authorizer returns. -/
def Answers (r : Trace (@step ι _ cfg)) : Prop :=
  ∀ k i sni, (r.state k).threads i = .asking sni →
    ∃ m, k ≤ m ∧ (r.state m).threads i ≠ .asking sni

/-- Every issuer run that a call waits for exits. -/
def Issues (r : Trace (@step ι _ cfg)) : Prop :=
  ∀ k i sni n, (r.state k).threads i = .minting sni n →
    ∃ m other success, k ≤ m ∧ (r.state m).runs n = some (other, .exited success)

variable {r : Trace (@step ι _ cfg)}

private theorem nearer_of_moved (hended : ((r.state k).threads i).ended = false)
    (hmoved : ∃ m, k ≤ m ∧ (r.state m).threads i ≠ (r.state k).threads i) :
    ∃ m, k ≤ m ∧ ((r.state m).threads i).rank < ((r.state k).threads i).rank ∧
      ((r.state m).threads i).call = ((r.state k).threads i).call := by
  by_contra hnever
  obtain ⟨m, hm, hne⟩ := hmoved
  refine hne ?_
  clear hne
  induction m, hm using Nat.le_induction with
  | base => rfl
  | succ m hm ih =>
    have hstep := step_call (r.next m) (i := i) (by rw [ih]; exact hended)
    rw [ih] at hstep
    rcases hstep with ⟨hsame, -⟩ | hnearer
    · exact hsame
    · exact absurd ⟨m + 1, hm.trans m.le_succ, hnearer⟩ hnever

private theorem Phase.of_isAsking (h : p.isAsking = true) : ∃ sni, p = .asking sni := by
  cases p with
  | asking sni => exact ⟨sni, rfl⟩
  | _ => cases h

private theorem Phase.issuing_of_wants (h : p.wants = some sni) : p.issuing = none := by
  cases p with
  | minting => cases h
  | _ => rfl

private theorem Phase.of_issuing {n : ℕ} (h : p.issuing = some n) : ∃ sni, p = .minting sni n := by
  cases p with
  | minting sni m =>
    cases h
    exact ⟨sni, rfl⟩
  | _ => cases h

/-- A call that stays where it is, waiting neither for the authorizer nor for a lock that is
not free again and again, can go on again and again. -/
theorem enabled_again (issues : Issues r) (hstays : ∀ m, k ≤ m → (r.state m).threads i = p)
    (hended : p.ended = false) (hasking : p.isAsking = false)
    (hfree : ∀ sni ∈ p.wants, ∀ n, ∃ m, n ≤ m ∧ (r.state m).holder sni = none) (n : ℕ) :
    ∃ m, n ≤ m ∧ (step cfg (r.state m) (.advance i true)).isSome := by
  obtain ⟨m, hm, hwants, hissuing⟩ : ∃ m, max n k ≤ m ∧
      (∀ sni ∈ p.wants, (r.state m).holder sni = none) ∧
      ∀ l ∈ p.issuing, ∃ sni success, (r.state m).runs l = some (sni, .exited success) := by
    cases hw : p.wants with
    | some sni =>
      obtain ⟨m, hm, hnone⟩ := hfree sni hw (max n k)
      refine ⟨m, hm, ?_, ?_⟩
      · rintro other ⟨⟩
        exact hnone
      · rw [Phase.issuing_of_wants hw]
        rintro l ⟨⟩
    | none =>
      cases hi : p.issuing with
      | some l =>
        obtain ⟨sni, hminting⟩ := Phase.of_issuing hi
        obtain ⟨m, other, success, hm, hruns⟩ := issues (max n k) i sni l
          ((hstays _ (le_max_right n k)).trans hminting)
        refine ⟨m, hm, ?_, ?_⟩
        · rintro other ⟨⟩
        · rintro l ⟨⟩
          exact ⟨other, success, hruns⟩
      | none =>
        refine ⟨max n k, le_rfl, ?_, ?_⟩
        · rintro sni ⟨⟩
        · rintro l ⟨⟩
  refine ⟨m, (le_max_left n k).trans hm, ?_⟩
  have hphase : (r.state m).threads i = p := hstays m ((le_max_right n k).trans hm)
  rw [step, advance, hphase, Option.isSome_map]
  exact work_isSome hended hasking hwants hissuing

private theorem goes_on (fair : Fair r) (answers : Answers r) (issues : Issues r)
    (hended : ((r.state k).threads i).ended = false)
    (hfree : ∀ sni ∈ ((r.state k).threads i).wants,
      ∀ n, ∃ m, n ≤ m ∧ (r.state m).holder sni = none) :
    ∃ m, k ≤ m ∧ ((r.state m).threads i).rank < ((r.state k).threads i).rank ∧
      ((r.state m).threads i).call = ((r.state k).threads i).call := by
  apply nearer_of_moved hended
  by_contra hstays
  have hstays : ∀ m, k ≤ m → (r.state m).threads i = (r.state k).threads i := by
    intro m hm
    by_contra hne
    exact hstays ⟨m, hm, hne⟩
  cases hasking : ((r.state k).threads i).isAsking with
  | true =>
    obtain ⟨sni, hsni⟩ := Phase.of_isAsking hasking
    obtain ⟨m, hm, hne⟩ := answers k i sni hsni
    exact hne ((hstays m hm).trans hsni)
  | false =>
    have henabled : ∀ n, ∃ m, n ≤ m ∧ ∃ a, (∃ ok, a = Action.advance i ok) ∧
        (step cfg (r.state m) a).isSome := by
      intro n
      obtain ⟨m, hm, hsome⟩ := enabled_again issues hstays hended hasking hfree n
      exact ⟨m, hm, _, ⟨true, rfl⟩, hsome⟩
    -- The step it then takes does move it.
    obtain ⟨m, hm, ok, hact⟩ := fair i henabled k
    have hmoves := step_call (r.next m) (i := i) (by rw [hstays m hm]; exact hended)
    rcases hmoves with ⟨-, hnot⟩ | ⟨hlower, -⟩
    · exact hnot ok hact
    · rw [hstays m hm, hstays (m + 1) (hm.trans m.le_succ)] at hlower
      exact lt_irrefl _ hlower

private theorem Phase.of_held (h : p.held = some sni) (hself : p.selfWaits = false) :
    p.ended = false ∧ p.wants = none := by
  cases p with
  | idle | locking | returned => cases h
  | awaiting other locked purpose =>
    cases locked with
    | false => cases h
    | true => cases hself
  | _ => exact ⟨rfl, rfl⟩

private theorem gives_up (orderly : ∀ k, Orderly (r.state k)) (fair : Fair r) (answers : Answers r)
    (issues : Issues r) (h : (r.state k).holder sni = some i) :
    ∃ m, k ≤ m ∧ (r.state m).holder sni ≠ some i := by
  refine eventually_of_rank r (fun s => (s.threads i).held = some sni)
    (fun s => s.holder sni ≠ some i) (fun s => (s.threads i).rank) ?_
    (((orderly k).locked sni i).mp h)
  intro k hheld
  obtain ⟨hended, hwants⟩ := Phase.of_held hheld ((orderly k).others i)
  obtain ⟨m, hm, hlower, -⟩ := goes_on fair answers issues hended (by rw [hwants]; rintro _ ⟨⟩)
  refine ⟨m, hm, ?_⟩
  by_cases hstill : ((r.state m).threads i).held = some sni
  · exact .inr ⟨hstill, hlower⟩
  · exact .inl fun hholder => hstill (((orderly m).locked sni i).mp hholder)

private theorem Phase.of_ended (h : p.ended = true) (hcall : p.call = some sni) :
    ∃ outcome, p = .returned sni outcome := by
  cases p with
  | idle => cases hcall
  | returned other outcome =>
    cases hcall
    exact ⟨outcome, rfl⟩
  | _ => cases h

private theorem call_returns (orderly : ∀ k, Orderly (r.state k)) (fair : Fair r)
    (answers : Answers r)
    (issues : Issues r) (hcall : ((r.state k).threads i).call = some sni) :
    ∃ m, k ≤ m ∧ ∃ outcome, (r.state m).threads i = .returned sni outcome := by
  refine eventually_of_rank r (fun s => (s.threads i).call = some sni)
    (fun s => ∃ outcome, s.threads i = .returned sni outcome) (fun s => (s.threads i).rank) ?_
    hcall
  intro k hcall
  cases hended : ((r.state k).threads i).ended with
  | true => exact ⟨k, le_rfl, .inl (Phase.of_ended hended hcall)⟩
  | false =>
    obtain ⟨m, hm, hlower, hsame⟩ := goes_on fair answers issues hended fun other _ n =>
      free_again r (fun s => s.holder other) (fun k _ h => step_holder (r.next k) h)
        (fun k _ h => gives_up orderly fair answers issues h) n
    exact ⟨m, hm, .inr ⟨hsame.trans hcall, hlower⟩⟩

/-- Where no stat under an SNI's lock finds the disk newer, no thread asks for a lock it
holds; and where threads and locks are fair and every call of the authorizer and of the issuer
returns, every call of `resolve` returns. Every finite run is the beginning of such a run. -/
theorem resolve_waits_for_others (cfg : Cfg) (left : Sni → Option (Bytes × Bytes × ℕ))
    (r : Trace (@step ι _ cfg)) (hstart : r.state 0 = start ι left)
    (calm : ∀ k, Calm (r.state k) (r.act k)) :
    (∀ k i sni, ((r.state k).threads i).wants = some sni → (r.state k).holder sni ≠ some i) ∧
    (Fair r → Answers r → Issues r → ∀ k i sni, r.act k = .resolve i sni →
      ∃ m outcome, k < m ∧ (r.state m).threads i = .returned sni outcome) := by
  have orderly : ∀ k, Orderly (r.state k) :=
    r.invariant Orderly.step (hstart ▸ Orderly.start left) calm
  refine ⟨fun k i sni => (orderly k).wants, ?_⟩
  intro fair answers issues k i sni hact
  have hcall : ((r.state (k + 1)).threads i).call = some sni := by
    have htakes := takes_of_step (r.next k)
    rw [hact] at htakes
    generalize r.state (k + 1) = t at htakes ⊢
    cases htakes
    rw [goto_threads, if_pos rfl, resolve]
    split <;> rfl
  obtain ⟨m, hm, outcome, hreturned⟩ := call_returns orderly fair answers issues hcall
  exact ⟨m, outcome, hm, hreturned⟩

private theorem self_wait_stays {purpose : Purpose} (hs : Locked s)
    (hwait : s.threads i = .awaiting sni true purpose) (h : step cfg s a = some t) :
    t.threads i = .awaiting sni true purpose := by
  have hholder : s.holder sni = some i := (hs sni i).mpr (by rw [hwait]; rfl)
  have hended : (s.threads i).ended = false := by rw [hwait]; rfl
  cases takes_of_step h with
  | @resolve j _ ended | @reloadSni j _ ended =>
    have hne : i ≠ j := by
      rintro rfl
      rw [hended] at ended
      cases ended
    rwa [goto_threads, if_neg hne]
  | @advance j _ _ _ does =>
    have hne : i ≠ j := by
      rintro rfl
      rw [hwait] at does
      cases does with
      | reloads free =>
        rw [hholder] at free
        cases free
    rwa [goto_threads, if_neg hne, on_threads]
  | @answer j _ _ asking =>
    have hne : i ≠ j := by
      rintro rfl
      rw [hwait] at asking
      cases asking
    rwa [goto_threads, if_neg hne]
  | issue | writeCert | writeKey | exit | tick => exact hwait

private theorem self_wait_forever {acts : List (Action ι)} {purpose : Purpose} (hs : Locked s)
    (hwait : s.threads i = .awaiting sni true purpose) (h : run (step cfg) s acts = some t) :
    t.threads i = .awaiting sni true purpose := by
  have hkeep : ∀ {u v : State ι} {a : Action ι},
      Locked u ∧ u.threads i = .awaiting sni true purpose → step cfg u a = some v →
      Locked v ∧ v.threads i = .awaiting sni true purpose := by
    rintro u v a ⟨hlocked, hwait⟩ hstep
    exact ⟨hlocked.step hstep, self_wait_stays hlocked hwait hstep⟩
  exact (invariant_of_step hkeep ⟨hs, hwait⟩ h).2

end Returns

def asksFirst : Cfg := ⟨true, true, 300⟩

/-- A single thread whose `resolve` asks the authorizer and mints. -/
def mintsOnce : List (Action Unit) :=
  [.resolve () [97], .advance () true, .advance () true, .advance () true,
    .answer () (some true), .advance () true, .advance () true, .writeCert 1 [49],
    .writeKey 1 (scalar 1) 20, .exit 1 true, .advance () true, .advance () true,
    .advance () true, .advance () true, .advance () true, .advance () true]

theorem mintsOnce_returns :
    ∃ r : Trace (@step Unit _ asksFirst), r.state 0 = start Unit (fun _ => none) ∧
      r.act 0 = .resolve () [97] ∧
      ∃ m outcome, 0 < m ∧ (r.state m).threads () = .returned [97] outcome := by
  obtain ⟨t, hrun, hnext, hphase⟩ : ∃ t, run (@step Unit _ asksFirst)
      (start Unit fun _ => none) mintsOnce = some t ∧
      t.runs 1 = some ([97], .exited true) ∧
      t.threads () = .returned [97] (.serve ⟨⟨[49], 1⟩, ⟨scalar 1, 1⟩⟩) := ⟨_, rfl, rfl, rfl⟩
  have allowed : Meets (@step Unit _ asksFirst)
      (fun s a => Calm s a ∧ ∀ n ∈ (s.threads ()).issuing, n = 1)
      (start Unit fun _ => none) mintsOnce := by decide +kernel
  have hstill : step asksFirst t (.tick 0) = some t := rfl
  obtain ⟨r, hstart, hok, hacts, hend⟩ := exists_settling hrun allowed hstill
    ⟨trivial, by rw [hphase]; rintro _ ⟨⟩⟩
  have hact : r.act 0 = .resolve () [97] := hacts 0 _ rfl
  have fair : Fair r := by
    intro i
    apply StronglyFair.of_still hend
    rintro a ⟨ok, rfl⟩
    simp [step, advance, hphase, work]
  have answers : Answers r := by
    intro k i sni _
    refine ⟨max k mintsOnce.length, le_max_left _ _, ?_⟩
    rw [hend _ (le_max_right _ _), hphase]
    exact Phase.noConfusion
  have issues : Issues r := by
    intro k i sni n hminting
    obtain rfl : n = 1 := (hok k).2 n (by rw [hminting]; rfl)
    refine ⟨max k mintsOnce.length, [97], true, le_max_left _ _, ?_⟩
    rw [hend _ (le_max_right _ _), hnext]
  exact ⟨r, hstart, hact, (resolve_waits_for_others _ _ r hstart fun k => (hok k).1).2 fair
    answers issues 0 () [97] hact⟩

/-- One thread misses the cache; another loads the leaf and gives up the lock; the first takes
it; an issuer renews the leaf; and the first finds the leaf in the cache and the disk newer. -/
def renewedUnderLock : List (Action ℕ) :=
  ([.resolve 0 [97], .advance 0 true, .resolve 1 [97], .advance 1 true, .advance 1 true,
    .advance 1 true, .advance 1 true, .advance 1 true, .advance 1 true, .advance 1 true,
    .advance 1 true, .advance 0 true] : List (Action ℕ)) ++ renewal ++
    ([.advance 0 true, .advance 0 true] : List (Action ℕ))

/-- The first thread then asks for the lock it holds, and never returns. -/
theorem renewedUnderLock_waits :
    ∃ s, run (step allowAll) (start ℕ oldLeaf) renewedUnderLock = some s ∧
      (s.threads 0).wants = some [97] ∧ s.holder [97] = some 0 ∧
      ∀ acts t, run (step allowAll) s acts = some t → ∀ sni outcome,
        t.threads 0 ≠ .returned sni outcome := by
  obtain ⟨s, hrun, hphase, hholder⟩ : ∃ s,
      run (step allowAll) (start ℕ oldLeaf) renewedUnderLock = some s ∧
      s.threads 0 = .awaiting [97] true (.refresh ⟨⟨[48], 0⟩, ⟨scalar 0, 0⟩⟩) ∧
      s.holder [97] = some 0 := ⟨_, rfl, rfl, rfl⟩
  refine ⟨s, hrun, by rw [hphase]; rfl, hholder, ?_⟩
  intro acts t hacts sni outcome hreturned
  have hlocked : Locked s := invariant_of_step Locked.step (Locked.start oldLeaf) hrun
  rw [self_wait_forever hlocked hphase hacts] at hreturned
  cases hreturned

end DragonsNet.Dataplane.LeafFiles
