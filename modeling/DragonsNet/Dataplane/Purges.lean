/- GID: DragonsNet/Dataplane/Purges
   source: migration/dataplane/host/src/interp.rs, migration/dataplane/host/src/admin.rs
   digest: What a purge of the response cache takes out of it for good. -/

import DragonsNet.Dataplane.EffectServe

set_option autoImplicit false

namespace DragonsNet.Dataplane.EffectServe

open Cache (Bytes)
open CacheSeam (Hot Lookup Probe Looks looks_of_lookup)
open Lib.Runs (run invariant_of_step unique_update)

variable {ι : Type} [DecidableEq ι] {r : Request} {s : State ι} {i : ι} {cfg : Config}
  {hot : Hot (Option ℕ)} {results : List Bytes}

def Request.number? : Request → Option ℕ
  | .storing _ _ _ number _ _ => some number
  | _ => none

/-- What holds of a thread: a lookup has the stores banned when it began before it, and what it
waits for was not published by one of them; a store in progress is not completed; what a purge has
cleared has not come back. -/
def Request.Clean (s : State ι) : Request → Prop
  | .looking _ stage ban _ => (∀ o ∈ ban, o ∈ s.banned) ∧
      ∀ flight, stage = .waiting flight → ∀ resp o, s.hot.done flight = some (resp, some o) → o ∉ ban
  | .storing _ _ _ number _ _ => number < s.stores ∧ number ∉ s.completed
  | .purging before => ∀ o ∈ before, o ∈ s.completed
  | .purged before => (∀ o ∈ before, o ∈ s.completed) ∧
      ∀ key e, s.hot.store key = some e → ∀ o ∈ before, e.origin ≠ some o
  | .promoting _ _ _ _ _ | .refilling _ _ _ _ _ _ _ _ | .putting _ _ _ => False
  | _ => True

structure Inv (s : State ι) : Prop where
  sound : s.hot.Sound
  clean : ∀ i, (s.requests i).Clean s
  distinct : ∀ i j n, (s.requests i).number? = some n → (s.requests j).number? = some n → i = j
  completed_lt : ∀ n ∈ s.completed, n < s.stores
  banned_completed : ∀ o ∈ s.banned, o ∈ s.completed
  entries : ∀ key e, s.hot.store key = some e → ∀ o ∈ s.banned, e.origin ≠ some o
  answers : ∀ a ∈ s.answers, ∀ o ∈ a.ban, a.origin ≠ some o

omit [DecidableEq ι] in
theorem start_inv : Inv (start : State ι) where
  sound := Hot.sound_cold
  clean := fun _ => trivial
  distinct := fun _ _ _ h => by cases h
  completed_lt := fun _ h => absurd h List.not_mem_nil
  banned_completed := fun _ h => absurd h List.not_mem_nil
  entries := fun _ _ h => by cases h
  answers := fun _ h => absurd h List.not_mem_nil

/-- How a step may change what the threads rely on: what is new in the store or published comes from
a store that is not completed. -/
structure Grows (s t : State ι) : Prop where
  banned : ∀ o ∈ s.banned, o ∈ t.banned
  stores : s.stores ≤ t.stores
  completed : ∀ o ∈ s.completed, o ∈ t.completed
  done : ∀ flight resp o, t.hot.done flight = some (resp, some o) →
    s.hot.done flight = some (resp, some o) ∨ o ∉ s.completed
  store : ∀ key e, t.hot.store key = some e →
    s.hot.store key = some e ∨ ∀ o ∈ s.completed, e.origin ≠ some o

omit [DecidableEq ι] in
theorem Request.Clean.number {n : ℕ} (h : r.Clean s) (hn : r.number? = some n) :
    n < s.stores ∧ n ∉ s.completed := by
  cases r with
  | storing key resp lifetime number inserted results =>
    cases hn
    exact h
  | _ => cases hn

omit [DecidableEq ι] in
theorem Request.Clean.frame {s t : State ι} (h : r.Clean s) (hgrows : Grows s t)
    (hbanned : ∀ o ∈ s.banned, o ∈ s.completed)
    (hrunning : ∀ n, r.number? = some n → n ∉ t.completed) : r.Clean t := by
  cases r with
  | looking key stage ban results =>
    refine ⟨fun o ho => hgrows.banned o (h.1 o ho), fun flight hstage resp o hdone ho => ?_⟩
    rcases hgrows.done flight resp o hdone with hold | hnew
    · exact h.2 flight hstage resp o hold ho
    · exact hnew (hbanned o (h.1 o ho))
  | storing key resp lifetime number inserted results =>
    exact ⟨h.1.trans_le hgrows.stores, hrunning number rfl⟩
  | purging before => exact fun o ho => hgrows.completed o (h o ho)
  | purged before =>
    refine ⟨fun o ho => hgrows.completed o (h.1 o ho), fun key e he o ho => ?_⟩
    rcases hgrows.store key e he with hold | hnew
    · exact h.2 key e hold o ho
    · exact hnew o (h.1 o ho)
  | _ => exact h

theorem Inv.move {s t : State ι} (h : Inv s) (hgrows : Grows s t)
    (hrequests : t.requests = Function.update s.requests i r) (hsound : t.hot.Sound)
    (hclean : r.Clean t)
    (hnumber : ∀ n, r.number? = some n →
      (s.requests i).number? = some n ∨ ∀ j, (s.requests j).number? ≠ some n)
    (hrunning : ∀ n ∈ t.completed, n ∈ s.completed ∨ (s.requests i).number? = some n)
    (hlt : ∀ n ∈ t.completed, n < t.stores) (hbanned : ∀ o ∈ t.banned, o ∈ t.completed)
    (hentries : ∀ key e, t.hot.store key = some e → ∀ o ∈ t.banned, e.origin ≠ some o)
    (hanswers : ∀ a ∈ t.answers, ∀ o ∈ a.ban, a.origin ≠ some o) : Inv t := by
  have hself : t.requests i = r := by rw [hrequests, Function.update_self]
  have hother : ∀ j, j ≠ i → t.requests j = s.requests j := fun j hj => by
    rw [hrequests, Function.update_of_ne hj]
  refine ⟨hsound, fun j => ?_, ?_, hlt, hbanned, hentries, hanswers⟩
  · by_cases hji : j = i
    · rw [hji, hself]
      exact hclean
    · rw [hother j hji]
      refine (h.clean j).frame hgrows h.banned_completed fun n hn hmem => ?_
      rcases hrunning n hmem with hold | hi
      · exact ((h.clean j).number hn).2 hold
      · exact hji (h.distinct j i n hn hi)
  · rw [hrequests]
    exact unique_update Request.number? h.distinct hnumber

theorem Inv.think {s t : State ι} (h : Inv s)
    (hrequests : t.requests = Function.update s.requests i r) (hsound : t.hot.Sound)
    (hstore : ∀ key e, t.hot.store key = some e → s.hot.store key = some e)
    (hdone : t.hot.done = s.hot.done) (hstores : t.stores = s.stores)
    (hcompleted : t.completed = s.completed) (hbanned : t.banned = s.banned)
    (hanswers : ∀ a ∈ t.answers, ∀ o ∈ a.ban, a.origin ≠ some o) (hclean : r.Clean t)
    (hnumber : r.number? = none) : Inv t := by
  have hgrows : Grows s t := by
    refine ⟨fun o ho => hbanned ▸ ho, hstores.ge, fun o ho => hcompleted ▸ ho,
      fun flight resp o hd => .inl (hdone ▸ hd), fun key e he => .inl (hstore key e he)⟩
  refine h.move hgrows hrequests hsound hclean (fun n hn => ?_) (fun n hn => .inl (hcompleted ▸ hn))
    (fun n hn => ?_) (fun o ho => ?_) (fun key e he o ho => ?_) hanswers
  · rw [hnumber] at hn
    cases hn
  · rw [hstores]
    exact h.completed_lt n (hcompleted ▸ hn)
  · rw [hcompleted]
    exact h.banned_completed o (hbanned ▸ ho)
  · exact h.entries key e (hstore key e he) o (hbanned ▸ ho)

omit [DecidableEq ι] in
theorem Inv.record (h : Inv s) {ban : List ℕ} {origin : Option ℕ}
    (hnew : ∀ o ∈ ban, origin ≠ some o) :
    ∀ a ∈ (⟨ban, origin⟩ :: s.answers : List Answer), ∀ o ∈ a.ban, a.origin ≠ some o :=
  List.forall_mem_cons.mpr ⟨hnew, h.answers⟩

theorem looked_inv (hcfg : cfg.diskEnabled = false) (h : Inv s) {key : Bytes} {stage : Lookup}
    {timedOut : Bool} {wall : UInt64} {ban : List ℕ} {r : Lookup ⊕ Probe (Option ℕ)}
    (hi : s.requests i = .looking key stage ban results)
    (hlooks : Looks s.hot s.now key true timedOut stage hot r) :
    Inv (looked cfg s i key stage wall ban results hot r) := by
  obtain ⟨hban, hwait⟩ : (Request.looking key stage ban results).Clean s := hi ▸ h.clean i
  have hmissed : missed cfg key wall ban results = .asking (results ++ [[]]) := by
    rw [missed, hcfg]
    rfl
  have hdrop : ∀ key' e, (s.hot.drop key).store key' = some e → s.hot.store key' = some e := by
    intro key' e he
    simp only [Hot.drop, Function.update_apply] at he
    split at he
    · cases he
    · exact he
  cases hlooks with
  | hit e hstage he hfresh =>
    refine h.think rfl h.sound (fun _ _ he => he) rfl rfl rfl rfl (h.record fun o ho => ?_) trivial rfl
    exact h.entries key e he o (hban o ho)
  | miss hmiss =>
    have hclean : ∀ flight, Lookup.electing = .waiting flight → ∀ resp o,
        s.hot.done flight = some (resp, some o) → o ∉ ban := fun _ hstage => by cases hstage
    cases hmiss with
    | absent habsent =>
      exact h.think rfl h.sound (fun _ _ he => he) rfl rfl rfl rfl h.answers ⟨hban, hclean⟩ rfl
    | stale e he hold =>
      exact h.think rfl (h.sound.of_eq rfl rfl rfl) hdrop rfl rfl rfl rfl h.answers ⟨hban, hclean⟩ rfl
  | remiss hmiss =>
    cases hmiss with
    | absent habsent =>
      exact h.think rfl h.sound (fun _ _ he => he) rfl rfl rfl rfl h.answers
        (by rw [hmissed]; trivial) (by rw [hmissed]; rfl)
    | stale e he hold =>
      exact h.think rfl (h.sound.of_eq rfl rfl rfl) hdrop rfl rfl rfl rfl h.answers
        (by rw [hmissed]; trivial) (by rw [hmissed]; rfl)
  | join flight hflight hblocking =>
    refine h.think rfl h.sound (fun _ _ he => he) rfl rfl rfl rfl h.answers
      ⟨hban, fun flight' hstage resp o hdone => ?_⟩ rfl
    cases hstage
    have hundone : s.hot.done flight = none := h.sound.undone hflight
    cases hundone.symm.trans hdone
  | report flight hflight hblocking => cases hblocking
  | lead hnone =>
    exact h.think rfl (h.sound.mark key) (fun _ _ he => he) rfl rfl rfl rfl h.answers
      (by rw [hmissed]; trivial) (by rw [hmissed]; rfl)
  | wake flight resp origin hdone =>
    refine h.think rfl h.sound (fun _ _ he => he) rfl rfl rfl rfl (h.record fun o ho => ?_) trivial rfl
    rintro rfl
    exact hwait flight rfl resp o hdone ho
  | timeOut flight hdone htime =>
    exact h.think rfl h.sound (fun _ _ he => he) rfl rfl rfl rfl h.answers
      ⟨hban, fun _ hstage => by cases hstage⟩ rfl

omit [DecidableEq ι] in
private theorem Inv.number_ne (h : Inv s) {n : ℕ} (hn : (s.requests i).number? = some n) :
    ∀ o ∈ s.completed, some n ≠ some o := by
  rintro o ho heq
  exact ((h.clean i).number hn).2 (Option.some.inj heq ▸ ho)

private theorem insert_origin {now lifetime : ℕ} {key key' resp : Bytes} {origin : Option ℕ}
    {e : CacheSeam.Entry (Option ℕ)}
    (he : (hot.insert now key resp lifetime origin).store key' = some e) :
    hot.store key' = some e ∨ e.origin = origin := by
  rw [Hot.insert] at he
  split at he
  · simp only [Function.update_apply] at he
    split at he
    · cases he
      exact .inr rfl
    · exact .inl he
  · exact .inl he

theorem insert_inv (h : Inv s) {key resp : Bytes} {lifetime number : ℕ} {inserted : Bool}
    (hi : s.requests i = .storing key resp lifetime number inserted results) :
    Inv { s.set i (.storing key resp lifetime number true results) with
      hot := s.hot.insert s.now key resp lifetime (some number) } := by
  have hnumber : (s.requests i).number? = some number := by rw [hi]; rfl
  have hclean := (h.clean i).number hnumber
  have hfresh := h.number_ne hnumber
  obtain ⟨-, hdone, -⟩ := Hot.insert_inflight s.hot s.now key resp lifetime (some number)
  refine h.move ⟨fun _ ho => ho, le_rfl, fun _ ho => ho, fun _ _ _ hd => .inl (hdone ▸ hd),
    fun key' e he => ?_⟩ rfl (h.sound.insert ..) hclean
    (fun n hn => .inl (hnumber.trans hn)) (fun _ hn => .inl hn) h.completed_lt h.banned_completed
    (fun key' e he o ho => ?_) h.answers
  · refine (insert_origin he).imp_right fun horigin o ho => ?_
    rw [horigin]
    exact hfresh o ho
  · rcases insert_origin he with hold | horigin
    · exact h.entries key' e hold o ho
    · rw [horigin]
      exact hfresh o (h.banned_completed o ho)

theorem publish_inv (h : Inv s) {key resp : Bytes} {lifetime number : ℕ} {inserted : Bool}
    (hi : s.requests i = .storing key resp lifetime number inserted results) :
    Inv { s.set i (.asking (results ++ [[]])) with
      hot := s.hot.publish key resp (some number)
      elected := s.settled i key
      completed := number :: s.completed } := by
  have hnumber : (s.requests i).number? = some number := by rw [hi]; rfl
  obtain ⟨hlt, hnew⟩ := (h.clean i).number hnumber
  obtain ⟨-, hstore⟩ := Hot.publish_flights s.hot key resp (some number)
  refine h.move ⟨fun _ ho => ho, le_rfl, fun _ ho => List.mem_cons_of_mem _ ho,
    fun flight resp' o hd => ?_, fun key' e he => .inl (hstore ▸ he)⟩ rfl (h.sound.publish ..)
    trivial (fun _ hn => by cases hn) (fun n hn => ?_) (fun n hn => ?_)
    (fun o ho => List.mem_cons_of_mem _ (h.banned_completed o ho))
    (fun key' e he => h.entries key' e (hstore ▸ he)) h.answers
  · rw [Hot.publish_done h.sound] at hd
    split at hd
    · cases hd
      exact .inr hnew
    · exact .inl hd
  · rcases List.mem_cons.mp hn with rfl | hold
    · exact .inr hnumber
    · exact .inl hold
  · rcases List.mem_cons.mp hn with rfl | hold
    · exact hlt
    · exact h.completed_lt n hold

theorem clear_inv (h : Inv s) {before : List ℕ} (hi : s.requests i = .purging before) :
    Inv { s.set i (.purged before) with hot := s.hot.purgeAll } := by
  have hbefore : (Request.purging before).Clean s := hi ▸ h.clean i
  exact h.think rfl (h.sound.of_eq rfl rfl rfl) (fun _ _ he => by cases he) rfl rfl rfl rfl h.answers
    ⟨hbefore, fun _ _ he => by cases he⟩ rfl

theorem ban_inv (h : Inv s) {before : List ℕ} (hi : s.requests i = .purged before) :
    Inv { s.set i .purgeReturned with banned := before ++ s.banned } := by
  obtain ⟨hbefore, hcleared⟩ : (Request.purged before).Clean s := hi ▸ h.clean i
  refine h.move ⟨fun _ ho => List.mem_append_right _ ho, le_rfl, fun _ ho => ho,
    fun _ _ _ hd => .inl hd, fun _ _ he => .inl he⟩ rfl h.sound trivial (fun _ hn => by cases hn)
    (fun _ hn => .inl hn) h.completed_lt (fun o ho => ?_) (fun key e he o ho => ?_) h.answers
  · exact (List.mem_append.mp ho).elim (hbefore o) (h.banned_completed o)
  · exact (List.mem_append.mp ho).elim (hcleared key e he o) (h.entries key e he o)

theorem go_inv (hcfg : cfg.diskEnabled = false) {s t : State ι} (h : Inv s) {timedOut : Bool}
    {wall : UInt64} (hgo : go cfg s i timedOut wall = some t) : Inv t := by
  have hclean := h.clean i
  rw [go] at hgo
  cases hi : s.requests i with
  | looking key stage ban results =>
    rw [hi] at hgo
    obtain ⟨⟨hot, r⟩, hlookup, rfl⟩ := Option.map_eq_some_iff.mp hgo
    exact looked_inv hcfg h hi (looks_of_lookup hlookup)
  | storing key resp lifetime number inserted results =>
    rw [hi] at hgo
    cases inserted with
    | false =>
      cases hgo
      exact insert_inv h hi
    | true =>
      cases hgo
      rw [published, hcfg]
      exact publish_inv h hi
  | purging before =>
    rw [hi] at hgo
    cases hgo
    exact clear_inv h hi
  | purged before =>
    rw [hi] at hgo
    cases hgo
    exact ban_inv h hi
  | promoting key wall disk ban results
  | refilling key body age remaining origin inserted ban results | putting disk number results =>
    rw [hi] at hclean
    exact hclean.elim
  | _ =>
    rw [hi] at hgo
    cases hgo

omit [DecidableEq ι] in
private theorem no_disk (h : Inv s) {disk : DiskCache.Phase}
    (hdisk : (s.requests i).disk? = some disk) :
    False := by
  have hclean := h.clean i
  cases hr : s.requests i with
  | promoting key wall disk ban results | putting disk number results =>
    rw [hr] at hclean
    exact hclean.elim
  | _ =>
    rw [hr] at hdisk
    cases hdisk

theorem Inv.set (h : Inv s) (hclean : r.Clean s) (hnumber : r.number? = none) :
    Inv (s.set i r) := by
  refine h.think rfl h.sound (fun _ _ he => he) rfl rfl rfl rfl h.answers ?_ hnumber
  cases r <;> exact hclean

theorem answered_inv (h : Inv s) {reply : Option Bytes} : Inv (answered cfg s i results reply) := by
  rw [answered]
  split
  · exact h.set trivial rfl
  · exact h.set trivial rfl
  · split
    · exact h.set trivial rfl
    · exact h.set trivial rfl
  · exact h.set ⟨fun _ ho => ho, fun _ hstage => by cases hstage⟩ rfl
  · have hnew : s.stores ∉ s.completed := fun hmem => Nat.lt_irrefl _ (h.completed_lt _ hmem)
    refine h.move ⟨fun _ ho => ho, Nat.le_succ _, fun _ ho => ho, fun _ _ _ hd => .inl hd,
      fun _ _ he => .inl he⟩ rfl h.sound ⟨Nat.lt_succ_self _, hnew⟩ (fun n hn => .inr fun j hj => ?_)
      (fun _ hn => .inl hn) (fun n hn => Nat.lt_succ_of_lt (h.completed_lt n hn)) h.banned_completed
      h.entries h.answers
    cases hn
    exact Nat.lt_irrefl _ ((h.clean j).number hj).1
  · exact h.set trivial rfl

theorem step_inv (hcfg : cfg.diskEnabled = false) {s t : State ι} {a : Action ι} (h : Inv s)
    (hstep : step cfg s a = some t) : Inv t := by
  cases takes_of_step hstep with
  | core => exact answered_inv h
  | go goes => exact go_inv hcfg h goes
  | disk hdisk | diskFail hdisk => exact (no_disk h hdisk).elim
  | serve | upstream => exact h.set trivial rfl
  | purge => exact h.set (fun _ ho => ho) rfl
  | tick =>
    refine ⟨h.sound, fun i => ?_, h.distinct, h.completed_lt, h.banned_completed, h.entries, h.answers⟩
    have hclean := h.clean i
    dsimp only
    cases hr : s.requests i <;> rw [hr] at hclean <;> exact hclean

/-- A lookup that begins after a purge has returned is not answered with a response whose store was
completed before that purge began, where there is no disk tier. -/
theorem purge_final (cfg : Config) (hcfg : cfg.diskEnabled = false) (acts : List (Action ι))
    (s : State ι) (hrun : run (step cfg) start acts = some s) :
    ∀ a ∈ s.answers, ∀ o ∈ a.ban, a.origin ≠ some o :=
  (invariant_of_step (step_inv hcfg) start_inv hrun : Inv s).answers

/-- A store of the key by an elected request, without a disk tier. -/
def storesA (i : ℕ) : List (Action ℕ) :=
  leads i ++ [.core i (some (storeFrame 60 keyA okA)), .go i false 0, .go i false 0]

def purges (i : ℕ) : List (Action ℕ) := [.purge i, .go i false 0, .go i false 0]

theorem purged_then_stored_again : ∃ s, run (step ⟨false, false⟩) start
      (storesA 0 ++ purges 1 ++ storesA 2 ++
        [.serve 3, .core 3 (some (lookupFrame keyA)), .go 3 false 0]) = some s ∧
    s.answers = [⟨[0], some 1⟩] ∧ ∀ a ∈ s.answers, ∀ o ∈ a.ban, a.origin ≠ some o :=
  ⟨_, rfl, rfl, purge_final ⟨false, false⟩ rfl (storesA 0 ++ purges 1 ++ storesA 2 ++
    [.serve 3, .core 3 (some (lookupFrame keyA)), .go 3 false 0]) _ rfl⟩

/-- With the disk tier: the first store is put on disk, the purge clears the hot tier only, and the
next lookup promotes the purged response. -/
theorem purged_response_promoted : (run (step ⟨true, false⟩) start
      (leads 0 ++ [.diskFail 0, .go 0 false 0, .core 0 (some (storeFrame 60 keyA okA)),
          .go 0 false 0, .go 0 false 5, .disk 0 0, .disk 0 0, .disk 0 54, .disk 0 0, .go 0 false 0] ++
        purges 1 ++
        [.serve 2, .core 2 (some (lookupFrame keyA)), .go 2 false 0, .go 2 false 6, .disk 2 0,
          .go 2 false 6, .go 2 false 6, .go 2 false 6])).map (·.answers) =
    some [⟨[0], some 0⟩] := by
  decide +kernel

end DragonsNet.Dataplane.EffectServe
