/- GID: DragonsNet/News/StoreHost
   source: lean/DN/News/PostSpec.lean, lean/DN/News/SessionSpec.lean, native/jobs.c
   digest: The article store and the host's job table, each keeping to what the other relies on. -/

import DragonsNet.Lib.Runs
import DragonsNet.News.StoreCompletes
import DragonsNet.News.StorePlans

set_option autoImplicit false

namespace DragonsNet.News.StoreHost

open Lib.Runs (run invariant_of_step)
open Native.FileJobs (Table Violation takeAll give)
open Native.FileClients (Client OpenAt)
open Native.FileScripts (names)
open Native.FileAgreement (Agree Lock)
open Native.FileWorkers (took takeFrom_agree giveFrom_agree giveFrom_slots begin_agree
  run_agree finish_agree)
open PostStore StoreClients StorePlans StoreCompletes

/-- The store and the host. A violation is what the host ends the run with when it takes a job, a
fault what the store ends it with when it is given a completion. -/
structure System where
  store : Store
  table : Table
  violation : Option Violation
  fault : Option Fault

/-- What happens: the jobs of a turn are planned and taken; completions are given and taken; a worker
begins a job, runs its next operation, and ends it; and the session's connections post, read, wait
and leave. -/
inductive Action where
  | emit
  | next
  | begin_
  | run (k : ℕ) (out : Native.FileJobs.Outcome)
  | finish (k : ℕ)
  | progress (wall k : ℕ) (held : List Byte)
  | claim (owner : ℕ × ℕ) (conn : ℕ)
  | progressRead (k : ℕ)
  | claimRead (owner : ℕ × ℕ) (cmd : Cmd) (number : ℕ) (id : List Byte) (view : Option View)
  | abandon (idx gen : ℕ)
  deriving DecidableEq

def emit (R : Rules) (C : Content) (s : System) : System :=
  let planned := s.store.planAll R C
  match takeAll (planned.2.map encodeJob) s.table with
  | .ok t => { s with store := planned.1, table := t }
  | .error v => { s with store := planned.1, violation := some v }

/-- The completions `dn_jobs_give` reports, handed to `completeAll`. -/
def next (R : Rules) (C : Content) (s : System) : System :=
  let given := give s.table
  match s.store.completeAll R C (given.1.map decodeDone) with
  | .ok st => { s with store := st, table := given.2 }
  | .error f => { s with table := given.2, fault := some f }

def step (R : Rules) (C : Content) (s : System) (a : Action) : Option System :=
  if s.violation.isSome || s.fault.isSome then none
  else
    match a with
    | .emit => some (emit R C s)
    | .next => some (next R C s)
    | .begin_ => (Native.FileJobs.begin_ s.table).map fun t => { s with table := t }
    | .run k out => (Native.FileJobs.run s.table k out).map fun t => { s with table := t }
    | .finish k => (Native.FileJobs.finish s.table k).map fun t => { s with table := t }
    | .progress wall k held => some { s with store := s.store.progress R C wall k held }
    | .claim owner conn => some { s with store := s.store.claim R owner conn }
    | .progressRead k => some { s with store := s.store.progressRead R C k }
    | .claimRead owner cmd number id view =>
      some { s with store := s.store.claimRead R C owner cmd number id view }
    | .abandon idx gen => some { s with store := s.store.abandon R idx gen }

/-- The store as recovery leaves it, and the host with the journal open at place `p` and no other
file, the places' generations being `gens`. -/
def start (R : Rules) (st : Recovered) (p jobGen : ℕ) (gens : ℕ → ℕ) (written : Bool) : System where
  store := Store.start R st (p, gens p) jobGen
  table := Table.start p gens written
  violation := none
  fault := none

/-- Between the turns each client is idle or has its request with the host. -/
def Settled {R : Rules} (cs : Who R → Client) : Prop :=
  ∀ i, (∃ held, cs i = .idle held) ∨ ∃ held r, cs i = .taken held r

/-- The store and the host agree, or the run has ended at an offset past a file's last. -/
def Inv (R : Rules) (s : System) : Prop :=
  s.fault = none ∧
    ((s.violation = none ∧ ∃ cs : Who R → Client,
        Mirrors R s.store cs ∧ Agree s.store.journal cs s.table ∧ Settled cs) ∨
      s.violation = some .offset ∧ ¬ InReach s.store)

variable {R : Rules} {C : Content} {cs : Who R → Client}

private theorem Settled.not_given (h : Settled cs) (i : Who R) (held : Option (ℕ × ℕ))
    (r : Native.FileJobs.Request) (d : Native.FileJobs.Done) :
    cs i ≠ .given held r d := by
  intro hi
  obtain ⟨held', h'⟩ | ⟨held', r', h'⟩ := h i <;> rw [hi] at h' <;> cases h'

private theorem Settled.not_emitted (h : Settled cs) (i : Who R) (held : Option (ℕ × ℕ))
    (r : Native.FileJobs.Request) : cs i ≠ .emitted held r := by
  intro hi
  obtain ⟨held', h'⟩ | ⟨held', r', h'⟩ := h i <;> rw [hi] at h' <;> cases h'

theorem start_inv {st : Recovered} {p jobGen : ℕ} {gens : ℕ → ℕ} {written : Bool}
    (hp : p < Native.FileJobs.places) : Inv R (start R st p jobGen gens written) := by
  refine ⟨rfl, .inl ⟨rfl, fun _ => .idle none, ?_, ?_, fun _ => .inl ⟨none, rfl⟩⟩⟩
  · refine ⟨List.length_replicate, List.length_replicate, fun k => ?_, fun k => ?_⟩
    · have hslot : (start R st p jobGen gens written).store.slot k = none := by
        simp [start, Store.start, Store.slot]
      rw [hslot]
      rfl
    · have hread : (start R st p jobGen gens written).store.readSlot k = none := by
        simp [start, Store.start, Store.readSlot]
      rw [hread]
      rfl
  · have hfile : (start R st p jobGen gens written).table.files p =
        ⟨true, 0, false, false, written, 0, gens p⟩ := by
      simp only [start, Table.start, if_true]
    have hbusy : ((start R st p jobGen gens written).table.files p).busy = 0 := by rw [hfile]
    have hlock : Lock (names · p) (· + 1) (fun _ : Who R => .idle none)
        ((start R st p jobGen gens written).table.files p).busy := hbusy ▸ Lock.start
    refine ⟨.start fun q hq => ?_, .start, fun k hk => absurd rfl hk, hp, ?_, hlock, .start,
      List.nodup_nil, fun k hk => absurd hk List.not_mem_nil⟩
    · have hshut : (start R st p jobGen gens written).table.files q = .closed (gens q) 0 := by
        simp only [start, Table.start, if_neg (show q ≠ p from hq)]
      rw [hshut]
      exact ⟨rfl, rfl, rfl⟩
    · change OpenAt ((start R st p jobGen gens written).table.files p) (gens p)
        ((start R st p jobGen gens written).table.files p).busy
      rw [hfile]
      exact ⟨rfl, rfl, rfl, rfl, rfl⟩

/-! ## A turn's jobs -/

theorem emit_inv {s : System} (hR : Sound R) (hfault : s.fault = none)
    (hviolation : s.violation = none) (hm : Mirrors R s.store cs)
    (ha : Agree s.store.journal cs s.table) (hs : Settled cs) : Inv R (emit R C s) := by
  obtain ⟨cs', h⟩ := planAll_planned (C := C) hR hm ha
  have hcard : Fintype.card (Who R) < Native.FileJobs.places := by
    rw [Fintype.card_sum, Fintype.card_fin, Fintype.card_fin]
    exact hR.places
  have hemitted : ∀ i held r, cs' i = .emitted held r →
      ∃ j ∈ (s.store.planAll R C).2, r = encodeJob j := by
    intro i held r hi
    obtain hsame | ⟨held', j, hj, -, hj'⟩ := h.emitted i
    · exact absurd (hsame.symm.trans hi) (hs.not_emitted i held r)
    · rw [hi] at hj'
      cases hj'
      exact ⟨j, hj, rfl⟩
  have hmem : ∀ r ∈ (s.store.planAll R C).2.map encodeJob, ∃ i held, cs' i = .emitted held r := by
    intro r hr
    obtain ⟨j, hj, rfl⟩ := List.mem_map.mp hr
    exact h.started j hj
  have htake := takeFrom_agree ((s.store.planAll R C).2.map encodeJob)
    (List.range Native.FileJobs.jobs) hcard h.agree List.nodup_range
    (fun i held r d hi => ?_) (fun i held r hi => ?_) fun k _ r hr => hmem r
      (List.mem_of_find?_eq_some hr)
  · unfold emit takeAll
    dsimp only
    obtain ⟨t', ht', ha'⟩ | ⟨ht', r, hr, op, hop, hfar⟩ := htake
    · rw [ht']
      refine ⟨hfault, .inl ⟨hviolation, fun i => took (cs' i), h.mirrors.congr fun i => ?_, ?_,
        fun i => ?_⟩⟩
      · cases cs' i <;> exact ⟨rfl, rfl⟩
      · change Agree (s.store.planAll R C).1.journal _ _
        rw [h.journal]
        exact ha'
      · dsimp only
        obtain hsame | ⟨held, j, -, -, hj⟩ := h.emitted i
        · rw [hsame]
          obtain ⟨held, hi⟩ | ⟨held, r, hi⟩ := hs i
          · exact .inl ⟨held, by rw [hi]; rfl⟩
          · exact .inr ⟨held, r, by rw [hi]; rfl⟩
        · exact .inr ⟨held, encodeJob j, by rw [hj]; rfl⟩
    · rw [ht']
      obtain ⟨j, hj, rfl⟩ := List.mem_map.mp hr
      exact ⟨hfault, .inr ⟨rfl, h.far j hj op hop hfar⟩⟩
  · obtain hsame | ⟨held', j, -, -, hj⟩ := h.emitted i
    · exact hs.not_given i held r d (hsame.symm.trans hi)
    · rw [hj] at hi
      cases hi
  · obtain ⟨j, hj, rfl⟩ := hemitted i held r hi
    refine ⟨List.mem_range.mpr (h.slots j hj), ?_⟩
    -- No other request of the turn is in the slot.
    have hsome : (((s.store.planAll R C).2.map encodeJob).find?
        (·.slot == (encodeJob j).slot)).isSome = true := by
      rw [List.find?_isSome]
      exact ⟨encodeJob j, List.mem_map_of_mem hj, by simp⟩
    obtain ⟨r', hr'⟩ := Option.isSome_iff_exists.mp hsome
    obtain ⟨i', held', hi'⟩ := hmem r' (List.mem_of_find?_eq_some hr')
    have hslot : r'.slot = (encodeJob j).slot := by simpa using List.find?_some hr'
    obtain rfl := h.agree.slots i' i r' (encodeJob j) (by rw [hi']; rfl) (by rw [hi]; rfl) hslot
    rw [hi] at hi'
    cases hi'
    exact hr'

/-! ## A turn's completions -/

private theorem complete_each {st : Store} {t : Table} {ds : List Native.FileJobs.Done}
    (hm : Mirrors R st cs) (ha : Agree st.journal cs t)
    (hslots : (ds.map Native.FileJobs.Done.slot).Nodup)
    (hgiven : ∀ d ∈ ds, ∃ i held r, cs i = .given held r d)
    (honly : ∀ i, (∃ held, cs i = .idle held) ∨ (∃ held r, cs i = .taken held r) ∨
      ∃ held r, ∃ d ∈ ds, cs i = .given held r d) :
    ∃ st' cs', (ds.map decodeDone).foldlM (Store.completeAny R C) st = .ok st' ∧
      st'.journal = st.journal ∧ Mirrors R st' cs' ∧ Agree st.journal cs' t ∧ Settled cs' := by
  induction ds generalizing st cs with
  | nil =>
    refine ⟨st, cs, rfl, rfl, hm, ha, fun i => ?_⟩
    obtain hidle | htaken | ⟨held, r, d, hd, -⟩ := honly i
    · exact .inl hidle
    · exact .inr htaken
    · cases hd
  | cons d ds ih =>
    obtain ⟨hnot, hnodup⟩ := List.nodup_cons.mp hslots
    obtain ⟨i, held, r, hi⟩ := hgiven d List.mem_cons_self
    obtain ⟨st₁, hst₁, hjournal, hm₁⟩ := completeAny_taken (C := C) hm ha hi
    have ha₁ := ha.complete hi
    have hslot : ∀ {i held r d}, cs i = .given held r d → d.slot = r.slot := by
      intro i held r d hi
      have hfits := ha.places.fits i
      rw [hi] at hfits
      exact hfits.2.2.1.slot
    have hne : ∀ d' ∈ ds, ∀ i' held' r', cs i' = .given held' r' d' → i' ≠ i := by
      rintro d' hd' i' held' r' hi' rfl
      rw [hi] at hi'
      cases hi'
      exact hnot (List.mem_map_of_mem hd')
    have hrest := ih hm₁ (hjournal ▸ ha₁) hnodup (fun d' hd' => ?_) fun i' => ?_
    · obtain ⟨st', cs', hfold, hjournal', hm', ha', hs'⟩ := hrest
      refine ⟨st', cs', ?_, hjournal'.trans hjournal, hm', hjournal ▸ ha', hs'⟩
      rw [List.map_cons, List.foldlM_cons, hst₁]
      exact hfold
    · obtain ⟨i', held', r', hi'⟩ := hgiven d' (List.mem_cons_of_mem d hd')
      exact ⟨i', held', r', by rwa [Function.update_of_ne (hne d' hd' i' held' r' hi')]⟩
    · rcases eq_or_ne i' i with rfl | hother
      · exact .inl ⟨_, Function.update_self ..⟩
      · rw [Function.update_of_ne hother]
        obtain hidle | htaken | ⟨held', r', d', hd', hi'⟩ := honly i'
        · exact .inl hidle
        · exact .inr (.inl htaken)
        · obtain rfl | hd' := List.mem_cons.mp hd'
          · refine absurd (ha.slots i' i r' r (by rw [hi']; rfl) (by rw [hi]; rfl) ?_) hother
            rw [← hslot hi', ← hslot hi]
          · exact .inr (.inr ⟨held', r', d', hd', hi'⟩)

theorem next_inv {s : System} (hfault : s.fault = none) (hviolation : s.violation = none)
    (hm : Mirrors R s.store cs) (ha : Agree s.store.journal cs s.table) (hs : Settled cs) :
    Inv R (next R C s) := by
  obtain ⟨cs₁, ha₁, hcases, hgiven⟩ := giveFrom_agree
    (List.range Native.FileJobs.jobs) ha
  have hslots := giveFrom_slots s.table (List.range Native.FileJobs.jobs)
  have hm₁ : Mirrors R s.store cs₁ := by
    refine hm.congr fun i => ?_
    obtain hsame | ⟨held, r, d, -, htaken, hgiven⟩ := hcases i
    · rw [hsame]
      exact ⟨rfl, rfl⟩
    · rw [htaken, hgiven]
      exact ⟨rfl, rfl⟩
  have hall := complete_each (C := C) hm₁ ha₁ (hslots.nodup List.nodup_range) hgiven fun i => ?_
  · obtain ⟨st', cs', hfold, hjournal, hm', ha', hs'⟩ := hall
    have hlength : ¬ jobs < (((Native.FileJobs.giveFrom s.table
        (List.range Native.FileJobs.jobs)).1).map decodeDone).length := by
      have := hslots.length_le
      rw [List.length_map, List.length_range] at this
      rw [List.length_map]
      exact Nat.not_lt.mpr this
    have hcomplete : s.store.completeAll R C ((give s.table).1.map decodeDone) =
        .ok (st'.tidy R) := by
      unfold Store.completeAll give
      rw [if_neg hlength]
      simp only [hfold, bind, Except.bind]
      rfl
    unfold next
    simp only [hcomplete]
    refine ⟨hfault, .inl ⟨hviolation, cs', hm'.tidy, ?_, hs'⟩⟩
    change Agree st'.journal cs' _
    rw [hjournal]
    exact ha'
  · obtain hsame | ⟨held, r, d, hd, -, hgiven⟩ := hcases i
    · rw [hsame]
      obtain hidle | htaken := hs i
      · exact .inl hidle
      · exact .inr (.inl htaken)
    · exact .inr (.inr ⟨held, r, d, hd, hgiven⟩)

/-! ## Whole runs -/

theorem inv_of_table {s : System} {t : Table} (hfault : s.fault = none)
    (hviolation : s.violation = none) (hm : Mirrors R s.store cs) (hs : Settled cs)
    (ha : Agree s.store.journal cs t) : Inv R { s with table := t } :=
  ⟨hfault, .inl ⟨hviolation, cs, hm, ha, hs⟩⟩

private theorem feed_journal (wall k : ℕ) (st : Store) (held : List Byte) :
    (st.feed R C wall k held).1.journal = st.journal := by
  induction held generalizing st with
  | nil => rfl
  | cons x rest ih =>
    unfold Store.feed
    cases hs : st.slot k with
    | none => rfl
    | some s =>
      dsimp only
      split
      · obtain ⟨next, hnext⟩ := octet_store (R := R) (C := C) (st.setSlot k none) wall s x
        rw [ih]
        change ((st.setSlot k none).octet R C wall s x).1.journal = st.journal
        rw [hnext]
        rfl
      · rfl

private theorem progress_journal (wall k : ℕ) (held : List Byte) (st : Store) :
    (st.progress R C wall k held).journal = st.journal := by
  have hfeed : ((st.feed R C wall k held).1.tidy R).journal = st.journal := feed_journal wall k st held
  unfold Store.progress
  generalize (st.feed R C wall k held).1.tidy R = st' at hfeed
  cases hs : st'.slot k with
  | none => simp only [hs, hfeed]
  | some s =>
    simp only [hs]
    split
    · exact hfeed
    · exact hfeed

private theorem claim_journal (owner : ℕ × ℕ) (conn : ℕ) (st : Store) :
    (st.claim R owner conn).journal = st.journal := by
  unfold Store.claim
  split
  · split <;> rfl
  · rfl

private theorem progressRead_journal (k : ℕ) (st : Store) :
    (st.progressRead R C k).journal = st.journal := by
  unfold Store.progressRead
  cases hr : st.readSlot k with
  | none => rfl
  | some r =>
    dsimp only
    split
    · split <;> rfl
    · split
      · rfl
      · split <;> rfl

private theorem claimRead_journal (owner : ℕ × ℕ) (cmd : Cmd) (number : ℕ) (id : List Byte)
    (view : Option View) (st : Store) :
    (st.claimRead R C owner cmd number id view).journal = st.journal := by
  unfold Store.claimRead
  split <;> rfl

theorem inv_of_store {s : System} {st : Store} (hfault : s.fault = none)
    (hviolation : s.violation = none) (ha : Agree s.store.journal cs s.table) (hs : Settled cs)
    (hjournal : st.journal = s.store.journal) (hm : Mirrors R st cs) :
    Inv R { s with store := st } :=
  ⟨hfault, .inl ⟨hviolation, cs, hm, hjournal ▸ ha, hs⟩⟩

theorem step_inv (hR : Sound R) {s s' : System} {a : Action} (h : Inv R s)
    (hstep : step R C s a = some s') : Inv R s' := by
  unfold step at hstep
  split at hstep
  · cases hstep
  · rename_i hrunning
    obtain ⟨hfault, ⟨hviolation, cs, hm, ha, hs⟩ | ⟨hviolation, -⟩⟩ := h
    · cases a with
      | emit =>
        cases hstep
        exact emit_inv hR hfault hviolation hm ha hs
      | next =>
        cases hstep
        exact next_inv hfault hviolation hm ha hs
      | begin_ =>
        obtain ⟨t, ht, rfl⟩ := Option.map_eq_some_iff.mp hstep
        exact inv_of_table hfault hviolation hm hs (begin_agree ha ht)
      | run k out =>
        obtain ⟨t, ht, rfl⟩ := Option.map_eq_some_iff.mp hstep
        exact inv_of_table hfault hviolation hm hs (run_agree ha ht)
      | finish k =>
        obtain ⟨t, ht, rfl⟩ := Option.map_eq_some_iff.mp hstep
        exact inv_of_table hfault hviolation hm hs (finish_agree ha ht)
      | progress wall k held =>
        cases hstep
        exact inv_of_store hfault hviolation ha hs (progress_journal ..) hm.progress
      | claim owner conn =>
        cases hstep
        exact inv_of_store hfault hviolation ha hs (claim_journal ..) hm.claim
      | progressRead k =>
        cases hstep
        exact inv_of_store hfault hviolation ha hs (progressRead_journal ..)
          (hm.progressRead hR.seeksEnd)
      | claimRead owner cmd number id view =>
        cases hstep
        exact inv_of_store hfault hviolation ha hs (claimRead_journal ..) hm.claimRead
      | abandon idx gen =>
        cases hstep
        exact inv_of_store hfault hviolation ha hs rfl (hm.abandon idx gen)
    · rw [hviolation] at hrunning
      exact absurd rfl hrunning

/-- However the workers' operations interleave and fail, and whatever the connections do, no job the
store emits breaks a rule of the host and no completion the host gives is a fault of the store. The
one check of the host left is that a file's offsets stay below `2 ^ 63`, which fails only where the
store's journal or a file it reads has grown past that. -/
theorem store_and_host_agree (hR : Sound R) (recovered : Recovered) {p : ℕ}
    (hp : p < Native.FileJobs.places) (jobGen : ℕ) (gens : ℕ → ℕ) (written : Bool)
    {as : List Action} {s : System}
    (h : run (step R C) (start R recovered p jobGen gens written) as = some s) :
    s.fault = none ∧ (s.violation = none ∨ s.violation = some .offset ∧ ¬ InReach s.store) := by
  obtain ⟨hfault, ⟨hviolation, -⟩ | hoffset⟩ :=
    invariant_of_step (fun hinv hstep => step_inv hR hinv hstep) (start_inv hp) h
  · exact ⟨hfault, .inl hviolation⟩
  · exact ⟨hfault, .inr hoffset⟩

def plainContent : Content where
  check _ _ _ header := some ⟨header.take 3, [60], [[97]]⟩
  crc32c _ := 0
  encode _ _ := [0]
  encode_le _ _ _ := by decide
  output _ := []

/-- A POST whose file is created and written, the close of it failing, so that it is removed. -/
def failedClose : List Action :=
  [.claim (0, 0) 7, .progress 0 0 [97, 13, 10, 13, 10, 46, 13, 10], .emit, .begin_,
   .run 0 (.ok (0, 0) []), .finish 0, .next, .emit, .begin_, .run 0 (.ok (0, 0) []),
   .run 0 (.ok (0, 0) []), .run 0 .failed, .finish 0, .next, .emit]

theorem failedClose_agrees :
    ∃ s, run (step {} plainContent) (start {} ⟨[], [], 1, 0⟩ 0 0 (fun _ => 0) false) failedClose =
        some s ∧ (s.table.jobs 0).ops = [.remove (.temp 1)] ∧
      s.fault = none ∧ (s.violation = none ∨ s.violation = some .offset ∧ ¬ InReach s.store) := by
  have hrun : ∃ s, run (step {} plainContent) (start {} ⟨[], [], 1, 0⟩ 0 0 (fun _ => 0) false)
      failedClose = some s ∧ (s.table.jobs 0).ops = [.remove (.temp 1)] := ⟨_, rfl, rfl⟩
  obtain ⟨s, hs, hops⟩ := hrun
  exact ⟨s, hs, hops, store_and_host_agree sound_default _ (by decide) 0 _ false hs⟩

end DragonsNet.News.StoreHost
