/- GID: DragonsNet/Dataplane/LeafRuns
   source: migration/dataplane/host/src/tls/ondemand.rs
   digest: Which issuer runs wrote the certificate and the key of a served leaf. -/

import DragonsNet.Dataplane.LeafFiles

set_option autoImplicit false

namespace DragonsNet.Dataplane.LeafFiles

open Lib.Runs (run Meets invariant_of_meets)

variable {ι : Type} {cfg : Cfg} {leaf : Leaf} {s : State ι} {a : Action ι} {sni : Sni}

/-! ## Where the leaves come from -/

def Purpose.leaves : Purpose → List Leaf
  | .refresh cached => [cached]
  | .sweep | .reuse | .minted => []

def Outcome.leaves : Outcome → List Leaf
  | .serve leaf => [leaf]
  | .refuse | .passthrough | .reloaded _ => []

def Entry.leaves : Option Entry → List Leaf
  | some (.ready leaf _) => [leaf]
  | some (.denied _) | some (.failed _) | none => []

def Phase.leaves : Phase → List Leaf
  | .statting _ _ cached _ => [cached]
  | .awaiting _ _ purpose | .readingCert _ purpose | .readingKey _ purpose _ => purpose.leaves
  | .tagging _ purpose leaf | .inserting _ purpose leaf _ => leaf :: purpose.leaves
  | .leaving _ outcome | .returned _ outcome => outcome.leaves
  | .idle | .probing _ _ | .locking _ | .asking _ | .preparing _ | .minting _ _
  | .negating _ _ => []

def Effect.leaves : Effect → List Leaf
  | .remember _ e => Entry.leaves e
  | .nothing | .acquire _ | .release _ | .spawn _ => []

def State.Knows (s : State ι) (leaf : Leaf) : Prop :=
  (∃ sni, leaf ∈ Entry.leaves (s.cache sni)) ∨ ∃ i, leaf ∈ (s.threads i).leaves

/-- A load is about to read the key of this leaf, with its certificate in hand. -/
def Reads (s : State ι) (p : Phase) (leaf : Leaf) : Prop :=
  ∃ sni purpose mtime, p = .readingKey sni purpose leaf.cert ∧
    (s.disk sni).key = some (leaf.key, mtime)

private theorem finish_leaves (sni : Sni) (locked : Bool) (outcome : Outcome) :
    (finish sni locked outcome).leaves = outcome.leaves := by
  cases locked <;> rfl

private theorem proceed_leaves (cfg : Cfg) (sni : Sni) (locked : Bool) :
    (proceed cfg sni locked).leaves = [] := by
  unfold proceed
  split
  · rfl
  · split <;> rfl

private theorem unloaded_leaves (sni : Sni) (purpose : Purpose) :
    (unloaded sni purpose).leaves = purpose.leaves := by
  cases purpose <;> rfl

private theorem loaded_leaves (leaf : Leaf) (purpose : Purpose) :
    (loaded leaf purpose).leaves ⊆ [leaf] := by
  cases purpose <;> simp [loaded, Outcome.leaves]

/-- A step of a call takes a leaf from what the call had in hand, from the cache, or from the
files as it reads the key. -/
theorem Does.knows {ok : Bool} {p q : Phase} {e : Effect} (h : Does cfg s ok p e q)
    (hleaf : leaf ∈ e.leaves ++ q.leaves) :
    leaf ∈ p.leaves ∨ (∃ sni, leaf ∈ Entry.leaves (s.cache sni)) ∨ Reads s p leaf := by
  cases h with
  | @found sni _ _ _ ready =>
    refine .inr (.inl ⟨sni, ?_⟩)
    rw [ready]
    exact hleaf
  | @readsKey _ purpose cert key _ present =>
    rcases List.mem_cons.mp hleaf with rfl | hleaf
    · exact .inr (.inr ⟨_, purpose, _, rfl, present⟩)
    · exact .inl hleaf
  | inserts =>
    refine .inl ?_
    rcases List.mem_cons.mp hleaf with rfl | hleaf
    · exact List.mem_cons_self
    · exact List.mem_cons.mpr (.inl (List.mem_singleton.mp (loaded_leaves _ _ hleaf)))
  | refused | current =>
    rw [finish_leaves] at hleaf
    exact .inl hleaf
  | elapsed | missed =>
    rw [proceed_leaves] at hleaf
    cases hleaf
  | noCert | noKey =>
    rw [unloaded_leaves] at hleaf
    exact .inl hleaf
  | @negates _ denied _ => cases denied <;> cases hleaf
  | newer | reloads | locks | readsCert | tags | spawns | unspawned | minted | unminted
  | leaves => exact .inl hleaf

private theorem knows_goto [DecidableEq ι] {i : ι} {p : Phase} (h : (s.goto i p).Knows leaf) :
    s.Knows leaf ∨ leaf ∈ p.leaves := by
  rcases h with hcache | ⟨j, hj⟩
  · exact .inl (.inl hcache)
  · by_cases hji : j = i
    · subst hji
      exact .inr (by simpa [State.goto] using hj)
    · exact .inl (.inr ⟨j, by simpa [State.goto, hji] using hj⟩)

private theorem knows_on [DecidableEq ι] {i : ι} {e : Effect} (h : (e.on s i).Knows leaf) :
    s.Knows leaf ∨ leaf ∈ e.leaves := by
  cases e with
  | remember sni e =>
    rcases h with ⟨other, hother⟩ | hthread
    · by_cases heq : other = sni
      · subst heq
        have hother : leaf ∈ Entry.leaves (Function.update s.cache other e other) := hother
        rw [Function.update_self] at hother
        exact .inr hother
      · exact .inl (.inl ⟨other, by simpa [Effect.on, heq] using hother⟩)
    · exact .inl (.inr hthread)
  | nothing | acquire | release | spawn => exact .inl h

private theorem step_knows [DecidableEq ι] {s t : State ι} (h : step cfg s a = some t)
    (hleaf : t.Knows leaf) :
    s.Knows leaf ∨ ∃ i ok, a = .advance i ok ∧ Reads s (s.threads i) leaf := by
  cases takes_of_step h with
  | resolve =>
    refine .inl ((knows_goto hleaf).resolve_right ?_)
    unfold resolve
    split <;> exact List.not_mem_nil
  | reloadSni =>
    refine .inl ((knows_goto hleaf).resolve_right ?_)
    unfold reloadSni
    split <;> exact List.not_mem_nil
  | @advance i ok e q hdoes =>
    have hnew : s.Knows leaf ∨ leaf ∈ e.leaves ++ q.leaves := by
      rcases knows_goto hleaf with hleaf | hleaf
      · exact (knows_on hleaf).imp_right (List.mem_append_left _)
      · exact .inr (List.mem_append_right _ hleaf)
    rcases hnew with hknown | hnew
    · exact .inl hknown
    · rcases hdoes.knows hnew with hhand | hcache | hreads
      · exact .inl (.inr ⟨i, hhand⟩)
      · exact .inl (.inl hcache)
      · exact .inr ⟨i, ok, rfl, hreads⟩
  | @answer _ _ reply _ =>
    refine .inl ((knows_goto hleaf).resolve_right ?_)
    rcases reply with _ | _ | _ <;> exact List.not_mem_nil
  | issue | writeCert | writeKey | exit | tick => exact .inl hleaf

/-! ## One issuer run at a time -/

/-- The run has written its certificate and not yet its key. -/
def State.Halfway (s : State ι) (sni : Sni) (r : ℕ) : Prop := s.runs r = some (sni, .certWritten)

instance (s : State ι) (sni : Sni) (r : ℕ) : Decidable (s.Halfway sni r) :=
  inferInstanceAs (Decidable (_ = _))

def State.Settled (s : State ι) (sni : Sni) : Prop := ∀ r < s.nextRun, ¬ s.Halfway sni r

instance (s : State ι) (sni : Sni) : Decidable (s.Settled sni) :=
  inferInstanceAs (Decidable (∀ r < s.nextRun, _))

/-- Each issuer run writes the certificate and after it the key, with a later modification
time. -/
def Complete (s : State ι) : Action ι → Prop
  | .writeKey r _ mtime => ∀ run ∈ s.runs r, ∀ key ∈ (s.disk run.1).key, key.2 < mtime
  | .exit r _ => ∀ run ∈ s.runs r, run.2 ≠ .certWritten
  | .resolve _ _ | .reloadSni _ _ | .advance _ _ | .answer _ _ | .issue _ | .writeCert _ _
  | .tick _ => True

def Phase.inHand : Phase → Option (Sni × Stamped)
  | .readingKey sni _ cert => some (sni, cert)
  | _ => none

/-- No two runs of an SNI overlap in their writes, and none overlaps the two reads of a load:
when the key is read, the certificate is still of the run it was of, and no run is between
its writes. -/
def Apart (s : State ι) : Action ι → Prop
  | .writeCert r _ => ∀ run ∈ s.runs r, s.Settled run.1
  | .advance i _ => ∀ hand ∈ (s.threads i).inHand,
    (s.disk hand.1).cert.map Stamped.run = some hand.2.run ∧ s.Settled hand.1
  | .resolve _ _ | .reloadSni _ _ | .answer _ _ | .issue _ | .writeKey _ _ _ | .exit _ _
  | .tick _ => True

instance (s : State ι) : ∀ a, Decidable (Complete s a)
  | .writeKey r _ mtime =>
    inferInstanceAs (Decidable (∀ run ∈ s.runs r, ∀ key ∈ (s.disk run.1).key, key.2 < mtime))
  | .exit r _ => inferInstanceAs (Decidable (∀ run ∈ s.runs r, run.2 ≠ .certWritten))
  | .resolve _ _ | .reloadSni _ _ | .advance _ _ | .answer _ _ | .issue _ | .writeCert _ _
  | .tick _ => isTrue trivial

instance (s : State ι) : ∀ a, Decidable (Apart s a)
  | .writeCert r _ => inferInstanceAs (Decidable (∀ run ∈ s.runs r, s.Settled run.1))
  | .advance i _ => inferInstanceAs (Decidable (∀ hand ∈ (s.threads i).inHand,
    (s.disk hand.1).cert.map Stamped.run = some hand.2.run ∧ s.Settled hand.1))
  | .resolve _ _ | .reloadSni _ _ | .answer _ _ | .issue _ | .writeKey _ _ _ | .exit _ _
  | .tick _ => isTrue trivial

def Leaf.OneRun (leaf : Leaf) : Prop := leaf.cert.run = leaf.key.run

/-- The files of an SNI are of one run, or a run is between its writes and the certificate is
its own. -/
structure FiledAt (s : State ι) (sni : Sni) : Prop where
  halfway : ∀ r, s.Halfway sni r →
    (s.disk sni).cert.map Stamped.run = some r ∧ ∀ q, s.Halfway sni q → q = r
  whole : (∀ r, ¬ s.Halfway sni r) → ∀ cert ∈ (s.disk sni).cert, ∀ key ∈ (s.disk sni).key,
    cert.run = key.1.run

theorem FiledAt.congr {s t : State ι} (h : FiledAt s sni) (hdisk : t.disk sni = s.disk sni)
    (hsame : ∀ r, t.Halfway sni r ↔ s.Halfway sni r) : FiledAt t sni := by
  refine ⟨fun r hr => ?_, fun hnone => ?_⟩
  · obtain ⟨hcert, hone⟩ := h.halfway r ((hsame r).mp hr)
    exact ⟨hdisk ▸ hcert, fun q hq => hone q ((hsame q).mp hq)⟩
  · rw [hdisk]
    exact h.whole fun r hr => hnone r ((hsame r).mpr hr)

structure Filed (s : State ι) : Prop where
  fresh : ∀ r, s.nextRun ≤ r → s.runs r = none
  filed : ∀ sni, FiledAt s sni

theorem Filed.congr {s t : State ι} (h : Filed s) (hnext : t.nextRun = s.nextRun)
    (hruns : t.runs = s.runs) (hdisk : t.disk = s.disk) : Filed t := by
  refine ⟨fun r hr => ?_, fun sni => (h.filed sni).congr (by rw [hdisk]) fun r => ?_⟩
  · rw [hruns]
    exact h.fresh r (hnext ▸ hr)
  · rw [State.Halfway, State.Halfway, hruns]

theorem Filed.settled (h : Filed s) (hs : s.Settled sni) (r : ℕ) : ¬ s.Halfway sni r := by
  intro hr
  by_cases hlt : r < s.nextRun
  · exact hs r hlt hr
  · have hnone : s.runs r = none := h.fresh r (Nat.le_of_not_lt hlt)
    cases hnone.symm.trans hr

theorem Filed.begin (h : Filed s) (sni : Sni) : Filed (s.begin sni) := by
  refine ⟨fun r hr => ?_, fun other => (h.filed other).congr rfl fun r => ?_⟩
  · have hlt : s.nextRun + 1 ≤ r := hr
    have hne : r ≠ s.nextRun := by omega
    simpa [State.begin, hne] using h.fresh r (by omega)
  · by_cases hr : r = s.nextRun
    · subst hr
      simp [State.Halfway, State.begin, h.fresh s.nextRun le_rfl]
    · simp [State.Halfway, State.begin, hr]

private theorem halfway_issuer {r q : ℕ} {sni other : Sni} {stage : Stage} {d : Dir} :
    (s.issuer r sni stage d).Halfway other q ↔
      if q = r then sni = other ∧ stage = .certWritten else s.Halfway other q := by
  by_cases hq : q = r
  · subst hq
    simp [State.Halfway, State.issuer]
  · simp [State.Halfway, State.issuer, hq]

theorem Filed.issuer (h : Filed s) {r : ℕ} {old stage : Stage} {d : Dir}
    (hold : s.runs r = some (sni, old)) (hown : FiledAt (s.issuer r sni stage d) sni) :
    Filed (s.issuer r sni stage d) := by
  refine ⟨fun q hq => ?_, fun other => ?_⟩
  · have hnone : s.runs q = none := h.fresh q hq
    have hne : q ≠ r := by
      rintro rfl
      cases hnone.symm.trans hold
    simpa [State.issuer, hne] using hnone
  · by_cases hother : other = sni
    · exact hother ▸ hown
    · refine (h.filed other).congr (by simp [State.issuer, hother]) fun q => ?_
      rw [halfway_issuer]
      by_cases hq : q = r
      · subst hq
        simp [State.Halfway, hold, Ne.symm hother]
      · rw [if_neg hq]

theorem Filed.writeCert (h : Filed s) {r : ℕ} {octets : Bytes}
    (hold : s.runs r = some (sni, .begun)) (hnone : ∀ q, ¬ s.Halfway sni q) :
    Filed (s.issuer r sni .certWritten { s.disk sni with cert := some ⟨octets, r⟩ }) := by
  have hhalf : (s.issuer r sni .certWritten
      { s.disk sni with cert := some ⟨octets, r⟩ }).Halfway sni r := by
    simp [halfway_issuer]
  have hone : ∀ q, (s.issuer r sni .certWritten
      { s.disk sni with cert := some ⟨octets, r⟩ }).Halfway sni q → q = r := by
    intro q hq
    by_contra hne
    rw [halfway_issuer, if_neg hne] at hq
    exact hnone q hq
  refine h.issuer hold ⟨fun q hq => ?_, fun hsettled => absurd hhalf (hsettled r)⟩
  obtain rfl := hone q hq
  exact ⟨by simp [State.issuer], hone⟩

theorem Filed.writeKey (h : Filed s) {r mtime : ℕ} {octets : Bytes} (hold : s.Halfway sni r) :
    Filed (s.issuer r sni .keyWritten { s.disk sni with key := some (⟨octets, r⟩, mtime) }) := by
  obtain ⟨hcert, hone⟩ := (h.filed sni).halfway r hold
  refine h.issuer hold ⟨fun q hq => ?_, fun _ cert hc key hkey => ?_⟩
  · -- The run was the only one between its writes.
    rw [halfway_issuer] at hq
    by_cases hne : q = r
    · rw [if_pos hne] at hq
      cases hq.2
    · rw [if_neg hne] at hq
      exact absurd (hone q hq) hne
  · have hc : (s.disk sni).cert = some cert := by simpa [State.issuer] using hc
    have hkey : (⟨octets, r⟩, mtime) = key := by simpa [State.issuer] using hkey
    rw [hc] at hcert
    subst hkey
    exact Option.some.inj hcert

theorem Filed.exit (h : Filed s) {r : ℕ} {old : Stage} {success : Bool}
    (hold : s.runs r = some (sni, old)) (hnot : ¬ s.Halfway sni r) :
    Filed (s.issuer r sni (.exited success) (s.disk sni)) := by
  refine h.issuer hold ((h.filed sni).congr (by simp [State.issuer]) fun q => ?_)
  rw [halfway_issuer]
  by_cases hq : q = r
  · subst hq
    simp [hnot]
  · rw [if_neg hq]

theorem Filed.step [DecidableEq ι] {s t : State ι} (hs : Filed s) (hcomplete : Complete s a)
    (hapart : Apart s a) (h : step cfg s a = some t) : Filed t := by
  cases takes_of_step h with
  | @advance i ok e q =>
    have hon : Filed (e.on s i) := by
      cases e with
      | spawn sni => exact hs.begin sni
      | nothing | remember | acquire | release => exact hs.congr rfl rfl rfl
    exact hon.congr rfl rfl rfl
  | issue => exact hs.begin _
  | writeCert begun => exact hs.writeCert begun (hs.settled (hapart _ begun))
  | writeKey halfway => exact hs.writeKey halfway
  | exit runs =>
    refine hs.exit runs fun hhalf => hcomplete _ runs ?_
    exact congrArg Prod.snd (Option.some.inj (runs.symm.trans hhalf))
  | resolve | reloadSni | answer | tick => exact hs.congr rfl rfl rfl

theorem Filed.start (left : Sni → Option (Bytes × Bytes × ℕ)) : Filed (start ι left) := by
  refine ⟨fun _ _ => rfl, fun sni => ⟨fun r hr => ?_, fun _ cert hcert key hkey => ?_⟩⟩
  · cases hr
  · obtain ⟨_, -, rfl⟩ := Option.map_eq_some_iff.mp (Option.mem_def.mp hcert)
    obtain ⟨_, -, rfl⟩ := Option.map_eq_some_iff.mp (Option.mem_def.mp hkey)
    rfl

theorem Filed.reads (hs : Filed s) {i : ι} {ok : Bool} (hapart : Apart s (.advance i ok))
    (h : Reads s (s.threads i) leaf) : leaf.OneRun := by
  obtain ⟨sni, purpose, mtime, hphase, hkey⟩ := h
  have hhand : (s.threads i).inHand = some (sni, leaf.cert) := by rw [hphase]; rfl
  obtain ⟨hcert, hsettled⟩ := hapart _ hhand
  obtain ⟨cert, hcert, hrun⟩ := Option.map_eq_some_iff.mp hcert
  have hwhole := (hs.filed sni).whole (hs.settled hsettled) cert hcert (leaf.key, mtime) hkey
  exact hrun.symm.trans hwhole

structure Sound (s : State ι) : Prop where
  files : Filed s
  leaves : ∀ leaf, s.Knows leaf → leaf.OneRun

theorem Sound.start (left : Sni → Option (Bytes × Bytes × ℕ)) : Sound (start ι left) := by
  refine ⟨Filed.start left, fun leaf hleaf => ?_⟩
  rcases hleaf with ⟨_, hleaf⟩ | ⟨_, hleaf⟩ <;> cases hleaf

theorem Sound.step [DecidableEq ι] {s t : State ι} (hs : Sound s) (hok : Complete s a ∧ Apart s a)
    (h : step cfg s a = some t) : Sound t := by
  refine ⟨hs.files.step hok.1 hok.2 h, fun leaf hleaf => ?_⟩
  rcases step_knows h hleaf with hold | ⟨i, ok, rfl, hreads⟩
  · exact hs.leaves leaf hold
  · exact hs.files.reads hok.2 hreads

/-- Where issuer runs overlap neither one another nor a load, the certificate and the key of
every leaf that `resolve` serves were written by the same run. -/
theorem served_of_one_run [DecidableEq ι] (cfg : Cfg) (left : Sni → Option (Bytes × Bytes × ℕ))
    (acts : List (Action ι)) (s : State ι)
    (allowed : Meets (step cfg) (fun s a => Complete s a ∧ Apart s a) (start ι left) acts)
    (hrun : run (step cfg) (start ι left) acts = some s) (i : ι) (sni : Sni) (leaf : Leaf)
    (hserved : s.threads i = .returned sni (.serve leaf)) : leaf.cert.run = leaf.key.run := by
  have hsound : Sound s := invariant_of_meets Sound.step (Sound.start left) allowed hrun
  refine hsound.leaves leaf (.inr ⟨i, ?_⟩)
  rw [hserved]
  exact List.mem_singleton_self leaf

def upToReads : List (Action ℕ) :=
  [.resolve 0 [97], .advance 0 true, .advance 0 true, .advance 0 true]

/-- The leaf is loaded, an issuer renews it, and the next `resolve` finds and loads it. -/
def loadsThenRenews : List (Action ℕ) :=
  upToReads ++ List.replicate 5 (.advance 0 true) ++ renewal ++
    .resolve 1 [97] :: List.replicate 8 (.advance 1 true)

theorem renewed_leaf_served :
    Meets (step allowAll) (fun s a => Complete s a ∧ Apart s a) (start ℕ oldLeaf)
      loadsThenRenews ∧
    ∃ s, run (step allowAll) (start ℕ oldLeaf) loadsThenRenews = some s ∧
      s.threads 1 = .returned [97] (.serve ⟨⟨[49], 1⟩, ⟨scalar 1, 1⟩⟩) ∧
      (⟨[49], 1⟩ : Stamped).run = (⟨scalar 1, 1⟩ : Stamped).run := by
  have allowed : Meets (step allowAll) (fun s a => Complete s a ∧ Apart s a) (start ℕ oldLeaf)
      loadsThenRenews := by decide +kernel
  exact ⟨allowed, _, rfl, rfl,
    served_of_one_run allowAll oldLeaf loadsThenRenews _ allowed rfl 1 [97] _ rfl⟩

/-- The issuer renews the leaf between the two reads of a load: the served leaf has the
certificate of one run and the key of another, tagged with the time of the newer. -/
theorem renewed_between_reads :
    Meets (step allowAll) Complete (start ℕ oldLeaf)
      (upToReads ++ .advance 0 true :: renewal ++ List.replicate 4 (.advance 0 true)) ∧
    ∃ s, run (step allowAll) (start ℕ oldLeaf)
        (upToReads ++ .advance 0 true :: renewal ++ List.replicate 4 (.advance 0 true)) = some s ∧
      s.threads 0 = .returned [97] (.serve ⟨⟨[48], 0⟩, ⟨scalar 1, 1⟩⟩) ∧
      s.cache [97] = some (.ready ⟨⟨[48], 0⟩, ⟨scalar 1, 1⟩⟩ (some 20)) :=
  ⟨by decide +kernel, _, rfl, rfl, rfl⟩

end DragonsNet.Dataplane.LeafFiles
