/- GID: DragonsNet/Native/FileAgreement
   source: native/jobs.c
   digest: The table and its clients agree through every step of a job. -/

import DragonsNet.Native.FileClients

set_option autoImplicit false

namespace DragonsNet.Native.FileAgreement

open FileJobs (FileOp File Job Request Table Done Outcome places take giveOne doneOf effect possible)
open FileScripts
open FileClients

variable {ι : Type} [DecidableEq ι] {journal : ℕ × ℕ} {cs : ι → Client} {t : Table} {i : ι}
  {held : Option (ℕ × ℕ)} {r : Request}

private theorem request_same {c : Client} (h : c.request = (cs i).request) (i' : ι) :
    (Function.update cs i c i').request = (cs i').request := by
  rcases eq_or_ne i' i with rfl | hne
  · rw [Function.update_self, h]
  · rw [Function.update_of_ne hne]

private theorem request_idle {after : Option (ℕ × ℕ)} {i' : ι} {r' : Request}
    (h : (Function.update cs i (.idle after) i').request = some r') :
    (cs i').request = some r' := by
  rcases eq_or_ne i' i with rfl | hne
  · rw [Function.update_self] at h
    cases h
  · rwa [Function.update_of_ne hne] at h

/-! ## What one job at a time may use -/

/-- One request at a time uses a thing, and the host's mark of it is that of the job that does. -/
structure Lock (uses : List FileOp → Bool) (mark : ℕ → ℕ) (cs : ι → Client) (value : ℕ) : Prop where
  one : ∀ i i' r r', (cs i).request = some r → (cs i').request = some r' →
    uses r.ops = true → uses r'.ops = true → i = i'
  inUse : ∀ i held r, cs i = .taken held r → uses r.ops = true → value = mark r.slot
  unused : (∀ i held r, cs i = .taken held r → uses r.ops = false) → value = 0

section Lock

variable {uses : List FileOp → Bool} {mark : ℕ → ℕ} {value : ℕ}

omit [DecidableEq ι] in
theorem Lock.start : Lock uses mark (fun _ : ι => .idle none) 0 where
  one i i' r r' hreq := by cases hreq
  inUse i held r htaken := by cases htaken
  unused _ := rfl

theorem Lock.emit (h : Lock uses mark cs value) (hi : cs i = .idle held)
    (hnew : uses r.ops = true → ∀ i' r', (cs i').request = some r' → uses r'.ops = false) :
    Lock uses mark (Function.update cs i (.emitted held r)) value := by
  have htaken : ∀ i' held' r', Function.update cs i (.emitted held r) i' = .taken held' r' →
      cs i' = .taken held' r' := by
    intro i' held' r' h'
    rcases eq_or_ne i' i with rfl | hne
    · rw [Function.update_self] at h'
      cases h'
    · rwa [Function.update_of_ne hne] at h'
  refine ⟨fun i₁ i₂ r₁ r₂ h₁ h₂ hu₁ hu₂ => ?_,
    fun i' held' r' h' => h.inUse i' held' r' (htaken i' held' r' h'),
    fun hnone => h.unused fun i' held' r' h' => hnone i' held' r' ?_⟩
  · rcases eq_or_ne i₁ i with rfl | hne₁ <;> rcases eq_or_ne i₂ i₁ with rfl | hne
    · rfl
    · rw [Function.update_self] at h₁
      obtain rfl : r = r₁ := Option.some.inj h₁
      rw [Function.update_of_ne hne] at h₂
      rw [hnew hu₁ i₂ r₂ h₂] at hu₂
      cases hu₂
    · rfl
    · rw [Function.update_of_ne hne₁] at h₁
      rcases eq_or_ne i₂ i with rfl | hne₂
      · rw [Function.update_self] at h₂
        obtain rfl : r = r₂ := Option.some.inj h₂
        rw [hnew hu₂ i₁ r₁ h₁] at hu₁
        cases hu₁
      · rw [Function.update_of_ne hne₂] at h₂
        exact h.one i₁ i₂ r₁ r₂ h₁ h₂ hu₁ hu₂
  · have hne : i' ≠ i := by
      rintro rfl
      rw [hi] at h'
      cases h'
    rwa [Function.update_of_ne hne]

omit [DecidableEq ι] in
theorem Lock.free (h : Lock uses mark cs value) (hi : cs i = .emitted held r)
    (huse : uses r.ops = true) : value = 0 := by
  refine h.unused fun i' held' r' h' => ?_
  by_contra hused
  obtain rfl := h.one i i' r r' (by rw [hi]; rfl) (by rw [h']; rfl) huse (by simpa using hused)
  rw [hi] at h'
  cases h'

theorem Lock.take (h : Lock uses mark cs value) (hi : cs i = .emitted held r) :
    Lock uses mark (Function.update cs i (.taken held r))
      (if uses r.ops then mark r.slot else value) := by
  have hreq : ∀ i', (Function.update cs i (.taken held r) i').request = (cs i').request :=
    request_same (by rw [hi]; rfl)
  refine ⟨fun i₁ i₂ r₁ r₂ h₁ h₂ =>
      h.one i₁ i₂ r₁ r₂ ((hreq i₁).symm.trans h₁) ((hreq i₂).symm.trans h₂),
    fun i' held' r' h' hused => ?_, fun hnone => ?_⟩
  · rcases eq_or_ne i' i with rfl | hne
    · rw [Function.update_self] at h'
      cases h'
      rw [if_pos hused]
    · rw [Function.update_of_ne hne] at h'
      have hnot : uses r.ops ≠ true := fun hu =>
        hne (h.one i' i r' r (by rw [h']; rfl) (by rw [hi]; rfl) hused hu)
      rw [if_neg hnot]
      exact h.inUse i' held' r' h' hused
  · have hnot : uses r.ops = false := hnone i held r (by rw [Function.update_self])
    rw [hnot, if_neg Bool.false_ne_true]
    refine h.unused fun i' held' r' h' => hnone i' held' r' ?_
    have hne : i' ≠ i := by
      rintro rfl
      rw [hi] at h'
      cases h'
    rwa [Function.update_of_ne hne]

theorem Lock.give {d : Done} (h : Lock uses mark cs value) (hi : cs i = .taken held r) :
    Lock uses mark (Function.update cs i (.given held r d)) (if uses r.ops then 0 else value) := by
  have hreq : ∀ i', (Function.update cs i (.given held r d) i').request = (cs i').request :=
    request_same (by rw [hi]; rfl)
  have htaken : ∀ i' held' r', Function.update cs i (.given held r d) i' = .taken held' r' →
      i' ≠ i ∧ cs i' = .taken held' r' := by
    intro i' held' r' h'
    rcases eq_or_ne i' i with rfl | hne
    · rw [Function.update_self] at h'
      cases h'
    · exact ⟨hne, by rwa [Function.update_of_ne hne] at h'⟩
  refine ⟨fun i₁ i₂ r₁ r₂ h₁ h₂ =>
      h.one i₁ i₂ r₁ r₂ ((hreq i₁).symm.trans h₁) ((hreq i₂).symm.trans h₂),
    fun i' held' r' h' hused => ?_, fun hnone => ?_⟩
  · obtain ⟨hne, h'⟩ := htaken i' held' r' h'
    have hnot : uses r.ops ≠ true := fun hu =>
      hne (h.one i' i r' r (by rw [h']; rfl) (by rw [hi]; rfl) hused hu)
    rw [if_neg hnot]
    exact h.inUse i' held' r' h' hused
  · by_cases hu : uses r.ops = true
    · rw [if_pos hu]
    · rw [if_neg hu]
      refine h.unused fun i' held' r' h' => ?_
      rcases eq_or_ne i' i with rfl | hne
      · rw [hi] at h'
        cases h'
        simpa using hu
      · exact hnone i' held' r' (by rwa [Function.update_of_ne hne])

omit [DecidableEq ι] in
theorem Lock.other (h : Lock uses mark cs value) (hnot : uses r.ops = false)
    (hi : cs i = .taken held r) :
    value = 0 ∨ ∃ i' r', i' ≠ i ∧ (cs i').request = some r' ∧ value = mark r'.slot := by
  by_cases hnone : ∀ i' held' r', cs i' = .taken held' r' → uses r'.ops = false
  · exact .inl (h.unused hnone)
  · push Not at hnone
    obtain ⟨i', held', r', h', hused⟩ := hnone
    refine .inr ⟨i', r', ?_, by rw [h']; rfl, h.inUse i' held' r' h' (by simpa using hused)⟩
    rintro rfl
    rw [hi] at h'
    cases h'
    exact hused hnot

theorem Lock.complete {d : Done} {after : Option (ℕ × ℕ)} (h : Lock uses mark cs value)
    (hi : cs i = .given held r d) :
    Lock uses mark (Function.update cs i (.idle after)) value := by
  have htaken : ∀ i' held' r', Function.update cs i (.idle after) i' = .taken held' r' ↔
      cs i' = .taken held' r' := by
    intro i' held' r'
    rcases eq_or_ne i' i with rfl | hne
    · rw [Function.update_self, hi]
      simp
    · rw [Function.update_of_ne hne]
  refine ⟨fun i₁ i₂ r₁ r₂ h₁ h₂ => h.one i₁ i₂ r₁ r₂ (request_idle h₁) (request_idle h₂),
    fun i' held' r' h' => h.inUse i' held' r' ((htaken i' held' r').mp h'),
    fun hnone => h.unused fun i' held' r' h' => hnone i' held' r' ((htaken i' held' r').mpr h')⟩

end Lock

def Distinct (cs : ι → Client) : Prop :=
  ∀ i i' r r', (cs i).request = some r → (cs i').request = some r' → r.slot = r'.slot → i = i'

omit [DecidableEq ι] in
theorem Distinct.start : Distinct (fun _ : ι => .idle none) := by
  intro i i' r r' hreq
  cases hreq

theorem Distinct.same {c : Client} (h : Distinct cs) (hc : c.request = (cs i).request) :
    Distinct (Function.update cs i c) := by
  intro i₁ i₂ r₁ r₂ h₁ h₂
  exact h i₁ i₂ r₁ r₂ ((request_same hc i₁).symm.trans h₁) ((request_same hc i₂).symm.trans h₂)

theorem Distinct.idle (h : Distinct cs) (after : Option (ℕ × ℕ)) :
    Distinct (Function.update cs i (.idle after)) := by
  intro i₁ i₂ r₁ r₂ h₁ h₂
  exact h i₁ i₂ r₁ r₂ (request_idle h₁) (request_idle h₂)

theorem Distinct.emit (h : Distinct cs)
    (hfresh : ∀ i' r', (cs i').request = some r' → r'.slot ≠ r.slot) :
    Distinct (Function.update cs i (.emitted held r)) := by
  intro i₁ i₂ r₁ r₂ h₁ h₂ hslot
  rcases eq_or_ne i₁ i with rfl | hne₁ <;> rcases eq_or_ne i₂ i₁ with rfl | hne
  · rfl
  · rw [Function.update_self] at h₁
    obtain rfl : r = r₁ := Option.some.inj h₁
    rw [Function.update_of_ne hne] at h₂
    exact absurd hslot.symm (hfresh i₂ r₂ h₂)
  · rfl
  · rw [Function.update_of_ne hne₁] at h₁
    rcases eq_or_ne i₂ i with rfl | hne₂
    · rw [Function.update_self] at h₂
      obtain rfl : r = r₂ := Option.some.inj h₂
      exact absurd hslot (hfresh i₁ r₁ h₁)
    · rw [Function.update_of_ne hne₂] at h₂
      exact h i₁ i₂ r₁ r₂ h₁ h₂ hslot

/-- **The table and its clients agree**: each client's place and job are as it thinks, the jobs in
flight are theirs, the journal is open and one of them at a time uses it or syncs the directory. -/
structure Agree (journal : ℕ × ℕ) (cs : ι → Client) (t : Table) : Prop where
  places : Places journal cs t
  slots : Distinct cs
  jobs : ∀ k, (t.jobs k).state ≠ .free → ∃ i held r, cs i = .taken held r ∧ r.slot = k
  journalPlace : journal.1 < FileJobs.places
  journalOpen : OpenAt (t.files journal.1) journal.2 (t.files journal.1).busy
  journalLock : Lock (names · journal.1) (· + 1) cs (t.files journal.1).busy
  dirLock : Lock (·.contains .syncDir) (fun _ => 1) cs t.dirSyncs
  nodup : t.queue.Nodup
  queued : ∀ k ∈ t.queue, (t.jobs k).state = .queued

theorem Agree.emit (h : Agree journal cs t) (hi : cs i = .idle held)
    (hscript : Script journal held r.ops)
    (hfresh : ∀ i' r', (cs i').request = some r' → r'.slot ≠ r.slot)
    (hjournal : names r.ops journal.1 = true →
      ∀ i' r', (cs i').request = some r' → names r'.ops journal.1 = false)
    (hdir : r.ops.contains .syncDir = true →
      ∀ i' r', (cs i').request = some r' → r'.ops.contains .syncDir = false) :
    Agree journal (Function.update cs i (.emitted held r)) t := by
  have hfree : (t.jobs r.slot).state = .free := by
    by_contra hbusy
    obtain ⟨i', held', r', h', hslot⟩ := h.jobs r.slot hbusy
    exact hfresh i' r' (by rw [h']; rfl) hslot
  have hholds : Holds t.files held := by
    have := h.places.fits i
    rwa [hi] at this
  have howns : owns t (cs i) = held.map Prod.fst := by
    rw [hi]
    rfl
  have hplaces : Places journal (Function.update cs i (.emitted held r)) t := by
    refine h.places.move (fun _ _ _ _ => rfl) ⟨hscript, hfree, hholds⟩ (fun _ _ _ _ => rfl)
      (fun x hx => .inl (by rw [hi]; exact hx)) (fun p hp => .inl (howns.trans hp))
      fun p hp hne => absurd (howns.symm.trans hp) hne
  refine ⟨hplaces, h.slots.emit hfresh, fun k hk => ?_, h.journalPlace, h.journalOpen,
    h.journalLock.emit hi hjournal, h.dirLock.emit hi hdir, h.nodup, h.queued⟩
  obtain ⟨i', held', r', h', hslot⟩ := h.jobs k hk
  have hne : i' ≠ i := by
    rintro rfl
    rw [hi] at h'
    cases h'
  exact ⟨i', held', r', by rwa [Function.update_of_ne hne], hslot⟩

theorem Agree.complete {d : Done} (h : Agree journal cs t) (hi : cs i = .given held r d) :
    Agree journal
      (Function.update cs i (.idle (heldAfter held r.ops d.ok d.results))) t := by
  have hfits := h.places.fits i
  have howns : owns t (cs i) = (heldAfter held r.ops d.ok d.results).map Prod.fst := by
    rw [hi]
    rfl
  rw [hi] at hfits
  have hplaces : Places journal
      (Function.update cs i (.idle (heldAfter held r.ops d.ok d.results))) t := by
    refine h.places.move (fun _ _ _ _ => rfl) hfits.2.2.2 (fun _ _ _ _ => rfl) (fun x hx => .inr ?_)
      (fun p hp => .inl (howns.trans hp)) fun p hp hne => absurd (howns.symm.trans hp) hne
    rw [howns, show heldAfter held r.ops d.ok d.results = some x from hx]
    rfl
  refine ⟨hplaces, h.slots.idle _, fun k hk => ?_, h.journalPlace, h.journalOpen,
    h.journalLock.complete hi, h.dirLock.complete hi, h.nodup, h.queued⟩
  obtain ⟨i', held', r', h', hslot⟩ := h.jobs k hk
  have hne : i' ≠ i := by
    rintro rfl
    rw [hi] at h'
    cases h'
  exact ⟨i', held', r', by rwa [Function.update_of_ne hne], hslot⟩

/-! ## Taking a job -/

theorem Agree.enqueue {files : ℕ → File} {taken : List (Option ℕ)} (h : Agree journal cs t)
    (hi : cs i = .emitted held r)
    (hplaces : Places journal (Function.update cs i (.taken held r)) (t.enqueue r files taken))
    (hopen : OpenAt (files journal.1) journal.2
      (if names r.ops journal.1 then r.slot + 1 else (t.files journal.1).busy)) :
    Agree journal (Function.update cs i (.taken held r)) (t.enqueue r files taken) := by
  have hfree : (t.jobs r.slot).state = .free := by
    have := h.places.fits i
    rw [hi] at this
    exact this.2.1
  have hout : ∀ k ∈ t.queue, k ≠ r.slot := by
    rintro k hk rfl
    rw [h.queued _ hk] at hfree
    cases hfree
  have hlock := h.journalLock.take hi
  have hdirs := h.dirLock.take hi
  refine ⟨hplaces, h.slots.same (by rw [hi]; rfl), fun k hk => ?_, h.journalPlace, ?_, ?_, ?_, ?_,
    ?_⟩
  · rcases eq_or_ne k r.slot with rfl | hne
    · exact ⟨i, held, r, Function.update_self .., rfl⟩
    · simp only [Table.enqueue, Function.update_of_ne hne] at hk
      obtain ⟨i', held', r', h', hslot⟩ := h.jobs k hk
      have hother : i' ≠ i := by
        rintro rfl
        rw [hi] at h'
        cases h'
      exact ⟨i', held', r', by rwa [Function.update_of_ne hother], hslot⟩
  · exact ⟨hopen.isOpen, hopen.reserved, hopen.listing, hopen.gen, rfl⟩
  · rwa [← hopen.busy] at hlock
  · have hvalue : (t.enqueue r files taken).dirSyncs =
        if r.ops.contains .syncDir then 1 else t.dirSyncs := by
      by_cases hsync : r.ops.contains .syncDir = true
      · simp only [Table.enqueue, hsync, if_true, h.dirLock.free hi hsync, Bool.toNat_true]
      · simp only [Table.enqueue, hsync, Bool.toNat_false, if_false, Bool.false_eq_true]
        rfl
    rwa [hvalue]
  · refine List.nodup_append.mpr ⟨h.nodup, List.nodup_singleton _, ?_⟩
    rintro a ha b hb rfl
    exact hout a ha (List.mem_singleton.mp hb)
  · intro k hk
    rcases eq_or_ne k r.slot with rfl | hne
    · simp only [Table.enqueue, Function.update_self]
      rfl
    · simp only [Table.enqueue, Function.update_of_ne hne]
      refine h.queued k ?_
      obtain hk | hk := List.mem_append.mp hk
      · exact hk
      · exact absurd (List.mem_singleton.mp hk) hne

omit [DecidableEq ι] in
theorem Agree.other_jobs (h : Agree journal cs t) (hi : (cs i).request = some r) (j : Job) (i' : ι)
    (r' : Request) (hne : i' ≠ i) (h' : (cs i').request = some r') :
    Function.update t.jobs r.slot j r'.slot = t.jobs r'.slot := by
  refine Function.update_of_ne (fun hslot => hne ?_) ..
  exact h.slots i' i r' r h' hi hslot

theorem runs_queued (taken : List (Option ℕ)) : Runs (r.queued taken) r := by
  refine ⟨by simp [Request.queued], rfl, rfl, rfl, Nat.zero_le _, rfl, by simp [Request.queued], ?_⟩
  intro p g offset length at_ x _ hx
  simp [Request.queued] at hx

private theorem exists_freePlace {files : ℕ → File} {p : ℕ} (hp : p < places)
    (h : Shut (files p) 0) :
    ∃ q < places, FileJobs.freePlace files = some q ∧ Shut (files q) 0 := by
  have hvacant : (files p).vacant = true := by
    simp [File.vacant, h.isOpen, h.reserved, h.busy]
  have hsome : (FileJobs.freePlace files).isSome = true := by
    rw [FileJobs.freePlace, List.find?_isSome]
    exact ⟨p, List.mem_range.mpr hp, hvacant⟩
  obtain ⟨q, hq⟩ := Option.isSome_iff_exists.mp hsome
  have hmem := List.mem_range.mp (List.mem_of_find?_eq_some hq)
  have hfound : (files q).vacant = true := List.find?_some (p := fun p => (files p).vacant) hq
  simp only [File.vacant, Bool.and_eq_true, Bool.not_eq_true', beq_iff_eq] at hfound
  exact ⟨q, hmem, hq, hfound.1.1, hfound.1.2, hfound.2⟩

theorem Agree.take_opening [Fintype ι] {op : FileOp} (h : Agree journal cs t)
    (hcard : Fintype.card ι < FileJobs.places)
    (hgiven : ∀ i held r d, cs i ≠ .given held r d) (hi : cs i = .emitted none r) (hops : r.ops = [op])
    (hopens : op.opens = true) (hdir : op ≠ .openDir) (hsane : Sane op) :
    ∃ t', take t r = .ok t' ∧ Agree journal (Function.update cs i (.taken none r)) t' := by
  have howns : owns t (cs i) = none := by
    rw [hi]
    rfl
  have hfits := h.places.fits i
  rw [hi] at hfits
  obtain ⟨hscript, hfree, -⟩ := hfits
  obtain ⟨p, hp, -, -, hshut⟩ := h.places.exists_vacant hcard howns
  obtain ⟨q, hq, hplace, hshut⟩ := exists_freePlace hp hshut
  have hunowned : ∀ i', owns t (cs i') ≠ some q := fun i' hown =>
    ((h.places.fits i').owned hown).2 hshut
  have hjournal : q ≠ journal.1 := by
    rintro rfl
    simpa [h.journalOpen.isOpen] using hshut.isOpen
  refine ⟨_, FileScripts.take_opening hfree hops hopens hsane hplace, h.enqueue hi ?_ ?_⟩
  · have hown : owns (t.enqueue r (Function.update t.files q { t.files q with reserved := true })
        [some q]) (.taken none r) = some q := by
      simp only [owns, hops, opensAny_single hopens, if_true, Table.enqueue, Function.update_self]
      exact placeOf_reserved (runs_queued [some q]) rfl rfl
    have hkept : Reserved { t.files q with reserved := true } := ⟨hshut.isOpen, rfl, hshut.busy⟩
    refine h.places.move (h.other_jobs (by rw [hi]; rfl) _) ?_ ?_ (by rintro x ⟨⟩) ?_ ?_
    · refine ⟨hscript, ?_, ?_⟩ <;> simp only [Table.enqueue, Function.update_self]
      · exact runs_queued _
      · refine .reserved hops hopens hdir rfl rfl hq ?_
        rwa [Function.update_self]
    · intro p' _ _ hp'
      rw [hown] at hp'
      simp only [Table.enqueue]
      exact Function.update_of_ne (fun hq' => hp' (congrArg some hq'.symm)) ..
    · intro p' hp'
      rw [hown] at hp'
      obtain rfl := Option.some.inj hp'
      refine .inr ⟨hjournal, hunowned, fun i' x hx hxq => hunowned i' ?_⟩
      rw [(h.places.fits i').held_owned (hgiven i') hx, hxq]
    · intro p' hp'
      rw [howns] at hp'
      cases hp'
  · have hnot : names r.ops journal.1 = false := by
      rw [hops]
      simp [names, onFile_of_opens hopens]
    rw [hnot, Function.update_of_ne hjournal.symm]
    exact h.journalOpen

theorem Agree.take_working (h : Agree journal cs t) (hi : cs i = .emitted held r)
    (hpos : 1 ≤ r.ops.length) (hmax : r.ops.length ≤ FileJobs.maxOps)
    (hsane : ∀ op ∈ r.ops, Sane op) (hnamed : ∀ x, held = some x → names r.ops x.1 = true)
    (hworks : Works journal held r.ops) :
    (∃ t', take t r = .ok t' ∧ Agree journal (Function.update cs i (.taken held r)) t') ∨
      take t r = .error .offset ∧ ∃ op ∈ r.ops, Far op := by
  have howns : owns t (cs i) = held.map Prod.fst := by
    rw [hi]
    rfl
  have hfits := h.places.fits i
  rw [hi] at hfits
  obtain ⟨hscript, hfree, hholds⟩ := hfits
  have hoff : ∀ x, held = some x → x.1 ≠ journal.1 := by
    rintro x rfl hx
    exact h.places.offJournal i (howns.trans (congrArg some hx))
  have htakes : Takes t.files (marked t.files r.slot r.ops) r.slot [] r.ops := by
    refine hworks.takes hsane (fun x hx => ?_) fun hn => ?_
    · obtain ⟨hlt, hopen⟩ := hholds x hx
      exact ⟨⟨hlt, hopen.isOpen, hopen.gen, hopen.listing, .inl hopen.busy⟩, List.not_mem_nil,
        hoff x hx⟩
    · have hopen := h.journalOpen
      exact ⟨⟨h.journalPlace, hopen.isOpen, hopen.gen, hopen.listing,
        .inl (h.journalLock.free hi hn)⟩, List.not_mem_nil⟩
  obtain htake | hfar := FileScripts.take_working hfree hpos hmax (h.dirLock.free hi) htakes
  swap
  · exact .inr hfar
  refine .inl ⟨_, htake, h.enqueue hi ?_ ?_⟩
  · have hown : owns (t.enqueue r (marked t.files r.slot r.ops) (r.ops.map fun _ => none))
        (.taken held r) = held.map Prod.fst := by
      simp only [owns, hworks.opensAny, Bool.false_eq_true, if_false]
    have hsame : ∀ p, p ≠ journal.1 → held.map Prod.fst ≠ some p → names r.ops p = false := by
      intro p hp hne
      by_contra hn
      obtain ⟨op, hop, hany⟩ := List.any_eq_true.mp (Bool.not_eq_false _ |>.mp hn)
      obtain ⟨x, hx, hxp⟩ := (Option.any_eq_true _ _).mp hany
      obtain ⟨m, hm⟩ := List.mem_iff_getElem?.mp hop
      obtain rfl : x.1 = p := by simpa using hxp
      obtain ⟨hj, -⟩ | ⟨hheld, -⟩ := hworks.at_index hm hx
      · exact hp (congrArg Prod.fst hj)
      · exact hne (by rw [hheld]; rfl)
    refine h.places.move (h.other_jobs (by rw [hi]; rfl) _) ?_ ?_
      (fun x hx => .inl (by rw [hi]; exact hx)) ?_ ?_
    · refine ⟨hscript, ?_, ?_⟩ <;> simp only [Table.enqueue, Function.update_self]
      · exact runs_queued _
      · refine .working hworks.opensAny ?_ fun x hx => ?_
        · intro y hy
          obtain ⟨_, _, rfl⟩ := List.mem_map.mp hy
          rfl
        · obtain ⟨hlt, hopen⟩ := hholds x hx
          refine ⟨hlt, ?_⟩
          have hnone : closesAny (tried (r.queued (r.ops.map fun _ => none))) = false := rfl
          rw [hnone, if_neg Bool.false_ne_true]
          simp only [marked, hnamed x hx, if_true]
          exact ⟨hopen.isOpen, hopen.reserved, hopen.listing, hopen.gen, rfl⟩
    · intro p hp hne _
      rw [howns] at hne
      simp only [Table.enqueue, marked, hsame p hp hne, Bool.false_eq_true, if_false]
    · intro p hp
      exact .inl (howns.trans (hown.symm.trans hp))
    · intro p hp hne
      exact absurd (hown.trans (howns.symm.trans hp)) hne
  · have hopen := h.journalOpen
    by_cases hn : names r.ops journal.1 = true
    · simp only [marked, hn, if_true]
      exact ⟨hopen.isOpen, hopen.reserved, hopen.listing, hopen.gen, rfl⟩
    · simp only [marked, hn, if_false, Bool.false_eq_true]
      exact hopen

/-- **A request is taken**, unless it moves octets past a file's last offset. -/
theorem Agree.take [Fintype ι] (h : Agree journal cs t) (hcard : Fintype.card ι < FileJobs.places)
    (hgiven : ∀ i held r d, cs i ≠ .given held r d) (hi : cs i = .emitted held r) :
    (∃ t', take t r = .ok t' ∧ Agree journal (Function.update cs i (.taken held r)) t') ∨
      FileJobs.take t r = .error .offset ∧ ∃ op ∈ r.ops, Far op := by
  have hfits := h.places.fits i
  rw [hi] at hfits
  obtain ⟨hscript, -, -⟩ := hfits
  generalize hops : r.ops = ops at hscript
  cases hscript with
  | opening hopens hdir hsane => exact .inl (h.take_opening hcard hgiven hi hops hopens hdir hsane)
  | working hpos hmax hsane hnamed hworks =>
    subst hops
    exact h.take_working hi hpos hmax hsane hnamed hworks

end DragonsNet.Native.FileAgreement
