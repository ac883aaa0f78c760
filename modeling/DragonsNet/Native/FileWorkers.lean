/- GID: DragonsNet/Native/FileWorkers
   source: native/jobs.c
   digest: The workers' steps, and a completion given back, keep the table and its clients agreed. -/

import DragonsNet.Native.FileAgreement

set_option autoImplicit false

namespace DragonsNet.Native.FileWorkers

open FileJobs (FileOp File Job Request Table Done Outcome giveOne doneOf effect possible resultOf
  dataAfter splice begin_ finish JobState)
open FileScripts
open FileClients
open FileAgreement

variable {ι : Type} [DecidableEq ι] {journal : ℕ × ℕ} {cs : ι → Client} {t t' : Table} {i : ι}
  {held : Option (ℕ × ℕ)} {r : Request} {k : ℕ} {files : ℕ → File} {j : Job} {op : FileOp}
  {out : Outcome} {place : Option ℕ} {p : ℕ} {x : ℕ × ℕ} {f : File}

omit [DecidableEq ι] in
private theorem taken_fits (h : Agree journal cs t) (hk : (t.jobs k).state ≠ .free) :
    ∃ i held r, cs i = .taken held r ∧ r.slot = k ∧ Script journal held r.ops ∧
      Runs (t.jobs k) r ∧ Keeps t.files held r (t.jobs k) := by
  obtain ⟨i, held, r, hi, rfl⟩ := h.jobs k hk
  have hfits := h.places.fits i
  rw [hi] at hfits
  exact ⟨i, held, r, hi, rfl, hfits⟩

private theorem places_stay (h : Agree journal cs t) (hi : cs i = .taken held r) (hruns : Runs j r)
    (hkeeps : Keeps files held r j)
    (howns : opensAny r.ops = true → placeOf j = placeOf (t.jobs r.slot))
    (hfiles : ∀ p, p ≠ journal.1 → owns t (cs i) ≠ some p → files p = t.files p)
    (hjobs : t'.jobs = Function.update t.jobs r.slot j) (ht' : t'.files = files) :
    Places journal cs t' := by
  have hsame : owns t' (.taken held r) = owns t (cs i) := by
    rw [hi]
    simp only [owns, hjobs, Function.update_self]
    split
    · rename_i hopens
      exact howns hopens
    · rfl
  have hself : Function.update cs i (.taken held r) = cs := by
    rw [← hi]
    exact Function.update_eq_self i cs
  have hfits := h.places.fits i
  rw [hi] at hfits
  rw [← hself]
  refine h.places.move (fun i' r' hne h' => ?_) ⟨hfits.1, ?_, ?_⟩ (fun p hp hown _ => ?_)
    (fun x hx => .inl (by rw [hi]; exact hx)) (fun p hp => .inl (hsame.symm.trans hp))
    fun p hp hne => absurd (hsame.trans hp) hne
  · rw [hjobs]
    exact h.other_jobs (by rw [hi]; rfl) j i' r' hne h'
  · rwa [hjobs, Function.update_self]
  · rwa [hjobs, Function.update_self, ht']
  · rw [ht', hfiles p hp hown]

omit [DecidableEq ι] in
/-- A step of the workers: one job in flight changes, and what the journal's place and the directory
are kept by stays. -/
theorem agree_stay (h : Agree journal cs t) (hi : cs i = .taken held r)
    (hplaces : Places journal cs t') (hjobs : t'.jobs = Function.update t.jobs r.slot j)
    (hopen : OpenAt (t'.files journal.1) journal.2 (t.files journal.1).busy)
    (hdirs : t'.dirSyncs = t.dirSyncs) (hnodup : t'.queue.Nodup)
    (hqueued : ∀ k ∈ t'.queue, k ≠ r.slot ∧ (t.jobs k).state = .queued) : Agree journal cs t' := by
  refine ⟨hplaces, h.slots, fun k hk => ?_, h.journalPlace, ?_, ?_, ?_, hnodup, fun k hk => ?_⟩
  · rcases eq_or_ne k r.slot with rfl | hne
    · exact ⟨i, held, r, hi, rfl⟩
    · rw [hjobs, Function.update_of_ne hne] at hk
      exact h.jobs k hk
  · exact ⟨hopen.isOpen, hopen.reserved, hopen.listing, hopen.gen, rfl⟩
  · rw [hopen.busy]
    exact h.journalLock
  · rw [hdirs]
    exact h.dirLock
  · obtain ⟨hne, hqueued⟩ := hqueued k hk
    rwa [hjobs, Function.update_of_ne hne]

/-! ## A job begun and finished -/

theorem runs_state {x : JobState} (h : Runs (t.jobs k) r) (hx : x ≠ .free)
    (hover : x = .done → (t.jobs k).failed = true ∨ (t.jobs k).succeeded = r.ops.length) :
    Runs { t.jobs k with state := x } r :=
  ⟨hx, h.gen, h.ops, h.dirSync, h.bound, h.results, hover, h.reads⟩

theorem keeps_state {x : JobState} (h : Keeps t.files held r (t.jobs k)) :
    Keeps t.files held r { t.jobs k with state := x } := by
  cases h with
  | reserved hops hopens hdir hsucceeded hplace hlt hfile =>
    exact .reserved hops hopens hdir hsucceeded hplace hlt hfile
  | opened hops hopens hsucceeded hresults hplace hlt hfile =>
    exact .opened hops hopens hsucceeded hresults hplace hlt hfile
  | working hopens hplace hfile => exact .working hopens hplace hfile

omit [DecidableEq ι] in
private theorem not_queued (h : Agree journal cs t) (hk : (t.jobs k).state ≠ .queued) :
    ∀ k' ∈ t.queue, k' ≠ k ∧ (t.jobs k').state = .queued := by
  intro k' hk'
  have hqueued := h.queued k' hk'
  refine ⟨?_, hqueued⟩
  rintro rfl
  exact hk hqueued

theorem begin_agree (h : Agree journal cs t) (hstep : begin_ t = some t') : Agree journal cs t' := by
  unfold begin_ at hstep
  cases hqueue : t.queue with
  | nil =>
    rw [hqueue] at hstep
    cases hstep
  | cons k rest =>
    simp only [hqueue, Option.ite_none_right_eq_some, Option.some.injEq] at hstep
    obtain ⟨-, rfl⟩ := hstep
    have hk : (t.jobs k).state = .queued := h.queued k (by rw [hqueue]; exact List.mem_cons_self)
    have hnodup := h.nodup
    rw [hqueue, List.nodup_cons] at hnodup
    obtain ⟨i, held, r, hi, rfl, -, hruns, hkeeps⟩ := taken_fits h (k := k) (by rw [hk]; decide)
    refine agree_stay h hi (places_stay h hi (runs_state hruns (x := .running) (by decide) nofun)
      (keeps_state hkeeps) (fun _ => rfl) (fun _ _ _ => rfl) rfl rfl) rfl h.journalOpen rfl hnodup.2
      fun k' hk' => ⟨?_, h.queued k' (by rw [hqueue]; exact List.mem_cons_of_mem _ hk')⟩
    rintro rfl
    exact hnodup.1 hk'

theorem finish_agree (h : Agree journal cs t) (hstep : finish t k = some t') :
    Agree journal cs t' := by
  simp only [finish, Option.ite_none_right_eq_some, Option.some.injEq] at hstep
  obtain ⟨⟨hstate, hover⟩, rfl⟩ := hstep
  obtain ⟨i, held, r, hi, rfl, -, hruns, hkeeps⟩ := taken_fits h (k := k) (by rw [hstate]; decide)
  rw [hruns.ops] at hover
  exact agree_stay h hi (places_stay h hi (runs_state hruns (x := .done) (by decide) fun _ => hover)
    (keeps_state hkeeps) (fun _ => rfl) (fun _ _ _ => rfl) rfl rfl) rfl h.journalOpen rfl h.nodup
    (not_queued h (by rw [hstate]; decide))

/-! ## An operation run -/

private theorem effect_aside (hopens : op.opens = false) (h : op.onFile = none) :
    effect files k op place out = files := by
  cases op <;> simp_all [effect, FileOp.opens, FileOp.onFile]

private theorem effect_other (h : op.onFile = some x) (hp : p ≠ x.1) :
    effect files k op place out p = files p := by
  cases op <;> simp_all only [effect, FileOp.onFile, Option.some.injEq, reduceCtorEq] <;> subst h <;>
    exact Function.update_of_ne hp ..

private theorem effect_keep (files : ℕ → File) (place : Option ℕ) (out : Outcome)
    (h : op.onFile = some x)
    (hclose : op.isClose = false) :
    ∃ w, effect files k op place out x.1 = { files x.1 with written := w } := by
  cases op with
  | write p g offset length at_ | truncate p g length =>
    obtain rfl : (p, g) = x := by simpa [FileOp.onFile] using h
    exact ⟨true, Function.update_self ..⟩
  | close => cases hclose
  | create | open_ | openDir | rename | remove | syncDir => cases h
  | read | size | dataSync | sync | list => exact ⟨(files x.1).written, rfl⟩

private theorem effect_close (h : op.onFile = some x) (hclose : op.isClose = true) :
    effect files k op place out x.1 = .closed ((files x.1).gen + 1) (files x.1).busy := by
  cases op with
  | close p g =>
    obtain rfl : (p, g) = x := by simpa [FileOp.onFile] using h
    exact Function.update_self ..
  | _ => cases hclose

theorem OpenAt.written {g b : ℕ} (h : OpenAt f g b) (w : Bool) :
    OpenAt { f with written := w } g b :=
  ⟨h.isOpen, h.reserved, h.listing, h.gen, h.busy⟩

private theorem length_dataAfter (data : List UInt8) (op : FileOp) (octets : List UInt8) :
    data.length ≤ (dataAfter data op octets).length := by
  have hsplice : ∀ at_, data.length ≤ (splice data at_ octets).length := by
    intro at_
    simp only [splice, List.length_append, List.length_take, List.length_drop]
    omega
  cases op <;> first | exact hsplice _ | exact le_rfl

private theorem reads_ran {result : ℕ × ℕ} {octets : List UInt8} (h : Runs j r)
    (hop : r.ops[j.succeeded]? = some op) (hpossible : possible op (.ok result octets) = true) :
    ReadWithin r.ops (j.results ++ [resultOf files op place result])
      (dataAfter j.data op octets) := by
  intro p g offset length at_ x hread hx
  rcases Nat.eq_zero_or_pos j.succeeded with hzero | hpos
  · have hnil : j.results = [] := List.length_eq_zero_iff.mp (h.results.trans hzero)
    rw [hzero, hread] at hop
    obtain rfl := Option.some.inj hop
    simp only [hnil, List.nil_append, List.getElem?_cons_zero, Option.some.injEq] at hx
    simp only [possible, Bool.and_eq_true, decide_eq_true_eq, beq_iff_eq] at hpossible
    obtain ⟨hle, rfl⟩ := hpossible
    subst hx
    refine ⟨hle, ?_⟩
    simp only [resultOf, dataAfter, splice, List.length_append]
    omega
  · have hx' : j.results[0]? = some x := by
      rwa [List.getElem?_append_left (by rw [h.results]; exact hpos)] at hx
    obtain ⟨hle, hdata⟩ := h.reads p g offset length at_ x hread hx'
    exact ⟨hle, hdata.trans (length_dataAfter ..)⟩

theorem runs_ran (files : ℕ → File) (place : Option ℕ) (h : Runs j r) (hstate : j.state = .running)
    (hfailed : j.failed = false) (hop : r.ops[j.succeeded]? = some op)
    (hpossible : possible op out = true) : Runs (j.ran files op place out) r := by
  have hlt : j.succeeded < r.ops.length := (List.getElem?_eq_some_iff.mp hop).1
  cases out with
  | failed =>
    refine ⟨h.state, h.gen, h.ops, h.dirSync, hlt, h.results, ?_, h.reads⟩
    exact fun hdone => .inl rfl
  | ok result octets =>
    refine ⟨h.state, h.gen, h.ops, h.dirSync, ?_, ?_, ?_, reads_ran h hop hpossible⟩
    · simp only [Job.ran, hfailed, Bool.toNat_false]
      omega
    · simp only [Job.ran, List.length_append, List.length_singleton, h.results]
    · intro hdone
      simp only [Job.ran, hstate, reduceCtorEq] at hdone

private theorem tried_ran (out : Outcome) (hfailed : j.failed = false)
    (hop : j.ops[j.succeeded]? = some op)
    :
    tried (j.ran files op place out) = tried j ++ [op] := by
  have htake : j.ops.take (j.succeeded + 1) = j.ops.take j.succeeded ++ [op] := by
    rw [List.take_add_one, hop]
    rfl
  cases out <;> simp only [tried, Job.ran, hfailed, Bool.toNat_false, Bool.toNat_true, Nat.add_zero,
    htake]

private theorem closesAny_append (ops ops' : List FileOp) :
    closesAny (ops ++ ops') = (closesAny ops || closesAny ops') := by
  simp [closesAny]

theorem run_some (h : FileJobs.run t k out = some t') :
    ∃ op, (t.jobs k).ops[(t.jobs k).succeeded]? = some op ∧ (t.jobs k).state = .running ∧
      (t.jobs k).failed = false ∧ possible op out = true ∧
      t' = { t with
        files := effect t.files k op (t.jobs k).placeFor out
        jobs := Function.update t.jobs k
          ((t.jobs k).ran t.files op (t.jobs k).placeFor out) } := by
  unfold FileJobs.run at h
  cases hop : (t.jobs k).ops[(t.jobs k).succeeded]? with
  | none =>
    simp only [hop, reduceCtorEq] at h
  | some op =>
    simp only [hop, Option.ite_none_right_eq_some, Option.some.injEq] at h
    obtain ⟨⟨hstate, hfailed, hpossible⟩, rfl⟩ := h
    exact ⟨op, rfl, hstate, hfailed, hpossible, rfl⟩

private theorem agree_ran (h : Agree journal cs t) (hi : cs i = .taken held r)
    (hstate : (t.jobs r.slot).state = .running) (hruns : Runs j r) (hkeeps : Keeps files held r j)
    (howns : opensAny r.ops = true → placeOf j = placeOf (t.jobs r.slot))
    (hfiles : ∀ p, p ≠ journal.1 → owns t (cs i) ≠ some p → files p = t.files p)
    (hopen : OpenAt (files journal.1) journal.2 (t.files journal.1).busy) :
    Agree journal cs { t with files := files, jobs := Function.update t.jobs r.slot j } :=
  agree_stay h hi (places_stay h hi hruns hkeeps howns hfiles rfl rfl) rfl hopen rfl h.nodup
    (not_queued h (by rw [hstate]; decide))

theorem run_opening (h : Agree journal cs t) (hi : cs i = .taken held r)
    (hstate : (t.jobs r.slot).state = .running) (hruns : Runs (t.jobs r.slot) r)
    (hruns' : Runs ((t.jobs r.slot).ran t.files op (t.jobs r.slot).placeFor out) r)
    (hops : r.ops = [op]) (hopens : op.opens = true) (hdir : op ≠ .openDir)
    (hsucceeded : (t.jobs r.slot).succeeded = 0) (hplace : (t.jobs r.slot).place = [some p])
    (hlt : p < FileJobs.places) (hfile : Reserved (t.files p)) :
    Agree journal cs { t with
      files := effect t.files r.slot op (t.jobs r.slot).placeFor out
      jobs := Function.update t.jobs r.slot
        ((t.jobs r.slot).ran t.files op (t.jobs r.slot).placeFor out) } := by
  have hfor : (t.jobs r.slot).placeFor = some p := by
    simp [Job.placeFor, hsucceeded, hplace]
  have hnil : (t.jobs r.slot).results = [] :=
    List.length_eq_zero_iff.mp (hruns.results.trans hsucceeded)
  have hown : owns t (cs i) = some p := by
    rw [hi]
    simp only [owns, hops, opensAny_single hopens, if_true]
    exact placeOf_reserved hruns hsucceeded hplace
  have hjournal : journal.1 ≠ p := by
    rintro rfl
    exact h.places.offJournal i hown
  rw [hfor] at hruns' ⊢
  cases out with
  | failed =>
    have hfiles : effect t.files r.slot op (some p) .failed = t.files := by
      cases op <;> first | rfl | cases hopens
    refine agree_ran h hi hstate hruns' ?_ (fun _ => rfl) (fun q _ _ => ?_) ?_
    · rw [hfiles]
      exact .reserved hops hopens hdir hsucceeded hplace hlt hfile
    · rw [hfiles]
    · rw [hfiles]
      exact h.journalOpen
  | ok result octets =>
    have hfiles : effect t.files r.slot op (some p) (.ok result octets) =
        Function.update t.files p (.opened false (r.slot + 1) result.1 (t.files p).gen) := by
      cases op <;> first | exact absurd rfl hdir | rfl | cases hopens
    have hresult : resultOf t.files op (some p) result = (p, (t.files p).gen) := by
      cases op <;> first | rfl | cases hopens
    refine agree_ran h hi hstate hruns' ?_ (fun _ => ?_) (fun q _ hq => ?_) ?_
    · refine .opened (p := p) (g := (t.files p).gen) hops hopens ?_ ?_ ?_ hlt ?_
      · simp only [Job.ran, hsucceeded]
      · simp only [Job.ran, hnil, hresult, List.nil_append]
      · simp only [Job.ran, hplace, hsucceeded, List.set_cons_zero]
      · rw [hfiles, Function.update_self]
        exact ⟨rfl, rfl, rfl, rfl, rfl⟩
    · rw [placeOf_reserved hruns hsucceeded hplace]
      simp only [placeOf, Job.ran, hnil, hresult, List.nil_append]
    · rw [hfiles]
      exact Function.update_of_ne (fun hqp => hq (hown.trans (congrArg some hqp.symm))) ..
    · rw [hfiles, Function.update_of_ne hjournal]
      exact h.journalOpen

private theorem place_ran (h : ∀ x ∈ j.place, x = none) :
    ∀ x ∈ (j.ran files op place out).place, x = none := by
  cases out with
  | failed => exact h
  | ok result octets =>
    intro x hx
    obtain hx | hx := List.mem_or_eq_of_mem_set hx
    · exact h x hx
    · exact hx

private theorem effect_own (place : Option ℕ) (out : Outcome) {b : ℕ} (hx : op.onFile = some x)
    (hopen : OpenAt (files x.1) x.2 b) :
    if op.isClose then Shut (effect files k op place out x.1) b
    else OpenAt (effect files k op place out x.1) x.2 b := by
  split
  · rename_i hclose
    rw [effect_close hx hclose]
    exact ⟨rfl, rfl, hopen.busy⟩
  · rename_i hclose
    obtain ⟨w, hw⟩ := effect_keep (k := k) files place out hx (Bool.not_eq_true _ ▸ hclose)
    rw [hw]
    exact OpenAt.written hopen w

private theorem agree_working (h : Agree journal cs t)
    (hi : cs i = .taken held r) (hstate : (t.jobs r.slot).state = .running) (hruns : Runs j r)
    (hopens : opensAny r.ops = false) (hplace : ∀ x ∈ j.place, x = none)
    (hfile : ∀ x, held = some x → x.1 < FileJobs.places ∧
      if closesAny (tried j) then Shut (files x.1) (r.slot + 1)
      else OpenAt (files x.1) x.2 (r.slot + 1))
    (hfiles : ∀ p, p ≠ journal.1 → owns t (cs i) ≠ some p → files p = t.files p)
    (hopen : OpenAt (files journal.1) journal.2 (t.files journal.1).busy) :
    Agree journal cs { t with files := files, jobs := Function.update t.jobs r.slot j } := by
  refine agree_ran h hi hstate hruns (.working hopens hplace hfile) (fun ho => ?_) hfiles hopen
  rw [hopens] at ho
  cases ho

/-- An operation of a client's work is run: it touches the client's file, which it may close, or the
journal's. -/
theorem run_working (h : Agree journal cs t)
    (hi : cs i = .taken held r) (hstate : (t.jobs r.slot).state = .running)
    (hfailed : (t.jobs r.slot).failed = false) (hruns : Runs (t.jobs r.slot) r)
    (hruns' : Runs ((t.jobs r.slot).ran t.files op (t.jobs r.slot).placeFor out) r)
    (hop : r.ops[(t.jobs r.slot).succeeded]? = some op) (hworks : Works journal held r.ops)
    (hplace : ∀ x ∈ (t.jobs r.slot).place, x = none)
    (hfile : ∀ x, held = some x → x.1 < FileJobs.places ∧
      if closesAny (tried (t.jobs r.slot)) then Shut (t.files x.1) (r.slot + 1)
      else OpenAt (t.files x.1) x.2 (r.slot + 1)) :
    Agree journal cs { t with
      files := effect t.files r.slot op (t.jobs r.slot).placeFor out
      jobs := Function.update t.jobs r.slot
        ((t.jobs r.slot).ran t.files op (t.jobs r.slot).placeFor out) } := by
  have hown : owns t (cs i) = held.map Prod.fst := by
    rw [hi]
    simp only [owns, hworks.opensAny, Bool.false_eq_true, if_false]
  have hoff : ∀ x, held = some x → x.1 ≠ journal.1 := by
    rintro x rfl hx
    exact h.places.offJournal i (hown.trans (congrArg some hx))
  have hopens : op.opens = false := by
    have := List.any_eq_false.mp hworks.opensAny op (List.mem_of_getElem? hop)
    simpa using this
  have htried : tried ((t.jobs r.slot).ran t.files op (t.jobs r.slot).placeFor out) =
      tried (t.jobs r.slot) ++ [op] := tried_ran out hfailed (by rwa [hruns.ops])
  have hbefore : tried (t.jobs r.slot) = r.ops.take (t.jobs r.slot).succeeded := by
    simp only [tried, hfailed, Bool.toNat_false, Nat.add_zero, hruns.ops]
  have hplace' : ∀ x ∈ ((t.jobs r.slot).ran t.files op (t.jobs r.slot).placeFor out).place,
      x = none := place_ran hplace
  -- Which file the operation is on: none, the journal's or the client's.
  cases hx : op.onFile with
  | none =>
    have hfiles : effect t.files r.slot op (t.jobs r.slot).placeFor out = t.files :=
      effect_aside hopens hx
    rw [hfiles]
    refine agree_working h hi hstate hruns' hworks.opensAny hplace' (fun x hheld => ?_)
      (fun q _ _ => rfl) h.journalOpen
    rw [htried, closesAny_append]
    simpa [closesAny, isClose_of_onFile_none hx] using hfile x hheld
  | some y =>
    have hother : ∀ q, q ≠ y.1 →
        effect t.files r.slot op (t.jobs r.slot).placeFor out q = t.files q := fun q =>
      effect_other hx
    obtain ⟨hy, hkeep⟩ | ⟨hheld, hopen⟩ := hworks.at_index hop hx
    · refine agree_working h hi hstate hruns' hworks.opensAny hplace' (fun x hheld => ?_)
        (fun q hq _ => hother q (hy ▸ hq)) ?_
      · have hne : x.1 ≠ y.1 := hy ▸ hoff x hheld
        rw [htried, closesAny_append, hother x.1 hne]
        simpa [closesAny, hkeep] using hfile x hheld
      · have hopen := h.journalOpen
        rw [← hy] at hopen ⊢
        have hown := effect_own (k := r.slot) (t.jobs r.slot).placeFor out hx hopen
        rwa [hkeep, if_neg Bool.false_ne_true] at hown
    · obtain ⟨hlt, hbe⟩ := hfile y hheld
      rw [hbefore, hopen, if_neg Bool.false_ne_true] at hbe
      refine agree_working h hi hstate hruns' hworks.opensAny hplace' (fun x hheld' => ?_)
        (fun q _ hq => ?_) ?_
      · obtain rfl : y = x := Option.some.inj (hheld.symm.trans hheld')
        refine ⟨hlt, ?_⟩
        rw [htried, closesAny_append, hbefore, hopen, Bool.false_or]
        simpa [closesAny] using effect_own _ _ hx hbe
      · refine hother q fun hqy => hq ?_
        rw [hown, hheld, hqy]
        rfl
      · rw [hother journal.1 (hoff y hheld).symm]
        exact h.journalOpen

theorem run_agree (h : Agree journal cs t) (hstep : FileJobs.run t k out = some t') :
    Agree journal cs t' := by
  obtain ⟨op, hop, hstate, hfailed, hpossible, rfl⟩ := run_some hstep
  obtain ⟨i, held, r, hi, rfl, hscript, hruns, hkeeps⟩ :=
    taken_fits h (k := k) (by rw [hstate]; decide)
  rw [hruns.ops] at hop
  have hruns' := runs_ran t.files (t.jobs r.slot).placeFor hruns hstate hfailed hop hpossible
  cases hkeeps with
  | @reserved op' p hops hopens hdir hsucceeded hplace hlt hfile =>
    obtain rfl : op' = op := by simpa [hsucceeded, hops] using hop
    exact run_opening h hi hstate hruns hruns' hops hopens hdir hsucceeded hplace hlt hfile
  | @opened op' p g hops hopens hsucceeded hresults hplace hlt hfile =>
    simp [hsucceeded, hops] at hop
  | working hopens hplace hfile =>
    have hworks : Works journal held r.ops := by
      generalize r.ops = ops at hscript hopens
      cases hscript with
      | opening ho _ _ => simp [opensAny, ho] at hopens
      | working _ _ _ _ hworks => exact hworks
    exact run_working h hi hstate hfailed hruns hruns' hop hworks hplace hfile

/-! ## A completion given back -/

private theorem owned_busy {c : Client} (h : Fits journal t c) (hown : owns t c = some p) :
    (t.files p).busy = 0 ∨ ∃ r, c.request = some r ∧ (t.files p).busy = r.slot + 1 := by
  have of_holds : ∀ {held : Option (ℕ × ℕ)}, Holds t.files held → held.map Prod.fst = some p →
      (t.files p).busy = 0 := by
    intro held hholds hmap
    obtain ⟨x, hx, rfl⟩ := Option.map_eq_some_iff.mp hmap
    exact (hholds x hx).2.busy
  cases c with
  | idle held => exact .inl (of_holds h hown)
  | emitted held r => exact .inl (of_holds h.2.2 hown)
  | given held r d => exact .inl (of_holds h.2.2.2 hown)
  | taken held r =>
    obtain ⟨-, hruns, hkeeps⟩ := h
    cases hkeeps with
    | @reserved op q hops hopens hdir hsucceeded hplace hlt hfile =>
      simp only [owns, hops, opensAny_single hopens, if_true,
        placeOf_reserved hruns hsucceeded hplace, Option.some.injEq] at hown
      subst hown
      exact .inl hfile.busy
    | @opened op q g hops hopens hsucceeded hresults hplace hlt hfile =>
      simp only [owns, hops, opensAny_single hopens, if_true, placeOf, hresults,
        Option.some.injEq] at hown
      subst hown
      exact .inr ⟨r, rfl, hfile.busy⟩
    | working hopens hplace hfile =>
      simp only [owns, hopens, Bool.false_eq_true, if_false] at hown
      obtain ⟨x, hx, rfl⟩ := Option.map_eq_some_iff.mp hown
      have hx := (hfile x hx).2
      refine .inr ⟨r, rfl, ?_⟩
      split at hx
      · exact hx.busy
      · exact hx.busy

private theorem reserved_owned (hruns : Runs (t.jobs r.slot) r)
    (hkeeps : Keeps t.files held r (t.jobs r.slot)) (hp : some p ∈ (t.jobs r.slot).place) :
    owns t (.taken held r) = some p := by
  cases hkeeps with
  | @reserved op q hops hopens hdir hsucceeded hplace hlt hfile =>
    simp only [owns, hops, opensAny_single hopens, if_true,
      placeOf_reserved hruns hsucceeded hplace]
    rw [hplace, List.mem_singleton] at hp
    exact hp.symm
  | @opened op q g hops hopens hsucceeded hresults hplace hlt hfile =>
    rw [hplace, List.mem_singleton] at hp
    cases hp
  | working hopens hplace hfile => cases hplace _ hp

private theorem letGo_other (h : f.busy ≠ k + 1) : f.letGo k false = f := by
  simp [File.letGo, h]

private theorem letGo_open {g : ℕ} (h : OpenAt f g (k + 1)) : OpenAt (f.letGo k false) g 0 :=
  ⟨h.isOpen, by simp [File.letGo, h.reserved], h.listing, h.gen, by simp [File.letGo, h.busy]⟩

private theorem letGo_shut (h : Shut f (k + 1)) : Shut (f.letGo k false) 0 :=
  ⟨h.isOpen, by simp [File.letGo, h.reserved], by simp [File.letGo, h.busy]⟩

private theorem letGo_reserved (h : Reserved f) : Shut (f.letGo k true) 0 :=
  ⟨h.isOpen, by simp [File.letGo], by simp [File.letGo, h.busy]⟩

private theorem tried_over (hruns : Runs j r) (hdone : j.state = .done) :
    tried j = r.ops.take (j.succeeded + 1) := by
  rw [tried, hruns.ops]
  cases hfailed : j.failed with
  | true => rfl
  | false =>
    have hall : j.succeeded = r.ops.length := by
      simpa [hfailed] using hruns.finished hdone
    rw [Bool.toNat_false, Nat.add_zero, hall, List.take_length, List.take_of_length_le (by omega)]

private theorem gives_held (hruns : Runs (t.jobs r.slot) r)
    (hkeeps : Keeps t.files held r (t.jobs r.slot)) (hdone : (t.jobs r.slot).state = .done) :
    Holds (giveOne t r.slot).files
        (heldAfter held r.ops (t.jobs r.slot).succeeded (t.jobs r.slot).results) ∧
      ∀ p, owns t (.taken held r) = some p →
        (heldAfter held r.ops (t.jobs r.slot).succeeded (t.jobs r.slot).results).map Prod.fst =
          some p ∨
        heldAfter held r.ops (t.jobs r.slot).succeeded (t.jobs r.slot).results = none ∧
          Shut ((giveOne t r.slot).files p) 0 := by
  cases hkeeps with
  | @reserved op q hops hopens hdir hsucceeded hplace hlt hfile =>
    have hnil : (t.jobs r.slot).results = [] :=
      List.length_eq_zero_iff.mp (hruns.results.trans hsucceeded)
    have hafter : heldAfter held r.ops (t.jobs r.slot).succeeded (t.jobs r.slot).results = none := by
      simp only [heldAfter, hops, opensAny_single hopens, if_true, hnil, List.head?_nil]
    rw [hafter]
    refine ⟨nofun, fun p hp => .inr ⟨rfl, ?_⟩⟩
    simp only [owns, hops, opensAny_single hopens, if_true,
      placeOf_reserved hruns hsucceeded hplace, Option.some.injEq] at hp
    subst hp
    have hcontains : (t.jobs r.slot).place.contains (some q) = true := by simp [hplace]
    simp only [giveOne, hcontains]
    exact letGo_reserved hfile
  | @opened op q g hops hopens hsucceeded hresults hplace hlt hfile =>
    have hafter : heldAfter held r.ops (t.jobs r.slot).succeeded (t.jobs r.slot).results =
        some (q, g) := by
      simp only [heldAfter, hops, opensAny_single hopens, if_true, hresults, List.head?_cons]
    rw [hafter]
    refine ⟨fun x hx => ?_, fun p hp => .inl ?_⟩
    · obtain rfl := Option.some.inj hx
      have hcontains : (t.jobs r.slot).place.contains (some q) = false := by simp [hplace]
      refine ⟨hlt, ?_⟩
      simp only [giveOne, hcontains]
      exact letGo_open hfile
    · simp only [owns, hops, opensAny_single hopens, if_true, placeOf, hresults,
        Option.some.injEq] at hp
      rw [← hp]
      rfl
  | working hopens hplace hfile =>
    have hcontains : ∀ p, (t.jobs r.slot).place.contains (some p) = false := by
      intro p
      by_contra hp
      simpa using hplace _ (List.contains_iff_mem.mp (Bool.not_eq_false _ |>.mp hp))
    have htried := tried_over hruns hdone
    by_cases hclosed : closesAny (tried (t.jobs r.slot)) = true
    · have hafter : heldAfter held r.ops (t.jobs r.slot).succeeded (t.jobs r.slot).results =
          none := by
        simp only [heldAfter, hopens, Bool.false_eq_true, if_false, ← htried, hclosed, if_true]
      rw [hafter]
      refine ⟨nofun, fun p hp => .inr ⟨rfl, ?_⟩⟩
      simp only [owns, hopens, Bool.false_eq_true, if_false] at hp
      obtain ⟨x, hx, rfl⟩ := Option.map_eq_some_iff.mp hp
      have hx := (hfile x hx).2
      rw [if_pos hclosed] at hx
      simp only [giveOne, hcontains]
      exact letGo_shut hx
    · have hafter : heldAfter held r.ops (t.jobs r.slot).succeeded (t.jobs r.slot).results =
          held := by
        simp only [heldAfter, hopens, Bool.false_eq_true, if_false, ← htried, hclosed]
      rw [hafter]
      refine ⟨fun x hx => ?_, fun p hp => .inl ?_⟩
      · obtain ⟨hlt, hx⟩ := hfile x hx
        rw [if_neg hclosed] at hx
        refine ⟨hlt, ?_⟩
        simp only [giveOne, hcontains]
        exact letGo_open hx
      · simpa only [owns, hopens, Bool.false_eq_true, if_false] using hp

omit [DecidableEq ι] in
private theorem give_other (h : Agree journal cs t) (hi : cs i = .taken held r)
    (hruns : Runs (t.jobs r.slot) r) (hkeeps : Keeps t.files held r (t.jobs r.slot))
    (hp : p ≠ journal.1) (hne : owns t (cs i) ≠ some p) :
    (giveOne t r.slot).files p = t.files p := by
  have hreq : (cs i).request = some r := by
    rw [hi]
    rfl
  have hkept : (t.jobs r.slot).place.contains (some p) = false := by
    by_contra hcontains
    rw [Bool.not_eq_false, List.contains_iff_mem] at hcontains
    rw [hi] at hne
    exact hne (reserved_owned hruns hkeeps hcontains)
  simp only [giveOne, hkept]
  refine letGo_other fun hbusy => ?_
  by_cases hnone : ∀ i', owns t (cs i') ≠ some p
  · have := (h.places.vacant p hp hnone).busy
    omega
  · push Not at hnone
    obtain ⟨i', hi'⟩ := hnone
    obtain hzero | ⟨r', hr', hbusy'⟩ := owned_busy (h.places.fits i') hi'
    · omega
    · obtain rfl := h.slots i' i r' r hr' hreq (by omega)
      exact hne hi'

private theorem given_owned
    (hp : (heldAfter held r.ops (t.jobs r.slot).succeeded (t.jobs r.slot).results).map Prod.fst =
      some p) : owns t (.taken held r) = some p := by
  obtain ⟨x, hx, rfl⟩ := Option.map_eq_some_iff.mp hp
  by_cases hopens : opensAny r.ops = true
  · simp only [heldAfter, hopens, if_true] at hx
    simp only [owns, hopens, if_true, placeOf]
    cases hresults : (t.jobs r.slot).results with
    | nil => simp [hresults] at hx
    | cons y ys =>
      simp only [hresults, List.head?_cons, Option.some.injEq] at hx
      rw [hx]
  · simp only [heldAfter, hopens, if_false, Bool.false_eq_true] at hx
    simp only [owns, hopens, if_false, Bool.false_eq_true]
    split at hx
    · cases hx
    · rw [hx]
      rfl

omit [DecidableEq ι] in
private theorem give_journal (h : Agree journal cs t) (hi : cs i = .taken held r) :
    ((giveOne t r.slot).files journal.1).busy =
      if names r.ops journal.1 then 0 else (t.files journal.1).busy := by
  have hreq : (cs i).request = some r := by
    rw [hi]
    rfl
  simp only [giveOne, File.letGo]
  by_cases hn : names r.ops journal.1 = true
  · rw [h.journalLock.inUse i held r hi hn, if_pos rfl, if_pos hn]
  · rw [if_neg hn, if_neg]
    intro hbusy
    obtain hzero | ⟨i', r', hne, hr', hvalue⟩ := h.journalLock.other (by simpa using hn) hi
    · omega
    · exact hne (h.slots i' i r' r hr' hreq (by omega))

omit [DecidableEq ι] in
private theorem give_dir (h : Agree journal cs t) (hi : cs i = .taken held r)
    (hruns : Runs (t.jobs r.slot) r) :
    (giveOne t r.slot).dirSyncs = if r.ops.contains .syncDir then 0 else t.dirSyncs := by
  simp only [giveOne, hruns.dirSync]
  by_cases hsync : r.ops.contains .syncDir = true
  · rw [h.dirLock.inUse i held r hi hsync, hsync, if_pos rfl]
    rfl
  · rw [Bool.not_eq_true] at hsync
    rw [hsync]
    rfl

private theorem give_places (h : Agree journal cs t) (hi : cs i = .taken held r)
    (hscript : Script journal held r.ops) (hruns : Runs (t.jobs r.slot) r)
    (hkeeps : Keeps t.files held r (t.jobs r.slot)) (hdone : (t.jobs r.slot).state = .done) :
    Places journal (Function.update cs i (.given held r (doneOf t r.slot)))
      (giveOne t r.slot) := by
  have hreq : (cs i).request = some r := by
    rw [hi]
    rfl
  have hown : owns t (cs i) = owns t (.taken held r) := by rw [hi]
  obtain ⟨hholds, hplace⟩ := gives_held hruns hkeeps hdone
  refine h.places.move (h.other_jobs hreq _) ⟨hscript, ?_, ?_, hholds⟩
    (fun p hp hne _ => give_other h hi hruns hkeeps hp hne)
    (fun x hx => .inl (by rw [hi]; exact hx))
    (fun p hp => .inl (hown.trans (given_owned hp))) fun p hp hne => ?_
  · simp only [giveOne, Table.setState, Function.update_self]
  · exact ⟨rfl, hruns.gen, by have := hruns.bound; simp only [doneOf]; omega, hruns.results,
      hruns.reads⟩
  · obtain hsame | ⟨-, hshut⟩ := hplace p (hown.symm.trans hp)
    · exact absurd hsame hne
    · exact hshut

/-- **A completion is given back**, and its client and the table agree on what it kept. -/
theorem give_agree (h : Agree journal cs t) (hk : (t.jobs k).state = .done) :
    ∃ i held r, cs i = .taken held r ∧ r.slot = k ∧
      Agree journal (Function.update cs i (.given held r (doneOf t k))) (giveOne t k) := by
  obtain ⟨i, held, r, hi, rfl, hscript, hruns, hkeeps⟩ := taken_fits h (k := k) (by rw [hk]; decide)
  refine ⟨i, held, r, hi, rfl, give_places h hi hscript hruns hkeeps hk,
    h.slots.same (by rw [hi]; rfl), fun k' hk' => ?_, h.journalPlace, ?_, ?_, ?_, h.nodup,
    fun k' hk' => ?_⟩
  · rcases eq_or_ne k' r.slot with rfl | hne
    · simp [giveOne, Table.setState] at hk'
    · simp only [giveOne, Table.setState, Function.update_of_ne hne] at hk'
      obtain ⟨i', held', r', hi', hslot⟩ := h.jobs k' hk'
      have hother : i' ≠ i := by
        rintro rfl
        rw [hi] at hi'
        cases hi'
        exact hne hslot.symm
      exact ⟨i', held', r', by rwa [Function.update_of_ne hother], hslot⟩
  · have hjournal := h.journalOpen
    refine ⟨hjournal.isOpen, ?_, hjournal.listing, hjournal.gen, rfl⟩
    simp only [giveOne, File.letGo, hjournal.reserved, Bool.false_and]
  · rw [give_journal h hi]
    exact h.journalLock.give hi
  · rw [give_dir h hi hruns]
    exact h.dirLock.give hi
  · obtain ⟨hne, hqueued⟩ := not_queued h (k := r.slot) (by rw [hk]; decide) k' hk'
    simp only [giveOne, Table.setState, Function.update_of_ne hne]
    exact hqueued

/-! ## All the slots in turn -/

def took : Client → Client
  | .emitted held r => .taken held r
  | c => c

/-- **The host takes every request its clients have emitted**, unless one moves octets past a file's
last offset. -/
theorem takeFrom_agree [Fintype ι] (rs : List Request) (ks : List ℕ)
    (hcard : Fintype.card ι < FileJobs.places) (h : Agree journal cs t) (hks : ks.Nodup)
    (hgiven : ∀ i held r d, cs i ≠ .given held r d)
    (hemitted : ∀ i held r, cs i = .emitted held r →
      r.slot ∈ ks ∧ rs.find? (·.slot == r.slot) = some r)
    (hfound : ∀ k ∈ ks, ∀ r, rs.find? (·.slot == k) = some r → ∃ i held, cs i = .emitted held r) :
    (∃ t', FileJobs.takeFrom rs t ks = .ok t' ∧ Agree journal (fun i => took (cs i)) t') ∨
      FileJobs.takeFrom rs t ks = .error .offset ∧ ∃ r ∈ rs, ∃ op ∈ r.ops, Far op := by
  induction ks generalizing cs t with
  | nil =>
    have hsame : (fun i => took (cs i)) = cs := by
      funext i
      cases hi : cs i with
      | emitted held r => exact absurd (hemitted i held r hi).1 List.not_mem_nil
      | _ => rfl
    exact .inl ⟨t, rfl, hsame.symm ▸ h⟩
  | cons k ks ih =>
    obtain ⟨hnot, hnodup⟩ := List.nodup_cons.mp hks
    cases hfind : rs.find? (·.slot == k) with
    | none =>
      have hstep : FileJobs.takeFrom rs t (k :: ks) = FileJobs.takeFrom rs t ks := by
        simp only [FileJobs.takeFrom, hfind]
      rw [hstep]
      refine ih h hnodup hgiven (fun i held r hi => ?_) fun k' hk' => hfound k' (.tail k hk')
      obtain ⟨hmem, hr⟩ := hemitted i held r hi
      refine ⟨(List.mem_cons.mp hmem).resolve_left ?_, hr⟩
      rintro rfl
      rw [hfind] at hr
      cases hr
    | some r =>
      obtain ⟨i, held, hi⟩ := hfound k List.mem_cons_self r hfind
      have hslot : r.slot = k := by simpa using List.find?_some hfind
      obtain ⟨t₁, htake, h₁⟩ | ⟨htake, hfar⟩ := h.take hcard hgiven hi
      · have hstep : FileJobs.takeFrom rs t (k :: ks) = FileJobs.takeFrom rs t₁ ks := by
          simp only [FileJobs.takeFrom, hfind, htake]
          rfl
        have hsame : (fun i' => took (Function.update cs i (.taken held r) i')) =
            fun i' => took (cs i') := by
          funext i'
          rcases eq_or_ne i' i with rfl | hne
          · rw [Function.update_self, hi]
            rfl
          · rw [Function.update_of_ne hne]
        rw [hstep, ← hsame]
        refine ih h₁ hnodup (fun i' held' r' d hi' => ?_) (fun i' held' r' hi' => ?_)
          fun k' hk' r' hr' => ?_
        · rcases eq_or_ne i' i with rfl | hne
          · rw [Function.update_self] at hi'
            cases hi'
          · rw [Function.update_of_ne hne] at hi'
            exact hgiven i' held' r' d hi'
        · rcases eq_or_ne i' i with rfl | hne
          · rw [Function.update_self] at hi'
            cases hi'
          · rw [Function.update_of_ne hne] at hi'
            obtain ⟨hmem, hr'⟩ := hemitted i' held' r' hi'
            refine ⟨(List.mem_cons.mp hmem).resolve_left fun hk' => hne ?_, hr'⟩
            exact h.slots i' i r' r (by rw [hi']; rfl) (by rw [hi]; rfl) (hk'.trans hslot.symm)
        · obtain ⟨i', held', hi'⟩ := hfound k' (.tail k hk') r' hr'
          have hslot' : r'.slot = k' := by simpa using List.find?_some hr'
          have hne : i' ≠ i := by
            rintro rfl
            rw [hi] at hi'
            cases hi'
            exact hnot (hslot ▸ hslot' ▸ hk')
          exact ⟨i', held', by rwa [Function.update_of_ne hne]⟩
      · refine .inr ⟨?_, r, List.mem_of_find?_eq_some hfind, hfar⟩
        simp only [FileJobs.takeFrom, hfind, htake]
        rfl

/-- **The host gives back every job that is done**: the clients with a completion are those of the
completions reported, and know nothing of it yet. -/
theorem giveFrom_agree (ks : List ℕ) (h : Agree journal cs t) :
    ∃ cs', Agree journal cs' (FileJobs.giveFrom t ks).2 ∧
      (∀ i, cs' i = cs i ∨ ∃ held r, ∃ d ∈ (FileJobs.giveFrom t ks).1,
        cs i = .taken held r ∧ cs' i = .given held r d) ∧
      ∀ d ∈ (FileJobs.giveFrom t ks).1, ∃ i held r, cs' i = .given held r d := by
  induction ks generalizing cs t with
  | nil => exact ⟨cs, h, fun i => .inl rfl, nofun⟩
  | cons k ks ih =>
    by_cases hk : (t.jobs k).state = .done
    · obtain ⟨i, held, r, hi, -, h₁⟩ := give_agree h hk
      obtain ⟨cs', h', hcases, hgiven⟩ := ih h₁
      simp only [FileJobs.giveFrom, hk, if_true]
      refine ⟨cs', h', fun i' => ?_, fun d hd => ?_⟩
      · obtain hsame | ⟨held', r', d, hd, htaken, hgiven'⟩ := hcases i'
        · rcases eq_or_ne i' i with rfl | hne
          · rw [Function.update_self] at hsame
            exact .inr ⟨held, r, doneOf t k, List.mem_cons_self, hi, hsame⟩
          · rw [Function.update_of_ne hne] at hsame
            exact .inl hsame
        · refine .inr ⟨held', r', d, List.mem_cons_of_mem _ hd, ?_, hgiven'⟩
          rcases eq_or_ne i' i with rfl | hne
          · rw [Function.update_self] at htaken
            cases htaken
          · rwa [Function.update_of_ne hne] at htaken
      · obtain rfl | hd := List.mem_cons.mp hd
        · refine ⟨i, held, r, ?_⟩
          obtain hsame | ⟨held', r', d, -, htaken, -⟩ := hcases i
          · rwa [Function.update_self] at hsame
          · rw [Function.update_self] at htaken
            cases htaken
        · exact hgiven d hd
    · have hstep : FileJobs.giveFrom t (k :: ks) = FileJobs.giveFrom t ks := by
        simp only [FileJobs.giveFrom, hk, if_false]
      rw [hstep]
      exact ih h

theorem giveFrom_slots (t : Table) (ks : List ℕ) :
    ((FileJobs.giveFrom t ks).1.map Done.slot).Sublist ks := by
  induction ks generalizing t with
  | nil => exact List.Sublist.refl []
  | cons k ks ih =>
    by_cases hk : (t.jobs k).state = .done
    · simp only [FileJobs.giveFrom, hk, if_true, List.map_cons]
      exact (ih (giveOne t k)).cons_cons k
    · simp only [FileJobs.giveFrom, hk, if_false]
      exact (ih t).cons k

end DragonsNet.Native.FileWorkers
