/- GID: DragonsNet/News/StorePlans
   source: lean/DN/News/PostSpec.lean
   digest: Every job the store starts is one the host's table can take. -/

import DragonsNet.News.StoreClients
import Mathlib.Data.Fintype.Sum

set_option autoImplicit false

namespace DragonsNet.News.StorePlans

open Native.FileJobs (FileOp Request int64Max maxOps)
open Native.FileScripts (Script Works Sane Far opensAny closesAny names)
open Native.FileClients (Client owns Places)
open Native.FileAgreement (Agree)
open PostStore StoreClients

/-- The rules the host's table relies on: one sync of the directory and one append at a time, a job
slot for each job, a read's file closed before its next article, and as many places as files. -/
structure Sound (R : Rules) : Prop where
  oneDirSync : R.oneDirSync = true
  oneAppend : R.oneAppend = true
  readJobsApart : R.readJobsApart = true
  seeksEnd : R.seeksEnd = true
  jobs : R.posts + R.reads ≤ PostStore.jobs
  places : R.posts + R.reads < PostStore.places

theorem sound_default : Sound {} := by constructor <;> decide

def reach : ℕ := int64Max - jobData

/-- Everything the store writes and reads next starts within reach. -/
structure InReach (st : Store) : Prop where
  journal : st.journalEnd ≤ reach
  slot : ∀ k s a, st.slot k = some s → s.article = some a → a.written ≤ reach
  read : ∀ k r, st.readSlot k = some r → r.got.length ≤ reach

variable {R : Rules} {C : Content} {st : Store} {cs : Who R → Client}
  {t : Native.FileJobs.Table} {op : FileOp} {a : Article} {s : Slot} {ops : List Op} {task : Task}
  {i : Who R} {k : ℕ}

/-! ## Operations -/

private theorem sane_still {op : Op} (hwindow : (encodeOp op).window = none)
    (hharm : (encodeOp op).harmsJournal = false) : Sane (encodeOp op) := by
  refine ⟨?_, .inl ?_⟩
  · cases op <;> rfl
  · simp only [Native.FileJobs.checkOp, hharm, Bool.false_eq_true, if_false, hwindow]
    cases op <;> rfl

private theorem sane_moving {offset length : ℕ} (hlist : op.isList = false)
    (hwindow : op.window = some (offset, length, 0)) (hharm : op.harmsJournal = false)
    (hlength : length ≤ jobData) : Sane op := by
  refine ⟨hlist, ?_⟩
  have hfits : ¬ (Native.FileJobs.maxData < 0 ∨
      Native.FileJobs.maxData - 0 < length ∨ op.isList = true ∧ length = 0) := by
    have : length ≤ Native.FileJobs.maxData := hlength
    simp [hlist]
    omega
  by_cases hfar : int64Max - length < offset
  · refine .inr ⟨?_, offset, length, 0, hwindow, hfar⟩
    simp only [Native.FileJobs.checkOp, hharm, Bool.false_eq_true, if_false, hwindow,
      if_neg hfits, if_pos hfar]
  · refine .inl ?_
    simp only [Native.FileJobs.checkOp, hharm, Bool.false_eq_true, if_false, hwindow,
      if_neg hfits, if_neg hfar]

private theorem sane_write {p g offset : ℕ} {data : List Byte} (h : data.length ≤ jobData) :
    Sane (.write p g offset data.length 0) := sane_moving rfl rfl rfl h

private theorem sane_read {p g offset len : ℕ} (h : len ≤ jobData) : Sane
    (.read p g offset len 0) :=
  sane_moving rfl rfl rfl h

private theorem far_offset {offset length at_ : ℕ}
    (hwindow : op.window = some (offset, length, at_))
    (hlength : length ≤ jobData) (h : Far op) : reach < offset := by
  obtain ⟨offset', length', at', hwindow', hfar⟩ := h
  rw [hwindow] at hwindow'
  cases hwindow'
  unfold reach
  omega

private theorem not_far (hwindow : op.window = none) : ¬ Far op := by
  rintro ⟨offset, length, at_, hwindow', -⟩
  rw [hwindow] at hwindow'
  cases hwindow'

/-! ## A slot's next job -/

structure Proposes (st : Store) (s : Slot) (ops : List Op) (task : Task) : Prop where
  idle : s.busy = none
  article : s.article.isSome = true
  script : Script st.journal (slotHeld s) (ops.map encodeOp)
  shape : SlotOps (slotHeld s) task (ops.map encodeOp)
  journal : names (ops.map encodeOp) st.journal.1 = true →
    (∃ c len, task = .commit c len) ∧ st.slots.any (·.any Slot.committing) = false
  dir : (ops.map encodeOp).contains .syncDir = true →
    task = .place ∧ st.slots.any (·.any Slot.placing) = false
  far : ∀ op ∈ ops.map encodeOp, Far op →
    reach < st.journalEnd ∨ ∃ a, s.article = some a ∧ reach < a.written

private theorem proposes_create (hbusy : s.busy = none) (harticle : s.article = some a)
    (hfile : a.file = .none) : Proposes st s [.create (.temp a.seq)] .create := by
  have hheld : slotHeld s = none := by simp [slotHeld, harticle, hfile, fileAt]
  refine ⟨hbusy, by rw [harticle]; rfl, ?_, ?_, by rintro ⟨⟩, by rintro ⟨⟩, ?_⟩
  · rw [hheld]
    have hsane : Sane (encodeOp (.create (.temp a.seq))) := sane_still rfl rfl
    exact .opening rfl (by rintro ⟨⟩) hsane
  · exact .create hheld
  · intro op hop
    obtain rfl := List.mem_singleton.mp hop
    exact fun hfar => absurd hfar (not_far rfl)

private theorem proposes_file {p g : ℕ} (hbusy : s.busy = none) (harticle : s.article = some a)
    (hfile : a.file = .open_ p g) (hpos : 1 ≤ ops.length) (hmax : ops.length ≤ maxOps)
    (hworks : Works st.journal (some (p, g)) (ops.map encodeOp))
    (hsane : ∀ op ∈ ops.map encodeOp, Sane op) (hnames : names (ops.map encodeOp) p = true)
    (hjournal : names (ops.map encodeOp) st.journal.1 = false)
    (hdir : (ops.map encodeOp).contains .syncDir = false)
    (hshape : SlotOps (some (p, g)) task (ops.map encodeOp))
    (hfar : ∀ op ∈ ops.map encodeOp, Far op → reach < a.written) : Proposes st s ops task := by
  have hheld : slotHeld s = some (p, g) := by simp [slotHeld, harticle, hfile, fileAt]
  refine ⟨hbusy, by rw [harticle]; rfl, ?_, by rwa [hheld], ?_, ?_, ?_⟩
  · rw [hheld]
    refine .working (by simpa using hpos) (by simpa using hmax) hsane (fun x hx => ?_) hworks
    obtain rfl := Option.some.inj hx
    exact hnames
  · rw [hjournal]
    rintro ⟨⟩
  · rw [hdir]
    rintro ⟨⟩
  · exact fun op hop hf => .inr ⟨a, harticle, hfar op hop hf⟩

private theorem proposes_write {p g : ℕ} (hbusy : s.busy = none) (harticle : s.article = some a)
    (hfile : a.file = .open_ p g) (hne : p ≠ st.journal.1)
    (h : writeJob R s a p g = some (ops, task)) : Proposes st s ops task := by
  unfold writeJob at h
  dsimp only at h
  split at h
  · obtain ⟨rfl, rfl⟩ : [Op.write p g a.written ((a.octets.drop a.written).take jobData)] = ops ∧
        Task.write jobData = task := by simpa using h
    have hlength : ((a.octets.drop a.written).take jobData).length ≤ jobData := by simp
    refine proposes_file hbusy harticle hfile (by simp) (by simp [maxOps])
      (.own rfl rfl .nil) ?_ (by simp [names, encodeOp, FileOp.onFile]) ?_ rfl (.write rfl rfl) ?_
    · intro op hop
      obtain rfl := List.mem_singleton.mp hop
      exact sane_write hlength
    · simp [names, encodeOp, FileOp.onFile, hne]
    · intro op hop hfar
      obtain rfl := List.mem_singleton.mp hop
      exact far_offset rfl hlength hfar
  · rename_i hpending
    split at h
    · have hlength : (a.octets.drop a.written).length ≤ jobData := by
        simp only [Article.pending, not_le] at hpending
        rw [List.length_drop]
        omega
      generalize a.octets.drop a.written = rest at h hlength
      simp only [Option.some.injEq, Prod.mk.injEq] at h
      obtain ⟨rfl, rfl⟩ := h
      -- The rest written, where there is one, synced where the rules say so, and closed.
      have hshape : SlotOps (some (p, g)) (.finish (if rest.isEmpty then []
          else [Op.write p g a.written rest]).length rest.length)
          (((if rest.isEmpty then [] else [Op.write p g a.written rest]) ++
            (if R.syncsFile then [Op.dataSync p g] else []) ++ [Op.close p g]).map encodeOp) := by
        rw [List.map_append]
        refine .finish ?_ ?_ rfl ?_
        · cases rest.isEmpty <;> cases R.syncsFile <;> rfl
        · cases rest.isEmpty <;> cases R.syncsFile <;> rfl
        · simp
      refine proposes_file hbusy harticle hfile ?_ ?_ ?_ ?_ ?_ ?_ ?_ hshape ?_
      · rw [List.length_append, List.length_singleton]
        exact Nat.le_add_left 1 _
      · cases rest.isEmpty <;> cases R.syncsFile <;> simp [maxOps]
      · cases rest.isEmpty <;> cases R.syncsFile
        · exact .own rfl rfl (.close rfl rfl .nil)
        · exact .own rfl rfl (.own rfl rfl (.close rfl rfl .nil))
        · exact .close rfl rfl .nil
        · exact .own rfl rfl (.close rfl rfl .nil)
      · have hsync : Sane (encodeOp (.dataSync p g)) := sane_still rfl rfl
        have hclose : Sane (encodeOp (.close p g)) := sane_still rfl rfl
        have hwrite : Sane (encodeOp (.write p g a.written rest)) := sane_write hlength
        cases rest.isEmpty <;> cases R.syncsFile <;> simp [hsync, hclose, hwrite]
      · simp [names, encodeOp, FileOp.onFile]
      · cases rest.isEmpty <;> cases R.syncsFile <;>
          simp [names, encodeOp, FileOp.onFile, hne]
      · cases rest.isEmpty <;> cases R.syncsFile <;> rfl
      · have hsync : ¬ Far (encodeOp (.dataSync p g)) := not_far rfl
        have hclose : ¬ Far (encodeOp (.close p g)) := not_far rfl
        have hwrite : Far (encodeOp (.write p g a.written rest)) → reach < a.written :=
          far_offset rfl hlength
        cases rest.isEmpty <;> cases R.syncsFile <;> simp [hsync, hclose] <;> exact hwrite
    · cases h

private theorem proposes_aside (hbusy : s.busy = none)
    (harticle : s.article.isSome = true) (hheld : slotHeld s = none) (hpos : 1 ≤ ops.length)
    (hmax : ops.length ≤ maxOps)
    (haside : ∀ op ∈ ops, (encodeOp op).opens = false ∧ (encodeOp op).onFile = none ∧
      (encodeOp op).window = none ∧ (encodeOp op).harmsJournal = false)
    (hshape : SlotOps none task (ops.map encodeOp))
    (hdir : (ops.map encodeOp).contains .syncDir = true →
      task = .place ∧ st.slots.any (·.any Slot.placing) = false) : Proposes st s ops task := by
  have hworks : ∀ ops : List Op, (∀ op ∈ ops, (encodeOp op).opens = false ∧
      (encodeOp op).onFile = none ∧ (encodeOp op).window = none ∧
        (encodeOp op).harmsJournal = false) → Works st.journal none (ops.map encodeOp) := by
    intro ops
    induction ops with
    | nil => exact fun _ => .nil
    | cons op rest ih =>
      intro h
      obtain ⟨hopens, hnone, -⟩ := h op List.mem_cons_self
      exact .aside hopens hnone (ih fun o ho => h o (List.mem_cons_of_mem _ ho))
  refine ⟨hbusy, harticle, ?_, by rwa [hheld], fun hn => ?_, hdir, fun op hop hfar => ?_⟩
  · rw [hheld]
    refine .working (by simpa using hpos) (by simpa using hmax) (fun op hop => ?_) nofun
      (hworks ops haside)
    obtain ⟨o, ho, rfl⟩ := List.mem_map.mp hop
    exact sane_still (haside o ho).2.2.1 (haside o ho).2.2.2
  · obtain ⟨op, hop, hany⟩ := List.any_eq_true.mp hn
    obtain ⟨o, ho, rfl⟩ := List.mem_map.mp hop
    rw [(haside o ho).2.1] at hany
    cases hany
  · obtain ⟨o, ho, rfl⟩ := List.mem_map.mp hop
    exact absurd hfar (not_far (haside o ho).2.2.1)

private theorem proposes_clean (hbusy : s.busy = none) (harticle : s.article = some a)
    (hne : ∀ p g, a.file = .open_ p g → p ≠ st.journal.1) (hops : (cleanOps R a).1.isEmpty = false)
    :
    Proposes st s (cleanOps R a).1 (.clean (cleanOps R a).2) := by
  have hsome : s.article.isSome = true := by rw [harticle]; rfl
  have hremove : ∀ name : Native.FileJobs.Name, name ≠ .journal → slotHeld s = none →
      Proposes st s [.remove name] (.clean false) := by
    intro name hname hheld
    refine proposes_aside hbusy hsome hheld (by simp) (by simp [maxOps]) (fun op hop => ?_)
      (.cleaning rfl rfl) (by rintro ⟨⟩)
    obtain rfl := List.mem_singleton.mp hop
    exact ⟨rfl, rfl, rfl, by simpa [encodeOp, FileOp.harmsJournal] using hname⟩
  unfold cleanOps at hops ⊢
  split
  · rename_i hcleans
    simp [hcleans] at hops
  · rename_i hcleans
    cases hfile : a.file with
    | none => simp [hcleans, hfile] at hops
    | closed | final | placed =>
      exact hremove _ (by rintro ⟨⟩) (by simp [slotHeld, harticle, hfile, fileAt])
    | open_ p g =>
      refine proposes_file hbusy harticle hfile (by simp) (by simp [maxOps])
        (.close rfl rfl (.aside rfl rfl .nil)) ?_ (by simp [names, encodeOp, FileOp.onFile]) ?_ rfl
        (.closing rfl rfl) ?_
      · have hclose : Sane (encodeOp (.close p g)) := sane_still rfl rfl
        have hremove : Sane (encodeOp (.remove (.temp a.seq))) := sane_still rfl rfl
        simp [hclose, hremove]
      · simp [names, encodeOp, FileOp.onFile, hne p g hfile]
      · have hclose : ¬ Far (encodeOp (.close p g)) := not_far rfl
        have hremove : ¬ Far (encodeOp (.remove (.temp a.seq))) := not_far rfl
        simp [hclose, hremove]

private theorem proposes_append (st : Store) {c : Commit} (hbusy : s.busy = none)
    (harticle : s.article = some a) (hfile : a.file = .placed) (hok : c.ok = true)
    (hone : st.slots.any (·.any Slot.committing) = false) :
    Proposes st s (st.appendJob R C c).1 (st.appendJob R C c).2 := by
  have hheld : slotHeld s = none := by simp [slotHeld, harticle, hfile, fileAt]
  have hlength : (C.encode c st.journalEnd).length ≤ jobData :=
    (C.encode_le c st.journalEnd hok).trans (by decide)
  have hwrite : Sane (encodeOp (.write st.journal.1 st.journal.2 st.journalEnd
      (C.encode c st.journalEnd))) := sane_write hlength
  have hsync : Sane (encodeOp (.dataSync st.journal.1 st.journal.2)) := sane_still rfl rfl
  unfold Store.appendJob
  refine ⟨hbusy, by rw [harticle]; rfl, ?_, ?_, fun _ => ⟨⟨c, _, rfl⟩, hone⟩, ?_, ?_⟩
  · rw [hheld]
    refine .working ?_ ?_ ?_ (by rintro _ ⟨⟩) ?_
    · simp
    · cases R.syncsJournal <;> simp [maxOps]
    · cases R.syncsJournal <;> simp [hwrite, hsync]
    · cases R.syncsJournal
      · exact .journal rfl rfl .nil
      · exact .journal rfl rfl (.journal rfl rfl .nil)
  · rw [hheld]
    refine .commit rfl ?_
    cases R.syncsJournal <;> rfl
  · cases R.syncsJournal <;> rintro ⟨⟩
  · have hfar : Far (encodeOp (.write st.journal.1 st.journal.2 st.journalEnd
        (C.encode c st.journalEnd))) → reach < st.journalEnd := far_offset rfl hlength
    have hnot : ¬ Far (encodeOp (.dataSync st.journal.1 st.journal.2)) := not_far rfl
    intro op hop hf
    refine .inl ?_
    cases hsyncs : R.syncsJournal <;> simp [hsyncs] at hop
    · exact hfar (hop ▸ hf)
    · obtain rfl | rfl := hop
      · exact hfar hf
      · exact absurd hf hnot

/-- **Every job a slot starts is one the host can take**, and one at a time appends the journal or
syncs the directory. -/
theorem nextJob_proposes (hR : Sound R) (hne : ∀ x, slotHeld s = some x → x.1 ≠ st.journal.1)
    (h : st.nextJob R C s = .inl (some (ops, task))) : Proposes st s ops task := by
  unfold Store.nextJob at h
  cases hbusy : s.busy with
  | some b => simp [hbusy] at h
  | none =>
    cases harticle : s.article with
    | none => simp [hbusy, harticle] at h
    | some a =>
      have hsome : s.article.isSome = true := by rw [harticle]; rfl
      have hopen : ∀ p g, a.file = .open_ p g → p ≠ st.journal.1 := fun p g hfile =>
        hne (p, g) (by simp [slotHeld, harticle, hfile, fileAt])
      simp only [hbusy, harticle] at h
      split at h
      · split at h
        · cases h
        · rename_i hops
          simp only [Sum.inl.injEq, Option.some.injEq, Prod.mk.injEq] at h
          obtain ⟨rfl, rfl⟩ := h
          exact proposes_clean hbusy harticle hopen (by simpa using hops)
      · split at h
        · cases h
        · cases hfile : a.file with
          | none =>
            simp only [hfile, Sum.inl.injEq, Option.some.injEq, Prod.mk.injEq] at h
            obtain ⟨rfl, rfl⟩ := h
            exact proposes_create hbusy harticle hfile
          | open_ p g =>
            simp only [hfile, Sum.inl.injEq] at h
            exact proposes_write hbusy harticle hfile (hopen p g hfile) h
          | closed =>
            simp only [hfile, hR.oneDirSync, Bool.true_and] at h
            split at h
            · cases h
            · rename_i hone
              simp only [Sum.inl.injEq, Option.some.injEq, Prod.mk.injEq] at h
              obtain ⟨rfl, rfl⟩ := h
              refine proposes_aside hbusy hsome (by simp [slotHeld, harticle, hfile, fileAt]) ?_ ?_
                (fun op hop => ?_) (.place rfl ?_) fun _ => ⟨rfl, by simpa using hone⟩
              · simp
              · cases R.syncsDir <;> simp [maxOps]
              · obtain rfl | hop := List.mem_cons.mp hop
                · exact ⟨rfl, rfl, rfl, rfl⟩
                · split at hop
                  · obtain rfl := List.mem_singleton.mp hop
                    exact ⟨rfl, rfl, rfl, rfl⟩
                  · cases hop
              · cases R.syncsDir <;> rfl
          | final =>
            simp only [hfile, Sum.inl.injEq, reduceCtorEq] at h
          | placed =>
            simp only [hfile, hR.oneAppend, Bool.true_and] at h
            split at h
            · cases h
            · rename_i hone
              split at h
              · rename_i hok
                simp only [Sum.inl.injEq, Option.some.injEq] at h
                have := proposes_append (R := R) (C := C) st hbusy harticle hfile hok
                  (by simpa using hone)
                rw [h] at this
                exact this
              · cases h

/-! ## A read's next job -/

structure ReadProposes (journal : ℕ × ℕ) (r : Read) (ops : List Op) (task : ReadTask) : Prop where
  idle : r.busy = none
  script : Script journal (readFileAt r.file) (ops.map encodeOp)
  shape : ReadOps r.file task (ops.map encodeOp)
  journal : names (ops.map encodeOp) journal.1 = false
  far : ∀ op ∈ ops.map encodeOp, Far op → reach < r.got.length

section ReadProposes

variable {journal : ℕ × ℕ} {r : Read} {p g : ℕ}

private theorem proposes_open (hbusy : r.busy = none) (hfile : r.file = .none) :
    ReadProposes journal r [.open_ (.final r.commit.seq)] .open_ := by
  refine ⟨hbusy, ?_, ?_, rfl, fun op hop hfar => ?_⟩
  · rw [hfile]
    have hsane : Sane (encodeOp (.open_ (.final r.commit.seq))) := sane_still rfl rfl
    exact .opening rfl (by rintro ⟨⟩) hsane
  · rw [hfile]
    exact .open_
  · obtain rfl := List.mem_singleton.mp hop
    exact absurd hfar (not_far rfl)

private theorem proposes_close (hbusy : r.busy = none) (hfile : r.file = .open_ p g)
    (hp : p ≠ journal.1) : ReadProposes journal r [.close p g] .close := by
  have hclose : Sane (encodeOp (.close p g)) := sane_still rfl rfl
  have hclosed : ¬ Far (encodeOp (.close p g)) := not_far rfl
  refine ⟨hbusy, ?_, ?_, ?_, ?_⟩
  · rw [hfile]
    refine .working (by simp) (by simp [maxOps]) ?_ ?_ (.close rfl rfl .nil)
    · simp [hclose]
    · simp [readFileAt, names, encodeOp, FileOp.onFile]
  · rw [hfile]
    exact .close
  · simp [names, encodeOp, FileOp.onFile, hp]
  · simp [hclosed]

private theorem proposes_last {len : ℕ} (hbusy : r.busy = none) (hfile : r.file = .open_ p g)
    (hp : p ≠ journal.1) (hlen : len ≤ jobData) :
    ReadProposes journal r [.read p g r.got.length len, .close p g] (.read len true) := by
  have hread : Sane (encodeOp (.read p g r.got.length len)) := sane_read hlen
  have hclose : Sane (encodeOp (.close p g)) := sane_still rfl rfl
  have hfar : Far (encodeOp (.read p g r.got.length len)) → reach < r.got.length :=
    far_offset rfl hlen
  have hclosed : ¬ Far (encodeOp (.close p g)) := not_far rfl
  refine ⟨hbusy, ?_, ?_, ?_, ?_⟩
  · rw [hfile]
    refine .working (by simp) (by simp [maxOps]) ?_ ?_ (.own rfl rfl (.close rfl rfl .nil))
    · simp [hclose, hread]
    · simp [readFileAt, names, encodeOp, FileOp.onFile]
  · rw [hfile]
    exact .last
  · simp [names, encodeOp, FileOp.onFile, hp]
  · simp only [List.map_cons, List.map_nil, List.mem_cons, List.not_mem_nil, or_false,
      forall_eq_or_imp, forall_eq]
    exact ⟨hfar, fun hf => absurd hf hclosed⟩

private theorem proposes_more (hbusy : r.busy = none) (hfile : r.file = .open_ p g)
    (hp : p ≠ journal.1) :
    ReadProposes journal r [.read p g r.got.length jobData] (.read jobData false) := by
  have hread : Sane (encodeOp (.read p g r.got.length jobData)) := sane_read le_rfl
  refine ⟨hbusy, ?_, ?_, ?_, ?_⟩
  · rw [hfile]
    refine .working (by simp) (by simp [maxOps]) ?_ ?_ (.own rfl rfl .nil)
    · simp [hread]
    · simp [readFileAt, names, encodeOp, FileOp.onFile]
  · rw [hfile]
    exact .more
  · simp [names, encodeOp, FileOp.onFile, hp]
  · intro op hop hf
    obtain rfl := List.mem_singleton.mp hop
    exact far_offset rfl le_rfl hf

end ReadProposes

private theorem nextRead_proposes {journal : ℕ × ℕ} {r : Read} {task : ReadTask}
    (hne : ∀ x, readFileAt r.file = some x → x.1 ≠ journal.1) (h : nextRead R r = some (ops, task))
    :
    ReadProposes journal r ops task := by
  unfold nextRead at h
  split at h
  · cases h
  · rename_i hbusy
    have hbusy : r.busy = none := by simpa using hbusy
    cases hfile : r.file with
    | gone => simp [hfile] at h
    | none =>
      simp only [hfile] at h
      split at h
      · cases h
      · obtain ⟨rfl, rfl⟩ := Prod.mk.inj (Option.some.inj h)
        exact proposes_open hbusy hfile
    | open_ p g =>
      have hp : p ≠ journal.1 := hne (p, g) (by rw [hfile]; rfl)
      simp only [hfile] at h
      split_ifs at h with hbad hcloses hgiven hleft
      · obtain ⟨rfl, rfl⟩ := Prod.mk.inj (Option.some.inj h)
        exact proposes_close hbusy hfile hp
      · obtain ⟨rfl, rfl⟩ := Prod.mk.inj (Option.some.inj h)
        exact proposes_last hbusy hfile hp hleft
      · obtain ⟨rfl, rfl⟩ := Prod.mk.inj (Option.some.inj h)
        exact proposes_more hbusy hfile hp

/-! ## A slot for the job -/

private theorem any_busy_iff {α β : Type} {slots : List (Option α)} {busy : α → Option β}
    {p : β → Bool} :
    slots.any (fun x => x.any fun s => (busy s).any p) = true ↔
      ∃ (k : ℕ) (s : α) (b : β), (slots[k]?).getD none = some s ∧ busy s = some b ∧ p b = true := by
  simp only [List.any_eq_true, Option.any_eq_true]
  constructor
  · rintro ⟨_, hmem, s, rfl, b, hbusy, hb⟩
    obtain ⟨k, hk⟩ := List.mem_iff_getElem?.mp hmem
    exact ⟨k, s, b, by rw [hk, Option.getD_some], hbusy, hb⟩
  · rintro ⟨k, s, b, hk, hbusy, hb⟩
    refine ⟨some s, ?_, s, rfl, b, hbusy, hb⟩
    cases hx : slots[k]? with
    | none =>
      rw [hx] at hk
      cases hk
    | some x =>
      rw [hx, Option.getD_some] at hk
      exact hk ▸ List.mem_of_getElem? hx

private theorem postHolds_iff (h : Mirrors R st cs) (j : ℕ) :
    st.postHolds j = true ↔ ∃ k r, (cs (.inl k)).request = some r ∧ r.slot = j := by
  rw [Store.postHolds, any_busy_iff]
  constructor
  · rintro ⟨k, s, ⟨j', gen, n, task⟩, hs, hbusy, hj⟩
    obtain ⟨-, r, hr, hasks⟩ := (h.slot_fits ⟨k, h.slot_lt hs⟩ hs).busy j' gen n task hbusy
    exact ⟨_, r, hr, hasks.slot.trans (by simpa using hj)⟩
  · rintro ⟨k, q, hq, rfl⟩
    have hmirror := h.post k
    cases hs : st.slot k with
    | none =>
      rw [hs] at hmirror
      rw [show cs (.inl k) = .idle none from hmirror] at hq
      cases hq
    | some s =>
      have hfits := h.slot_fits k hs
      cases hbusy : s.busy with
      | none =>
        rw [hfits.idle hbusy] at hq
        cases hq
      | some b =>
        obtain ⟨j', gen, n, task⟩ := b
        obtain ⟨-, r, hr, hasks⟩ := hfits.busy j' gen n task hbusy
        obtain rfl : r = q := Option.some.inj (hr.symm.trans hq)
        exact ⟨k, s, _, hs, hbusy, by simp [hasks.slot]⟩

private theorem readHolds_iff (h : Mirrors R st cs) (j : ℕ) :
    st.readHolds j = true ↔ ∃ k r, (cs (.inr k)).request = some r ∧ r.slot = j := by
  rw [Store.readHolds, any_busy_iff]
  constructor
  · rintro ⟨k, s, ⟨j', gen, n, task⟩, hs, hbusy, hj⟩
    obtain ⟨r, hr, hasks⟩ := (h.read_fits ⟨k, h.read_lt hs⟩ hs).busy j' gen n task hbusy
    exact ⟨_, r, hr, hasks.slot.trans (by simpa using hj)⟩
  · rintro ⟨k, q, hq, rfl⟩
    have hmirror := h.read k
    cases hs : st.readSlot k with
    | none =>
      rw [hs] at hmirror
      rw [show cs (.inr k) = .idle none from hmirror] at hq
      cases hq
    | some s =>
      have hfits := h.read_fits k hs
      cases hbusy : s.busy with
      | none =>
        rw [hfits.idle hbusy] at hq
        cases hq
      | some b =>
        obtain ⟨j', gen, n, task⟩ := b
        obtain ⟨r, hr, hasks⟩ := hfits.busy j' gen n task hbusy
        obtain rfl : r = q := Option.some.inj (hr.symm.trans hq)
        exact ⟨k, s, _, hs, hbusy, by simp [hasks.slot]⟩

private theorem holds_iff (h : Mirrors R st cs) (j : ℕ) :
    (st.postHolds j = true ∨ st.readHolds j = true) ↔
      ∃ i r, (cs i).request = some r ∧ r.slot = j := by
  rw [postHolds_iff h, readHolds_iff h, Sum.exists]

private theorem freeJob_fresh (hR : Sound R) (h : Mirrors R st cs) (hi : (cs i).request = none) :
    st.freeJob R < jobs ∧ ∀ i' r, (cs i').request = some r → r.slot ≠ st.freeJob R := by
  classical
  let used := (Finset.univ.erase i).image fun i' => ((cs i').request.map Request.slot).getD 0
  have hcard : used.card < (Finset.range jobs).card := by
    calc used.card ≤ (Finset.univ.erase i).card := Finset.card_image_le
      _ < (Finset.univ : Finset (Who R)).card := Finset.card_erase_lt_of_mem (Finset.mem_univ i)
      _ = R.posts + R.reads := by simp
      _ ≤ (Finset.range jobs).card := by rw [Finset.card_range]; exact hR.jobs
  obtain ⟨j, hj, hfree⟩ := Finset.exists_mem_notMem_of_card_lt_card hcard
  have hunused : ¬ ∃ i' r, (cs i').request = some r ∧ r.slot = j := by
    rintro ⟨i', r, hr, rfl⟩
    refine hfree (Finset.mem_image.mpr ⟨i', Finset.mem_erase.mpr ⟨?_, Finset.mem_univ i'⟩, ?_⟩)
    · rintro rfl
      rw [hi] at hr
      cases hr
    · rw [hr]
      rfl
  have hsome : ((List.range jobs).find? fun j =>
      !st.postHolds j && (!R.readJobsApart || !st.readHolds j)).isSome = true := by
    rw [List.find?_isSome]
    rw [← holds_iff h j, not_or, Bool.not_eq_true, Bool.not_eq_true] at hunused
    exact ⟨j, List.mem_range.mpr (Finset.mem_range.mp hj), by
      simp [hunused.1, hunused.2]⟩
  obtain ⟨j₀, hj₀⟩ := Option.isSome_iff_exists.mp hsome
  have hjob : st.freeJob R = j₀ := by rw [Store.freeJob, hj₀]; rfl
  rw [hjob]
  refine ⟨List.mem_range.mp (List.mem_of_find?_eq_some hj₀), fun i' r hr hslot => ?_⟩
  have hfound := List.find?_some hj₀
  simp only [hR.readJobsApart, Bool.not_true, Bool.false_or, Bool.and_eq_true,
    Bool.not_eq_true'] at hfound
  have hholds := (holds_iff h j₀).mpr ⟨i', r, hr, hslot⟩
  rw [hfound.1, hfound.2] at hholds
  simp at hholds

/-! ## Jobs started -/

/-- What starting the jobs `js` does: each is emitted by a client that was idle. -/
structure Planned (R : Rules) (st st' : Store) (cs cs' : Who R → Client)
    (t : Native.FileJobs.Table) (js : List Job) : Prop where
  mirrors : Mirrors R st' cs'
  journal : st'.journal = st.journal
  agree : Agree st.journal cs' t
  reach : InReach st' → InReach st
  emitted : ∀ i, cs' i = cs i ∨ ∃ held, ∃ j ∈ js, cs i = .idle held ∧
    cs' i = .emitted held (encodeJob j)
  started : ∀ j ∈ js, ∃ i held, cs' i = .emitted held (encodeJob j)
  slots : ∀ j ∈ js, j.slot < jobs
  far : ∀ j ∈ js, ∀ op ∈ (encodeJob j).ops, Far op → ¬ InReach st'

theorem Planned.none (hm : Mirrors R st cs) (ha : Agree st.journal cs t) :
    Planned R st st cs cs t [] :=
  ⟨hm, rfl, ha, id, fun _ => .inl rfl, nofun, nofun, nofun⟩

theorem Planned.trans {st' st'' : Store} {cs' cs'' : Who R → Client} {js js' : List Job}
    (h : Planned R st st' cs cs' t js) (h' : Planned R st' st'' cs' cs'' t js') :
    Planned R st st'' cs cs'' t (js ++ js') := by
  refine ⟨h'.mirrors, h'.journal.trans h.journal, h.journal ▸ h'.agree, h.reach ∘ h'.reach,
    fun i => ?_, fun j hj => ?_, fun j hj => ?_, fun j hj op hop hfar => ?_⟩
  · obtain hsame' | ⟨held, j, hj, hidle, hemitted⟩ := h'.emitted i
    · obtain hsame | ⟨held, j, hj, hidle, hemitted⟩ := h.emitted i
      · exact .inl (hsame'.trans hsame)
      · exact .inr ⟨held, j, List.mem_append_left _ hj, hidle, hsame'.trans hemitted⟩
    · obtain hsame | ⟨held', j', hj', hidle', hemitted'⟩ := h.emitted i
      · exact .inr ⟨held, j, List.mem_append_right _ hj, hsame.symm.trans hidle, hemitted⟩
      · rw [hemitted'] at hidle
        cases hidle
  · obtain hj | hj := List.mem_append.mp hj
    · obtain ⟨i, held, hi⟩ := h.started j hj
      obtain hsame' | ⟨held', j', hj', hidle, hemitted⟩ := h'.emitted i
      · exact ⟨i, held, hsame'.trans hi⟩
      · rw [hi] at hidle
        cases hidle
    · exact h'.started j hj
  · obtain hj | hj := List.mem_append.mp hj
    · exact h.slots j hj
    · exact h'.slots j hj
  · obtain hj | hj := List.mem_append.mp hj
    · exact fun hreach => h.far j hj op hop hfar (h'.reach hreach)
    · exact h'.far j hj op hop hfar

private theorem held_offJournal {journal : ℕ × ℕ} (ha : Agree journal cs t)
    (hi : (cs i).request = none)
    (x : ℕ × ℕ) (hx : (cs i).held = some x) : x.1 ≠ journal.1 := by
  intro hj
  refine ha.places.offJournal i ?_
  rw [idle_of_request hi, hx]
  exact congrArg some hj

private theorem planned_start {st' : Store} (hR : Sound R)
    (hm : Mirrors R st cs) (ha : Agree st.journal cs t) (hi : (cs i).request = none)
    (hscript : Script st.journal (cs i).held (ops.map encodeOp))
    (hjournal : names (ops.map encodeOp) st.journal.1 = true →
      ∀ i' r', (cs i').request = some r' → names r'.ops st.journal.1 = false)
    (hdir : (ops.map encodeOp).contains .syncDir = true →
      ∀ i' r', (cs i').request = some r' → r'.ops.contains .syncDir = false)
    (hm' : Mirrors R st' (Function.update cs i
      (.emitted (cs i).held (encodeJob ⟨st.freeJob R, st.jobGen + 1, ops⟩))))
    (hst : st'.journal = st.journal) (hreach : InReach st' → InReach st)
    (hfar : ∀ op ∈ ops.map encodeOp, Far op → ¬ InReach st') :
    ∃ cs', Planned R st st' cs cs' t [⟨st.freeJob R, st.jobGen + 1, ops⟩] := by
  obtain ⟨hlt, hfresh⟩ := freeJob_fresh hR hm hi
  have hidle : cs i = .idle (cs i).held := idle_of_request hi
  refine ⟨_, hm', hst, ha.emit hidle hscript hfresh hjournal hdir, hreach, fun i' => ?_,
    fun j hj => ?_, fun j hj => ?_, fun j hj op hop hf => ?_⟩
  · rcases eq_or_ne i' i with rfl | hne
    · rw [Function.update_self]
      exact .inr ⟨(cs i').held, _, List.mem_singleton.mpr rfl, hidle, rfl⟩
    · rw [Function.update_of_ne hne]
      exact .inl rfl
  · obtain rfl := List.mem_singleton.mp hj
    exact ⟨i, (cs i).held, Function.update_self ..⟩
  · obtain rfl := List.mem_singleton.mp hj
    exact hlt
  · obtain rfl := List.mem_singleton.mp hj
    exact hfar op hop hf

private theorem uses_slot (hm : Mirrors R st cs) {r : Request} (hr : (cs i).request = some r) :
    (names r.ops st.journal.1 = true → st.slots.any (·.any Slot.committing) = true) ∧
      (r.ops.contains .syncDir = true → st.slots.any (·.any Slot.placing) = true) := by
  cases i with
  | inl k =>
    have hmirror := hm.post k
    cases hs : st.slot k with
    | none =>
      rw [hs] at hmirror
      rw [show cs (.inl k) = .idle none from hmirror] at hr
      cases hr
    | some s =>
      have hfits := hm.slot_fits k hs
      have hmem : some s ∈ st.slots := by
        have hlt : (k : ℕ) < st.slots.length := by rw [hm.slots]; exact k.2
        rw [Store.slot, List.getElem?_eq_getElem hlt, Option.getD_some] at hs
        exact hs ▸ List.getElem_mem hlt
      cases hbusy : s.busy with
      | none =>
        rw [hfits.idle hbusy] at hr
        cases hr
      | some b =>
        obtain ⟨j, gen, n, task⟩ := b
        obtain ⟨-, r', hr', hasks⟩ := hfits.busy j gen n task hbusy
        obtain rfl : r' = r := Option.some.inj (hr'.symm.trans hr)
        refine ⟨fun hn => ?_, fun hd => ?_⟩
        · obtain ⟨c, len, rfl⟩ := hasks.journal hn
          exact List.any_eq_true.mpr ⟨some s, hmem, by simp [Slot.committing, hbusy]⟩
        · obtain rfl := hasks.dir hd
          exact List.any_eq_true.mpr ⟨some s, hmem, by simp [Slot.placing, hbusy]⟩
  | inr k =>
    have hmirror := hm.read k
    cases hs : st.readSlot k with
    | none =>
      rw [hs] at hmirror
      rw [show cs (.inr k) = .idle none from hmirror] at hr
      cases hr
    | some s =>
      have hfits := hm.read_fits k hs
      cases hbusy : s.busy with
      | none =>
        rw [hfits.idle hbusy] at hr
        cases hr
      | some b =>
        obtain ⟨j, gen, n, task⟩ := b
        obtain ⟨q, hq, hasks⟩ := hfits.busy j gen n task hbusy
        obtain rfl : q = r := Option.some.inj (hq.symm.trans hr)
        refine ⟨fun hn => ?_, fun hd => ?_⟩
        · rw [hasks.journal] at hn
          cases hn
        · rw [hasks.ops.no_sync] at hd
          cases hd

private theorem reach_of_setSlot (jobGen : ℕ) (s' : Slot) (hk : k < st.slots.length)
    (hs : st.slot k = some s) (harticle : s'.article = s.article)
    (h : InReach (Store.setSlot { st with jobGen := jobGen } k (some s'))) : InReach st := by
  refine ⟨h.journal, fun k' s'' a hs'' ha => ?_, h.read⟩
  rcases eq_or_ne k k' with rfl | hne
  · obtain rfl : s = s'' := Option.some.inj (hs.symm.trans hs'')
    exact h.slot k s' a (@slot_setSlot_self { st with jobGen := jobGen } k hk _)
      (harticle.trans ha)
  · exact h.slot k' s'' a ((slot_setSlot_ne hne _).trans hs'') ha

private theorem reach_of_setRead {r : Read} (jobGen : ℕ) (r' : Read) (hk : k < st.reads.length)
    (hr : st.readSlot k = some r) (hgot : r'.got = r.got)
    (h : InReach (Store.setRead { st with jobGen := jobGen } k (some r'))) : InReach st := by
  refine ⟨h.journal, h.slot, fun k' r'' hr'' => ?_⟩
  rcases eq_or_ne k k' with rfl | hne
  · obtain rfl : r = r'' := Option.some.inj (hr.symm.trans hr'')
    rw [← hgot]
    exact h.read k r' (@readSlot_setRead_self { st with jobGen := jobGen } k hk _)
  · exact h.read k' r'' ((readSlot_setRead_ne hne _).trans hr'')

theorem Mirrors.jobGen (h : Mirrors R st cs) (jobGen : ℕ) :
    Mirrors R { st with jobGen := jobGen } cs := ⟨h.slots, h.reads, h.post, h.read⟩

private theorem startJob_planned {s₀ s : Slot} (hR : Sound R) (hm : Mirrors R st cs)
    (ha : Agree st.journal cs t) (hs : st.slot k = some s₀) (harticle : s.article = s₀.article)
    (hfits : SlotFits st.journal.1 s (cs (.inl ⟨k, hm.slot_lt hs⟩))) (h : Proposes st s ops task) :
    ∃ cs', Planned R st (st.startJob R k s ops task).1 cs cs' t
      (st.startJob R k s ops task).2.toList := by
  have hlen : k < st.slots.length := by rw [hm.slots]; exact hm.slot_lt hs
  have hreq := hfits.idle h.idle
  refine planned_start hR hm ha hreq ?_ (fun hn i' r' hr' => ?_) (fun hd i' r' hr' => ?_) ?_ rfl
    (reach_of_setSlot (st.jobGen + 1)
      { s with busy := some (st.freeJob R, st.jobGen + 1, ops.length, task) } hlen hs harticle)
    fun op hop hf hreach => ?_
  · rw [hfits.held]
    exact h.script
  · by_contra hused
    rw [Bool.not_eq_false] at hused
    have := (uses_slot hm hr').1 hused
    rw [(h.journal hn).2] at this
    cases this
  · by_contra hused
    rw [Bool.not_eq_false] at hused
    have := (uses_slot hm hr').2 hused
    rw [(h.dir hd).2] at this
    cases this
  · refine Mirrors.setSlot ⟨k, hm.slot_lt hs⟩ (Mirrors.jobGen hm (st.jobGen + 1)) ?_
    refine ⟨hfits.body, hfits.held, nofun, fun j gen n task' hbusy => ?_⟩
    obtain ⟨rfl, rfl, rfl, rfl⟩ : st.freeJob R = j ∧ st.jobGen + 1 = gen ∧ ops.length = n ∧
        task = task' := by simpa using hbusy
    exact ⟨h.article, _, rfl, rfl, rfl, by simp [encodeJob], h.shape,
      fun hn => (h.journal hn).1, fun hd => (h.dir hd).1⟩
  · obtain hfar | ⟨a, harticle', hfar⟩ := h.far op hop hf
    · have : st.journalEnd ≤ reach := hreach.journal
      omega
    · have := hreach.slot k _ a (@slot_setSlot_self { st with jobGen := st.jobGen + 1 } k
        hlen _) harticle'
      omega

private theorem plan_planned (hR : Sound R) (hm : Mirrors R st cs) (ha : Agree st.journal cs t) :
    ∃ cs', Planned R st (st.plan R C k).1 cs cs' t (st.plan R C k).2.toList := by
  unfold Store.plan
  cases hs : st.slot k with
  | none => exact ⟨cs, .none hm ha⟩
  | some s =>
    have hlt := hm.slot_lt hs
    have hlen : k < st.slots.length := by rw [hm.slots]; exact hlt
    have hfits := hm.slot_fits ⟨k, hlt⟩ hs
    have hne : ∀ s' : Slot, SlotFits st.journal.1 s' (cs (.inl ⟨k, hlt⟩)) → s'.busy = none →
        ∀ x, slotHeld s' = some x → x.1 ≠ st.journal.1 := fun s' hfits' hbusy x hx =>
      held_offJournal ha (hfits'.idle hbusy) x (hfits'.held.trans hx)
    have hstart : ∀ s' ops task, s'.article = s.article →
        SlotFits st.journal.1 s' (cs (.inl ⟨k, hlt⟩)) →
        st.nextJob R C s' = .inl (some (ops, task)) →
        ∃ cs', Planned R st (st.startJob R k s' ops task).1 cs cs' t
          (st.startJob R k s' ops task).2.toList := by
      intro s' ops task harticle hfits' hnext
      have hbusy : s'.busy = none := by
        by_contra hbusy
        obtain ⟨b, hb⟩ := Option.ne_none_iff_exists'.mp hbusy
        simp [Store.nextJob, hb] at hnext
      exact startJob_planned hR hm ha hs harticle hfits'
        (nextJob_proposes hR (hne s' hfits' hbusy) hnext)
    dsimp only
    split
    · exact ⟨cs, .none hm ha⟩
    · rename_i ops task hnext
      exact hstart s ops task rfl hfits hnext
    · rename_i s' hnext
      -- The article is refused, its commit impossible, and cleaned up where that can start.
      have hs' : s' = s.refuse := by
        unfold Store.nextJob at hnext
        split at hnext
        · cases hnext
        · cases hnext
        · split at hnext
          · cases hnext
          · split at hnext
            · cases hnext
            · split at hnext <;> try cases hnext
              · split at hnext <;> cases hnext
              · split at hnext
                · cases hnext
                · dsimp only at hnext
                  split at hnext
                  · cases hnext
                  · exact (Sum.inr.inj hnext).symm
      subst hs'
      split
      · rename_i ops task hnext'
        exact hstart s.refuse ops task rfl hfits.refuse hnext'
      · refine ⟨cs, ?_, rfl, ha, ?_, fun _ => .inl rfl, nofun, nofun, nofun⟩
        · exact hm.setSlot_same (k := ⟨k, hlt⟩) hfits.refuse
        · exact reach_of_setSlot st.jobGen s.refuse hlen hs rfl

private theorem planRead_planned (hR : Sound R) (hm : Mirrors R st cs)
    (ha : Agree st.journal cs t) :
    ∃ cs', Planned R st (st.planRead R k).1 cs cs' t (st.planRead R k).2.toList := by
  unfold Store.planRead
  cases hr : st.readSlot k with
  | none => exact ⟨cs, .none hm ha⟩
  | some r =>
    have hlt := hm.read_lt hr
    have hlen : k < st.reads.length := by rw [hm.reads]; exact hlt
    have hfits := hm.read_fits ⟨k, hlt⟩ hr
    dsimp only
    cases hnext : nextRead R r with
    | none => exact ⟨cs, .none hm ha⟩
    | some job =>
      obtain ⟨ops, task⟩ := job
      have hbusy : r.busy = none := by
        by_contra hbusy
        obtain ⟨b, hb⟩ := Option.ne_none_iff_exists'.mp hbusy
        simp [nextRead, hb] at hnext
      have hreq := hfits.idle hbusy
      have h : ReadProposes st.journal r ops task := nextRead_proposes
        (fun x hx => held_offJournal ha hreq x (hfits.held.trans hx)) hnext
      refine planned_start hR hm ha hreq ?_ (fun hn => ?_) (fun hd => ?_) ?_ rfl
        (reach_of_setRead (st.jobGen + 1)
          { r with busy := some (st.freeJob R, st.jobGen + 1, ops.length, task) } hlen hr rfl)
        fun op hop hf hreach => ?_
      · rw [hfits.held]
        exact h.script
      · rw [h.journal] at hn
        cases hn
      · rw [h.shape.no_sync] at hd
        cases hd
      · refine Mirrors.setRead ⟨k, hlt⟩ (Mirrors.jobGen hm (st.jobGen + 1)) ?_
        refine ⟨hfits.held, nofun, fun j gen n task' hbusy => ?_⟩
        obtain ⟨rfl, rfl, rfl, rfl⟩ : st.freeJob R = j ∧ st.jobGen + 1 = gen ∧ ops.length = n ∧
            task = task' := by simpa using hbusy
        exact ⟨_, rfl, rfl, rfl, by simp [encodeJob], h.shape, h.journal⟩
      · have hgot : r.got.length ≤ reach := hreach.read k
          { r with busy := some (st.freeJob R, st.jobGen + 1, ops.length, task) }
          (@readSlot_setRead_self { st with jobGen := st.jobGen + 1 } k hlen _)
        have := h.far op hop hf
        omega

private theorem planEach_planned {f : Store → ℕ → Store × Option Job}
    (hf : ∀ {st : Store} {cs : Who R → Client} {k : ℕ}, Mirrors R st cs → Agree st.journal cs t →
      ∃ cs', Planned R st (f st k).1 cs cs' t (f st k).2.toList)
    (ks : List ℕ) (hm : Mirrors R st cs) (ha : Agree st.journal cs t) :
    ∃ cs', Planned R st (planEach f ks st).1 cs cs' t (planEach f ks st).2 := by
  induction ks generalizing st cs with
  | nil => exact ⟨cs, .none hm ha⟩
  | cons k ks ih =>
    obtain ⟨cs₁, h₁⟩ := hf (k := k) hm ha
    obtain ⟨cs₂, h₂⟩ := ih h₁.mirrors (h₁.journal.symm ▸ h₁.agree)
    exact ⟨cs₂, h₁.trans h₂⟩

/-- **The jobs of a turn**: each is emitted by a client of its own that was idle. -/
theorem planAll_planned (hR : Sound R) (hm : Mirrors R st cs) (ha : Agree st.journal cs t) :
    ∃ cs', Planned R st (st.planAll R C).1 cs cs' t (st.planAll R C).2 := by
  obtain ⟨cs₁, h₁⟩ := planEach_planned (f := Store.plan R C)
    (fun hm ha => plan_planned hR hm ha) (List.range R.posts) hm ha
  obtain ⟨cs₂, h₂⟩ := planEach_planned (f := Store.planRead R)
    (fun hm ha => planRead_planned hR hm ha) (List.range R.reads) h₁.mirrors
    (h₁.journal.symm ▸ h₁.agree)
  exact ⟨cs₂, h₁.trans h₂⟩

end DragonsNet.News.StorePlans
