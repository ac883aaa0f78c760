/- GID: DragonsNet/News/StoreClients
   source: lean/DN/News/PostSpec.lean, lean/DN/Server/SessionStore.lean
   digest: The store's slots and reads as clients of the host's job table. -/

import DragonsNet.Native.FileWorkers
import DragonsNet.News.PostStore

set_option autoImplicit false

namespace DragonsNet.News.StoreClients

open Native.FileJobs (FileOp Request)
open Native.FileScripts (opensAny closesAny names)
open Native.FileClients (Client heldAfter)
open PostStore

/-- An operation in the words the host takes; the octets it moves are the first of its job's data. -/
def encodeOp : Op → FileOp
  | .create n => .create n
  | .write p g offset data => .write p g offset data.length 0
  | .dataSync p g => .dataSync p g
  | .close p g => .close p g
  | .rename src dst => .rename src dst
  | .remove n => .remove n
  | .syncDir => .syncDir
  | .open_ n => .open_ n
  | .read p g offset len => .read p g offset len 0

def written? : Op → Option (List Byte)
  | .write _ _ _ data => some data
  | _ => none

def encodeJob (j : Job) : Request :=
  ⟨j.slot, j.gen, j.ops.map encodeOp, (j.ops.findSome? written?).getD []⟩

/-- A completion as the program reads it: of the job's data, the octets its first result counts. -/
def decodeDone (d : Native.FileJobs.Done) : Done :=
  ⟨d.slot, d.gen, d.ok, d.results, d.data.take (d.results.headD (0, 0)).1⟩

def fileAt : File → Option (ℕ × ℕ)
  | .open_ p g => some (p, g)
  | _ => none

def readFileAt : ReadFile → Option (ℕ × ℕ)
  | .open_ p g => some (p, g)
  | _ => none

def slotHeld (s : Slot) : Option (ℕ × ℕ) := s.article.bind fun a => fileAt a.file

/-- The operations of a slot's job, as far as its completion depends on them. -/
inductive SlotOps (held : Option (ℕ × ℕ)) : Task → List FileOp → Prop where
  | create {name} : held = none → SlotOps held .create [.create name]
  | write {len ops} : opensAny ops = false → closesAny ops = false → SlotOps held (.write len) ops
  | finish {w len body op} : opensAny (body ++ [op]) = false → closesAny body = false →
      op.isClose = true → w ≤ body.length → SlotOps held (.finish w len) (body ++ [op])
  | place {ops} : held = none → opensAny ops = false → SlotOps held .place ops
  | commit {c len ops} : held = none → opensAny ops = false → SlotOps held (.commit c len) ops
  | closing {op ops} : op.isClose = true → opensAny (op :: ops) = false →
      SlotOps held (.clean true) (op :: ops)
  | cleaning {ops} : held = none → opensAny ops = false → SlotOps held (.clean false) ops

inductive ReadOps : ReadFile → ReadTask → List FileOp → Prop where
  | open_ {name} : ReadOps .none .open_ [.open_ name]
  | more {p g offset len} : ReadOps (.open_ p g) (.read len false) [.read p g offset len 0]
  | last {p g offset len} :
      ReadOps (.open_ p g) (.read len true) [.read p g offset len 0, .close p g]
  | close {p g} : ReadOps (.open_ p g) .close [.close p g]

theorem ReadOps.no_sync {file : ReadFile} {task : ReadTask} {ops : List FileOp}
    (h : ReadOps file task ops) : ops.contains .syncDir = false := by
  cases h <;> rfl

structure SlotAsks (journal : ℕ) (held : Option (ℕ × ℕ)) (j gen n : ℕ) (task : Task) (r : Request) :
    Prop where
  slot : r.slot = j
  gen : r.gen = gen
  length : r.ops.length = n
  ops : SlotOps held task r.ops
  journal : names r.ops journal = true → ∃ c len, task = .commit c len
  dir : r.ops.contains .syncDir = true → task = .place

/-- A slot's client holds the file of its article and has asked for the job it has in flight. -/
structure SlotFits (journal : ℕ) (s : Slot) (c : Client) : Prop where
  body : s.article.isSome = true → s.body = true
  held : c.held = slotHeld s
  idle : s.busy = none → c.request = none
  busy : ∀ j gen n task, s.busy = some (j, gen, n, task) → s.article.isSome = true ∧
    ∃ r, c.request = some r ∧ SlotAsks journal (slotHeld s) j gen n task r

structure ReadAsks (journal : ℕ) (file : ReadFile) (j gen n : ℕ) (task : ReadTask) (q : Request) :
    Prop where
  slot : q.slot = j
  gen : q.gen = gen
  length : q.ops.length = n
  ops : ReadOps file task q.ops
  journal : names q.ops journal = false

structure ReadFits (journal : ℕ) (r : Read) (c : Client) : Prop where
  held : c.held = readFileAt r.file
  idle : r.busy = none → c.request = none
  busy : ∀ j gen n task, r.busy = some (j, gen, n, task) →
    ∃ q, c.request = some q ∧ ReadAsks journal r.file j gen n task q

def SlotMirrors (journal : ℕ) (x : Option Slot) (c : Client) : Prop :=
  match x with
  | none => c = .idle none
  | some s => SlotFits journal s c

def ReadMirrors (journal : ℕ) (x : Option Read) (c : Client) : Prop :=
  match x with
  | none => c = .idle none
  | some r => ReadFits journal r c

/-- The clients the store is: one for each slot and one for each read. -/
abbrev Who (R : Rules) := Fin R.posts ⊕ Fin R.reads

structure Mirrors (R : Rules) (st : Store) (cs : Who R → Client) : Prop where
  slots : st.slots.length = R.posts
  reads : st.reads.length = R.reads
  post : ∀ k : Fin R.posts, SlotMirrors st.journal.1 (st.slot k) (cs (.inl k))
  read : ∀ k : Fin R.reads, ReadMirrors st.journal.1 (st.readSlot k) (cs (.inr k))

variable {R : Rules} {C : Content} {st : Store} {cs : Who R → Client} {journal : ℕ} {c : Client}
  {x : Option Slot} {k : ℕ} {s : Slot} {r : Read}

theorem idle_of_request (h : c.request = none) : c = .idle c.held := by
  cases c with
  | idle held => rfl
  | _ => cases h

theorem SlotMirrors.congr {c c' : Client} (h : SlotMirrors journal x c) (hheld : c'.held = c.held)
    (hreq : c'.request = c.request) : SlotMirrors journal x c' := by
  cases x with
  | none =>
    obtain rfl : c = .idle none := h
    rw [SlotMirrors, idle_of_request (hreq.trans rfl), hheld]
    rfl
  | some s =>
    have h : SlotFits journal s c := h
    refine ⟨h.body, hheld.trans h.held, fun hs => hreq.trans (h.idle hs), fun j gen n task hs => ?_⟩
    rw [hreq]
    exact h.busy j gen n task hs

theorem ReadMirrors.congr {x : Option Read} {c c' : Client} (h : ReadMirrors journal x c)
    (hheld : c'.held = c.held) (hreq : c'.request = c.request) : ReadMirrors journal x c' := by
  cases x with
  | none =>
    obtain rfl : c = .idle none := h
    rw [ReadMirrors, idle_of_request (hreq.trans rfl), hheld]
    rfl
  | some r =>
    have h : ReadFits journal r c := h
    refine ⟨hheld.trans h.held, fun hs => hreq.trans (h.idle hs), fun j gen n task hs => ?_⟩
    rw [hreq]
    exact h.busy j gen n task hs

theorem Mirrors.congr {cs' : Who R → Client} (h : Mirrors R st cs)
    (hsame : ∀ i, (cs' i).held = (cs i).held ∧ (cs' i).request = (cs i).request) :
    Mirrors R st cs' :=
  ⟨h.slots, h.reads, fun k => (h.post k).congr (hsame _).1 (hsame _).2,
    fun k => (h.read k).congr (hsame _).1 (hsame _).2⟩

theorem slot_setSlot_self (hk : k < st.slots.length) (x : Option Slot) :
    (st.setSlot k x).slot k = x := by
  simp [Store.slot, Store.setSlot, List.getElem?_set_self hk]

theorem slot_setSlot_ne {k k' : ℕ} (h : k ≠ k') (x : Option Slot) :
    (st.setSlot k x).slot k' = st.slot k' := by
  simp [Store.slot, Store.setSlot, List.getElem?_set_ne h]

theorem readSlot_setRead_self (hk : k < st.reads.length) (x : Option Read) :
    (st.setRead k x).readSlot k = x := by
  simp [Store.readSlot, Store.setRead, List.getElem?_set_self hk]

theorem readSlot_setRead_ne {k k' : ℕ} (h : k ≠ k') (x : Option Read) :
    (st.setRead k x).readSlot k' = st.readSlot k' := by
  simp [Store.readSlot, Store.setRead, List.getElem?_set_ne h]

theorem Mirrors.setSlot (k : Fin R.posts) (h : Mirrors R st cs) (hx : SlotMirrors st.journal.1 x c)
    :
    Mirrors R (st.setSlot k x) (Function.update cs (.inl k) c) := by
  refine ⟨by simpa [Store.setSlot] using h.slots, h.reads, fun k' => ?_, fun k' => ?_⟩
  · rcases eq_or_ne k k' with rfl | hne
    · rw [slot_setSlot_self (by rw [h.slots]; exact k.2), Function.update_self]
      exact hx
    · rw [slot_setSlot_ne (Fin.val_ne_of_ne hne), Function.update_of_ne (by simpa using hne.symm)]
      exact h.post k'
  · rw [Function.update_of_ne Sum.inr_ne_inl]
    exact h.read k'

theorem Mirrors.setRead (k : Fin R.reads) {x : Option Read} (h : Mirrors R st cs)
    (hx : ReadMirrors st.journal.1 x c) :
    Mirrors R (st.setRead k x) (Function.update cs (.inr k) c) := by
  refine ⟨h.slots, by simpa [Store.setRead] using h.reads, fun k' => ?_, fun k' => ?_⟩
  · rw [Function.update_of_ne Sum.inl_ne_inr]
    exact h.post k'
  · rcases eq_or_ne k k' with rfl | hne
    · rw [readSlot_setRead_self (by rw [h.reads]; exact k.2), Function.update_self]
      exact hx
    · rw [readSlot_setRead_ne (Fin.val_ne_of_ne hne),
        Function.update_of_ne (by simpa using hne.symm)]
      exact h.read k'

theorem Mirrors.setSlot_same {k : Fin R.posts} (h : Mirrors R st cs)
    (hx : SlotMirrors st.journal.1 x (cs (.inl k))) : Mirrors R (st.setSlot k x) cs := by
  have := h.setSlot k hx
  rwa [Function.update_eq_self] at this

private theorem Mirrors.setRead_same {k : Fin R.reads} {x : Option Read} (h : Mirrors R st cs)
    (hx : ReadMirrors st.journal.1 x (cs (.inr k))) : Mirrors R (st.setRead k x) cs := by
  have := h.setRead k hx
  rwa [Function.update_eq_self] at this

theorem Mirrors.map {f : Option Slot → Option Slot} {g : Option Read → Option Read}
    (h : Mirrors R st cs) (hfnone : f none = none) (hgnone : g none = none)
    (hf : ∀ x c, SlotMirrors st.journal.1 x c → SlotMirrors st.journal.1 (f x) c)
    (hg : ∀ x c, ReadMirrors st.journal.1 x c → ReadMirrors st.journal.1 (g x) c) :
    Mirrors R { st with slots := st.slots.map f, reads := st.reads.map g } cs := by
  refine ⟨by simpa using h.slots, by simpa using h.reads, fun k => ?_, fun k => ?_⟩
  · have hslot : Store.slot { st with slots := st.slots.map f, reads := st.reads.map g } k =
        f (st.slot k) := by
      simp only [Store.slot, List.getElem?_map]
      cases st.slots[(k : ℕ)]? with
      | none => exact hfnone.symm
      | some x => rfl
    rw [hslot]
    exact hf _ _ (h.post k)
  · have hread : Store.readSlot { st with slots := st.slots.map f, reads := st.reads.map g } k =
        g (st.readSlot k) := by
      simp only [Store.readSlot, List.getElem?_map]
      cases st.reads[(k : ℕ)]? with
      | none => exact hgnone.symm
      | some x => rfl
    rw [hread]
    exact hg _ _ (h.read k)

/-! ## What the session does -/

theorem SlotFits.same {s s' : Slot} (h : SlotFits journal s c)
    (hbody : s'.article.isSome = true → s'.body = true) (hheld : slotHeld s' = slotHeld s)
    (hsome : s.article.isSome = true → s'.article.isSome = true) (hbusy : s'.busy = s.busy) :
    SlotFits journal s' c := by
  refine ⟨hbody, h.held.trans hheld.symm, fun hs => h.idle (hbusy.symm.trans hs),
    fun j gen n task hs => ?_⟩
  obtain ⟨harticle, r, hr, hasks⟩ := h.busy j gen n task (hbusy.symm.trans hs)
  rw [hheld]
  exact ⟨hsome harticle, r, hr, hasks⟩

theorem SlotFits.refuse (h : SlotFits journal s c) :
    SlotFits journal s.refuse c := h.same h.body rfl id rfl

theorem SlotFits.tidyRefused {accepting : Bool} (h : SlotFits journal s c) :
    SlotFits journal (s.tidyRefused R accepting) c := by
  unfold Slot.tidyRefused
  split
  · exact h.refuse
  · exact h

theorem SlotFits.tidyOutcome (h : SlotFits journal s c) : SlotFits journal s.tidyOutcome c := by
  unfold Slot.tidyOutcome
  split
  · exact h.same h.body rfl id rfl
  · exact h

theorem SlotFits.tidyArticle (h : SlotFits journal s c) : SlotFits journal s.tidyArticle c := by
  unfold Slot.tidyArticle
  split
  · rename_i hcond
    simp only [Bool.and_eq_true, Option.isNone_iff_eq_none] at hcond
    obtain ⟨⟨-, hbusy⟩, hnone⟩ := hcond
    have hheld : slotHeld s = none := by
      cases harticle : s.article with
      | none => simp [slotHeld, harticle]
      | some a =>
        have hfile : a.file = .none := by simpa [harticle] using hnone
        simp [slotHeld, harticle, hfile, fileAt]
    refine ⟨nofun, h.held.trans hheld, fun _ => h.idle hbusy, fun j gen n task hs => ?_⟩
    rw [show s.busy = _ from hs] at hbusy
    cases hbusy
  · exact h

theorem SlotFits.tidy {accepting : Bool} (h : SlotFits journal s c) :
    SlotMirrors journal (s.tidy R accepting) c := by
  have h : SlotFits journal ((s.tidyRefused R accepting).tidyOutcome).tidyArticle c :=
    h.tidyRefused.tidyOutcome.tidyArticle
  unfold Slot.tidy
  generalize ((s.tidyRefused R accepting).tidyOutcome).tidyArticle = s' at h
  dsimp only
  split
  · rename_i hgone
    simp only [Bool.and_eq_true, Option.isNone_iff_eq_none] at hgone
    obtain ⟨⟨-, hbusy⟩, harticle⟩ := hgone
    rw [SlotMirrors, idle_of_request (h.idle hbusy), h.held]
    simp [slotHeld, harticle]
  · exact h

theorem ReadFits.tidy (h : ReadFits journal r c) : ReadMirrors journal r.tidy c := by
  unfold Read.tidy
  split
  · rename_i hgone
    simp only [Bool.and_eq_true, Option.isNone_iff_eq_none, Bool.not_eq_true'] at hgone
    obtain ⟨⟨-, hbusy⟩, hopen⟩ := hgone
    rw [ReadMirrors, idle_of_request (h.idle hbusy), h.held]
    cases hfile : r.file with
    | open_ p g => simp [hfile, ReadFile.isOpen] at hopen
    | none | gone => rfl
  · exact h

theorem Mirrors.tidy (h : Mirrors R st cs) : Mirrors R (st.tidy R) cs := by
  refine h.map rfl rfl (fun x c hx => ?_) fun x c hx => ?_
  · cases x with
    | none => exact hx
    | some s => exact SlotFits.tidy hx
  · cases x with
    | none => exact hx
    | some r => exact ReadFits.tidy hx

theorem Mirrors.abandon (idx gen : ℕ) (h : Mirrors R st cs) :
    Mirrors R (st.abandon R idx gen) cs := by
  refine Mirrors.tidy (h.map rfl rfl (fun x c hx => ?_) fun x c hx => ?_)
  · cases x with
    | none => exact hx
    | some s =>
      have hx : SlotFits st.journal.1 s c := hx
      change SlotFits st.journal.1 (s.leftBy idx gen) c
      unfold Slot.leftBy
      split
      · exact hx.same hx.body rfl id rfl
      · exact hx
  · cases x with
    | none => exact hx
    | some r =>
      have hx : ReadFits st.journal.1 r c := hx
      change ReadFits st.journal.1 (r.leftBy idx gen) c
      unfold Read.leftBy
      split
      · exact ⟨hx.held, hx.idle, hx.busy⟩
      · exact hx

theorem Mirrors.slot_lt (h : Mirrors R st cs) (hs : st.slot k = some s) : k < R.posts := by
  rw [← h.slots]
  by_contra hk
  rw [Store.slot, List.getElem?_eq_none (Nat.not_lt.mp hk)] at hs
  cases hs

theorem Mirrors.read_lt (h : Mirrors R st cs) (hr : st.readSlot k = some r) : k < R.reads := by
  rw [← h.reads]
  by_contra hk
  rw [Store.readSlot, List.getElem?_eq_none (Nat.not_lt.mp hk)] at hr
  cases hr

theorem Mirrors.slot_fits (h : Mirrors R st cs) (k : Fin R.posts) (hs : st.slot k = some s) :
    SlotFits st.journal.1 s (cs (.inl k)) := by
  have := h.post k
  rwa [hs] at this

theorem Mirrors.read_fits (h : Mirrors R st cs) (k : Fin R.reads) (hr : st.readSlot k = some r) :
    ReadFits st.journal.1 r (cs (.inr k)) := by
  have := h.read k
  rwa [hr] at this

private theorem accept_fits {wall : ℕ} (h : SlotFits journal s c) (hbody : s.body = false) :
    SlotFits journal (st.accept R C wall s).2 c := by
  have harticle : s.article = none := by
    by_contra hsome
    have := h.body (Option.isSome_iff_ne_none.mpr hsome)
    rw [hbody] at this
    cases this
  unfold Store.accept
  split
  · exact h.same (fun _ => rfl) rfl id rfl
  · split
    · exact h.same (fun _ => rfl) rfl id rfl
    · refine h.same (fun _ => rfl) ?_ (fun _ => rfl) rfl
      simp [slotHeld, harticle, fileAt]

private theorem accept_store (wall : ℕ) (s : Slot) :
    ∃ next, (st.accept R C wall s).1 = { st with next := next } := by
  unfold Store.accept
  split
  · exact ⟨st.next, rfl⟩
  · split
    · exact ⟨st.next, rfl⟩
    · exact ⟨st.next + 1, rfl⟩

private theorem octet_fits (st : Store) (wall : ℕ) (x : Byte) (h : SlotFits journal s c) :
    SlotFits journal (st.octet R C wall s x).2 c := by
  unfold Store.octet
  generalize frameOctet s.frame x = f
  obtain ⟨f, add, fin⟩ := f
  dsimp only
  split
  · exact h.same h.body rfl id rfl
  · split
    · exact h.same h.body rfl id rfl
    · split
      · exact h.same h.body rfl id rfl
      · split
        · rename_i hbody
          have hbody : s.body = false := by simpa using hbody
          split
          · exact h.same h.body rfl id rfl
          · split
            · exact accept_fits (h.same h.body rfl id rfl) hbody
            · exact h.same h.body rfl id rfl
        · rename_i hbody
          have hbody : s.body = true := by simpa using hbody
          split
          · rename_i a ha
            refine h.same (fun _ => hbody) ?_ (fun _ => rfl) rfl
            have ha : s.article = some a := ha
            simp [slotHeld, ha]
          · exact h.same h.body rfl id rfl

theorem octet_store (st : Store) (wall : ℕ) (s : Slot) (x : Byte) :
    ∃ next, (st.octet R C wall s x).1 = { st with next := next } := by
  unfold Store.octet
  generalize frameOctet s.frame x = f
  obtain ⟨f, add, fin⟩ := f
  dsimp only
  split
  · exact ⟨st.next, rfl⟩
  · split
    · exact ⟨st.next, rfl⟩
    · split
      · exact ⟨st.next, rfl⟩
      · split
        · split
          · exact ⟨st.next, rfl⟩
          · split
            · exact accept_store wall _
            · exact ⟨st.next, rfl⟩
        · split
          · exact ⟨st.next, rfl⟩
          · exact ⟨st.next, rfl⟩

theorem Mirrors.next (h : Mirrors R st cs) (next : ℕ) : Mirrors R { st with next := next } cs :=
  ⟨h.slots, h.reads, h.post, h.read⟩

theorem Mirrors.feed {wall k : ℕ} {held : List Byte} (h : Mirrors R st cs) :
    Mirrors R (st.feed R C wall k held).1 cs := by
  induction held generalizing st with
  | nil => exact h
  | cons x rest ih =>
    unfold Store.feed
    cases hs : st.slot k with
    | none => exact h
    | some s =>
      dsimp only
      split
      · obtain ⟨next, hnext⟩ := octet_store (R := R) (C := C) (st.setSlot k none) wall s x
        have hfits := octet_fits (R := R) (C := C) (st.setSlot k none) wall x
          (h.slot_fits ⟨k, h.slot_lt hs⟩ hs)
        generalize (st.setSlot k none).octet R C wall s x = f at hnext hfits
        obtain ⟨st', s'⟩ := f
        obtain rfl : st' = _ := hnext
        have hstore : Store.setSlot { st.setSlot k none with next := next } k (some s') =
            Store.setSlot { st with next := next } k (some s') := by
          simp only [Store.setSlot, List.set_set]
        refine ih ?_
        rw [hstore]
        exact (h.next next).setSlot_same (k := ⟨k, h.slot_lt hs⟩) hfits
      · exact h

theorem Mirrors.progress {wall k : ℕ} {held : List Byte} (h : Mirrors R st cs) :
    Mirrors R (st.progress R C wall k held) cs := by
  have h' : Mirrors R ((st.feed R C wall k held).1.tidy R) cs := h.feed.tidy
  unfold Store.progress
  generalize (st.feed R C wall k held).1.tidy R = st' at h'
  dsimp only
  cases hs : st'.slot k with
  | none => exact h'
  | some s =>
    have hfits := h'.slot_fits ⟨k, h'.slot_lt hs⟩ hs
    dsimp only
    split
    · refine Mirrors.tidy (h'.setSlot_same (k := ⟨k, h'.slot_lt hs⟩) ?_)
      exact SlotFits.same hfits hfits.body rfl id rfl
    · exact h'

theorem Mirrors.claim {owner : ℕ × ℕ} {conn : ℕ} (h : Mirrors R st cs) :
    Mirrors R (st.claim R owner conn) cs := by
  unfold Store.claim
  cases hk : (List.range R.posts).find? st.free with
  | none => exact h
  | some k =>
    dsimp only
    split
    · have hlt : k < R.posts := List.mem_range.mp (List.mem_of_find?_eq_some hk)
      have hfree : st.free k = true := List.find?_some hk
      have hnone : st.slot k = none := by
        simp only [Store.free, Option.any_eq_true] at hfree
        obtain ⟨x, hx, hnone⟩ := hfree
        rw [Store.slot, hx]
        exact Option.isNone_iff_eq_none.mp hnone
      have hidle := h.post ⟨k, hlt⟩
      rw [hnone] at hidle
      refine h.setSlot_same (k := ⟨k, hlt⟩) ?_
      rw [show cs (.inl ⟨k, hlt⟩) = .idle none from hidle]
      exact ⟨nofun, rfl, fun _ => rfl, nofun⟩
    · exact h

theorem Mirrors.claimRead {owner : ℕ × ℕ} {cmd : Cmd} {number : ℕ} {id : List Byte}
    {view : Option View} (h : Mirrors R st cs) :
    Mirrors R (st.claimRead R C owner cmd number id view) cs := by
  unfold Store.claimRead
  cases hk : (List.range R.reads).find? st.readFree with
  | none => exact h
  | some k =>
    cases hc : st.find id with
    | none => exact h
    | some c =>
      have hlt : k < R.reads := List.mem_range.mp (List.mem_of_find?_eq_some hk)
      have hfree : st.readFree k = true := List.find?_some hk
      have hnone : st.readSlot k = none := by
        simp only [Store.readFree, Option.any_eq_true] at hfree
        obtain ⟨x, hx, hnone⟩ := hfree
        rw [Store.readSlot, hx]
        exact Option.isNone_iff_eq_none.mp hnone
      have hidle := h.read ⟨k, hlt⟩
      rw [hnone] at hidle
      refine h.setRead_same (k := ⟨k, hlt⟩) ?_
      rw [show cs (.inr ⟨k, hlt⟩) = .idle none from hidle]
      exact ⟨rfl, fun _ => rfl, nofun⟩

theorem ReadFits.not_busy (h : ReadFits journal r c) (hfile : r.file = .gone) : r.busy = none := by
  cases hbusy : r.busy with
  | none => rfl
  | some b =>
    obtain ⟨j, gen, n, task⟩ := b
    obtain ⟨q, -, hasks⟩ := h.busy j gen n task hbusy
    have hops := hasks.ops
    rw [hfile] at hops
    cases hops

theorem ReadFits.advance {number : ℕ} {commit : Commit} {v : View} (h : ReadFits journal r c)
    (hseeks : R.seeksEnd = true) (hwhole : r.whole R = true) :
    ReadFits journal (r.advance R C number commit v) c := by
  have hfile : r.file = .gone := by
    simp only [Read.whole, hseeks, Bool.not_true, Bool.false_or, Bool.and_eq_true,
      beq_iff_eq] at hwhole
    exact hwhole.2
  have hbusy := h.not_busy hfile
  refine ⟨?_, fun _ => h.idle hbusy, fun j gen n task hs => ?_⟩
  · rw [h.held, hfile]
    rfl
  · rw [show r.busy = _ from hs] at hbusy
    cases hbusy

theorem Mirrors.progressRead (hseeks : R.seeksEnd = true) (h : Mirrors R st cs) :
    Mirrors R (st.progressRead R C k) cs := by
  unfold Store.progressRead
  cases hr : st.readSlot k with
  | none => exact h
  | some r =>
    have hfits := h.read_fits ⟨k, h.read_lt hr⟩ hr
    have hset : ∀ {r' : Read}, ReadFits st.journal.1 r' (cs (.inr ⟨k, h.read_lt hr⟩)) →
        Mirrors R (st.setRead k (some r')) cs := fun hr' =>
      h.setRead_same (k := ⟨k, h.read_lt hr⟩) hr'
    dsimp only
    split
    · split
      · exact Mirrors.tidy (hset ⟨hfits.held, hfits.idle, hfits.busy⟩)
      · exact h
    · split
      · rename_i hfollows
        refine hset (hfits.advance hseeks ?_)
        by_contra hwhole
        rw [Bool.not_eq_true] at hwhole
        simp [hwhole] at hfollows
      · split
        · exact h
        · exact Mirrors.tidy (hset ⟨hfits.held, hfits.idle, hfits.busy⟩)

end DragonsNet.News.StoreClients
