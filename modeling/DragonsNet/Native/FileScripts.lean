/- GID: DragonsNet/Native/FileScripts
   source: native/jobs.c
   digest: The jobs a client of the host's table may ask for, and what taking one does. -/

import DragonsNet.Native.FileJobs

set_option autoImplicit false

namespace DragonsNet.Native.FileScripts

open FileJobs (FileOp Request Table Violation checkOp takeOp takeOps take nameFile freePlace int64Max
  places maxOps)

/-- An operation that moves octets past the last offset of a file. -/
def Far (op : FileOp) : Prop :=
  ∃ offset length at_, op.window = some (offset, length, at_) ∧ int64Max - length < offset

/-- An operation on a file, not on a listing, that passes the checks made of it alone, unless it
moves octets past the last offset. -/
structure Sane (op : FileOp) : Prop where
  file : op.isList = false
  checked : checkOp op = .ok () ∨ checkOp op = .error .offset ∧ Far op

/-- The operations of a job that opens no file: each names no file, the journal without closing it,
or the client's own file, which it names no more once closed. -/
inductive Works (journal : ℕ × ℕ) : Option (ℕ × ℕ) → List FileOp → Prop where
  | nil {held} : Works journal held []
  | aside {held op rest} : op.opens = false → op.onFile = none → Works journal held rest →
      Works journal held (op :: rest)
  | journal {held op rest} : op.onFile = some journal → op.isClose = false →
      Works journal held rest → Works journal held (op :: rest)
  | own {x op rest} : op.onFile = some x → op.isClose = false → Works journal (some x) rest →
      Works journal (some x) (op :: rest)
  | close {x op rest} : op.onFile = some x → op.isClose = true → Works journal none rest →
      Works journal (some x) (op :: rest)

def opensAny (ops : List FileOp) : Bool := ops.any FileOp.opens

def closesAny (ops : List FileOp) : Bool := ops.any FileOp.isClose

def names (ops : List FileOp) (p : ℕ) : Bool := ops.any fun op => op.onFile.any (·.1 == p)

/-- What a client that holds a file, or none, may ask for: open one file, or work. -/
inductive Script (journal : ℕ × ℕ) : Option (ℕ × ℕ) → List FileOp → Prop where
  | opening {op} : op.opens = true → op ≠ .openDir → Sane op → Script journal none [op]
  | working {held ops} : 1 ≤ ops.length → ops.length ≤ maxOps → (∀ op ∈ ops, Sane op) →
      (∀ x, held = some x → names ops x.1 = true) → Works journal held ops →
      Script journal held ops

variable {op : FileOp} {x : ℕ × ℕ} {held : Option (ℕ × ℕ)} {journal : ℕ × ℕ} {ops : List FileOp}
  {files : ℕ → FileJobs.File} {k : ℕ} {closed : List ℕ}

private theorem opens_of_onFile (h : op.onFile = some x) : op.opens = false := by
  cases op <;> simp_all [FileOp.onFile, FileOp.opens]

theorem onFile_of_opens (h : op.opens = true) : op.onFile = none := by
  cases op <;> simp_all [FileOp.onFile, FileOp.opens]

private theorem closes_of_not (closed : List ℕ) (h : op.isClose = false) : op.closes closed =
    closed := by
  cases op <;> simp_all [FileOp.isClose, FileOp.closes]

private theorem closes_of_close (closed : List ℕ) (hx : op.onFile = some x)
    (h : op.isClose = true) :
    op.closes closed = x.1 :: closed := by
  cases op <;> simp_all only [FileOp.isClose, FileOp.closes, FileOp.onFile, Option.some.injEq,
    Bool.false_eq_true]
  rw [← hx]

theorem isClose_of_onFile_none (h : op.onFile = none) : op.isClose = false := by
  cases op <;> simp_all [FileOp.onFile, FileOp.isClose]

private theorem names_cons (op : FileOp) (ops : List FileOp) (p : ℕ) :
    names (op :: ops) p = (op.onFile.any (·.1 == p) || names ops p) := rfl

theorem Works.opensAny (h : Works journal held ops) : opensAny ops = false := by
  induction h with
  | nil => rfl
  | aside hopens _ _ ih => simpa [FileScripts.opensAny, hopens] using ih
  | journal hx _ _ ih | own hx _ _ ih | close hx _ _ ih =>
    simpa [FileScripts.opensAny, opens_of_onFile hx] using ih

/-- A file operation at any point of the work is on the journal, or on the client's file while it
has not been closed. -/
theorem Works.at_index (h : Works journal held ops) {m : ℕ} (hop : ops[m]? = some op)
    (hx : op.onFile = some x) :
    x = journal ∧ op.isClose = false ∨ held = some x ∧ closesAny (ops.take m) = false := by
  induction h generalizing m with
  | nil => simp at hop
  | aside _ hnone _ ih =>
    cases m with
    | zero =>
      obtain rfl : _ = op := by simpa using hop
      rw [hnone] at hx
      cases hx
    | succ m =>
      have := ih (by simpa using hop)
      simpa [closesAny, isClose_of_onFile_none hnone] using this
  | journal hjournal hkeep _ ih =>
    cases m with
    | zero =>
      obtain rfl : _ = op := by simpa using hop
      rw [hjournal] at hx
      exact .inl ⟨(Option.some.inj hx).symm, hkeep⟩
    | succ m =>
      have := ih (by simpa using hop)
      simpa [closesAny, hkeep] using this
  | own hown hkeep _ ih =>
    cases m with
    | zero =>
      obtain rfl : _ = op := by simpa using hop
      exact .inr ⟨hown ▸ hx, rfl⟩
    | succ m =>
      have := ih (by simpa using hop)
      simpa [closesAny, hkeep] using this
  | close hown _ _ ih =>
    cases m with
    | zero =>
      obtain rfl : _ = op := by simpa using hop
      exact .inr ⟨hown ▸ hx, rfl⟩
    | succ m =>
      obtain hj | ⟨hnone, -⟩ := ih (m := m) (by simpa using hop)
      · exact .inl hj
      · cases hnone

/-! ## Taking a job -/

/-- What `take` wants of a file before an operation of job `k` names it. -/
structure Ready (files : ℕ → FileJobs.File) (k : ℕ) (x : ℕ × ℕ) : Prop where
  place : x.1 < places
  isOpen : (files x.1).isOpen = true
  gen : (files x.1).gen = x.2
  listing : (files x.1).listing = false
  busy : (files x.1).busy = 0 ∨ (files x.1).busy = k + 1

def marked (files : ℕ → FileJobs.File) (k : ℕ) (ops : List FileOp) : ℕ → FileJobs.File :=
  fun p => if names ops p then { files p with busy := k + 1 } else files p

def mark (files : ℕ → FileJobs.File) (k p : ℕ) : ℕ → FileJobs.File :=
  Function.update files p { files p with busy := k + 1 }

theorem Ready.mark {k p : ℕ} (h : Ready files k x) : Ready (mark files k p) k x := by
  rcases eq_or_ne x.1 p with hp | hp
  · subst hp
    refine ⟨h.place, ?_, ?_, ?_, ?_⟩ <;> simp only [FileScripts.mark, Function.update_self]
    · exact h.isOpen
    · exact h.gen
    · exact h.listing
    · exact .inr trivial
  · refine ⟨h.place, ?_, ?_, ?_, ?_⟩ <;> simp only [FileScripts.mark, Function.update_of_ne hp]
    · exact h.isOpen
    · exact h.gen
    · exact h.listing
    · exact h.busy

private theorem marked_cons_none (h : op.onFile = none) :
    marked files k (op :: ops) = marked files k ops := by
  funext p
  simp [marked, names_cons, h]

private theorem marked_cons (h : op.onFile = some x) :
    marked files k (op :: ops) = marked (mark files k x.1) k ops := by
  funext p
  rcases eq_or_ne p x.1 with rfl | hp
  · simp [marked, names_cons, h, mark]
  · simp [marked, names_cons, h, mark, Function.update_of_ne hp, hp.symm]

private theorem nameFile_ready (h : Ready files k x) (hclosed : x.1 ∉ closed)
    (hlist : op.isList = false) :
    nameFile files closed k op x.1 x.2 = .ok (mark files k x.1) := by
  have hplace : ¬ places ≤ x.1 := Nat.not_le.mpr h.place
  have hbusy : ¬ ((files x.1).busy ≠ 0 ∧ (files x.1).busy ≠ k + 1) := by
    have := h.busy
    omega
  have hopen : (!(files x.1).isOpen || (files x.1).gen != x.2 || closed.contains x.1) = false := by
    simpa [h.isOpen, h.gen] using hclosed
  have hkind : ¬ (op.isList ≠ (files x.1).listing ∧ op.isClose = false) := by
    rw [hlist, h.listing]
    simp
  simp only [nameFile, if_neg hplace, hopen, Bool.false_eq_true, if_false, if_neg hbusy,
    if_neg hkind]
  cases op with
  | list => cases hlist
  | _ => rfl

private theorem takeOp_ready (hx : op.onFile = some x) (h : Ready files k x)
    (hclosed : x.1 ∉ closed)
    (hlist : op.isList = false) : takeOp k files closed op = .ok (mark files k x.1, none) := by
  simp only [takeOp, opens_of_onFile hx, hx, nameFile_ready h hclosed hlist]
  rfl

private theorem takeOp_aside (hopens : op.opens = false) (h : op.onFile = none) :
    takeOp k files closed op = .ok (files, none) := by
  simp only [takeOp, hopens, h]
  rfl

private theorem takeOps_cons {files files' : ℕ → FileJobs.File} {place : Option ℕ}
    (hcheck : checkOp op = .ok ()) (hop : takeOp k files closed op = .ok (files', place)) :
    takeOps k files closed (op :: ops) =
      (takeOps k files' (op.closes closed) ops).map fun y => (y.1, place :: y.2) := by
  simp only [takeOps, hcheck, hop, bind, Except.bind]
  cases takeOps k files' (op.closes closed) ops <;> rfl

private theorem takeOps_offset (hcheck : checkOp op = .error .offset) :
    takeOps k files closed (op :: ops) = .error .offset := by
  rw [takeOps, hcheck]
  rfl

/-- What the loop comes to where each file it names is ready: the files marked, or an offset that
is too far. -/
def Takes (files files' : ℕ → FileJobs.File) (k : ℕ) (closed : List ℕ) (ops : List FileOp) : Prop :=
  takeOps k files closed ops = .ok (files', ops.map fun _ => none) ∨
    takeOps k files closed ops = .error .offset ∧ ∃ op ∈ ops, Far op

theorem Takes.cons {files files' files'' : ℕ → FileJobs.File} (hsane : Sane op)
    (hop : takeOp k files closed op = .ok (files', none))
    (h : Takes files' files'' k (op.closes closed) ops) :
    Takes files files'' k closed (op :: ops) := by
  obtain hcheck | ⟨hcheck, hfar⟩ := hsane.checked
  · obtain h | ⟨h, op', hmem, hfar⟩ := h
    · exact .inl (by rw [takeOps_cons hcheck hop, h]; rfl)
    · refine .inr ⟨by rw [takeOps_cons hcheck hop, h]; rfl, op', List.mem_cons_of_mem op hmem, hfar⟩
  · exact .inr ⟨takeOps_offset hcheck, op, List.mem_cons_self, hfar⟩

theorem Works.takes (h : Works journal held ops) (hsane : ∀ op ∈ ops, Sane op)
    (hheld : ∀ x, held = some x → Ready files k x ∧ x.1 ∉ closed ∧ x.1 ≠ journal.1)
    (hjournal : names ops journal.1 = true → Ready files k journal ∧ journal.1 ∉ closed) :
    Takes files (marked files k ops) k closed ops := by
  induction h generalizing files closed with
  | nil => exact .inl rfl
  | @aside held op rest hopens hnone _ ih =>
    rw [marked_cons_none hnone]
    refine Takes.cons (hsane op List.mem_cons_self) (takeOp_aside hopens hnone) ?_
    rw [closes_of_not _ (isClose_of_onFile_none hnone)]
    refine ih (fun o ho => hsane o (List.mem_cons_of_mem _ ho)) hheld fun hn => hjournal ?_
    rw [names_cons, hn, Bool.or_true]
  | @journal held op rest hx hkeep _ ih =>
    have hsaneOp := hsane op List.mem_cons_self
    obtain ⟨hready, hopen⟩ := hjournal (by simp [names_cons, hx])
    rw [marked_cons hx]
    refine Takes.cons hsaneOp (takeOp_ready hx hready hopen hsaneOp.file) ?_
    rw [closes_of_not _ hkeep]
    refine ih (fun o ho => hsane o (List.mem_cons_of_mem _ ho)) (fun x hheldx => ?_)
      fun _ => ⟨hready.mark, hopen⟩
    obtain ⟨hr, hc, hne⟩ := hheld x hheldx
    exact ⟨hr.mark, hc, hne⟩
  | @own x op rest hx hkeep _ ih =>
    have hsaneOp := hsane op List.mem_cons_self
    obtain ⟨hready, hopen, hne⟩ := hheld x rfl
    rw [marked_cons hx]
    refine Takes.cons hsaneOp (takeOp_ready hx hready hopen hsaneOp.file) ?_
    rw [closes_of_not _ hkeep]
    refine ih (fun o ho => hsane o (List.mem_cons_of_mem _ ho)) (fun y hy => ?_) fun hn => ?_
    · obtain rfl := Option.some.inj hy
      exact ⟨hready.mark, hopen, hne⟩
    · obtain ⟨hr, hc⟩ := hjournal (by rw [names_cons, hn, Bool.or_true])
      exact ⟨hr.mark, hc⟩
  | @close x op rest hx hclose _ ih =>
    have hsaneOp := hsane op List.mem_cons_self
    obtain ⟨hready, hopen, hne⟩ := hheld x rfl
    rw [marked_cons hx]
    refine Takes.cons hsaneOp (takeOp_ready hx hready hopen hsaneOp.file) ?_
    rw [closes_of_close _ hx hclose]
    refine ih (fun o ho => hsane o (List.mem_cons_of_mem _ ho)) (fun y hy => by cases hy)
      fun hn => ?_
    obtain ⟨hr, hc⟩ := hjournal (by rw [names_cons, hn, Bool.or_true])
    refine ⟨hr.mark, ?_⟩
    rw [List.mem_cons, not_or]
    exact ⟨hne.symm, hc⟩

/-- A job of work is taken and its files marked, where none of them is busy with another, or it
moves octets too far. -/
theorem take_working {t : Table} {r : Request}
    (hfree : (t.jobs r.slot).state = .free) (hpos : 1 ≤ r.ops.length)
    (hmax : r.ops.length ≤ maxOps)
    (hsync : r.ops.contains .syncDir = true → t.dirSyncs = 0)
    (htakes : Takes t.files (marked t.files r.slot r.ops) r.slot [] r.ops) :
    take t r = .ok (t.enqueue r (marked t.files r.slot r.ops) (r.ops.map fun _ => none)) ∨
      take t r = .error .offset ∧ ∃ op ∈ r.ops, Far op := by
  have hcount : ¬ (r.ops.length < 1 ∨ maxOps < r.ops.length) := by omega
  have hdir : ¬ (r.ops.contains .syncDir = true ∧ t.dirSyncs ≠ 0) := fun h => h.2 (hsync h.1)
  obtain htakes | ⟨htakes, hfar⟩ := htakes
  · exact .inl (by simp only [take, hfree, ne_eq, not_true, if_false, if_neg hcount, htakes,
      if_neg hdir])
  · exact .inr ⟨by simp only [take, hfree, ne_eq, not_true, if_false, if_neg hcount, htakes], hfar⟩

theorem take_opening {t : Table} {r : Request} {p : ℕ} (hfree : (t.jobs r.slot).state = .free)
    (hops : r.ops = [op]) (hopens : op.opens = true) (hsane : Sane op)
    (hplace : freePlace t.files = some p) :
    take t r = .ok (t.enqueue r
      (Function.update t.files p { t.files p with reserved := true }) [some p]) := by
  have hcheck : checkOp op = .ok () := by
    obtain h | ⟨-, offset, length, at_, hw, -⟩ := hsane.checked
    · exact h
    · cases op <;> simp_all [FileOp.window, FileOp.opens]
  have htakes : takeOps r.slot t.files [] [op] =
      .ok (Function.update t.files p { t.files p with reserved := true }, [some p]) := by
    have hop : takeOp r.slot t.files [] op =
        .ok (Function.update t.files p { t.files p with reserved := true }, some p) := by
      simp only [takeOp, hopens, hplace, if_true]
    rw [takeOps_cons hcheck hop]
    rfl
  have hdir : [op].contains .syncDir = false := by
    cases op <;> simp_all [FileOp.opens]
  simp only [take, hfree, hops, htakes, hdir, ne_eq, not_true, if_false, List.length_singleton,
    maxOps]
  rfl

end DragonsNet.Native.FileScripts
