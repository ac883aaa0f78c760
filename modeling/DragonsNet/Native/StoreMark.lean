/- GID: DragonsNet/Native/StoreMark
   source: native/store.c, native/jobs.c
   digest: The mark a failed sync leaves, and the starts of the host that it bars. -/

import DragonsNet.Lib.FileSystem
import DragonsNet.Lib.Runs

set_option autoImplicit false

namespace DragonsNet.Native.StoreMark

open Lib.FileSystem Lib.Runs

def bootId : ℕ := 36

abbrev Boot := { id : Octets // id.length = bootId }

inductive Dir where
  | spool
  | run
  deriving DecidableEq

abbrev Marks := { fs : Files Dir // fs.Sound }

/-- A thread in `dn_store_mark_failed`: before the call, or in `leave_mark` of a directory, with
the marks left so far. The mutex `marking` lets one thread in. -/
inductive Marking where
  | idle
  | opening (dir : Dir) (left : ℕ)
  | writing (dir : Dir) (file : ℕ) (left : ℕ)
  | closing (dir : Dir) (written : Bool) (left : ℕ)
  deriving DecidableEq

/-- Why a process has ended: what `refuse` and `dn_harness_now` name, or anything else. -/
inductive End where
  | spoolHeld
  | notWhole (dir : Dir)
  | failedSinceBoot (dir : Dir)
  | noMark
  | other
  deriving DecidableEq

inductive Point where
  | off
  | locking
  | opening (dir : Dir)
  | reading (dir : Dir) (file : ℕ)
  | unlinking (dir : Dir)
  | serving (marking : Marking)
  | ended (why : End)
  deriving DecidableEq

/-- Where `dn_store_start` goes on after `check_mark` of a directory. -/
def Dir.after : Dir → Point
  | .spool => .opening .run
  | .run => .serving .idle

def Point.locked : Point → Bool
  | .opening _ | .reading .. | .unlinking _ | .serving _ => true
  | _ => false

def Point.serves : Point → Bool
  | .serving _ => true
  | _ => false

private theorem Point.locked_of_serves {pt : Point} (h : pt.serves = true) : pt.locked = true := by
  cases pt with
  | serving => rfl
  | off | locking | opening | reading | unlinking | ended => cases h

/-- The machine: the boot it runs in, the marks, who holds the spool, and its processes. Since the
boot, `marked` says where a mark was begun and `told` whether `dn_store_mark_failed` has returned. -/
structure State where
  boot : Boot
  fs : Files Dir
  holder : Option ℕ
  proc : ℕ → Point
  marked : Dir → Bool
  told : Bool

namespace State

def start (boot : Boot) (marks : Marks) : State :=
  ⟨boot, marks.1, none, fun _ => .off, fun _ => false, false⟩

def setProc (s : State) (p : ℕ) (pt : Point) : State :=
  { s with proc := Function.update s.proc p pt }

def ends (s : State) (p : ℕ) (why : End) : State :=
  { s.setProc p (.ended why) with holder := if s.holder = some p then none else s.holder }

def passed (s : State) (p : ℕ) (dir : Dir) : State := s.setProc p dir.after

def leaves (s : State) (p : ℕ) (dir : Dir) (left : ℕ) : State :=
  match dir with
  | .spool => s.setProc p (.serving (.opening .run left))
  | .run => if left = 0 then s.ends p .noMark
    else { s.setProc p (.serving .idle) with told := true }

def line (s : State) : Octets := s.boot.1 ++ [10]

end State

/-- A process makes its next system call, which fails or gives a count, or is ended, or the machine
restarts. Nothing has synced the marks, so any may be there after it. -/
inductive Act where
  | call (p : ℕ) (result : Option ℕ)
  | dies (p : ℕ)
  | reboot (boot : Boot) (marks : Marks)

def Act.isReboot : Act → Bool
  | .reboot .. => true
  | _ => false

namespace State

def call (s : State) (p : ℕ) (result : Option ℕ) : Point → Option State
  | .off => some (s.setProc p .locking)
  | .locking => match s.holder with
    | none => some { s.setProc p (.opening .spool) with holder := some p }
    | some _ => some (s.ends p .spoolHeld)
  | .opening dir => match s.fs.names dir with
    | none => some (s.passed p dir)
    | some file => some (s.setProc p (.reading dir file))
  | .reading dir file => match result with
    | none => some (s.ends p (.notWhole dir))
    | some _ =>
      if ((s.fs.content file).take bootId).length ≠ bootId then some (s.ends p (.notWhole dir))
      else if (s.fs.content file).take bootId = s.boot.1 then
        some (s.ends p (.failedSinceBoot dir))
      else some (s.setProc p (.unlinking dir))
  | .unlinking dir => some (({ s with fs := (s.fs.remove dir).getD s.fs } : State).passed p dir)
  -- The first call of `leave_mark` is still to come: a sync has failed in a worker.
  | .serving .idle => some (s.setProc p (.serving (.opening .spool 0)))
  | .serving (.opening dir left) => match result with
    | none => some (s.leaves p dir left)
    | some _ => some (({ s with
        fs := (s.fs.create dir).1
        marked := Function.update s.marked dir true } : State).setProc p
          (.serving (.writing dir (s.fs.create dir).2 left)))
  | .serving (.writing dir file left) => match result with
    | none => some (s.setProc p (.serving (.closing dir false left)))
    | some n =>
      if n ≤ s.line.length then
        some (({ s with fs := s.fs.writeAt file 0 (s.line.take n) } : State).setProc p
          (.serving (.closing dir (n == s.line.length) left)))
      else none
  | .serving (.closing dir written left) =>
    some (s.leaves p dir (left + if result.isSome && written then 1 else 0))
  | .ended _ => none

def step (s : State) : Act → Option State
  | .call p result => s.call p result (s.proc p)
  | .dies p => match s.proc p with
    | .off | .ended _ => none
    | _ => some (s.ends p .other)
  | .reboot boot marks => some (start boot marks)

/-! ## The marks of this boot -/

def Refuses (s : State) (dir : Dir) : Prop :=
  ∃ c, s.fs.read dir = some c ∧
    ((c.take bootId).length ≠ bootId ∨ c.take bootId = s.boot.1)

def PointOk (s : State) : Point → Prop
  | .opening dir => dir = .run → s.marked .spool = false
  | .reading dir file => (dir = .run → s.marked .spool = false) ∧ s.fs.names dir = some file
  | .unlinking dir => (dir = .run → s.marked .spool = false) ∧ s.marked dir = false
  | .serving (.opening _ left) => left ≠ 0 → ∃ e, s.marked e = true
  | .serving (.writing dir file _) =>
    s.marked dir = true ∧ s.fs.names dir = some file ∧ s.fs.content file = []
  | .serving (.closing dir ..) => s.marked dir = true
  | _ => True

structure Inv (s : State) : Prop where
  sound : s.fs.Sound
  held : ∀ p, (s.proc p).locked = true → s.holder = some p ∧ s.PointOk (s.proc p)
  refuses : ∀ dir, s.marked dir = true → s.Refuses dir
  told : s.told = true → ∃ dir, s.marked dir = true

/-- No mark of this boot is forgotten, and once there is one no process comes to serve. -/
structure Later (s t : State) : Prop where
  marked : ∀ dir, s.marked dir = true → t.marked dir = true
  serves : ∀ p, (t.proc p).serves = true →
    (s.proc p).serves = true ∨ ∀ dir, s.marked dir = false

variable {s t : State} {p : ℕ} {pt : Point} {dir : Dir} {left : ℕ}

theorem Inv.move (I : s.Inv) (hproc : t.proc = Function.update s.proc p pt)
    (hholder : (s.proc p).locked = true ∧ t.holder = s.holder ∨
      s.holder = none ∧ t.holder = some p)
    (hpt : t.PointOk pt) (hsound : t.fs.Sound) (hrefuses : ∀ e, t.marked e = true → t.Refuses e)
    (htold : t.told = true → ∃ e, t.marked e = true)
    (hmarked : ∀ e, s.marked e = true → t.marked e = true)
    (hserves : pt.serves = true → (s.proc p).serves = true ∨ ∀ e, s.marked e = false) :
    t.Inv ∧ s.Later t := by
  refine ⟨⟨hsound, ?_, hrefuses, htold⟩, hmarked, ?_⟩
  · rw [hproc]
    refine (Function.forall_update_iff s.proc fun q x =>
      x.locked = true → t.holder = some q ∧ t.PointOk x).mpr ⟨fun _ => ⟨?_, hpt⟩, ?_⟩
    · rcases hholder with ⟨hlocked, heq⟩ | ⟨-, heq⟩
      · exact heq.trans (I.held p hlocked).1
      · exact heq
    · intro q hqp hq
      have hother := (I.held q hq).1
      rcases hholder with ⟨hlocked, -⟩ | ⟨hfree, -⟩
      · exact absurd (Option.some.inj (hother.symm.trans (I.held p hlocked).1)) hqp
      · rw [hfree] at hother
        cases hother
  · rw [hproc]
    exact (Function.forall_update_iff s.proc fun q x => x.serves = true →
      (s.proc q).serves = true ∨ ∀ e, s.marked e = false).mpr ⟨hserves, fun _ _ => .inl⟩

private theorem Inv.setProc (I : s.Inv) (hp : (s.proc p).locked = true) (hpt : s.PointOk pt)
    (hserves : pt.serves = true → (s.proc p).serves = true ∨ ∀ e, s.marked e = false) :
    (s.setProc p pt).Inv ∧ s.Later (s.setProc p pt) :=
  I.move rfl (.inl ⟨hp, rfl⟩) hpt I.sound I.refuses I.told (fun _ h => h) hserves

theorem Inv.without (I : s.Inv) (hproc : t.proc = Function.update s.proc p pt)
    (hlocked : pt.locked = false) (hholder : ∀ q, q ≠ p → s.holder = some q → t.holder = some q)
    (hfs : t.fs = s.fs) (hboot : t.boot = s.boot) (hmarked : t.marked = s.marked)
    (htold : t.told = s.told) : t.Inv ∧ s.Later t := by
  obtain ⟨boot, fs, holder, proc, marked, told⟩ := t
  dsimp only at hproc hfs hboot hmarked htold hholder
  subst hproc hfs hboot hmarked htold
  have hnot : pt.locked ≠ true := ne_true_of_eq_false hlocked
  refine ⟨⟨I.sound, ?_, I.refuses, I.told⟩, fun _ h => h, ?_⟩
  · refine (Function.forall_update_iff s.proc fun q x => x.locked = true →
      holder = some q ∧ s.PointOk x).mpr ⟨fun h => absurd h hnot, ?_⟩
    intro q hqp hq
    exact ⟨hholder q hqp (I.held q hq).1, (I.held q hq).2⟩
  · exact (Function.forall_update_iff s.proc fun q x => x.serves = true →
      (s.proc q).serves = true ∨ ∀ e, s.marked e = false).mpr
      ⟨fun h => absurd (Point.locked_of_serves h) hnot, fun _ _ => .inl⟩

theorem Inv.ends (I : s.Inv) (p : ℕ) (why : End) : (s.ends p why).Inv ∧ s.Later (s.ends p why) := by
  refine I.without rfl rfl ?_ rfl rfl rfl rfl
  intro q hqp hq
  change (if s.holder = some p then none else s.holder) = some q
  rw [if_neg, hq]
  rw [hq]
  exact fun heq => hqp (Option.some.inj heq)

private theorem Inv.unmarked (I : s.Inv) (h : ¬ s.Refuses dir) : s.marked dir = false := by
  cases hm : s.marked dir with
  | false => rfl
  | true => exact absurd (I.refuses dir hm) h

/-- A check passes where its directory has no mark of this boot, and with the marks of the other
directory as they were. -/
theorem Inv.passed {fs : Files Dir} (I : s.Inv) (hp : (s.proc p).locked = true)
    (hrun : dir = .run → s.marked .spool = false) (hdir : s.marked dir = false)
    (hsound : fs.Sound) (hread : ∀ e, e ≠ dir → fs.read e = s.fs.read e) :
    (({ s with fs := fs } : State).passed p dir).Inv ∧
      s.Later (({ s with fs := fs } : State).passed p dir) := by
  have hrefuses : ∀ e, s.marked e = true → ({ s with fs := fs } : State).Refuses e := by
    intro e he
    obtain ⟨c, hc, hrefuses⟩ := I.refuses e he
    refine ⟨c, (hread e ?_).trans hc, hrefuses⟩
    rintro rfl
    rw [hdir] at he
    cases he
  cases dir with
  | spool =>
    refine I.move rfl (.inl ⟨hp, rfl⟩) (fun _ => hdir) hsound hrefuses I.told (fun _ h => h) ?_
    intro h
    cases h
  | run =>
    refine I.move rfl (.inl ⟨hp, rfl⟩) trivial hsound hrefuses I.told (fun _ h => h) ?_
    refine fun _ => .inr fun e => ?_
    cases e with
    | spool => exact hrun rfl
    | run => exact hdir

theorem Inv.leaves (I : s.Inv) (hp : (s.proc p).serves = true)
    (hleft : left ≠ 0 → ∃ e, s.marked e = true) :
    (s.leaves p dir left).Inv ∧ s.Later (s.leaves p dir left) := by
  have hlocked := Point.locked_of_serves hp
  cases dir with
  | spool => exact I.setProc hlocked hleft fun _ => .inl hp
  | run =>
    rw [State.leaves]
    split
    · exact I.ends p .noMark
    · rename_i hne
      exact I.move rfl (.inl ⟨hlocked, rfl⟩) trivial I.sound I.refuses (fun _ => hleft hne)
        (fun _ h => h) fun _ => .inl hp

private theorem Inv.openToWrite (I : s.Inv) (hp : s.proc p = .serving (.opening dir left)) :
    ∀ t, t = ({ s with
        fs := (s.fs.create dir).1
        marked := Function.update s.marked dir true } : State).setProc p
          (.serving (.writing dir (s.fs.create dir).2 left)) → t.Inv ∧ s.Later t := by
  rintro t rfl
  have hself : Function.update s.marked dir true dir = true := Function.update_self ..
  have hmarked : ∀ e, s.marked e = true → Function.update s.marked dir true e = true := by
    intro e he
    rw [Function.update_apply]
    split
    · rfl
    · exact he
  refine I.move rfl (.inl ⟨hp ▸ rfl, rfl⟩) ?_ (I.sound.create dir) ?_ (fun _ => ⟨dir, hself⟩)
    hmarked fun _ => .inl (hp ▸ rfl)
  · exact ⟨hself, s.fs.names_create_self dir, s.fs.content_create_self dir⟩
  · intro e he
    by_cases hne : e = dir
    · subst hne
      refine ⟨[], ?_, .inl (by decide)⟩
      change (s.fs.create e).1.read e = some []
      rw [Files.read, s.fs.names_create_self e, Option.map_some, s.fs.content_create_self e]
    · change Function.update s.marked dir true e = true at he
      rw [Function.update_of_ne hne] at he
      obtain ⟨c, hc, hrefuses⟩ := I.refuses e he
      exact ⟨c, (Files.read_create_of_ne I.sound hne).trans hc, hrefuses⟩

private theorem take_line (s : State) (n : ℕ) :
    ((s.line.take n).take bootId).length ≠ bootId ∨ (s.line.take n).take bootId = s.boot.1 := by
  have hboot := s.boot.2
  rcases Nat.lt_or_ge n bootId with hlt | hge
  · left
    rw [List.length_take, List.length_take]
    omega
  · right
    rw [List.take_take, Nat.min_eq_left hge, line]
    exact List.take_left' hboot

theorem Inv.write {file n : ℕ} (I : s.Inv) (hp : s.proc p = .serving (.writing dir file left))
    (written : Bool) : ∀ t, t = ({ s with
        fs := s.fs.writeAt file 0 (s.line.take n) } : State).setProc p
          (.serving (.closing dir written left)) → t.Inv ∧ s.Later t := by
  rintro t rfl
  have hlocked : (s.proc p).locked = true := hp ▸ rfl
  have hok := (I.held p hlocked).2
  rw [hp] at hok
  obtain ⟨hmarked, hnames, hempty⟩ := hok
  refine I.move rfl (.inl ⟨hlocked, rfl⟩) hmarked (I.sound.writeAt ..) ?_ I.told (fun _ h => h)
    fun _ => .inl (hp ▸ rfl)
  intro e he
  by_cases hne : e = dir
  · subst hne
    refine ⟨s.line.take n, ?_, s.take_line n⟩
    refine (Files.read_writeAt_self hnames).trans ?_
    rw [hempty]
    exact congrArg some (overwrite_end [] _)
  · obtain ⟨c, hc, hrefuses⟩ := I.refuses e he
    exact ⟨c, (Files.read_writeAt_of_ne I.sound hnames hne).trans hc, hrefuses⟩

theorem inv_start (boot : Boot) (marks : Marks) : (start boot marks).Inv := by
  refine ⟨marks.2, ?_, ?_, ?_⟩
  · intro p hp
    cases hp
  · intro dir hdir
    cases hdir
  · intro htold
    cases htold

theorem Inv.call {result : Option ℕ} (I : s.Inv) (hp : s.proc p = pt)
    (hcall : s.call p result pt = some t) : t.Inv ∧ s.Later t := by
  have hpoint : pt.locked = true → s.PointOk pt := fun hlocked =>
    hp ▸ (I.held p (hp ▸ hlocked)).2
  have hserves : ∀ m, pt = .serving m → (s.proc p).serves = true := by
    rintro m rfl
    exact hp ▸ rfl
  rw [State.call.eq_def] at hcall
  cases pt with
  | off =>
    obtain rfl := Option.some.inj hcall
    exact I.without rfl rfl (fun _ _ h => h) rfl rfl rfl rfl
  | locking =>
    dsimp only at hcall
    split at hcall
    · rename_i hfree
      obtain rfl := Option.some.inj hcall
      exact I.move rfl (.inr ⟨hfree, rfl⟩) (fun h => by cases h) I.sound I.refuses I.told
        (fun _ h => h) fun h => by cases h
    · obtain rfl := Option.some.inj hcall
      exact I.ends p .spoolHeld
  | opening dir =>
    dsimp only at hcall
    split at hcall
    · rename_i hnone
      obtain rfl := Option.some.inj hcall
      refine I.passed (hp ▸ rfl) (hpoint rfl) (I.unmarked ?_) I.sound fun _ _ => rfl
      rintro ⟨c, hc, -⟩
      rw [Files.read, hnone] at hc
      cases hc
    · rename_i file hfile
      obtain rfl := Option.some.inj hcall
      exact I.setProc (hp ▸ rfl) ⟨hpoint rfl, hfile⟩ fun h => by cases h
  | reading dir file =>
    obtain ⟨hrun, hfile⟩ := hpoint rfl
    dsimp only at hcall
    split at hcall
    · obtain rfl := Option.some.inj hcall
      exact I.ends p (.notWhole dir)
    · split at hcall
      · obtain rfl := Option.some.inj hcall
        exact I.ends p (.notWhole dir)
      · rename_i hwhole
        split at hcall
        · obtain rfl := Option.some.inj hcall
          exact I.ends p (.failedSinceBoot dir)
        · rename_i hother
          obtain rfl := Option.some.inj hcall
          refine I.setProc (hp ▸ rfl) ⟨hrun, I.unmarked ?_⟩ fun h => by cases h
          rintro ⟨c, hc, hrefuses⟩
          rw [Files.read, hfile] at hc
          obtain rfl := Option.some.inj hc
          exact hrefuses.elim hwhole hother
  | unlinking dir =>
    obtain ⟨hrun, hdir⟩ := hpoint rfl
    obtain rfl := Option.some.inj hcall
    cases hremove : s.fs.remove dir with
    | none => exact I.passed (hp ▸ rfl) hrun hdir I.sound fun _ _ => rfl
    | some fs =>
      refine I.passed (hp ▸ rfl) hrun hdir (I.sound.remove hremove) ?_
      intro e hne
      exact (Files.read_remove hremove e).trans (if_neg hne)
  | serving m =>
    have hstays := hserves m rfl
    cases m with
    | idle =>
      obtain rfl := Option.some.inj hcall
      exact I.setProc (hp ▸ rfl) (fun h => absurd rfl h) fun _ => .inl hstays
    | opening dir left =>
      dsimp only at hcall
      split at hcall
      · obtain rfl := Option.some.inj hcall
        exact I.leaves hstays (hpoint rfl)
      · exact I.openToWrite hp t (Option.some.inj hcall).symm
    | writing dir file left =>
      dsimp only at hcall
      split at hcall
      · obtain rfl := Option.some.inj hcall
        exact I.setProc (hp ▸ rfl) (hpoint rfl).1 fun _ => .inl hstays
      · split at hcall
        · exact I.write hp _ t (Option.some.inj hcall).symm
        · cases hcall
    | closing dir written left =>
      obtain rfl := Option.some.inj hcall
      exact I.leaves hstays fun _ => ⟨dir, hpoint rfl⟩
  | ended => cases hcall

theorem Inv.step {a : Act} (I : s.Inv) (hstep : s.step a = some t) :
    t.Inv ∧ (a.isReboot = false → s.Later t) := by
  cases a with
  | call p result =>
    obtain ⟨J, L⟩ := I.call rfl hstep
    exact ⟨J, fun _ => L⟩
  | dies p =>
    rw [State.step.eq_def] at hstep
    dsimp only at hstep
    split at hstep
    · cases hstep
    · cases hstep
    · obtain rfl := Option.some.inj hstep
      obtain ⟨J, L⟩ := I.ends p .other
      exact ⟨J, fun _ => L⟩
  | reboot boot marks =>
    obtain rfl := Option.some.inj hstep
    exact ⟨inv_start boot marks, fun h => by cases h⟩

theorem inv_run {boot : Boot} {marks : Marks} {acts : List Act}
    (hrun : run step (start boot marks) acts = some s) : s.Inv :=
  invariant_of_step (fun I hstep => (Inv.step I hstep).1) (inv_start boot marks) hrun

private theorem serves_of_later {acts : List Act} (I : s.Inv) (hmarked : s.marked dir = true)
    (hrun : run step s acts = some t) (hboot : ∀ a ∈ acts, a.isReboot = false) (p : ℕ)
    (hp : (t.proc p).serves = true) : (s.proc p).serves = true := by
  induction acts generalizing s with
  | nil =>
    obtain rfl := Option.some.inj hrun
    exact hp
  | cons a acts ih =>
    obtain ⟨m, hm, hrest⟩ := run_cons hrun
    obtain ⟨Im, hlater⟩ := I.step hm
    have L := hlater (hboot a List.mem_cons_self)
    have hserves := ih Im (L.marked dir hmarked) hrest fun b hb =>
      hboot b (List.mem_cons_of_mem a hb)
    rcases L.serves p hserves with hs | hnone
    · exact hs
    · rw [hnone dir] at hmarked
      cases hmarked

/-- After a failed sync no process starts on the store until the machine does: for all processes
and their threads, whatever system call fails, wherever one is killed and whatever marks a boot
finds. One process at most serves; when `dn_store_mark_failed` has returned there is a mark; and
from when a mark is begun, whole or not, `check_mark` refuses it, and no process that did not
already serve comes to serve in this boot. -/
theorem failed_sync_bars_starts (boot : Boot) (marks : Marks) {acts : List Act}
    (hrun : run step (start boot marks) acts = some s) :
    (∀ p q, (s.proc p).serves = true → (s.proc q).serves = true → p = q) ∧
      (s.told = true → ∃ dir, s.marked dir = true) ∧
      ∀ dir, s.marked dir = true → s.Refuses dir ∧
        ∀ acts' t, run step s acts' = some t → (∀ a ∈ acts', a.isReboot = false) →
          ∀ p, (t.proc p).serves = true → (s.proc p).serves = true := by
  have I := inv_run hrun
  refine ⟨?_, I.told, ?_⟩
  · intro p q hp hq
    have hholder := (I.held p (Point.locked_of_serves hp)).1
    rw [(I.held q (Point.locked_of_serves hq)).1] at hholder
    exact (Option.some.inj hholder).symm
  · intro dir hdir
    exact ⟨I.refuses dir hdir, fun acts' t hrun' hboot => serves_of_later I hdir hrun' hboot⟩

def someBoot : Boot := ⟨List.replicate bootId 97, by decide⟩

/-- A process serves, leaves part of a mark in the spool and a whole one beside it, and is killed;
another starts. -/
def torn : List Act :=
  List.replicate 6 (.call 0 (some 0)) ++ [.call 0 (some 20)] ++
    List.replicate 2 (.call 0 (some 0)) ++ [.call 0 (some 37), .call 0 (some 0), .dies 0] ++
    List.replicate 4 (.call 1 (some 0))

theorem failed_sync_bars_starts_torn :
    ∃ s, run step (start someBoot ⟨.none, Files.sound_none⟩) torn = some s ∧
      s.proc 1 = .ended (.notWhole .spool) ∧ s.told = true ∧
      ∀ acts t, run step s acts = some t → (∀ a ∈ acts, a.isReboot = false) →
        ∀ p, (t.proc p).serves = true → (s.proc p).serves = true := by
  have hrun : ((run step (start someBoot ⟨.none, Files.sound_none⟩) torn).map
      fun s => (s.proc 1, s.told)) = some (.ended (.notWhole .spool), true) := by
    decide +kernel
  obtain ⟨s, hs, heq⟩ := Option.map_eq_some_iff.mp hrun
  obtain ⟨hproc, htold⟩ := Prod.mk.inj heq
  obtain ⟨-, hmarked, hbars⟩ := failed_sync_bars_starts someBoot ⟨.none, Files.sound_none⟩ hs
  obtain ⟨dir, hdir⟩ := hmarked htold
  exact ⟨s, hs, hproc, htold, (hbars dir hdir).2⟩

private theorem check_passes (hp : s.proc p = .opening dir) (hdir : ¬ s.Refuses dir) :
    ∃ k t, run step s (List.replicate k (.call p (some 0))) = some t ∧ t.boot = s.boot ∧
      t.proc p = dir.after ∧ t.fs.read dir = none ∧
      ∀ e, e ≠ dir → t.fs.read e = s.fs.read e := by
  cases hnames : s.fs.names dir with
  | none =>
    refine ⟨1, s.passed p dir, ?_, rfl, Function.update_self .., ?_, fun _ _ => rfl⟩
    · simp only [List.replicate, run, step, hp, call, hnames, Option.bind_some]
    · exact congrArg (Option.map s.fs.content) hnames
  | some file =>
    have hread : s.fs.read dir = some (s.fs.content file) :=
      congrArg (Option.map s.fs.content) hnames
    have hwhole : ((s.fs.content file).take bootId).length = bootId := by
      by_contra hshort
      exact hdir ⟨_, hread, .inl hshort⟩
    have hother : (s.fs.content file).take bootId ≠ s.boot.1 := fun heq =>
      hdir ⟨_, hread, .inr heq⟩
    obtain ⟨fs, hremove⟩ : ∃ fs, s.fs.remove dir = some fs :=
      ⟨_, congrArg (Option.map _) hnames⟩
    refine ⟨3, ({ (s.setProc p (.reading dir file)).setProc p (.unlinking dir) with
      fs := fs } : State).passed p dir, ?_, rfl, Function.update_self .., ?_, ?_⟩
    · simp only [List.replicate, run, step, hp, call, hnames, Option.bind_some, setProc,
        Function.update_self, hwhole, hother, ne_eq, not_true_eq_false, if_false, hremove,
        Option.getD_some, passed]
    · exact (Files.read_remove hremove dir).trans (if_pos rfl)
    · intro e hne
      exact (Files.read_remove hremove e).trans (if_neg hne)

/-- The marks of other boots bar nobody: where the spool is free and no mark is refused, a process
comes to serve by its own calls alone, and has then removed every mark. -/
theorem older_marks_are_removed (s : State) (p : ℕ) (hfree : s.holder = none)
    (hoff : s.proc p = .off) (hmarks : ∀ dir, ¬ s.Refuses dir) :
    ∃ k t, run step s (List.replicate k (.call p (some 0))) = some t ∧
      t.proc p = .serving .idle ∧ ∀ dir, t.fs.read dir = none := by
  have hlock : ∃ t, run step s (List.replicate 2 (.call p (some 0))) = some t ∧
      t.proc p = .opening .spool ∧ t.boot = s.boot ∧ t.fs = s.fs := by
    refine ⟨{ (s.setProc p .locking).setProc p (.opening .spool) with holder := some p }, ?_,
      Function.update_self .., rfl, rfl⟩
    simp only [List.replicate, run, step, hoff, call, Option.bind_some, setProc,
      Function.update_self, hfree]
  obtain ⟨l, hl, hlp, hlboot, hlfs⟩ := hlock
  have hspool : ¬ l.Refuses .spool := by
    rw [Refuses, hlboot, hlfs]
    exact hmarks .spool
  obtain ⟨k, m, hm, hmboot, hmp, hmspool, hmrun⟩ := check_passes hlp hspool
  have hrun : ¬ m.Refuses .run := by
    rw [Refuses, hmboot, hlboot, hmrun .run (by decide), hlfs]
    exact hmarks .run
  obtain ⟨j, t, ht, -, htp, htrun, htspool⟩ := check_passes hmp hrun
  refine ⟨2 + (k + j), t, ?_, htp, ?_⟩
  · rw [List.replicate_add, List.replicate_add, run_append]
    exact ⟨l, hl, run_append.mpr ⟨m, hm, ht⟩⟩
  · intro dir
    cases dir with
    | spool => exact (htspool .spool (by decide)).trans hmspool
    | run => exact htrun

def markedBefore : Marks :=
  ⟨((Files.none.create Dir.spool).1.writeAt 0 0 (List.replicate 37 98)),
    (Files.sound_none.create Dir.spool).writeAt ..⟩

theorem older_marks_are_removed_spool :
    (start someBoot markedBefore).fs.read .spool = some (List.replicate 37 98) ∧
      ∃ k t, run step (start someBoot markedBefore) (List.replicate k (.call 0 (some 0))) = some t ∧
        t.proc 0 = .serving .idle ∧ ∀ dir, t.fs.read dir = none := by
  have hread : (start someBoot markedBefore).fs.read .spool = some (List.replicate 37 98) := by
    decide +kernel
  refine ⟨hread, older_marks_are_removed _ 0 rfl rfl ?_⟩
  rintro dir ⟨c, hc, hrefuses⟩
  cases dir with
  | spool =>
    obtain rfl := Option.some.inj (hread.symm.trans hc)
    revert hrefuses
    decide +kernel
  | run => cases hc

end State

end DragonsNet.Native.StoreMark
