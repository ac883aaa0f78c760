/- GID: DragonsNet/News/StoreCompletes
   source: lean/DN/News/PostSpec.lean
   digest: Every completion the host's table reports is one the store takes. -/

import DragonsNet.Lib.Lists
import DragonsNet.News.StoreClients

set_option autoImplicit false

namespace DragonsNet.News.StoreCompletes

open Lib.Lists (find?_range_eq find?_range_eq_none)
open Native.FileJobs (FileOp Request)
open Native.FileScripts (Script opensAny closesAny)
open Native.FileClients (Client heldAfter owns Places Reports Holds)
open Native.FileAgreement (Agree Distinct)
open PostStore StoreClients

variable {R : Rules} {C : Content} {st : Store} {cs : Who R → Client}
  {t : Native.FileJobs.Table} {held : Option (ℕ × ℕ)} {q : Request}
  {d : Native.FileJobs.Done} {ops : List FileOp} {op : FileOp} {i : Who R} {after : Option (ℕ × ℕ)}
  {k : Fin R.reads}

/-! ## The file held after a job -/

private theorem closesAny_take (n : ℕ) (h : closesAny ops = false) : closesAny (ops.take n) =
    false := by
  rw [closesAny, List.any_eq_false] at h ⊢
  exact fun op hop => h op (List.mem_of_mem_take hop)

private theorem heldAfter_kept (ok : ℕ) (results : List (ℕ × ℕ)) (hopens : opensAny ops = false)
    (hcloses : closesAny ops = false) : heldAfter held ops ok results = held := by
  simp only [heldAfter, hopens, Bool.false_eq_true, if_false, closesAny_take _ hcloses]

private theorem heldAfter_none (ok : ℕ) (results : List (ℕ × ℕ)) (hopens : opensAny ops = false) :
    heldAfter none ops ok results = none := by
  simp only [heldAfter, hopens, Bool.false_eq_true, if_false, ite_self]

private theorem heldAfter_last {body : List FileOp} (ok : ℕ) (results : List (ℕ × ℕ))
    (hopens : opensAny (body ++ [op]) = false) (hbody : closesAny body = false)
    (hop : op.isClose = true) :
    heldAfter held (body ++ [op]) ok results = if body.length ≤ ok then none else held := by
  simp only [heldAfter, hopens, Bool.false_eq_true, if_false]
  split_ifs with hclosed hle hle
  · rfl
  · rw [List.take_append_of_le_length (by omega), closesAny_take _ hbody] at hclosed
    cases hclosed
  · rw [List.take_of_length_le (by simp; omega)] at hclosed
    simp [closesAny, hop] at hclosed
  · rfl

private theorem heldAfter_first (ok : ℕ) (results : List (ℕ × ℕ))
    (hopens : opensAny (op :: ops) = false)
    (hop : op.isClose = true) : heldAfter held (op :: ops) ok results = none := by
  simp only [heldAfter, hopens, Bool.false_eq_true, if_false]
  simp [closesAny, hop]

private theorem heldAfter_opening (ok : ℕ) (results : List (ℕ × ℕ)) (hopens : op.opens = true) :
    heldAfter held [op] ok results = results.head? := by
  simp only [heldAfter, Native.FileClients.opensAny_single hopens, if_true]

private theorem script_opening {journal : ℕ × ℕ} (hopens : op.opens = true)
    (h : Script journal held [op]) :
    held = none := by
  cases h with
  | opening => rfl
  | working _ _ _ _ hworks =>
    have := hworks.opensAny
    rw [Native.FileClients.opensAny_single hopens] at this
    cases this

/-! ## The place of a file opened -/

private theorem not_placeTaken {p : ℕ} (hm : Mirrors R st cs) (hplaces : Places st.journal cs t)
    (hown : owns t (cs i) = some p) (hi : (cs i).held = none) : st.placeTaken p = false := by
  have hother : ∀ i' g, (cs i').held ≠ some (p, g) := by
    intro i' g hheld
    obtain rfl := hplaces.believed i' i (p, g) hheld hown
    rw [hi] at hheld
    cases hheld
  have hjournal : st.journal.1 ≠ p := by
    rintro rfl
    exact hplaces.offJournal i hown
  simp only [Store.placeTaken, Bool.or_eq_false_iff, beq_eq_false_iff_ne, List.any_eq_false,
    Option.any_eq_true, not_exists, not_and]
  refine ⟨⟨hjournal, ?_⟩, ?_⟩
  · rintro x hx s rfl a ha hat
    obtain ⟨k, hk⟩ := List.mem_iff_getElem?.mp hx
    have hs : st.slot k = some s := by rw [Store.slot, hk]; rfl
    cases hfile : a.file with
    | open_ p' g =>
      obtain rfl : p' = p := by simpa [hfile, File.isAt] using hat
      refine hother _ g ((hm.slot_fits ⟨k, hm.slot_lt hs⟩ hs).held.trans ?_)
      simp [slotHeld, ha, hfile, fileAt]
    | none | closed | final | placed => simp [hfile, File.isAt] at hat
  · rintro x hx r rfl hat
    obtain ⟨k, hk⟩ := List.mem_iff_getElem?.mp hx
    have hr : st.readSlot k = some r := by rw [Store.readSlot, hk]; rfl
    cases hfile : r.file with
    | open_ p' g =>
      obtain rfl : p' = p := by simpa [hfile, ReadFile.isAt] using hat
      refine hother _ g ((hm.read_fits ⟨k, hm.read_lt hr⟩ hr).held.trans ?_)
      rw [hfile]
      rfl
    | none | gone => simp [hfile, ReadFile.isAt] at hat

private theorem opened_place {p g : ℕ} (hm : Mirrors R st cs) (ha : Agree st.journal cs t)
    (hi : cs i = .given none q d) (hops : q.ops = [op]) (hopens : op.opens = true)
    (hresults : d.results = [(p, g)]) : p < places ∧ st.placeTaken p = false := by
  have hafter : heldAfter none q.ops d.ok d.results = some (p, g) := by
    rw [hops, heldAfter_opening _ _ hopens, hresults]
    rfl
  have hfits := ha.places.fits i
  rw [hi] at hfits
  have hholds := hfits.2.2.2 (p, g) hafter
  refine ⟨hholds.1, not_placeTaken hm ha.places (i := i) ?_ (by rw [hi]; rfl)⟩
  rw [hi]
  simp only [owns, hafter, Option.map_some]

/-! ## A read's completion -/

private theorem readFits_idle {journal : ℕ} {r : Read} (hheld : readFileAt r.file = after)
    (hbusy : r.busy = none) : ReadFits journal (r.refresh C) (.idle after) := by
  refine ⟨hheld.symm, fun _ => rfl, fun j gen n task hs => ?_⟩
  rw [show r.busy = _ from hs] at hbusy
  cases hbusy

private theorem took_file (r : Read) (file : ReadFile) (len got : ℕ) (data : List Byte) :
    (r.took R C file len got data).file = file ∧
      (r.took R C file len got data).busy = r.busy := by
  unfold Read.took
  dsimp only
  split_ifs <;> exact ⟨rfl, rfl⟩

private theorem readDone_read (st : Store) (r : Read) {len p g offset : ℕ} (last : Bool)
    (hreports : Reports q d) (hread : q.ops[0]? = some (.read p g offset len 0)) :
    ∃ r', st.readDone R C r (.read len last) (decodeDone d) = .ok r' ∧
      r'.file = (if last && 1 ≤ d.ok then .gone else r.file) ∧ r'.busy = r.busy := by
  cases hresults : d.results with
  | nil =>
    refine ⟨{ r with file := if last && 1 ≤ d.ok then .gone else r.file, bad := true }, ?_, rfl, rfl⟩
    simp only [Store.readDone, decodeDone, hresults]
  | cons x rest =>
    obtain ⟨hle, hdata⟩ := hreports.reads p g offset len 0 x hread (by rw [hresults]; rfl)
    have hok : (decide (len < x.1) ||
        (d.data.take (d.results.headD (0, 0)).1).length != x.1) = false := by
      rw [hresults, List.headD_cons, List.length_take, Nat.min_eq_left hdata]
      simpa using hle
    rw [hresults] at hok
    refine ⟨r.took R C (if last && 1 ≤ d.ok then .gone else r.file) len x.1
      (d.data.take (d.results.headD (0, 0)).1), ?_, (took_file ..).1, (took_file ..).2⟩
    simp only [Store.readDone, decodeDone, hresults, hok, Bool.false_eq_true, if_false]

private theorem readDone_fits {r : Read} {task : ReadTask} (hm : Mirrors R st cs)
    (ha : Agree st.journal cs t) (hi : cs i = .given held q d) (hheld : held = readFileAt r.file)
    (hbusy : r.busy = none) (hops : ReadOps r.file task q.ops) :
    ∃ r', st.readDone R C r task (decodeDone d) = .ok r' ∧
      readFileAt r'.file = heldAfter held q.ops d.ok d.results ∧ r'.busy = none := by
  have hfits := ha.places.fits i
  rw [hi] at hfits
  have hreports := hfits.2.2.1
  generalize hq : q.ops = ops at hops
  generalize hfile : r.file = file at hops
  cases hops with
  | @open_ name =>
    rw [hfile] at hheld
    obtain rfl : held = none := hheld
    rw [heldAfter_opening _ _ rfl]
    have hone : d.results.length ≤ 1 := by
      rw [hreports.results]
      simpa [hq] using hreports.ok
    cases hresults : d.results with
    | nil =>
      refine ⟨{ r with file := .gone, bad := true }, ?_, rfl, hbusy⟩
      simp only [Store.readDone, decodeDone, hresults]
    | cons x rest =>
      obtain ⟨p, g⟩ := x
      obtain rfl : rest = [] := by
        rw [hresults] at hone
        simpa using hone
      obtain ⟨hlt, hfree⟩ := opened_place hm ha hi hq rfl hresults
      refine ⟨{ r with file := .open_ p g }, ?_, rfl, hbusy⟩
      have hok : (decide (places ≤ p) || st.placeTaken p) = false := by
        simp [hfree, hlt]
      simp only [Store.readDone, decodeDone, hresults, hok, Bool.false_eq_true, if_false]
  | @more p g offset len =>
    obtain ⟨r', hdone, hr', hbusy'⟩ := readDone_read (R := R) (C := C) st r false hreports
      (by rw [hq]; rfl)
    refine ⟨r', hdone, ?_, hbusy'.trans hbusy⟩
    rw [hr', heldAfter_kept _ _ rfl rfl, hheld]
    rfl
  | @last p g offset len =>
    obtain ⟨r', hdone, hr', hbusy'⟩ := readDone_read (R := R) (C := C) st r true hreports
      (by rw [hq]; rfl)
    refine ⟨r', hdone, ?_, hbusy'.trans hbusy⟩
    have hafter : heldAfter held ([.read p g offset len 0] ++ [.close p g]) d.ok d.results =
        if 1 ≤ d.ok then none else held := heldAfter_last _ _ rfl rfl rfl
    rw [hr', show [FileOp.read p g offset len 0, .close p g] = [.read p g offset len 0] ++
      [.close p g] from rfl, hafter]
    by_cases hok : 1 ≤ d.ok
    · simp [hok, readFileAt]
    · simp [hok, hheld]
  | @close p g =>
    refine ⟨{ r with file := .gone }, ?_, ?_, hbusy⟩
    · simp only [Store.readDone]
    · rw [heldAfter_first _ _ rfl rfl]
      rfl

/-- What a completion leads to: no fault, and its client holds what its job leaves it. -/
def Taken (R : Rules) (st : Store) (cs : Who R → Client) (i : Who R) (after : Option (ℕ × ℕ))
    (x : Except Fault Store) : Prop :=
  ∃ st', x = .ok st' ∧ st'.journal = st.journal ∧
    Mirrors R st' (Function.update cs i (.idle after))

private theorem read_asks (hm : Mirrors R st cs) (hq : (cs (.inr k)).request = some q) :
    ∃ r j gen n task, st.readSlot k = some r ∧ r.busy = some (j, gen, n, task) ∧
      ReadFits st.journal.1 r (cs (.inr k)) ∧ ReadAsks st.journal.1 r.file j gen n task q := by
  have hmirror := hm.read k
  cases hr : st.readSlot k with
  | none =>
    rw [hr] at hmirror
    rw [show cs (.inr k) = .idle none from hmirror] at hq
    cases hq
  | some r =>
    have hfits := hm.read_fits k hr
    cases hbusy : r.busy with
    | none =>
      rw [hfits.idle hbusy] at hq
      cases hq
    | some b =>
      obtain ⟨j, gen, n, task⟩ := b
      obtain ⟨q', hq', hasks⟩ := hfits.busy j gen n task hbusy
      obtain rfl : q' = q := Option.some.inj (hq'.symm.trans hq)
      exact ⟨r, j, gen, n, task, rfl, hbusy, hfits, hasks⟩

private theorem slot_asks {k : Fin R.posts} (hm : Mirrors R st cs)
    (hq : (cs (.inl k)).request = some q) :
    ∃ s j gen n task, st.slot k = some s ∧ s.busy = some (j, gen, n, task) ∧
      SlotFits st.journal.1 s (cs (.inl k)) ∧ s.article.isSome = true ∧
      SlotAsks st.journal.1 (slotHeld s) j gen n task q := by
  have hmirror := hm.post k
  cases hs : st.slot k with
  | none =>
    rw [hs] at hmirror
    rw [show cs (.inl k) = .idle none from hmirror] at hq
    cases hq
  | some s =>
    have hfits := hm.slot_fits k hs
    cases hbusy : s.busy with
    | none =>
      rw [hfits.idle hbusy] at hq
      cases hq
    | some b =>
      obtain ⟨j, gen, n, task⟩ := b
      obtain ⟨harticle, q', hq', hasks⟩ := hfits.busy j gen n task hbusy
      obtain rfl : q' = q := Option.some.inj (hq'.symm.trans hq)
      exact ⟨s, j, gen, n, task, rfl, hbusy, hfits, harticle, hasks⟩

private theorem read_holds (hm : Mirrors R st cs) (hslots : Distinct cs)
    (hi : (cs i).request = some q) (hslot : d.slot = q.slot)
    (h : ((st.readSlot k).any fun r => r.busy.any fun b =>
      b.1 == d.slot && b.2.1 == d.gen) = true) : i = .inr k := by
  obtain ⟨r, hr, hany⟩ := (Option.any_eq_true _ _).mp h
  have hany : (r.busy.any fun b => b.1 == d.slot && b.2.1 == d.gen) = true := hany
  obtain ⟨⟨j, gen, n, task⟩, hbusy, hj⟩ := (Option.any_eq_true _ _).mp hany
  obtain ⟨q', hq', hasks⟩ := (hm.read_fits k hr).busy j gen n task hbusy
  simp only [Bool.and_eq_true, beq_iff_eq] at hj
  exact hslots i (.inr k) q q' hi hq' (by rw [hasks.slot, hj.1, hslot])

theorem slot_holds {k : Fin R.posts} (hm : Mirrors R st cs) (hslots : Distinct cs)
    (hi : (cs i).request = some q) (hslot : d.slot = q.slot)
    (h : ((st.slot k).any fun s => s.busy.any fun b =>
      b.1 == d.slot && b.2.1 == d.gen) = true) : i = .inl k := by
  obtain ⟨s, hs, hany⟩ := (Option.any_eq_true _ _).mp h
  have hany : (s.busy.any fun b => b.1 == d.slot && b.2.1 == d.gen) = true := hany
  obtain ⟨⟨j, gen, n, task⟩, hbusy, hj⟩ := (Option.any_eq_true _ _).mp hany
  obtain ⟨-, q', hq', hasks⟩ := (hm.slot_fits k hs).busy j gen n task hbusy
  simp only [Bool.and_eq_true, beq_iff_eq] at hj
  exact hslots i (.inl k) q q' hi hq' (by rw [hasks.slot, hj.1, hslot])

private theorem completeRead_taken (hm : Mirrors R st cs) (ha : Agree st.journal cs t)
    (hi : cs (.inr k) = .given held q d) :
    Taken R st cs (.inr k) (heldAfter held q.ops d.ok d.results)
      (st.completeAny R C (decodeDone d)) := by
  have hreq : (cs (.inr k)).request = some q := by rw [hi]; rfl
  have hfits := ha.places.fits (.inr k)
  rw [hi] at hfits
  have hreports := hfits.2.2.1
  obtain ⟨r, j, gen, n, task, hr, hbusy, hread, hasks⟩ := read_asks hm hreq
  have hfind : st.findRead R (decodeDone d) = some (k : ℕ) := by
    refine find?_range_eq k.2 ?_ fun k' hk' hp => ?_
    · simp [hr, hbusy, decodeDone, hreports.slot, hreports.gen, hasks.slot, hasks.gen]
    · have := read_holds (k := ⟨k', hk'⟩) (d := d) hm ha.slots hreq hreports.slot hp
      simpa using (congrArg Fin.val (Sum.inr.inj this)).symm
  have hheld : held = readFileAt r.file := by
    rw [← hread.held, hi]
    rfl
  obtain ⟨r', hdone, hr', hbusy'⟩ := readDone_fits (R := R) (C := C) (r := { r with busy := none })
    hm ha hi hheld rfl hasks.ops
  have hcount : (decide (n < (decodeDone d).ok) ||
      (decodeDone d).results.length != (decodeDone d).ok) = false := by
    have hok : d.ok ≤ n := hasks.length ▸ hreports.ok
    simp [decodeDone, hreports.results, hok]
  refine ⟨st.setRead k (some (r'.refresh C)), ?_, rfl, hm.setRead k (readFits_idle hr' hbusy')⟩
  simp only [Store.completeAny, hfind, Store.completeRead, hr, hbusy, hcount, Bool.false_eq_true,
    if_false, hdone]
  rfl

/-! ## A slot's completion -/

private theorem slotFits_idle {journal : ℕ} {s : Slot}
    (hbody : s.article.isSome = true → s.body = true)
    (hheld : slotHeld s = after) (hbusy : s.busy = none) : SlotFits journal s (.idle after) := by
  refine ⟨hbody, hheld.symm, fun _ => rfl, fun j gen n task hs => ?_⟩
  rw [show s.busy = _ from hs] at hbusy
  cases hbusy

private theorem slotHeld_withFile {s : Slot} (f : File) (more : ℕ) (h : s.article.isSome = true) :
    slotHeld (s.withFile f more) = fileAt f := by
  obtain ⟨a, ha⟩ := Option.isSome_iff_exists.mp h
  simp [slotHeld, Slot.withFile, ha]

theorem Mirrors.of_eq {st' : Store} (h : Mirrors R st cs) (hslots : st'.slots = st.slots)
    (hreads : st'.reads = st.reads) (hjournal : st'.journal = st.journal) : Mirrors R st' cs := by
  refine ⟨hslots ▸ h.slots, hreads ▸ h.reads, fun k => ?_, fun k => ?_⟩
  · rw [hjournal, show st'.slot k = st.slot k by rw [Store.slot, hslots]; rfl]
    exact h.post k
  · rw [hjournal, show st'.readSlot k = st.readSlot k by rw [Store.readSlot, hreads]; rfl]
    exact h.read k

section SlotDone

variable {k : Fin R.posts} {s : Slot} {after : Option (ℕ × ℕ)}

private theorem taken_setSlot {s' : Slot} (hm : Mirrors R st cs)
    (h : SlotFits st.journal.1 s' (.idle after)) :
    Taken R st cs (.inl k) after (.ok (st.setSlot k (some s'))) :=
  ⟨_, rfl, rfl, hm.setSlot k (x := some s') h⟩

private theorem taken_stop {s' : Slot} (hm : Mirrors R st cs)
    (h : SlotFits st.journal.1 s' (.idle after)) :
    Taken R st cs (.inl k) after (.ok ((st.setSlot k (some s')).stop R)) := by
  have hstop : ∀ st : Store, (st.stop R).slots = st.slots ∧ (st.stop R).reads = st.reads ∧
      (st.stop R).journal = st.journal := by
    intro st
    unfold Store.stop
    split <;> exact ⟨rfl, rfl, rfl⟩
  obtain ⟨hslots, hreads, hjournal⟩ := hstop (st.setSlot k (some s'))
  exact ⟨_, rfl, hjournal, Mirrors.of_eq (hm.setSlot k (x := some s') h) hslots hreads hjournal⟩

private theorem created_taken {n : ℕ} {name : Native.FileJobs.Name} {d : Done}
    (hm : Mirrors R st cs) (hbody : s.body = true) (hsome : s.article.isSome = true)
    (hbusy : s.busy = none) (hheld : slotHeld s = none) (hresults : d.results.length ≤ 1)
    (hplace : ∀ p g, d.results = [(p, g)] → p < places ∧ st.placeTaken p = false) :
    Taken R st cs (.inl k) (heldAfter (slotHeld s) [.create name] d.ok d.results)
      (st.slotDone R k s n .create d) := by
  rw [heldAfter_opening _ _ rfl]
  cases hres : d.results with
  | nil =>
    have hdone : st.slotDone R k s n .create d = .ok (st.setSlot k (some s.refuse)) := by
      simp only [Store.slotDone, hres]
    rw [hdone]
    exact taken_setSlot hm (slotFits_idle (fun _ => hbody) hheld hbusy)
  | cons x rest =>
    obtain ⟨p, g⟩ := x
    obtain rfl : rest = [] := by
      rw [hres] at hresults
      simp only [List.length_cons] at hresults
      exact List.length_eq_zero_iff.mp (by omega)
    obtain ⟨hlt, hfree⟩ := hplace p g hres
    have hcheck : (decide (places ≤ p) || st.placeTaken p) = false := by simp [hfree, hlt]
    have hdone : st.slotDone R k s n .create d =
        .ok (st.setSlot k (some (s.withFile (.open_ p g) 0))) := by
      simp only [Store.slotDone, hres, hcheck, Bool.false_eq_true, if_false]
    rw [hdone]
    exact taken_setSlot hm (slotFits_idle (fun _ => hbody) (slotHeld_withFile _ _ hsome) hbusy)

private theorem slotDone_taken {n : ℕ} {task : Task} {w : List FileOp} {d : Done}
    (hm : Mirrors R st cs)
    (hbody : s.body = true) (hsome : s.article.isSome = true) (hbusy : s.busy = none)
    (hops : SlotOps (slotHeld s) task w) (hlength : w.length = n) (hok : d.ok ≤ n)
    (hresults : d.results.length = d.ok)
    (hplace : ∀ name p g, w = [.create name] → d.results = [(p, g)] →
      p < places ∧ st.placeTaken p = false) :
    Taken R st cs (.inl k) (heldAfter (slotHeld s) w d.ok d.results)
      (st.slotDone R k s n task d) := by
  have hwith : ∀ f more, slotHeld (s.withFile f more) = fileAt f := fun f more =>
    slotHeld_withFile f more hsome
  have hrefused : ∀ f more, slotHeld (s.refuse.withFile f more) = fileAt f := fun f more =>
    slotHeld_withFile f more hsome
  cases hops with
  | @create name hheld =>
    refine created_taken hm hbody hsome hbusy hheld ?_ (fun p g => hplace name p g rfl)
    simp only [List.length_cons, List.length_nil] at hlength
    omega
  | @write len _ hopens hcloses =>
    rw [heldAfter_kept _ _ hopens hcloses]
    refine taken_setSlot hm ?_
    split
    · refine slotFits_idle (fun _ => hbody) ?_ hbusy
      obtain ⟨a, ha⟩ := Option.isSome_iff_exists.mp hsome
      simp [slotHeld, ha]
    · exact slotFits_idle (fun _ => hbody) rfl hbusy
  | @finish writes len body op hopens hcloses hop hwrites =>
    rw [heldAfter_last _ _ hopens hcloses hop]
    have hn : n = body.length + 1 := by rw [← hlength]; simp
    generalize hafter : (if body.length ≤ d.ok then none else slotHeld s) = after
    simp only [Store.slotDone]
    split_ifs with hall hwrite hsync
    · have hall : d.ok = n := by simpa using hall
      rw [if_pos (by omega)] at hafter
      exact taken_setSlot hm (slotFits_idle (fun _ => hbody) ((hwith _ _).trans hafter) hbusy)
    · rw [if_neg (by omega)] at hafter
      exact taken_setSlot hm (slotFits_idle (fun _ => hbody) hafter hbusy)
    · rw [if_neg (by omega)] at hafter
      exact taken_stop hm (slotFits_idle (fun _ => hbody) hafter hbusy)
    · rw [if_pos (by omega)] at hafter
      exact taken_stop hm (slotFits_idle (fun _ => hbody) ((hrefused _ _).trans hafter) hbusy)
  | place hheld hopens =>
    rw [hheld, heldAfter_none _ _ hopens]
    simp only [Store.slotDone]
    split_ifs
    · exact taken_setSlot hm (slotFits_idle (fun _ => hbody) (hwith _ _) hbusy)
    · exact taken_stop hm (slotFits_idle (fun _ => hbody) (hrefused _ _) hbusy)
    · exact taken_setSlot hm (slotFits_idle (fun _ => hbody) hheld hbusy)
  | commit hheld hopens =>
    rw [hheld, heldAfter_none _ _ hopens]
    have hgone : ∀ o, SlotMirrors st.journal.1 (some { s with outcome := some o, article := none })
        (.idle none) := fun o => slotFits_idle (by rintro ⟨⟩) rfl hbusy
    simp only [Store.slotDone]
    split_ifs
    · exact ⟨_, rfl, rfl, Mirrors.of_eq (hm.setSlot k (hgone .posted)) rfl rfl rfl⟩
    · exact ⟨_, rfl, rfl, Mirrors.of_eq (hm.setSlot k (hgone .lost)) rfl rfl rfl⟩
    · exact ⟨_, rfl, rfl, Mirrors.of_eq (hm.setSlot k (hgone .failed)) rfl rfl rfl⟩
  | @closing op ops hop hopens =>
    rw [heldAfter_first _ _ hopens hop]
    simp only [Store.slotDone]
    split_ifs
    · exact taken_stop hm (slotFits_idle (fun _ => hbody) (hwith _ _) hbusy)
    · exact taken_setSlot hm (slotFits_idle (by rintro ⟨⟩) rfl hbusy)
  | cleaning hheld hopens =>
    rw [hheld, heldAfter_none _ _ hopens]
    simp only [Store.slotDone, Bool.false_and, Bool.false_eq_true, if_false]
    exact taken_setSlot hm (slotFits_idle (by rintro ⟨⟩) rfl hbusy)

end SlotDone

private theorem complete_taken {k : Fin R.posts} (hm : Mirrors R st cs) (ha : Agree st.journal cs t)
    (hi : cs (.inl k) = .given held q d) :
    Taken R st cs (.inl k) (heldAfter held q.ops d.ok d.results)
      (st.completeAny R C (decodeDone d)) := by
  have hreq : (cs (.inl k)).request = some q := by rw [hi]; rfl
  have hfits := ha.places.fits (.inl k)
  rw [hi] at hfits
  have hreports := hfits.2.2.1
  obtain ⟨s, j, gen, n, task, hs, hbusy, hslot, hsome, hasks⟩ := slot_asks hm hreq
  have hread : st.findRead R (decodeDone d) = none := by
    refine find?_range_eq_none fun k' hk' => ?_
    by_contra hp
    rw [Bool.not_eq_false] at hp
    have := read_holds (k := ⟨k', hk'⟩) (d := d) hm ha.slots hreq hreports.slot hp
    cases this
  have hfind : st.findJob R (decodeDone d) = some (k : ℕ) := by
    refine find?_range_eq k.2 ?_ fun k' hk' hp => ?_
    · simp [hs, hbusy, decodeDone, hreports.slot, hreports.gen, hasks.slot, hasks.gen]
    · have := slot_holds (k := ⟨k', hk'⟩) (d := d) hm ha.slots hreq hreports.slot hp
      simpa using (congrArg Fin.val (Sum.inl.inj this)).symm
  have hheld : held = slotHeld s := by
    rw [← hslot.held, hi]
    rfl
  have hok : d.ok ≤ n := hasks.length ▸ hreports.ok
  have hcount : (decide (n < (decodeDone d).ok) ||
      (decodeDone d).results.length != (decodeDone d).ok) = false := by
    simp [decodeDone, hreports.results, hok]
  have hdone := slotDone_taken (k := k) (s := { s with busy := none }) (d := decodeDone d) hm
    (hslot.body hsome) hsome rfl hasks.ops hasks.length hok hreports.results
    fun name p g hops hresults => ?_
  · simp only [Store.completeAny, hread, Store.complete, hfind, hs, hbusy, hcount,
      Bool.false_eq_true, if_false]
    rw [hheld]
    exact hdone
  · have hnone : held = none := by
      have hscript := hfits.1
      rw [hops] at hscript
      exact script_opening rfl hscript
    subst hnone
    exact opened_place hm ha hi hops rfl hresults

/-- **A completion the host reports is no fault**: its job is found, and what it says holds. -/
theorem completeAny_taken (hm : Mirrors R st cs) (ha : Agree st.journal cs t)
    (hi : cs i = .given held q d) :
    Taken R st cs i (heldAfter held q.ops d.ok d.results) (st.completeAny R C (decodeDone d)) := by
  cases i with
  | inl k => exact complete_taken hm ha hi
  | inr k => exact completeRead_taken hm ha hi

end DragonsNet.News.StoreCompletes
