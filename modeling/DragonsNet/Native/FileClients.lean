/- GID: DragonsNet/Native/FileClients
   source: native/jobs.c
   digest: Clients of the host's job table, and what holds between them and the table. -/

import DragonsNet.Native.FileScripts
import Mathlib.Data.Finset.Card
import Mathlib.Data.Fintype.Card

set_option autoImplicit false

namespace DragonsNet.Native.FileClients

open FileJobs (FileOp File Job Request Table Done places)
open FileScripts (Script opensAny closesAny names)

/-- A client of the table: the file it holds open, and its request with where that is. A request is
emitted, taken by the host, and given back with its completion. -/
inductive Client where
  | idle (held : Option (ℕ × ℕ))
  | emitted (held : Option (ℕ × ℕ)) (r : Request)
  | taken (held : Option (ℕ × ℕ)) (r : Request)
  | given (held : Option (ℕ × ℕ)) (r : Request) (d : Done)

def Client.held : Client → Option (ℕ × ℕ)
  | idle held | emitted held _ | taken held _ | given held _ _ => held

def Client.request : Client → Option Request
  | idle _ => none
  | emitted _ r | taken _ r | given _ r _ => some r

/-- The file a client holds once it has learnt how its job ended: the one it opened, none once a
close was tried, or the one it held. -/
def heldAfter (held : Option (ℕ × ℕ)) (ops : List FileOp) (ok : ℕ) (results : List (ℕ × ℕ)) :
    Option (ℕ × ℕ) :=
  if opensAny ops then results.head? else if closesAny (ops.take (ok + 1)) then none else held

def placeOf (j : Job) : Option ℕ :=
  match j.results with
  | (p, _) :: _ => some p
  | [] => j.placeFor

def owns (t : Table) : Client → Option ℕ
  | .idle held | .emitted held _ => held.map Prod.fst
  | .taken held r => if opensAny r.ops then placeOf (t.jobs r.slot) else held.map Prod.fst
  | .given held r d => (heldAfter held r.ops d.ok d.results).map Prod.fst

structure OpenAt (f : File) (g b : ℕ) : Prop where
  isOpen : f.isOpen = true
  reserved : f.reserved = false
  listing : f.listing = false
  gen : f.gen = g
  busy : f.busy = b

structure Shut (f : File) (b : ℕ) : Prop where
  isOpen : f.isOpen = false
  reserved : f.reserved = false
  busy : f.busy = b

structure Reserved (f : File) : Prop where
  isOpen : f.isOpen = false
  reserved : f.reserved = true
  busy : f.busy = 0

/-- The file a client holds is open at its place and generation, and no job names it. -/
def Holds (files : ℕ → File) (held : Option (ℕ × ℕ)) : Prop :=
  ∀ x, held = some x → x.1 < places ∧ OpenAt (files x.1) x.2 0

/-- A read that comes first says how many octets it gave, of those asked for and in the data. -/
def ReadWithin (ops : List FileOp) (results : List (ℕ × ℕ)) (data : List UInt8) : Prop :=
  ∀ p g offset length at_ x, ops[0]? = some (.read p g offset length at_) →
    results[0]? = some x → x.1 ≤ length ∧ x.1 ≤ data.length

/-- The host's job is the client's request, as far as it has come. -/
structure Runs (j : Job) (r : Request) : Prop where
  state : j.state ≠ .free
  gen : j.gen = r.gen
  ops : j.ops = r.ops
  dirSync : j.dirSync = r.ops.contains .syncDir
  bound : j.succeeded + j.failed.toNat ≤ r.ops.length
  results : j.results.length = j.succeeded
  finished : j.state = .done → j.failed = true ∨ j.succeeded = r.ops.length
  reads : ReadWithin r.ops j.results j.data

def tried (j : Job) : List FileOp := j.ops.take (j.succeeded + j.failed.toNat)

/-- What the host keeps for a client's job it has taken: a place reserved, a file opened there, or
the client's file until a close was tried, and its place after. -/
inductive Keeps (files : ℕ → File) (held : Option (ℕ × ℕ)) (r : Request) (j : Job) : Prop where
  | reserved {op p} : r.ops = [op] → op.opens = true → op ≠ .openDir → j.succeeded = 0 →
      j.place = [some p] → p < places → Reserved (files p) → Keeps files held r j
  | opened {op p g} : r.ops = [op] → op.opens = true → j.succeeded = 1 → j.results = [(p, g)] →
      j.place = [none] → p < places → OpenAt (files p) g (r.slot + 1) → Keeps files held r j
  | working : opensAny r.ops = false → (∀ x ∈ j.place, x = none) →
      (∀ x, held = some x → x.1 < places ∧
        if closesAny (tried j) then Shut (files x.1) (r.slot + 1)
        else OpenAt (files x.1) x.2 (r.slot + 1)) →
      Keeps files held r j

structure Reports (r : Request) (d : Done) : Prop where
  slot : d.slot = r.slot
  gen : d.gen = r.gen
  ok : d.ok ≤ r.ops.length
  results : d.results.length = d.ok
  reads : ReadWithin r.ops d.results d.data

def Fits (journal : ℕ × ℕ) (t : Table) : Client → Prop
  | .idle held => Holds t.files held
  | .emitted held r =>
    Script journal held r.ops ∧ (t.jobs r.slot).state = .free ∧ Holds t.files held
  | .taken held r =>
    Script journal held r.ops ∧ Runs (t.jobs r.slot) r ∧ Keeps t.files held r (t.jobs r.slot)
  | .given held r d =>
    Script journal held r.ops ∧ (t.jobs r.slot).state = .free ∧ Reports r d ∧
      Holds t.files (heldAfter held r.ops d.ok d.results)

variable {c : Client} {journal : ℕ × ℕ} {t : Table}

private theorem owns_frame {t t' : Table}
    (hjobs : ∀ r, c.request = some r → t'.jobs r.slot = t.jobs r.slot)
    :
    owns t' c = owns t c := by
  cases c with
  | taken held r => simp only [owns, hjobs r rfl]
  | _ => rfl

theorem Holds.frame {files files' : ℕ → File} {held : Option (ℕ × ℕ)} (h : Holds files held)
    (hfiles : ∀ p, held.map Prod.fst = some p → files' p = files p) : Holds files' held := by
  intro x hx
  rw [hfiles x.1 (by rw [hx]; rfl)]
  exact h x hx

theorem opensAny_single {op : FileOp} (h : op.opens = true) : opensAny [op] = true := by
  simp [opensAny, h]

theorem placeOf_reserved {j : Job} {r : Request} {p : ℕ} (hruns : Runs j r)
    (hsucceeded : j.succeeded = 0) (hplace : j.place = [some p]) : placeOf j = some p := by
  have hnil : j.results = [] := List.length_eq_zero_iff.mp (hruns.results.trans hsucceeded)
  simp [placeOf, hnil, Job.placeFor, hsucceeded, hplace]

theorem Fits.frame {t t' : Table} (h : Fits journal t c)
    (hjobs : ∀ r, c.request = some r → t'.jobs r.slot = t.jobs r.slot)
    (hfiles : ∀ p, owns t c = some p → t'.files p = t.files p) : Fits journal t' c := by
  cases c with
  | idle held => exact Holds.frame h hfiles
  | emitted held r =>
    obtain ⟨hscript, hfree, hholds⟩ := h
    exact ⟨hscript, (hjobs r rfl).symm ▸ hfree, hholds.frame hfiles⟩
  | taken held r =>
    obtain ⟨hscript, hruns, hkeeps⟩ := h
    have hjob := hjobs r rfl
    refine ⟨hscript, hjob.symm ▸ hruns, ?_⟩
    rw [hjob]
    cases hkeeps with
    | @reserved op p hops hopens hdir hsucceeded hplace hlt hfile =>
      have hown : owns t (.taken held r) = some p := by
        simp only [owns, hops, opensAny_single hopens, if_true]
        exact placeOf_reserved hruns hsucceeded hplace
      exact .reserved hops hopens hdir hsucceeded hplace hlt (hfiles p hown ▸ hfile)
    | @opened op p g hops hopens hsucceeded hresults hplace hlt hfile =>
      have hown : owns t (.taken held r) = some p := by
        simp only [owns, hops, opensAny_single hopens, if_true, placeOf, hresults]
      exact .opened hops hopens hsucceeded hresults hplace hlt (hfiles p hown ▸ hfile)
    | working hopens hplace hfile =>
      refine .working hopens hplace fun x hx => ?_
      have hown : owns t (.taken held r) = some x.1 := by
        simp only [owns, hopens, hx, Bool.false_eq_true, if_false, Option.map_some]
      rw [hfiles x.1 hown]
      exact hfile x hx
  | given held r d =>
    obtain ⟨hscript, hfree, hreports, hholds⟩ := h
    exact ⟨hscript, (hjobs r rfl).symm ▸ hfree, hreports, hholds.frame hfiles⟩

theorem Fits.owned {p : ℕ} (h : Fits journal t c) (hown : owns t c = some p) :
    p < places ∧ ¬ Shut (t.files p) 0 := by
  have of_holds : ∀ {held : Option (ℕ × ℕ)}, Holds t.files held → held.map Prod.fst = some p →
      p < places ∧ ¬ Shut (t.files p) 0 := by
    intro held hholds hmap
    obtain ⟨x, hx, rfl⟩ := Option.map_eq_some_iff.mp hmap
    obtain ⟨hlt, hopen⟩ := hholds x hx
    exact ⟨hlt, fun hshut => by simpa [hopen.isOpen] using hshut.isOpen⟩
  cases c with
  | idle held => exact of_holds h hown
  | emitted held r => exact of_holds h.2.2 hown
  | given held r d => exact of_holds h.2.2.2 hown
  | taken held r =>
    obtain ⟨-, hruns, hkeeps⟩ := h
    cases hkeeps with
    | @reserved op q hops hopens hdir hsucceeded hplace hlt hfile =>
      simp only [owns, hops, opensAny_single hopens, if_true,
        placeOf_reserved hruns hsucceeded hplace, Option.some.injEq] at hown
      subst hown
      exact ⟨hlt, fun hshut => by simpa [hfile.reserved] using hshut.reserved⟩
    | @opened op q g hops hopens hsucceeded hresults hplace hlt hfile =>
      simp only [owns, hops, opensAny_single hopens, if_true, placeOf, hresults,
        Option.some.injEq] at hown
      subst hown
      exact ⟨hlt, fun hshut => by simpa [hfile.isOpen] using hshut.isOpen⟩
    | working hopens hplace hfile =>
      simp only [owns, hopens, Bool.false_eq_true, if_false] at hown
      obtain ⟨x, hx, rfl⟩ := Option.map_eq_some_iff.mp hown
      obtain ⟨hlt, hx⟩ := hfile x hx
      refine ⟨hlt, fun hshut => ?_⟩
      split at hx
      · have := hx.busy.symm.trans hshut.busy
        omega
      · simpa [hx.isOpen] using hshut.isOpen

theorem Fits.held_owned {x : ℕ × ℕ} (h : Fits journal t c)
    (hgiven : ∀ held r d, c ≠ .given held r d) (hx : c.held = some x) : owns t c = some x.1 := by
  cases c with
  | idle held | emitted held r =>
    obtain rfl : held = some x := hx
    rfl
  | given held r d => exact absurd rfl (hgiven held r d)
  | taken held r =>
    obtain rfl : held = some x := hx
    obtain ⟨hscript, -, -⟩ := h
    have hopens : opensAny r.ops = false := by
      generalize r.ops = ops at hscript
      cases hscript with
      | working _ _ _ _ hworks => exact hworks.opensAny
    simp only [owns, hopens, Bool.false_eq_true, if_false, Option.map_some]

variable {ι : Type} [DecidableEq ι]

/-! ## Places -/

/-- Each client fits the table; no place is kept for two of them, for one while another thinks it
holds a file there, or is the journal's; and the places kept for none are vacant. -/
structure Places (journal : ℕ × ℕ) (cs : ι → Client) (t : Table) : Prop where
  fits : ∀ i, Fits journal t (cs i)
  apart : ∀ i i' p, owns t (cs i) = some p → owns t (cs i') = some p → i = i'
  believed : ∀ i i' x, (cs i).held = some x → owns t (cs i') = some x.1 → i' = i
  offJournal : ∀ i, owns t (cs i) ≠ some journal.1
  vacant : ∀ p, p ≠ journal.1 → (∀ i, owns t (cs i) ≠ some p) → Shut (t.files p) 0

omit [DecidableEq ι] in
theorem Places.start (hshut : ∀ p ≠ journal.1, Shut (t.files p) 0) :
    Places journal (fun _ : ι => .idle none) t where
  fits i x hx := by cases hx
  apart i i' p hown := by cases hown
  believed i i' x hheld := by cases hheld
  offJournal i hown := by cases hown
  vacant p hp _ := hshut p hp

/-- A step of one client: it touches that client's job, its place, a vacant place it takes, and the
journal. -/
theorem Places.move {cs : ι → Client} {t t' : Table} {i : ι}
    (h : Places journal cs t)
    (hjobs : ∀ i' r, i' ≠ i → (cs i').request = some r → t'.jobs r.slot = t.jobs r.slot)
    (hfits : Fits journal t' c)
    (hfiles : ∀ p, p ≠ journal.1 → owns t (cs i) ≠ some p → owns t' c ≠ some p →
      t'.files p = t.files p)
    (hbelief : ∀ x, c.held = some x → (cs i).held = some x ∨ owns t (cs i) = some x.1)
    (hnew : ∀ p, owns t' c = some p → owns t (cs i) = some p ∨
      p ≠ journal.1 ∧ (∀ i', owns t (cs i') ≠ some p) ∧ ∀ i' x, (cs i').held = some x → x.1 ≠ p)
    (hold : ∀ p, owns t (cs i) = some p → owns t' c ≠ some p → Shut (t'.files p) 0) :
    Places journal (Function.update cs i c) t' := by
  have howns : ∀ i', i' ≠ i → owns t' (cs i') = owns t (cs i') := fun i' hne =>
    owns_frame (hjobs i' · hne)
  have hother : ∀ i' p, i' ≠ i → owns t (cs i') = some p → owns t' c ≠ some p := by
    intro i' p hne hown hc
    obtain hsame | ⟨-, hfree, -⟩ := hnew p hc
    · exact hne (h.apart i' i p hown hsame)
    · exact hfree i' hown
  refine ⟨fun i' => ?_, fun i₁ i₂ p h₁ h₂ => ?_, fun i₁ i₂ x h₁ h₂ => ?_, fun i' => ?_,
    fun p hp hnone => ?_⟩
  · rcases eq_or_ne i' i with rfl | hne
    · rwa [Function.update_self]
    · rw [Function.update_of_ne hne]
      refine (h.fits i').frame (hjobs i' · hne) fun p hown => hfiles p ?_ ?_ ?_
      · rintro rfl
        exact h.offJournal i' hown
      · exact fun hc => hne (h.apart i' i p hown hc)
      · exact hother i' p hne hown
  · rcases eq_or_ne i₁ i with rfl | hne₁ <;> rcases eq_or_ne i₂ i₁ with rfl | hne
    · rfl
    · rw [Function.update_self] at h₁
      rw [Function.update_of_ne hne, howns i₂ hne] at h₂
      exact absurd h₁ (hother i₂ p hne h₂)
    · rfl
    · rw [Function.update_of_ne hne₁, howns i₁ hne₁] at h₁
      rcases eq_or_ne i₂ i with rfl | hne₂
      · rw [Function.update_self] at h₂
        exact absurd h₂ (hother i₁ p hne₁ h₁)
      · rw [Function.update_of_ne hne₂, howns i₂ hne₂] at h₂
        exact h.apart i₁ i₂ p h₁ h₂
  · rcases eq_or_ne i₁ i with rfl | hne₁ <;> rcases eq_or_ne i₂ i₁ with rfl | hne
    · rfl
    · rw [Function.update_self] at h₁
      rw [Function.update_of_ne hne, howns i₂ hne] at h₂
      obtain hheld | hown := hbelief x h₁
      · exact h.believed i₁ i₂ x hheld h₂
      · exact h.apart i₂ i₁ x.1 h₂ hown
    · rfl
    · rw [Function.update_of_ne hne₁] at h₁
      rcases eq_or_ne i₂ i with rfl | hne₂
      · rw [Function.update_self] at h₂
        obtain hsame | ⟨-, -, hfree⟩ := hnew x.1 h₂
        · exact h.believed i₁ i₂ x h₁ hsame
        · exact absurd rfl (hfree i₁ x h₁)
      · rw [Function.update_of_ne hne₂, howns i₂ hne₂] at h₂
        exact h.believed i₁ i₂ x h₁ h₂
  · rcases eq_or_ne i' i with rfl | hne
    · rw [Function.update_self]
      intro hc
      obtain hsame | ⟨hne, -, -⟩ := hnew _ hc
      · exact h.offJournal i' hsame
      · exact hne rfl
    · rw [Function.update_of_ne hne, howns i' hne]
      exact h.offJournal i'
  · have hc : owns t' c ≠ some p := by
      have := hnone i
      rwa [Function.update_self] at this
    by_cases hown : owns t (cs i) = some p
    · exact hold p hown hc
    · rw [hfiles p hp hown hc]
      refine h.vacant p hp fun i' => ?_
      rcases eq_or_ne i' i with rfl | hne
      · exact hown
      · have := hnone i'
        rwa [Function.update_of_ne hne, howns i' hne] at this

theorem Places.exists_vacant [Fintype ι] {cs : ι → Client} {i : ι} (h : Places journal cs t)
    (hcard : Fintype.card ι < places) (hi : owns t (cs i) = none) :
    ∃ p < places, p ≠ journal.1 ∧ (∀ i', owns t (cs i') ≠ some p) ∧ Shut (t.files p) 0 := by
  classical
  -- The places in use: the journal's, and at most one for each other client.
  let used := insert journal.1 ((Finset.univ.erase i).image fun i' => (owns t (cs i')).getD journal.1)
  have hused : used.card < (Finset.range places).card := by
    calc used.card ≤ ((Finset.univ.erase i).image fun i' =>
          (owns t (cs i')).getD journal.1).card + 1 := Finset.card_insert_le _ _
      _ ≤ (Finset.univ.erase i).card + 1 := by
          have := Finset.card_image_le (s := Finset.univ.erase i)
            (f := fun i' => (owns t (cs i')).getD journal.1)
          omega
      _ = Fintype.card ι := Finset.card_erase_add_one (Finset.mem_univ i)
      _ < (Finset.range places).card := by rwa [Finset.card_range]
  obtain ⟨p, hp, hfree⟩ := Finset.exists_mem_notMem_of_card_lt_card hused
  have hjournal : p ≠ journal.1 := fun hp => hfree (hp ▸ Finset.mem_insert_self _ _)
  have hnone : ∀ i', owns t (cs i') ≠ some p := by
    intro i' hown
    rcases eq_or_ne i' i with rfl | hne
    · rw [hi] at hown
      cases hown
    · refine hfree (Finset.mem_insert_of_mem (Finset.mem_image.mpr ⟨i', ?_, ?_⟩))
      · exact Finset.mem_erase.mpr ⟨hne, Finset.mem_univ i'⟩
      · rw [hown, Option.getD_some]
  exact ⟨p, Finset.mem_range.mp hp, hjournal, hnone, h.vacant p hjournal hnone⟩

end DragonsNet.Native.FileClients
