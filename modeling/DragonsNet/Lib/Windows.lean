/- GID: DragonsNet/Lib/Windows
   generality: G
   digest: Windows that begin at arrivals, and how many arrivals a limit for each of them lets by. -/

import Mathlib.Algebra.Order.Group.Nat
import Mathlib.Data.List.Induction
import Mathlib.Tactic.Common

/-!
A window begins at the first arrival, and then at the first one at least a window's length
after the last beginning. No clock moves it: between arrivals nothing happens.
-/

set_option autoImplicit false

namespace DragonsNet.Lib.Windows

section Past

universe u v

variable {α : Type u} {β : Type v}

def eachPast (f : List α → α → β) : List α → List α → List β
  | _, [] => []
  | past, a :: rest => f past a :: eachPast f (past ++ [a]) rest

theorem eachPast_snoc (f : List α → α → β) (past l : List α) (a : α) :
    eachPast f past (l ++ [a]) = eachPast f past l ++ [f (past ++ l) a] := by
  induction l generalizing past with
  | nil => simp [eachPast]
  | cons b l ih =>
    rw [List.cons_append, eachPast, eachPast, ih, List.append_assoc]
    rfl

end Past

/-- The beginning of the window of an arrival at `t`, the last window having begun at `last`. -/
def current (w : ℕ) (last : Option ℕ) (t : ℕ) : ℕ :=
  match last with
  | none => t
  | some b => if b + w ≤ t then t else b

def beginning (w : ℕ) (ts : List ℕ) : Option ℕ :=
  ts.foldl (fun last t => some (current w last t)) none

def within (w b : ℕ) (ts : List ℕ) : ℕ := ts.countP fun t => b ≤ t && t < b + w

def earlier (w : ℕ) (ts : List ℕ) (t : ℕ) : ℕ := within w (current w (beginning w ts) t) ts

def Begins (w : ℕ) (ts : List ℕ) (b : ℕ) : Prop :=
  ∃ before t after, ts = before ++ t :: after ∧ current w (beginning w before) t = b

/-- The arrivals with fewer than `limit` before them in their window. -/
def admitted (limit w : ℕ) (ts : List ℕ) : List ℕ :=
  (eachPast (fun past t => if earlier w past t < limit then [t] else []) [] ts).flatten

variable {w limit t : ℕ} {ts : List ℕ}

theorem beginning_snoc (w t : ℕ) (ts : List ℕ) :
    beginning w (ts ++ [t]) = some (current w (beginning w ts) t) := by
  rw [beginning, List.foldl_append]
  rfl

theorem admitted_snoc (limit w t : ℕ) (ts : List ℕ) :
    admitted limit w (ts ++ [t]) =
      admitted limit w ts ++ if earlier w ts t < limit then [t] else [] := by
  rw [admitted, eachPast_snoc, List.flatten_append, List.flatten_singleton]
  rfl

theorem beginning_eq_none : beginning w ts = none ↔ ts = [] := by
  induction ts using List.reverseRecOn with
  | nil => exact ⟨fun _ => rfl, fun _ => rfl⟩
  | append_singleton ts t _ => simp [beginning_snoc]

theorem current_le (w t : ℕ) (last : Option ℕ) (h : ∀ b, last = some b → b ≤ t) :
    current w last t ≤ t := by
  rcases last with _ | b
  · exact le_rfl
  · rw [current]
    split
    · exact le_rfl
    · exact h b rfl

theorem lt_current_add (hw : 0 < w) (last : Option ℕ) : t < current w last t + w := by
  rcases last with _ | b
  · exact Nat.lt_add_of_pos_right hw
  · rw [current]
    split <;> omega

theorem current_cases (w t b : ℕ) :
    (b + w ≤ t ∧ current w (some b) t = t) ∨ (t < b + w ∧ current w (some b) t = b) := by
  rw [current]
  split
  · exact .inl ⟨by assumption, rfl⟩
  · exact .inr ⟨by omega, rfl⟩

theorem begins_snoc (b : ℕ) :
    Begins w (ts ++ [t]) b ↔ Begins w ts b ∨ current w (beginning w ts) t = b := by
  constructor
  · rintro ⟨before, u, after, heq, hb⟩
    induction after using List.reverseRecOn with
    | nil =>
      obtain ⟨rfl, hu⟩ := List.append_inj' heq rfl
      obtain rfl : t = u := List.cons.inj hu |>.1
      exact .inr hb
    | append_singleton after v _ =>
      rw [← List.cons_append, ← List.append_assoc] at heq
      obtain ⟨rfl, -⟩ := List.append_inj' heq rfl
      exact .inl ⟨before, u, after, rfl, hb⟩
  · rintro (⟨before, u, after, rfl, hb⟩ | hb)
    · exact ⟨before, u, after ++ [t], by rw [List.append_assoc, List.cons_append], hb⟩
    · exact ⟨ts, t, [], rfl, hb⟩

theorem begins_beginning {b : ℕ} (h : beginning w ts = some b) : Begins w ts b := by
  induction ts using List.reverseRecOn with
  | nil => cases h
  | append_singleton ts t _ =>
    rw [beginning_snoc] at h
    exact (begins_snoc b).mpr (.inr (Option.some.inj h))

def Ordered (ts : List ℕ) : Prop := ts.Pairwise (· ≤ ·)

theorem Ordered.snoc (h : Ordered (ts ++ [t])) : Ordered ts ∧ ∀ u ∈ ts, u ≤ t := by
  obtain ⟨hts, -, hle⟩ := List.pairwise_append.mp h
  exact ⟨hts, fun u hu => hle u hu t (List.mem_singleton_self t)⟩

theorem beginning_spec {b : ℕ} (hw : 0 < w) (hord : Ordered ts) (h : beginning w ts = some b) :
    b ∈ ts ∧ ∀ u ∈ ts, u < b + w := by
  induction ts using List.reverseRecOn generalizing b with
  | nil => cases h
  | append_singleton ts t ih =>
    obtain ⟨hts, hle⟩ := hord.snoc
    rw [beginning_snoc] at h
    obtain rfl := Option.some.inj h
    have hlast : t < current w (beginning w ts) t + w := lt_current_add hw _
    refine ⟨?_, fun u hu => ?_⟩
    · cases hb : beginning w ts with
      | none => exact List.mem_append_right ts (List.mem_singleton_self t)
      | some b =>
        rcases current_cases w t b with ⟨-, hc⟩ | ⟨-, hc⟩
        · rw [hc]
          exact List.mem_append_right ts (List.mem_singleton_self t)
        · rw [hc]
          exact List.mem_append_left [t] (ih hts hb).1
    · rcases List.mem_append.mp hu with hu | hu
      · exact (hle u hu).trans_lt hlast
      · exact List.mem_singleton.mp hu ▸ hlast

theorem beginning_le {b : ℕ} (hw : 0 < w) (hord : Ordered (ts ++ [t]))
    (h : beginning w ts = some b) : b ≤ t :=
  hord.snoc.2 b (beginning_spec hw hord.snoc.1 h).1

theorem earlier_of_new (hw : 0 < w) (hord : Ordered (ts ++ [t]))
    (hnew : ∀ b, beginning w ts = some b → b + w ≤ t) : earlier w ts t = 0 := by
  rw [earlier, within, List.countP_eq_zero]
  intro u hu hin
  cases hb : beginning w ts with
  | none =>
    rw [beginning_eq_none.mp hb] at hu
    exact List.not_mem_nil hu
  | some b =>
    have hlt : u < b + w := (beginning_spec hw hord.snoc.1 hb).2 u hu
    have hle : b + w ≤ t := hnew b hb
    rw [hb, current, if_pos hle] at hin
    simp only [Bool.and_eq_true, decide_eq_true_eq] at hin
    omega

theorem begins_apart {b c : ℕ} (hw : 0 < w) (hord : Ordered ts) (hb : Begins w ts b)
    (hc : Begins w ts c) (hlt : b < c) : b + w ≤ c := by
  induction ts using List.reverseRecOn generalizing b c with
  | nil =>
    obtain ⟨before, u, after, heq, -⟩ := hb
    exact absurd heq.symm (List.append_ne_nil_of_right_ne_nil _ (List.cons_ne_nil _ _))
  | append_singleton ts t ih =>
    obtain ⟨hts, hle⟩ := hord.snoc
    -- every window begins at or before the last, and the last one ends after every arrival
    have hold : ∀ d, Begins w ts d → ∃ e, beginning w ts = some e ∧ d ≤ e := by
      intro d hd
      obtain ⟨before, u, after, heq, hu⟩ := id hd
      cases he : beginning w ts with
      | none =>
        rw [beginning_eq_none.mp he] at heq
        exact absurd heq.symm (List.append_ne_nil_of_right_ne_nil _ (List.cons_ne_nil _ _))
      | some e =>
        refine ⟨e, rfl, Nat.le_of_not_lt fun hed => ?_⟩
        have hend : e + w ≤ d := ih hts (begins_beginning he) hd hed
        have hdu : d ≤ u := by
          rw [← hu]
          refine current_le w u _ fun x hx => ?_
          have hmem : x ∈ before := (beginning_spec hw (List.Pairwise.sublist
            (heq ▸ List.sublist_append_left _ _) hts) hx).1
          have hp := List.pairwise_append.mp (heq ▸ hts)
          exact hp.2.2 x hmem u List.mem_cons_self
        have := (beginning_spec hw hts he).2 u (heq ▸ by simp)
        omega
    rcases (begins_snoc b).mp hb with hb' | hb' <;> rcases (begins_snoc c).mp hc with hc' | hc'
    · exact ih hts hb' hc' hlt
    · obtain ⟨e, he, hbe⟩ := hold b hb'
      rcases current_cases w t e with ⟨hend, hcur⟩ | ⟨-, hcur⟩
      · rw [he, hcur] at hc'
        omega
      · rw [he, hcur] at hc'
        subst hc'
        exact ih hts hb' (begins_beginning he) hlt
    · obtain ⟨e, he, hce⟩ := hold c hc'
      have hbt := beginning_le hw hord he
      rcases current_cases w t e with ⟨-, hcur⟩ | ⟨-, hcur⟩ <;> rw [he, hcur] at hb' <;> omega
    · omega

theorem exists_begins {u : ℕ} (hw : 0 < w) (hord : Ordered ts) (hu : u ∈ ts) :
    ∃ b, Begins w ts b ∧ b ≤ u ∧ u < b + w := by
  obtain ⟨before, after, rfl⟩ := List.append_of_mem hu
  refine ⟨_, ⟨before, u, after, rfl, rfl⟩, current_le w u _ fun b hb => ?_, lt_current_add hw _⟩
  obtain ⟨hbefore, -, hle⟩ := List.pairwise_append.mp hord
  exact hle b (beginning_spec hw hbefore hb).1 u List.mem_cons_self

theorem admitted_sublist (limit w : ℕ) (ts : List ℕ) : (admitted limit w ts).Sublist ts := by
  induction ts using List.reverseRecOn with
  | nil => exact .slnil
  | append_singleton ts t ih =>
    rw [admitted_snoc]
    refine ih.append ?_
    split
    · exact .refl _
    · exact List.nil_sublist _

theorem within_admitted_le {b : ℕ} (hw : 0 < w) (hord : Ordered ts) (hb : Begins w ts b) :
    within w b (admitted limit w ts) ≤ limit := by
  induction ts using List.reverseRecOn with
  | nil => exact Nat.zero_le _
  | append_singleton ts t ih =>
    obtain ⟨hts, hle⟩ := hord.snoc
    have hlast : Begins w (ts ++ [t]) (current w (beginning w ts) t) :=
      (begins_snoc _).mpr (.inr rfl)
    have ht : t < current w (beginning w ts) t + w := lt_current_add hw _
    have hct : current w (beginning w ts) t ≤ t :=
      current_le w t _ fun x hx => beginning_le hw hord hx
    rw [admitted_snoc, within, List.countP_append]
    change within w b (admitted limit w ts) + _ ≤ limit
    by_cases hcur : current w (beginning w ts) t = b
    · -- what was admitted before is part of what arrived before
      have hbefore : within w b (admitted limit w ts) ≤ earlier w ts t := by
        rw [earlier, hcur]
        exact (admitted_sublist limit w ts).countP_le
      split
      · rw [List.countP_singleton]
        split <;> omega
      · by_cases hb' : Begins w ts b
        · exact ih hts hb'
        · have hnew : earlier w ts t = 0 := by
            refine earlier_of_new hw hord fun x hx => ?_
            rcases current_cases w t x with ⟨hend, -⟩ | ⟨-, hc⟩
            · exact hend
            · rw [hx, hc] at hcur
              exact absurd (hcur ▸ begins_beginning hx) hb'
          rw [List.countP_nil]
          omega
    · have hb' : Begins w ts b := ((begins_snoc b).mp hb).resolve_right hcur
      have hout : ¬ (b ≤ t ∧ t < b + w) := by
        rintro ⟨hbt, htb⟩
        rcases Nat.lt_or_gt_of_ne hcur with hlt | hlt
        · have := begins_apart hw hord hlast hb hlt
          omega
        · have := begins_apart hw hord hb hlast hlt
          omega
      have hnone : List.countP (fun u => decide (b ≤ u) && decide (u < b + w))
          (if earlier w ts t < limit then [t] else []) = 0 := by
        split
        · rw [List.countP_singleton, if_neg]
          simpa using fun hbt => Nat.le_of_not_lt fun htb => hout ⟨hbt, htb⟩
        · rfl
      rw [hnone]
      exact ih hts hb'

theorem countP_le_add {p q r : ℕ → Bool} (h : ∀ u ∈ ts, p u = true → q u = true ∨ r u = true) :
    ts.countP p ≤ ts.countP q + ts.countP r := by
  induction ts with
  | nil => exact Nat.zero_le _
  | cons u us ih =>
    have hus := ih fun v hv => h v (List.mem_cons_of_mem u hv)
    have hu := h u List.mem_cons_self
    simp only [List.countP_cons]
    cases hp : p u with
    | false =>
      simp only [Bool.false_eq_true, if_false]
      omega
    | true =>
      rcases hu hp with hq | hr
      · simp only [hq, if_true]
        omega
      · simp only [hr, if_true]
        omega

theorem stretch_before_le {a c : ℕ} (hw : 0 < w) (hord : Ordered ts)
    (hc : ∀ b, Begins w ts b → b < c → b + w ≤ c) (hac : c < a + w) :
    (admitted limit w ts).countP (fun u => a ≤ u && u < c) ≤ limit := by
  by_cases hany : ∃ u ∈ admitted limit w ts, a ≤ u ∧ u < c
  · obtain ⟨u, hu, hau, huc⟩ := hany
    obtain ⟨b, hb, hbu, hub⟩ := exists_begins hw hord ((admitted_sublist limit w ts).subset hu)
    have hbc := hc b hb (hbu.trans_lt huc)
    have hfew : within w b (admitted limit w ts) ≤ limit := within_admitted_le hw hord hb
    refine le_trans (List.countP_mono_left fun v hv hvc => ?_) hfew
    simp only [Bool.and_eq_true, decide_eq_true_eq] at hvc ⊢
    obtain ⟨d, hd, hdv, hvd⟩ := exists_begins hw hord ((admitted_sublist limit w ts).subset hv)
    have hdc := hc d hd (hdv.trans_lt hvc.2)
    -- another window would end before the stretch begins, or begin after `c`
    obtain rfl : d = b := by
      rcases Nat.lt_trichotomy d b with hlt | heq | hlt
      · have := begins_apart hw hord hd hb hlt
        omega
      · exact heq
      · have := begins_apart hw hord hb hd hlt
        omega
    exact ⟨hdv, hvd⟩
  · rw [List.countP_eq_zero.mpr]
    · exact Nat.zero_le _
    · intro u hu hin
      simp only [Bool.and_eq_true, decide_eq_true_eq] at hin
      exact hany ⟨u, hu, hin⟩

/-- In a stretch of a window's length no more than twice the limit are admitted: the stretch
meets two windows at most. -/
theorem stretch_admitted_le (hw : 0 < w) (hord : Ordered ts) (a : ℕ) :
    within w a (admitted limit w ts) ≤ 2 * limit := by
  induction ts using List.reverseRecOn with
  | nil => exact Nat.zero_le _
  | append_singleton ts t ih =>
    obtain ⟨hts, hle⟩ := hord.snoc
    rw [admitted_snoc]
    by_cases hin : earlier w ts t < limit ∧ a ≤ t ∧ t < a + w
    · obtain ⟨hadm, hat, hta⟩ := hin
      have hlast : Begins w (ts ++ [t]) (current w (beginning w ts) t) :=
        (begins_snoc _).mpr (.inr rfl)
      have htc : t < current w (beginning w ts) t + w := lt_current_add hw _
      have hct : current w (beginning w ts) t ≤ t :=
        current_le w t _ fun x hx => beginning_le hw hord hx
      generalize hc : current w (beginning w ts) t = c at hlast htc hct
      have hnow : within w c (admitted limit w ts) ≤ earlier w ts t := by
        rw [earlier, hc]
        exact (admitted_sublist limit w ts).countP_le
      have hbefore : (admitted limit w ts).countP (fun u => a ≤ u && u < c) ≤ limit :=
        stretch_before_le hw hts
          (fun b hb hbc => begins_apart hw hord ((begins_snoc b).mpr (.inl hb)) hlast hbc) (by omega)
      -- the part in the window of `t`, and the part before it
      have hsplit : within w a (admitted limit w ts) ≤ within w c (admitted limit w ts) +
          (admitted limit w ts).countP fun u => a ≤ u && u < c := by
        refine countP_le_add fun u hu hua => ?_
        have hut : u ≤ t := hle u ((admitted_sublist limit w ts).subset hu)
        simp only [Bool.and_eq_true, decide_eq_true_eq] at hua ⊢
        omega
      rw [if_pos hadm, within, List.countP_append, List.countP_singleton]
      change within w a (admitted limit w ts) + _ ≤ _
      split <;> omega
    · have hnone : (if earlier w ts t < limit then [t] else []).countP
          (fun u => decide (a ≤ u) && decide (u < a + w)) = 0 := by
        split
        · rw [List.countP_singleton, if_neg]
          simp only [Bool.and_eq_true, decide_eq_true_eq]
          exact fun h => hin ⟨by assumption, h⟩
        · rfl
      rw [within, List.countP_append, hnone]
      exact ih hts

end DragonsNet.Lib.Windows
