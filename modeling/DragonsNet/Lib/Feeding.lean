/- GID: DragonsNet/Lib/Feeding
   generality: G
   digest: Machines fed their input in pieces, and when the cuts do not matter. -/

import Mathlib.Data.List.Basic
import Mathlib.Data.Nat.Init
import Mathlib.Tactic.Common

set_option autoImplicit false

namespace DragonsNet.Lib.Feeding

universe u v w x y

/-- One turn of a feed loop: it waits for more input, ends the connection, or goes on with the
input left. -/
inductive Turn (E : Type u) (A : Type v) (O : Type w) where
  | wait (e : E)
  | shut (out : List O)
  | next (e : E) (rest : List A) (out : List O)

/-- A machine by its turns, which come to an end on every input. A turn may also fault. -/
structure Machine (E : Type u) (A : Type v) (O : Type w) (P : Type x) where
  turn : E → List A → Except P (Turn E A O)
  size : E → List A → ℕ
  size_lt : ∀ {e e' : E} {input rest : List A} {out : List O},
    turn e input = .ok (.next e' rest out) → size e' rest < size e input

variable {E : Type u} {A : Type v} {O : Type w} {P : Type x} {V : Type y}

/-- What a feed leaves: its output, and the machine unless it has shut. -/
abbrev Fed (E : Type u) (O : Type w) (P : Type x) := Except P (List O × Option E)

def Fed.after (out : List O) (r : Fed E O P) : Fed E O P := r.map fun (more, e) => (out ++ more, e)

def Fed.resume (r : Fed E O P) (k : E → Fed E O P) : Fed E O P :=
  match r with
  | .error p => .error p
  | .ok (out, none) => .ok (out, none)
  | .ok (out, some e) => Fed.after out (k e)

def Fed.seen (view : E → V) (r : Fed E O P) : Fed V O P := r.map fun (out, e) => (out, e.map view)

def Turn.map (view : E → V) : Turn E A O → Turn V A O
  | .wait e => .wait (view e)
  | .shut out => .shut out
  | .next e rest out => .next (view e) rest out

def Machine.feed (M : Machine E A O P) (e : E) (input : List A) : Fed E O P :=
  match _h : M.turn e input with
  | .error p => .error p
  | .ok (.wait e') => .ok ([], some e')
  | .ok (.shut out) => .ok (out, none)
  | .ok (.next e' rest out) => Fed.after out (M.feed e' rest)
termination_by M.size e input
decreasing_by exact M.size_lt ‹_›

def Machine.feeds (M : Machine E A O P) (e : E) : List (List A) → Fed E O P
  | [] => .ok ([], some e)
  | piece :: pieces => Fed.resume (M.feed e piece) fun e' => M.feeds e' pieces

section Fed

variable (out out' : List O) (r : Fed E O P) (k : E → Fed E O P) (view : E → V)

@[simp] theorem after_nil : Fed.after [] r = r := by
  cases r <;> rfl

theorem after_after : Fed.after out (Fed.after out' r) = Fed.after (out ++ out') r := by
  cases r with
  | error p => rfl
  | ok a => simp only [Fed.after, Except.map, List.append_assoc]

theorem resume_after : Fed.resume (Fed.after out r) k = Fed.after out (Fed.resume r k) := by
  rcases r with p | ⟨more, _ | e⟩
  · rfl
  · rfl
  · exact (after_after out more (k e)).symm

theorem resume_stay : Fed.resume r (fun e => .ok ([], some e)) = r := by
  rcases r with p | ⟨more, _ | e⟩
  · rfl
  · rfl
  · simp only [Fed.resume, Fed.after, Except.map, List.append_nil]

theorem seen_after : Fed.seen view (Fed.after out r) = Fed.after out (Fed.seen view r) := by
  cases r <;> rfl

theorem seen_resume (k' : V → Fed V O P) (h : ∀ e, Fed.seen view (k e) = k' (view e)) :
    Fed.seen view (Fed.resume r k) = Fed.resume (Fed.seen view r) k' := by
  rcases r with p | ⟨more, _ | e⟩
  · rfl
  · rfl
  · exact (seen_after more (k e) view).trans (congrArg _ (h e))

end Fed

section Turns

variable {M : Machine E A O P} {e e' : E} {input rest : List A} {out : List O} {p : P}

theorem feed_error (h : M.turn e input = .error p) : M.feed e input = .error p := by
  rw [Machine.feed]
  split <;> simp_all

theorem feed_wait (h : M.turn e input = .ok (.wait e')) : M.feed e input = .ok ([], some e') := by
  rw [Machine.feed]
  split <;> simp_all

theorem feed_shut (h : M.turn e input = .ok (.shut out)) : M.feed e input = .ok (out, none) := by
  rw [Machine.feed]
  split <;> simp_all

theorem feed_next (h : M.turn e input = .ok (.next e' rest out)) :
    M.feed e input = Fed.after out (M.feed e' rest) := by
  rw [Machine.feed]
  split <;> simp_all

end Turns

section Reaches

/-- The machines a run goes through, at each turn of the loop and between pieces. -/
inductive Machine.Reaches (M : Machine E A O P) (start : E) : E → Prop
  | refl : M.Reaches start start
  | next {e e' : E} {input rest : List A} {out : List O} :
      M.Reaches start e → M.turn e input = .ok (.next e' rest out) → M.Reaches start e'
  | wait {e e' : E} {input : List A} :
      M.Reaches start e → M.turn e input = .ok (.wait e') → M.Reaches start e'

variable {M : Machine E A O P} {start e e' : E} {input : List A} {out : List O} {p : P}

theorem Machine.Reaches.keeps {Inv : E → Prop} (h : M.Reaches start e) (hstart : Inv start)
    (next : ∀ {e e' : E} {input rest : List A} {out : List O}, Inv e →
      M.turn e input = .ok (.next e' rest out) → Inv e')
    (wait : ∀ {e e' : E} {input : List A}, Inv e → M.turn e input = .ok (.wait e') → Inv e') :
    Inv e := by
  induction h with
  | refl => exact hstart
  | next _ hturn ih => exact next ih hturn
  | wait _ hturn ih => exact wait ih hturn

theorem feed_reaches (he : M.Reaches start e) :
    (∀ {out e'}, M.feed e input = .ok (out, some e') → M.Reaches start e') ∧
    (∀ {p}, M.feed e input = .error p → ∃ f rest, M.Reaches start f ∧ M.turn f rest = .error p) := by
  induction hn : M.size e input using Nat.strong_induction_on generalizing e input with
  | _ n ih =>
    rcases hturn : M.turn e input with q | ⟨f⟩ | ⟨shut⟩ | ⟨f, rest, first⟩
    · rw [feed_error hturn]
      exact ⟨nofun, fun h => ⟨e, input, he, by rw [hturn, Except.error.inj h]⟩⟩
    · rw [feed_wait hturn]
      refine ⟨fun h => ?_, nofun⟩
      cases h
      exact he.wait hturn
    · rw [feed_shut hturn]
      exact ⟨nofun, nofun⟩
    · obtain ⟨hok, herror⟩ := ih (M.size f rest) (hn ▸ M.size_lt hturn) (he.next hturn) rfl
      rw [feed_next hturn]
      rcases hrest : M.feed f rest with q | ⟨more, g⟩
      · exact ⟨nofun, fun h => herror (hrest.trans h)⟩
      · refine ⟨fun h => ?_, nofun⟩
        obtain ⟨-, rfl⟩ := Prod.mk.inj (Except.ok.inj h)
        exact hok hrest

theorem feeds_error {pieces : List (List A)} (he : M.Reaches start e)
    (h : M.feeds e pieces = .error p) : ∃ f rest, M.Reaches start f ∧ M.turn f rest = .error p := by
  induction pieces generalizing e with
  | nil => cases h
  | cons piece pieces ih =>
    rw [Machine.feeds] at h
    rcases hfed : M.feed e piece with q | ⟨out, _ | e'⟩
    · rw [hfed] at h
      exact (feed_reaches he).2 (hfed.trans h)
    · rw [hfed] at h
      cases h
    · rw [hfed] at h
      rcases hrest : M.feeds e' pieces with q | r
      · simp only [Fed.resume, hrest] at h
        exact ih ((feed_reaches he).1 hfed) (hrest.trans h)
      · simp only [Fed.resume, hrest] at h
        cases h

end Reaches

/-- A turn's outcome when more input follows what it was given: a turn that decided stays as it
is, and one that waited goes on with the rest. -/
def Machine.onward (M : Machine E A O P) (b : List A) :
    Except P (Turn E A O) → Except P (Turn E A O)
  | .error p => .error p
  | .ok (.shut out) => .ok (.shut out)
  | .ok (.next e rest out) => .ok (.next e (rest ++ b) out)
  | .ok (.wait e) => M.turn e b

def Cuttable (M : Machine E A O P) : Prop :=
  ∀ (e : E) (a b : List A), M.turn e (a ++ b) = M.onward b (M.turn e a)

section Cuts

variable {M : Machine E A O P}

theorem feed_congr {e f : E} {a b : List A} (h : M.turn e a = M.turn f b) :
    M.feed e a = M.feed f b := by
  rcases hturn : M.turn e a with p | ⟨e'⟩ | ⟨out⟩ | ⟨e', rest, out⟩
  · rw [feed_error hturn, feed_error (h ▸ hturn)]
  · rw [feed_wait hturn, feed_wait (h ▸ hturn)]
  · rw [feed_shut hturn, feed_shut (h ▸ hturn)]
  · exact (feed_next hturn).trans (feed_next (h ▸ hturn)).symm

theorem feed_append (hM : Cuttable M) (e : E) (a b : List A) :
    M.feed e (a ++ b) = Fed.resume (M.feed e a) fun e' => M.feed e' b := by
  induction hn : M.size e a using Nat.strong_induction_on generalizing e a with
  | _ n ih =>
    have hcut := hM e a b
    rcases hturn : M.turn e a with p | ⟨f⟩ | ⟨out⟩ | ⟨f, rest, out⟩ <;> rw [hturn] at hcut
    · rw [feed_error hturn, feed_error hcut]
      rfl
    · rw [feed_wait hturn, feed_congr hcut, Fed.resume, after_nil]
    · rw [feed_shut hturn, feed_shut hcut]
      rfl
    · rw [feed_next hturn, feed_next hcut, resume_after,
        ih (M.size f rest) (hn ▸ M.size_lt hturn) f rest rfl]

theorem feeds_eq_feed (hM : Cuttable M) (e : E) {pieces : List (List A)} (hne : pieces ≠ []) :
    M.feeds e pieces = M.feed e pieces.flatten := by
  induction pieces generalizing e with
  | nil => exact absurd rfl hne
  | cons piece pieces ih =>
    rw [Machine.feeds, List.flatten_cons]
    cases pieces with
    | nil =>
      rw [List.flatten_nil, List.append_nil]
      exact resume_stay _
    | cons piece' pieces =>
      rw [feed_append hM]
      exact congrArg _ (funext fun e' => ih e' (List.cons_ne_nil _ _))

end Cuts

section Refines

/-- A machine whose turns, by what is seen of it, are those of another. -/
def Refines (M : Machine E A O P) (L : Machine V A O P) (view : E → V) : Prop :=
  ∀ (e : E) (input : List A), (M.turn e input).map (Turn.map view) = L.turn (view e) input

variable {M : Machine E A O P} {L : Machine V A O P} {view : E → V}

theorem Refines.feed (h : Refines M L view) (e : E) (input : List A) :
    Fed.seen view (M.feed e input) = L.feed (view e) input := by
  induction hn : M.size e input using Nat.strong_induction_on generalizing e input with
  | _ n ih =>
    have hL := h e input
    rcases hturn : M.turn e input with p | ⟨f⟩ | ⟨out⟩ | ⟨f, rest, out⟩ <;> rw [hturn] at hL
    · rw [feed_error hturn, feed_error hL.symm]
      rfl
    · rw [feed_wait hturn, feed_wait hL.symm]
      rfl
    · rw [feed_shut hturn, feed_shut hL.symm]
      rfl
    · rw [feed_next hturn, feed_next hL.symm, seen_after,
        ih (M.size f rest) (hn ▸ M.size_lt hturn) f rest rfl]

theorem Refines.feeds (h : Refines M L view) (e : E) (pieces : List (List A)) :
    Fed.seen view (M.feeds e pieces) = L.feeds (view e) pieces := by
  induction pieces generalizing e with
  | nil => rfl
  | cons piece pieces ih =>
    rw [Machine.feeds, seen_resume _ _ _ (fun v => L.feeds v pieces) ih, h.feed, Machine.feeds]

theorem Refines.feeds_congr (h : Refines M L view) (hL : Cuttable L) (e : E)
    {pieces pieces' : List (List A)} (hne : pieces ≠ []) (hne' : pieces' ≠ [])
    (hflat : pieces.flatten = pieces'.flatten) :
    Fed.seen view (M.feeds e pieces) = Fed.seen view (M.feeds e pieces') := by
  rw [h.feeds, h.feeds, feeds_eq_feed hL _ hne, feeds_eq_feed hL _ hne', hflat]

end Refines

end DragonsNet.Lib.Feeding
