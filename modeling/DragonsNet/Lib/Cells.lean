/- GID: DragonsNet/Lib/Cells
   generality: G
   digest: Loads from and stores to a block of cells, refused where they leave the block. -/

import Mathlib.Data.List.Basic
import Mathlib.Tactic.Common

set_option autoImplicit false

namespace DragonsNet.Lib.Cells

universe u

variable {α : Type u}

def load (cells : List α) (pos n : ℕ) : Option (List α) :=
  if pos + n ≤ cells.length then some ((cells.drop pos).take n) else none

def store (cells : List α) (pos : ℕ) (xs : List α) : Option (List α) :=
  if pos + xs.length ≤ cells.length then
    some (cells.take pos ++ xs ++ cells.drop (pos + xs.length))
  else none

def written : List (Option α) → Option (List α)
  | [] => some []
  | none :: _ => none
  | some x :: cells => (written cells).map (x :: ·)

@[simp] theorem written_map_some (xs : List α) : written (xs.map some) = some xs := by
  induction xs with
  | nil => rfl
  | cons x xs ih => rw [List.map_cons, written, ih, Option.map_some]

theorem load_middle (before xs after : List α) :
    load (before ++ (xs ++ after)) before.length xs.length = some xs := by
  have hfits : before.length + xs.length ≤ (before ++ (xs ++ after)).length := by
    rw [List.length_append, List.length_append]
    omega
  rw [load, if_pos hfits, List.drop_left, List.take_left]

theorem store_middle (before old after xs : List α) (hlength : old.length = xs.length) :
    store (before ++ (old ++ after)) before.length xs = some (before ++ xs ++ after) := by
  have hfits : before.length + xs.length ≤ (before ++ (old ++ after)).length := by
    rw [List.length_append, List.length_append]
    omega
  rw [store, if_pos hfits, List.take_left, ← hlength, ← List.length_append, ← List.append_assoc,
    List.drop_left]

theorem store_behind (before rest xs : List α) (hfits : xs.length ≤ rest.length) :
    store (before ++ rest) before.length xs =
      some (before ++ xs ++ rest.drop xs.length) := by
  have hold : (rest.take xs.length).length = xs.length := by
    rw [List.length_take, Nat.min_eq_left hfits]
  have hmiddle := store_middle before (rest.take xs.length) (rest.drop xs.length) xs hold
  rwa [List.take_append_drop] at hmiddle

end DragonsNet.Lib.Cells
