/- GID: DragonsNet/Lib/FixedBuffer
   generality: G
   digest: A buffer of fixed size filled from the front, with what it held before behind. -/

import Mathlib.Data.List.Basic
import Mathlib.Tactic.Common

set_option autoImplicit false

namespace DragonsNet.Lib.FixedBuffer

universe u

@[ext]
structure Buffer (α : Type u) (size : ℕ) where
  cells : List α
  filled : ℕ
  length_cells : cells.length = size
  filled_le : filled ≤ size
  deriving DecidableEq

namespace Buffer

variable {α : Type u} {size : ℕ}

def blank (a : α) (size : ℕ) : Buffer α size where
  cells := List.replicate size a
  filled := 0
  length_cells := List.length_replicate
  filled_le := Nat.zero_le size

def live (b : Buffer α size) : List α := b.cells.take b.filled

/-- Cells copied in behind the live ones, over what was there. -/
def copyIn (b : Buffer α size) (xs : List α) (h : b.filled + xs.length ≤ size) : Buffer α size where
  cells := b.live ++ xs ++ b.cells.drop (b.filled + xs.length)
  filled := b.filled + xs.length
  length_cells := by
    have hcells := b.length_cells
    rw [List.length_append, List.length_append, live, List.length_take, List.length_drop]
    omega
  filled_le := h

/-- The cells stay as they are. -/
def clear (b : Buffer α size) : Buffer α size :=
  { b with filled := 0, filled_le := Nat.zero_le size }

theorem cells_copyIn (b : Buffer α size) (xs : List α) (h : b.filled + xs.length ≤ size) :
    (b.copyIn xs h).cells = b.live ++ xs ++ b.cells.drop (b.filled + xs.length) := rfl

@[simp] theorem filled_copyIn (b : Buffer α size) (xs : List α) (h : b.filled + xs.length ≤ size) :
    (b.copyIn xs h).filled = b.filled + xs.length := rfl

@[simp] theorem length_live (b : Buffer α size) : b.live.length = b.filled := by
  rw [live, List.length_take, b.length_cells, Nat.min_eq_left b.filled_le]

@[simp] theorem live_copyIn (b : Buffer α size) (xs : List α) (h : b.filled + xs.length ≤ size) :
    (b.copyIn xs h).live = b.live ++ xs := by
  refine List.take_left' ?_
  rw [List.length_append, length_live, filled_copyIn]

theorem copyIn_nil (b : Buffer α size) (h : b.filled + ([] : List α).length ≤ size) :
    b.copyIn [] h = b := by
  refine Buffer.ext ?_ rfl
  rw [cells_copyIn, List.append_nil, List.length_nil, Nat.add_zero, live, List.take_append_drop]

theorem copyIn_copyIn (b : Buffer α size) (xs ys : List α) (h : b.filled + xs.length ≤ size)
    (h' : (b.copyIn xs h).filled + ys.length ≤ size) (h'' : b.filled + (xs ++ ys).length ≤ size) :
    (b.copyIn xs h).copyIn ys h' = b.copyIn (xs ++ ys) h'' := by
  refine Buffer.ext ?_ ?_
  · have hlength : b.filled + xs.length = (b.live ++ xs).length := by
      rw [List.length_append, length_live]
    rw [cells_copyIn, live_copyIn, filled_copyIn, cells_copyIn b xs, ← List.drop_drop,
      List.drop_left' hlength.symm, List.drop_drop, cells_copyIn, List.length_append,
      Nat.add_assoc, List.append_assoc b.live]
  · rw [filled_copyIn, filled_copyIn, filled_copyIn, List.length_append, Nat.add_assoc]

end Buffer

end DragonsNet.Lib.FixedBuffer
