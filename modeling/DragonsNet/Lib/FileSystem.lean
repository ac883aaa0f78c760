/- GID: DragonsNet/Lib/FileSystem
   generality: G
   digest: Files under names, and what creating, writing, renaming and removing leave to read. -/

import Mathlib.Logic.Function.Basic
import Mathlib.Tactic.Common

set_option autoImplicit false

namespace DragonsNet.Lib.FileSystem

universe u

abbrev Octets := List UInt8

structure Files (ν : Type u) where
  names : ν → Option ℕ
  content : ℕ → Octets
  made : ℕ

/-- Octets laid over older ones from an offset on; a gap before them is zeros. -/
def overwrite (old : Octets) (offset : ℕ) (new : Octets) : Octets :=
  old.take offset ++ List.replicate (offset - old.length) 0 ++ new ++ old.drop (offset + new.length)

theorem overwrite_end (old new : Octets) : overwrite old old.length new = old ++ new := by
  simp [overwrite]

namespace Files

variable {ν : Type u}

def none : Files ν := ⟨fun _ => .none, fun _ => [], 0⟩

def read (fs : Files ν) (a : ν) : Option Octets := (fs.names a).map fs.content

def writeAt (fs : Files ν) (file offset : ℕ) (new : Octets) : Files ν :=
  { fs with content := Function.update fs.content file (overwrite (fs.content file) offset new) }

variable [DecidableEq ν]

/-- Open to write: a file there is truncated, and where there is none one is made. -/
def create (fs : Files ν) (a : ν) : Files ν × ℕ :=
  match fs.names a with
  | some file => ({ fs with content := Function.update fs.content file [] }, file)
  | .none =>
    ({ names := Function.update fs.names a (some fs.made)
       content := Function.update fs.content fs.made []
       made := fs.made + 1 }, fs.made)

/-- The file of `a` takes the name `b`, in the place of the one there. -/
def rename (fs : Files ν) (a b : ν) : Option (Files ν) :=
  (fs.names a).map fun file =>
    { fs with names := Function.update (Function.update fs.names a .none) b (some file) }

def remove (fs : Files ν) (a : ν) : Option (Files ν) :=
  (fs.names a).map fun _ => { fs with names := Function.update fs.names a .none }

structure Sound (fs : Files ν) : Prop where
  lt_made : ∀ {a file}, fs.names a = some file → file < fs.made
  name_inj : ∀ {a b file}, fs.names a = some file → fs.names b = some file → a = b

variable {fs fs' : Files ν} {a b c : ν} {file offset : ℕ} {new : Octets}

omit [DecidableEq ν] in
theorem sound_none : Sound (none : Files ν) :=
  ⟨fun h => (Option.some_ne_none _ h.symm).elim, fun h => (Option.some_ne_none _ h.symm).elim⟩

/-! ## Creating -/

theorem names_create_self (fs : Files ν) (a : ν) :
    (fs.create a).1.names a = some (fs.create a).2 := by
  rw [create]
  cases h : fs.names a with
  | none => exact Function.update_self a _ _
  | some file => exact h

theorem content_create_self (fs : Files ν) (a : ν) :
    (fs.create a).1.content (fs.create a).2 = [] := by
  rw [create]
  cases fs.names a with
  | none | some file => exact Function.update_self _ _ _

theorem names_create_of_ne (hne : b ≠ a) : (fs.create a).1.names b = fs.names b := by
  rw [create]
  cases fs.names a with
  | none => exact Function.update_of_ne hne _ _
  | some file => rfl

theorem read_create_of_ne (h : fs.Sound) (hne : b ≠ a) : (fs.create a).1.read b = fs.read b := by
  rw [read, read, names_create_of_ne hne]
  cases hb : fs.names b with
  | none => rfl
  | some other =>
    have hother : (fs.create a).1.content other = fs.content other := by
      rw [create]
      cases ha : fs.names a with
      | none => exact Function.update_of_ne (Nat.ne_of_lt (h.lt_made hb)) _ _
      | some file =>
        refine Function.update_of_ne ?_ _ _
        rintro rfl
        exact hne (h.name_inj hb ha)
    exact congrArg some hother

theorem Sound.create (h : fs.Sound) (a : ν) : (fs.create a).1.Sound := by
  rw [Files.create]
  cases ha : fs.names a with
  | some file => exact ⟨h.lt_made, h.name_inj⟩
  | none =>
    refine ⟨fun {b file} hb => ?_, fun {b c file} hb hc => ?_⟩
    · simp only [Function.update_apply] at hb
      split at hb
      · exact Option.some.inj hb ▸ Nat.lt_succ_self _
      · exact Nat.lt_succ_of_lt (h.lt_made hb)
    · simp only [Function.update_apply] at hb hc
      split at hb
      · rename_i hba
        split at hc
        · rename_i hca
          exact hba.trans hca.symm
        · exact absurd (h.lt_made hc) (Option.some.inj hb ▸ Nat.lt_irrefl _)
      · split at hc
        · exact absurd (h.lt_made hb) (Option.some.inj hc ▸ Nat.lt_irrefl _)
        · exact h.name_inj hb hc

/-! ## Writing -/

omit [DecidableEq ν] in
theorem Sound.writeAt (h : fs.Sound) (file offset : ℕ) (new : Octets) :
    (fs.writeAt file offset new).Sound :=
  ⟨h.lt_made, h.name_inj⟩

omit [DecidableEq ν] in
theorem read_writeAt_self (ha : fs.names a = some file) :
    (fs.writeAt file offset new).read a = some (overwrite (fs.content file) offset new) := by
  rw [read, writeAt, ha]
  exact congrArg some (Function.update_self _ _ _)

omit [DecidableEq ν] in
theorem read_writeAt_of_ne (h : fs.Sound) (ha : fs.names a = some file) (hne : b ≠ a) :
    (fs.writeAt file offset new).read b = fs.read b := by
  rw [read, read, writeAt]
  cases hb : fs.names b with
  | none => rfl
  | some other =>
    refine congrArg some (Function.update_of_ne ?_ _ _)
    rintro rfl
    exact hne (h.name_inj hb ha)

/-! ## Renaming and removing -/

theorem names_rename (h : fs.rename a b = some fs') (c : ν) :
    fs'.names c = if c = b then fs.names a else if c = a then .none else fs.names c := by
  obtain ⟨file, ha, rfl⟩ := Option.map_eq_some_iff.mp h
  simp only [Function.update_apply, ha]

theorem read_rename (h : fs.rename a b = some fs') (c : ν) :
    fs'.read c = if c = b then fs.read a else if c = a then .none else fs.read c := by
  have hnames := names_rename h c
  obtain ⟨file, ha, rfl⟩ := Option.map_eq_some_iff.mp h
  rw [read, hnames]
  split
  · rfl
  split
  · rfl
  · rfl

theorem Sound.rename (h : fs.Sound) (hfs : fs.rename a b = some fs') : fs'.Sound := by
  have hnames := names_rename hfs
  obtain ⟨file, ha, rfl⟩ := Option.map_eq_some_iff.mp hfs
  refine ⟨fun {c f} hc => ?_, fun {c d f} hc hd => ?_⟩
  · rw [hnames] at hc
    split at hc
    · exact h.lt_made hc
    split at hc
    · cases hc
    · exact h.lt_made hc
  · rw [hnames] at hc hd
    split at hc
    · split at hd
      · rename_i hcb hdb
        exact hcb.trans hdb.symm
      split at hd
      · cases hd
      · rename_i hda
        exact absurd (h.name_inj hd hc) hda
    split at hc
    · cases hc
    · rename_i hca
      split at hd
      · exact absurd (h.name_inj hc hd) hca
      split at hd
      · cases hd
      · exact h.name_inj hc hd

theorem names_remove (h : fs.remove a = some fs') (c : ν) :
    fs'.names c = if c = a then .none else fs.names c := by
  obtain ⟨file, ha, rfl⟩ := Option.map_eq_some_iff.mp h
  simp only [Function.update_apply]

theorem read_remove (h : fs.remove a = some fs') (c : ν) :
    fs'.read c = if c = a then .none else fs.read c := by
  have hnames := names_remove h c
  obtain ⟨file, ha, rfl⟩ := Option.map_eq_some_iff.mp h
  rw [read, hnames]
  split
  · rfl
  · rfl

theorem Sound.remove (h : fs.Sound) (hfs : fs.remove a = some fs') : fs'.Sound := by
  have hnames := names_remove hfs
  obtain ⟨file, ha, rfl⟩ := Option.map_eq_some_iff.mp hfs
  refine ⟨fun {c f} hc => ?_, fun {c d f} hc hd => ?_⟩
  · rw [hnames] at hc
    split at hc
    · cases hc
    · exact h.lt_made hc
  · rw [hnames] at hc hd
    split at hc
    · cases hc
    split at hd
    · cases hd
    · exact h.name_inj hc hd

end Files

end DragonsNet.Lib.FileSystem
