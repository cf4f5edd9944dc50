import Mathlib.Logic.Function.Basic

/-!
A directory of files, with `remove` and `rename` as the C library has them: a file that is not there cannot be
renamed, nor can a file get a name that the directory does not take.

`Dir.map_write`, `Dir.map_remove` and `Dir.map_rename` say that none of them looks into the files.
-/

namespace TamuProofs.Lib

/-- The files of a directory, by their names. -/
abbrev Dir (κ α : Type*) := κ → Option α

namespace Dir

variable {κ α β : Type*}

def empty : Dir κ α := fun _ => none

/-- The directory with a function applied to every file. -/
def map (f : α → β) (d : Dir κ α) : Dir κ β := fun name => (d name).map f

@[simp] theorem map_apply (f : α → β) (d : Dir κ α) (k : κ) : d.map f k = (d k).map f := rfl

variable [DecidableEq κ]

/-- `fopen(name, "wb")`, the contents, and `fclose`. -/
def write (d : Dir κ α) (name : κ) (x : α) : Dir κ α := Function.update d name (some x)

/-- `remove(name)`. -/
def remove (d : Dir κ α) (name : κ) : Dir κ α := Function.update d name none

/-- `rename(old, new)`, where `takes` tells whether the directory takes the new name. -/
def rename (d : Dir κ α) (takes : Bool) (old new : κ) : Dir κ α :=
  match d old with
  | none => d
  | some x => if takes then (d.remove old).write new x else d

variable {d : Dir κ α} {name old new k : κ} {x : α} {takes : Bool}

@[simp] theorem write_self : d.write name x name = some x := Function.update_self _ _ _

theorem write_ne (h : k ≠ name) : d.write name x k = d k := Function.update_of_ne h _ _

@[simp] theorem remove_self : d.remove name name = none := Function.update_self _ _ _

theorem remove_ne (h : k ≠ name) : d.remove name k = d k := Function.update_of_ne h _ _

theorem rename_none (h : d old = none) : d.rename takes old new = d := by
  unfold rename
  rw [h]

theorem rename_false : d.rename false old new = d := by
  unfold rename
  cases d old <;> rfl

theorem rename_true (h : d old = some x) : d.rename true old new = (d.remove old).write new x := by
  unfold rename
  rw [h]
  exact if_pos rfl

/-! ### Naturality -/

variable (f : α → β)

theorem map_write : (d.write name x).map f = (d.map f).write name (f x) := by
  funext k
  by_cases h : k = name
  · simp [h]
  · rw [map_apply, write_ne h, write_ne h, map_apply]

theorem map_remove : (d.remove name).map f = (d.map f).remove name := by
  funext k
  by_cases h : k = name
  · simp [h]
  · rw [map_apply, remove_ne h, remove_ne h, map_apply]

theorem map_rename : (d.rename takes old new).map f = (d.map f).rename takes old new := by
  cases h : d old with
  | none => rw [rename_none h, rename_none (by simp [h])]
  | some x =>
    cases takes with
    | false => rw [rename_false, rename_false]
    | true => rw [rename_true h, rename_true (x := f x) (by simp [h]), map_write, map_remove]

end Dir

end TamuProofs.Lib
