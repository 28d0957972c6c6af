import Mathlib.Data.Nat.Notation

/-!
# Cells of vectors

The labels of states are kept in vectors. Reading a cell after writing one depends on the two places
alone.
-/
namespace ControlGames

variable {α β : Type} {n : ℕ}

def cell (v : Vector α n) (i : Fin n) : α := v.get i

def setCell (v : Vector α n) (i : Fin n) (a : α) : Vector α n := v.set i a i.isLt

@[simp] theorem cell_setCell (v : Vector α n) (i k : Fin n) (a : α) :
    cell (setCell v i a) k = if i = k then a else cell v k := by
  change (v.set i a)[k] = if i = k then a else v[k]
  simp only [Fin.getElem_fin, Vector.getElem_set, Fin.ext_iff]

@[simp] theorem cell_ofFn (f : Fin n → α) (i : Fin n) : cell (.ofFn f) i = f i :=
  Vector.getElem_ofFn i.isLt

@[simp] theorem cell_map (f : α → β) (v : Vector α n) (i : Fin n) :
    cell (v.map f) i = f (cell v i) :=
  Vector.getElem_map _ _

end ControlGames
