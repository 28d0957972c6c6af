/-! # Marks

Marks on `n` entries are set one by one and never taken off, so the number of unmarked entries
measures the work that is left. -/
namespace ControlGames

structure Marks (n : Nat) where
  flags : Vector Bool n

namespace Marks

variable {n : Nat}

def none (n : Nat) : Marks n := ⟨.replicate n false⟩

def isMarked (m : Marks n) (i : Fin n) : Bool := m.flags[i]

def mark (m : Marks n) (i : Fin n) : Marks n := ⟨m.flags.set i true⟩

def unmarked (m : Marks n) : Nat := m.flags.count false

@[simp] theorem isMarked_none (i : Fin n) : (none n).isMarked i = false :=
  Vector.getElem_replicate i.isLt

theorem isMarked_mark (m : Marks n) (i j : Fin n) :
    (m.mark i).isMarked j = (decide (i = j) || m.isMarked j) := by
  simp only [isMarked, mark, Fin.getElem_fin, Vector.getElem_set, ← Fin.ext_iff]
  by_cases h : i = j
  · rw [if_pos h, decide_eq_true h, Bool.true_or]
  · rw [if_neg h, decide_eq_false h, Bool.false_or]

@[simp] theorem unmarked_none : (none n).unmarked = n := Vector.count_replicate_self

theorem unmarked_mark {m : Marks n} {i : Fin n} (h : m.isMarked i = false) :
    (m.mark i).unmarked + 1 = m.unmarked := by
  have hi : m.flags[i.val] = false := h
  have hpos : 0 < m.flags.count false := Vector.count_pos_iff.mpr (hi ▸ Vector.getElem_mem _)
  rw [unmarked, mark, Vector.count_set, hi, if_pos (by decide), if_neg (by decide)]
  exact Nat.sub_add_cancel hpos

end Marks

end ControlGames
