import ControlGames.Marks

/-! # Worklists

A worklist over `n` entries is a queue that each entry enters at most once. It keeps all its
arrivals, so the entries taken out are those before the next one. Its balance says that every entry
either has arrived or is still to come; hence no more than `n` ever arrive. -/
namespace ControlGames

structure Worklist (n : Nat) where
  arrivals : Array (Fin n)
  entered : Marks n
  balance : arrivals.size + entered.unmarked = n

namespace Worklist

variable {n : Nat}

def empty : Worklist n := ⟨#[], .none n, (Nat.zero_add _).trans Marks.unmarked_none⟩

theorem size_le (w : Worklist n) : w.arrivals.size ≤ n := Nat.le.intro w.balance

/-- Lets in an entry that has not come before. -/
def enter (w : Worklist n) (i : Fin n) (h : w.entered.isMarked i = false) : Worklist n where
  arrivals := w.arrivals.push i
  entered := w.entered.mark i
  balance := by
    have hb := w.balance
    have hm := Marks.unmarked_mark h
    rw [Array.size_push]
    omega

def ofPred (p : Fin n → Bool) : Worklist n :=
  (List.finRange n).foldl
    (fun w i => if h : p i ∧ w.entered.isMarked i = false then w.enter i h.2 else w) empty

end Worklist

end ControlGames
