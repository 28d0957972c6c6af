import ControlGames.Failure

/-! # Counting

A fold over consecutive numbers that never lists them: however many there are, it looks at a number
only after the step for the one before it has succeeded. -/
namespace ControlGames

/-- Takes a step for each of the next `count` numbers from `k` on, up to the first that fails. -/
@[specialize]
def foldCount {α : Type} (step : α → Nat → Except Failure α) (k : Nat) :
    (count : Nat) → α → Except Failure α
  | 0, a => .ok a
  | count + 1, a =>
    match step a k with
    | .ok b => foldCount step (k + 1) count b
    | .error f => .error f

theorem foldCount_eq_foldlM {α : Type} (step : α → Nat → Except Failure α) (k count : Nat) (a : α) :
    foldCount step k count a = (List.range' k count).foldlM step a := by
  induction count generalizing k a with
  | zero => rfl
  | succ count ih =>
    rw [foldCount, List.range'_succ, List.foldlM_cons]
    cases step a k with
    | ok b => exact ih (k + 1) b
    | error f => rfl

end ControlGames
