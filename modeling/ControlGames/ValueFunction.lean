import ControlGames.Failure

/-! # Value functions

The value of a state is the number of steps within which the target is reached whatever the
environment does, or infinite if it cannot be forced. -/
namespace ControlGames

structure ValueFunction where
  numStates : Nat
  numStates_le : numStates ≤ reserved
  values : Vector (Option Nat) numStates
deriving DecidableEq

namespace ValueFunction

def wholeText : Option Nat → String
  | some k => toString k
  | none => "inf"

def realText : Option Nat → String
  | some k => s!"{k}.0"
  | none => "inf"

variable (f : ValueFunction)

def isEmpty : Bool := f.numStates == 0

def get (s : State) : Except Fault (Option Nat) :=
  if h : s.id < f.numStates then .ok f.values[s.id] else .error .indexOutOfBounds

def isFinite (s : State) : Except Fault Bool := (f.get s).map Option.isSome

def toList : List (State × Option Nat) :=
  (List.finRange f.numStates).map fun i : Fin f.numStates =>
    (⟨i, Nat.lt_of_lt_of_le i.isLt f.numStates_le⟩, f.values[i])

def maxFinite : Option Nat := (f.values.toList.filterMap id).max?

def asReal (s : State) : Except Fault String := (f.get s).map realText

def reals : List String := f.values.toList.map realText

instance : ToString ValueFunction :=
  ⟨fun f => "[" ++ ", ".intercalate (f.values.toList.map wholeText) ++ "]"⟩

end ValueFunction

end ControlGames
