import ControlGames.Failure
import ControlGames.IndexSet

/-! # Winning regions

The solution of a game tells for each state whether the controller wins from it, and names a witness
input if so. A region may also carry a matrix of all inputs that keep winning, one row of bits per
state; the witness is then the lowest input of the row. -/
namespace ControlGames

structure Region where
  numStates : Nat
  numInputs : Nat
  sizes_le : numStates ≤ reserved ∧ numInputs ≤ reserved
  witnesses : Vector (Option Input) numStates
  valid : Option IndexSet
deriving DecidableEq

namespace Region

def checkAlphabet (m : Nat) : Except Refusal Unit :=
  if reserved - 1 ≤ m then .error (.alphabetTooLarge m) else .ok ()

/-- The place of the bit of a state and an input. Only inputs of the game stay inside the row. -/
def bit (numInputs state input : Nat) : Nat := state * numInputs + input

def row {m : Nat} (hm : m ≤ reserved) (valid : IndexSet) (state : Nat) : List Input :=
  ((List.finRange m).filter fun j : Fin m => valid.contains (bit m state j)).map
    fun j : Fin m => ⟨j, Nat.lt_of_lt_of_le j.isLt hm⟩

def ofMatrix {n m : Nat} (h : n ≤ reserved ∧ m ≤ reserved) (valid : IndexSet) : Region :=
  ⟨n, m, h, .ofFn fun i => (row h.2 valid i).head?, some valid⟩

variable (r : Region)

def hasMatrix : Bool := r.valid.isSome

def state (i : Fin r.numStates) : State := ⟨i, Nat.lt_of_lt_of_le i.isLt r.sizes_le.1⟩

def witness (s : State) : Except Fault (Option Input) :=
  if h : s.id < r.numStates then .ok r.witnesses[s.id] else .error .indexOutOfBounds

def isWinning (s : State) : Except Fault Bool := (r.witness s).map Option.isSome

/-- Whether an input may be applied at a state. The matrix is read at the place of the bit, whatever
the bounds; without a matrix only the witness may be applied. -/
def isValid (s : State) (u : Input) : Except Fault Bool :=
  match r.valid with
  | some valid => .ok (valid.contains (bit r.numInputs s.id u.id))
  | none => (r.witness s).map (· == some u)

def inputs (s : State) : Except Fault (List Input) :=
  match r.valid with
  | some valid => .ok (row r.sizes_le.2 valid s.id)
  | none => (r.witness s).map Option.toList

def controller : List (State × Input) :=
  (List.finRange r.numStates).filterMap fun i => r.witnesses[i].map (r.state i, ·)

def winningStates : List State := r.controller.map (·.1)

def size : Nat := r.controller.length

def isEmpty : Bool := r.size == 0

/-- The number of ways to choose a valid input for every winning state. -/
def countControllers : Nat :=
  match r.valid with
  | some valid => r.winningStates.foldl (fun k s => k * (row r.sizes_le.2 valid s.id).length) 1
  | none => 1

end Region

end ControlGames
