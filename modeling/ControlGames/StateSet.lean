import Std.Data.HashSet
import Std.Data.TreeSet
import ControlGames.Failure
import ControlGames.IndexSet

/-! # Sets of states

An objective is a set of states that is only ever asked for membership, so anything that answers
"is this state in the set?" will do. -/
namespace ControlGames

class StateSet (α : Type) where
  contains : α → State → Bool

/-- The states whose numbers lie in `lo, …, hi - 1`. -/
structure IdRange where
  lo : Nat
  hi : Nat

namespace StateSet

instance : StateSet (State → Bool) := ⟨fun p s => p s⟩
instance : StateSet (List State) := ⟨fun l s => l.contains s⟩
instance : StateSet (Array State) := ⟨fun a s => a.contains s⟩
instance : StateSet (Std.HashSet State) := ⟨fun h s => h.contains s⟩
instance : StateSet (Std.TreeSet State) := ⟨fun t s => t.contains s⟩
instance : StateSet IndexSet := ⟨fun b s => b.contains s.id⟩
instance : StateSet IdRange := ⟨fun r s => r.lo ≤ s.id && s.id < r.hi⟩

def everything : State → Bool := fun _ => true

def nothing : State → Bool := fun _ => false

variable {α : Type} [StateSet α]

/-- Membership by number; the reserved number is in no set. -/
def containsId (set : α) (i : Nat) : Bool := (State.ofId? i).any (contains set)

def indices (n : Nat) (set : α) : IndexSet := IndexSet.ofPred n (containsId set)

end StateSet

/-- Collects the members among the first `n` states. The states are numbered one by one, so the
reserved number is met when there are too many of them. -/
def IndexSet.ofStates {α : Type} [StateSet α] (n : Nat) (set : α) : Except Fault IndexSet :=
  if reserved < n then .error .reservedState else .ok (StateSet.indices n set)

end ControlGames
