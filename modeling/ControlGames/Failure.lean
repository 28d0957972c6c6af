import ControlGames.Index

/-! # What can go wrong

A *fault* is a broken promise of the caller or of a store filled by hand: it stops the computation
where it stands. A *refusal* is an answer: the request is well formed but cannot be met. -/
namespace ControlGames

inductive Fault
  | reservedState
  | reservedInput
  | stateNotInStore (s : State)
  | inputNotInStore (u : Input)
  | indexOutOfBounds
  | sliceOutOfRange
  | subtractOverflow
  | addOverflow
  | multiplyOverflow
  | emptyRange (first last : Int)
deriving DecidableEq

/-- The arrays that a computation asks memory for. A builder counts successors in an array of its
own before it writes them to the store; both arrays go by the same name. -/
inductive Backing
  | predecessorCounts
  | successorCounts
  | predecessorOffsets
  | predecessorArray
  | builderCounts
  | bitSet
  | valueFunction
  | winningDomain
  | successorCounters
  | hyperedgeValues
  | validInputCounters
deriving DecidableEq

/-- Why memory is not given: no array can be that long, or there is no room for this one. -/
inductive Shortage
  | capacity
  | exhausted
deriving DecidableEq

inductive Refusal
  | tooManyStates (count : Nat)
  | tooManyInputs (count : Nat)
  | tooManyTransitions (count : Nat)
  | allocation (what : Backing) (why : Shortage)
  | emptyRelation
  | alphabetTooLarge (inputs : Nat)
  | stateOutOfRange (s : State) (states : Nat)
  | inputOutOfRange (u : Input) (inputs : Nat)
deriving DecidableEq

inductive Failure
  | fault (f : Fault)
  | refusal (r : Refusal)
deriving DecidableEq

instance : Coe Fault Failure := ⟨.fault⟩
instance : Coe Refusal Failure := ⟨.refusal⟩

/-- The largest number of transitions that 32-bit offsets can address. -/
abbrev maxTransitions : Nat := wordSize - 1

def Fault.message : Fault → String
  | reservedState => s!"State id {reserved} is reserved"
  | reservedInput => s!"Input id {reserved} is reserved"
  | stateNotInStore s => s!"{s} out of range"
  | inputNotInStore u => s!"{u} out of range"
  | indexOutOfBounds => "index out of bounds"
  | sliceOutOfRange => "slice range out of range"
  | subtractOverflow => "attempt to subtract with overflow"
  | addOverflow => "attempt to add with overflow"
  | multiplyOverflow => "attempt to multiply with overflow"
  | emptyRange first last => s!"min > max. min = {first}, max = {last}"

def Backing.name : Backing → String
  | predecessorCounts => "predecessor counts"
  | successorCounts => "successor counts"
  | predecessorOffsets => "predecessor offsets"
  | predecessorArray => "predecessor array"
  | builderCounts => "successor counts"
  | bitSet => "bit set"
  | valueFunction => "value function"
  | winningDomain => "winning domain"
  | successorCounters => "successor counters"
  | hyperedgeValues => "hyperedge values"
  | validInputCounters => "valid input counters"

/-- Bit sets are made of 64-bit words, all other arrays of 32-bit words. -/
def Backing.elementBytes : Backing → Nat
  | bitSet => 8
  | _ => 4

def Shortage.message : Shortage → String
  | capacity => "memory allocation failed because the computed capacity exceeded the collection's maximum"
  | exhausted => "memory allocation failed because the memory allocator returned an error"

def Refusal.message : Refusal → String
  | tooManyStates n => s!"{n} states do not fit the abstract index range"
  | tooManyInputs m => s!"{m} inputs do not fit the abstract index range"
  | tooManyTransitions t => s!"{t} transitions exceed the maximum of {maxTransitions}"
  | allocation what why => s!"allocation of {what.name} failed: {why.message}"
  | emptyRelation => "the transition relation is empty"
  | alphabetTooLarge m => s!"{m} inputs collide with the reserved losing index {reserved}"
  | stateOutOfRange s n => s!"state {s} is out of range (no_states={n})"
  | inputOutOfRange u m => s!"input {u} is out of range (no_inputs={m})"

def Failure.message : Failure → String
  | fault f => f.message
  | refusal r => r.message

def State.ofId (id : Nat) : Except Fault State :=
  match State.ofId? id with
  | some s => .ok s
  | none => .error .reservedState

def Input.ofId (id : Nat) : Except Fault Input :=
  match Input.ofId? id with
  | some u => .ok u
  | none => .error .reservedInput

/-- Reads a fault as a failure, so that a computation that can only fault runs among those that can
also refuse. -/
def orFail {α : Type} : Except Fault α → Except Failure α
  | .ok a => .ok a
  | .error f => .error f

end ControlGames
