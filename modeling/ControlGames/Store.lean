import ControlGames.RawStore
import ControlGames.Table

/-! # The store of a transition relation

A transition `(pre, input, post)` says that applying `input` in `pre` may lead to `post`. The store
keeps the relation backwards: one flat array of predecessors, and for each `(post, input)` the group
of slots that holds the predecessors of `post` under `input`. Forwards it keeps numbers only, how
many successors each `(pre, input)` has.

A store may be filled by hand, in any order. Nothing checks then that groups lie inside the flat
array or that the numbers of successors fit the groups; reading such a store can fault. To ask about
a state or an input that the store does not have is a fault too, as it is in a build with debug
assertions. -/
namespace ControlGames

structure Store where
  numStates : Nat
  numInputs : Nat
  sizes_le : numStates ≤ reserved ∧ numInputs ≤ reserved
  groups : Table numStates numInputs Group
  successorCounts : Table numStates numInputs UInt32
  slots : Array State

namespace Store

def blank (n m : Nat) (h : n ≤ reserved ∧ m ≤ reserved) : Store :=
  ⟨n, m, h, .replicate ⟨0, 0⟩, .replicate 0, #[]⟩

def empty : Store := blank 0 0 (by decide)

instance : Inhabited Store := ⟨empty⟩

/-- The store that sound arrays make up. Entries behind the last pair are not part of it. -/
def ofRaw (a : RawStore) (h : a.Sound) : Store where
  numStates := a.numStates
  numInputs := a.numInputs
  sizes_le := h.sizes_le
  groups := .zipWith Group.mk (.ofArray a.offsets h.offsets) (.ofArray a.groupSizes h.groupSizes)
  successorCounts := .ofArray a.successorCounts h.successorCounts
  slots := a.slots

def raw (s : Store) : RawStore where
  numStates := s.numStates
  numInputs := s.numInputs
  slots := s.slots
  offsets := (s.groups.map Group.offset).cells.toArray
  groupSizes := (s.groups.map Group.size).cells.toArray
  successorCounts := s.successorCounts.cells.toArray

theorem sound_raw (s : Store) : s.raw.Sound where
  sizes_le := s.sizes_le
  offsets := Nat.le_of_eq (Vector.size_toArray _).symm
  groupSizes := Nat.le_of_eq (Vector.size_toArray _).symm
  successorCounts := Nat.le_of_eq (Vector.size_toArray _).symm

def transitionCount (s : Store) : Nat := s.slots.size

def isEmpty (s : Store) : Bool := s.slots.isEmpty

theorem numStates_le (s : Store) : s.numStates ≤ reserved := s.sizes_le.1

def state (s : Store) (i : Fin s.numStates) : State := ⟨i, Nat.lt_of_lt_of_le i.isLt s.sizes_le.1⟩

def input (s : Store) (j : Fin s.numInputs) : Input := ⟨j, Nat.lt_of_lt_of_le j.isLt s.sizes_le.2⟩

def states (s : Store) : List State := (List.finRange s.numStates).map s.state

def inputs (s : Store) : List Input := (List.finRange s.numInputs).map s.input

def describe (s : Store) : String :=
  s!"TransitionFunction \x7b no_states: {s.numStates}, no_inputs: {s.numInputs}, " ++
    s!"transitions: {s.transitionCount} \x7d"

/-! Reading -/

/-- Finds the cell of a state and an input, the state first. -/
def locate (s : Store) (x : State) (u : Input) : Except Fault (Fin s.numStates × Fin s.numInputs) :=
  if hx : x.id < s.numStates then
    if hu : u.id < s.numInputs then .ok (⟨x.id, hx⟩, ⟨u.id, hu⟩)
    else .error (.inputNotInStore u)
  else .error (.stateNotInStore x)

/-- The slots of a group, which has to lie inside the flat array even if it is empty. -/
def slice (s : Store) (g : Group) : Except Fault (List State) :=
  let stop := g.offset.toNat + g.size.toNat
  if stop ≤ s.slots.size then .ok (s.slots.extract g.offset.toNat stop).toList
  else .error .sliceOutOfRange

def groupAt (s : Store) (i : Fin s.numStates) (j : Fin s.numInputs) : Except Fault (List State) :=
  s.slice (s.groups.get i j)

def successorCountAt (s : Store) (i : Fin s.numStates) (j : Fin s.numInputs) : Nat :=
  (s.successorCounts.get i j).toNat

def applicable (s : Store) (i : Fin s.numStates) (j : Fin s.numInputs) : Bool :=
  0 < s.successorCountAt i j

def group (s : Store) (post : State) (u : Input) : Except Fault (List State) := do
  let (i, j) ← s.locate post u
  s.groupAt i j

def predecessors (s : Store) (post : State) (u : Input) : Except Failure (List State) :=
  if s.isEmpty then .error Refusal.emptyRelation else orFail (s.group post u)

/-- How many states `u` may lead to from `pre`; none if `u` cannot be applied there. -/
def successorCount (s : Store) (pre : State) (u : Input) : Except Fault Nat := do
  let (i, j) ← s.locate pre u
  return s.successorCountAt i j

/-- Picks the states among `posts` that have `pre` in their group, and stops looking once `wanted`
of them are found. -/
def findSuccessors (s : Store) (pre : State) (j : Fin s.numInputs) :
    List (Fin s.numStates) → Nat → Except Fault (List State)
  | [], _ => .ok []
  | _, 0 => .ok []
  | i :: posts, wanted + 1 => do
    if (← s.groupAt i j).contains pre then
      return s.state i :: (← s.findSuccessors pre j posts wanted)
    else s.findSuccessors pre j posts (wanted + 1)

def successors (s : Store) (pre : State) (u : Input) : Except Fault (List State) := do
  let (i, j) ← s.locate pre u
  s.findSuccessors pre j (List.finRange s.numStates) (s.successorCountAt i j)

/-! Filling -/

/-- The refusal for sizes of which one does not fit; the states come first. -/
def misfit (n m : Nat) : Refusal := if reserved < n then .tooManyStates n else .tooManyInputs m

def reserveTables (mem : Memory) (cells : Nat) : Except Refusal Unit := do
  mem.reserve .predecessorCounts cells
  mem.reserve .successorCounts cells
  mem.reserve .predecessorOffsets cells

def reserveSlots (mem : Memory) (total : Nat) : Except Refusal Unit :=
  if maxTransitions < total then .error (.tooManyTransitions total)
  else mem.reserve .predecessorArray total

/-- How a call that fills a store went, and the store it leaves. -/
abbrev Filled := Except Failure Unit × Store

/-- Runs a call on the arrays of the store. -/
def fill (f : Filling Unit) (hf : f.KeepsSound) (s : Store) : Filled :=
  let r := f.on s.raw
  (r.1, ofRaw r.2 (hf s.sound_raw))

/-- Empties the store and gives it a new size. -/
def allocate (mem : Memory) (n m : Nat) : Store → Filled :=
  fill (RawStore.allocate mem n m) (RawStore.keepsSound_allocate mem n m)

/-- Replaces the flat array by one of `total` slots that all hold state 0. -/
def allocateTransitions (mem : Memory) (total : Nat) : Store → Filled :=
  fill (RawStore.allocateTransitions mem total) (RawStore.keepsSound_allocateTransitions mem total)

def setLayout (post : State) (u : Input) (g : Group) : Store → Filled :=
  fill (RawStore.setLayout post u g) (RawStore.keepsSound_setLayout post u g)

def setPredecessor (slot : Nat) (pre : State) : Store → Filled :=
  fill (RawStore.setPredecessor slot pre) (RawStore.keepsSound_setPredecessor slot pre)

def setSuccessorCount (pre : State) (u : Input) (count : UInt32) : Store → Filled :=
  fill (RawStore.setSuccessorCount pre u count) (RawStore.keepsSound_setSuccessorCount pre u count)

def perform (mem : Memory) : Call → Store → Filled
  | .allocate n m => allocate mem n m
  | .allocateTransitions total => allocateTransitions mem total
  | .setLayout post u g => setLayout post u g
  | .setPredecessor slot pre => setPredecessor slot pre
  | .setSuccessorCount pre u count => setSuccessorCount pre u count

end Store

end ControlGames
