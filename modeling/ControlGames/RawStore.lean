import ControlGames.Memory

/-! # The arrays of a store

A store is two sizes and four arrays, and only the calls that fill it keep them in step. To allocate
gives the arrays up, asks memory for three new ones one after another and writes the sizes last; a
call that fails leaves the store as it has got by then.

A state and an input are checked against the sizes before a table is read or written, as in a build
with debug assertions. -/
namespace ControlGames

/-- A run of slots in the flat array. -/
structure Group where
  offset : UInt32
  size : UInt32
deriving DecidableEq

structure RawStore where
  numStates : Nat
  numInputs : Nat
  slots : Array State
  offsets : Array UInt32
  groupSizes : Array UInt32
  successorCounts : Array UInt32
deriving DecidableEq

/-- A call that fills a store. What it has done stays done if it fails. -/
abbrev Filling := ExceptT Failure (StateM RawStore)

/-- Both refusals and faults end a call. -/
instance {ε : Type} [Coe ε Failure] : MonadLift (Except ε) Filling where
  monadLift
    | .ok a => pure a
    | .error e => throw (Coe.coe e : Failure)

namespace Filling

variable {α β : Type}

def on (f : Filling α) (a : RawStore) : Except Failure α × RawStore := (ExceptT.run f).run a

variable (a : RawStore)

theorem on_modify (f : RawStore → RawStore) : (modify f : Filling Unit).on a = (.ok (), f a) := rfl

theorem on_get_bind (g : RawStore → Filling β) : (get >>= g).on a = (g a).on a := rfl

theorem on_set_bind (b : RawStore) (g : PUnit → Filling β) : (set b >>= g).on a = (g ()).on b := rfl

theorem on_modify_bind (f : RawStore → RawStore) (g : Unit → Filling β) :
    (modify f >>= g).on a = (g ()).on (f a) := rfl

variable {ε : Type} [Coe ε Failure] (g : α → Filling β)

theorem on_ok_bind (y : α) :
    ((liftM (.ok y : Except ε α) : Filling α) >>= g).on a = (g y).on a := rfl

theorem on_error_bind (e : ε) :
    ((liftM (.error e : Except ε α) : Filling α) >>= g).on a = (.error (Coe.coe e), a) := rfl

end Filling

/-- The ways to fill a store by hand. -/
inductive Store.Call
  | allocate (states inputs : Nat)
  | allocateTransitions (total : Nat)
  | setLayout (post : State) (u : Input) (g : Group)
  | setPredecessor (slot : Nat) (pre : State)
  | setSuccessorCount (pre : State) (u : Input) (count : UInt32)

namespace RawStore

def empty : RawStore := ⟨0, 0, #[], #[], #[], #[]⟩

def isEmpty (a : RawStore) : Bool := a.slots.isEmpty

/-! Reading -/

section Arrays

variable {α : Type}

def read (xs : Array α) (k : Nat) : Except Fault α :=
  if h : k < xs.size then .ok xs[k] else .error .indexOutOfBounds

def write (xs : Array α) (k : Nat) (x : α) : Except Fault (Array α) :=
  if h : k < xs.size then .ok (xs.set k x) else .error .indexOutOfBounds

end Arrays

/-- The place of a state and an input in the tables, row by row. -/
def locate (a : RawStore) (x : State) (u : Input) : Except Fault Nat :=
  if x.id < a.numStates then
    if u.id < a.numInputs then .ok (x.id * a.numInputs + u.id) else .error (.inputNotInStore u)
  else .error (.stateNotInStore x)

def group (a : RawStore) (post : State) (u : Input) : Except Fault (List State) := do
  let k ← a.locate post u
  let start := (← read a.offsets k).toNat
  let stop := start + (← read a.groupSizes k).toNat
  if stop ≤ a.slots.size then return (a.slots.extract start stop).toList
  else throw .sliceOutOfRange

def predecessors (a : RawStore) (post : State) (u : Input) : Except Failure (List State) :=
  if a.isEmpty then .error Refusal.emptyRelation else orFail (a.group post u)

def successorCount (a : RawStore) (pre : State) (u : Input) : Except Fault Nat := do
  let k ← a.locate pre u
  return (← read a.successorCounts k).toNat

/-! Filling -/

/-- Gives up the arrays, asks for new tables one after another and writes the sizes last. -/
def renew (mem : Memory) (n m : Nat) : Filling Unit := do
  -- the product of two sizes in range fits 64 bits
  let cells := n * m
  set empty
  let groupSizes ← mem.fill .predecessorCounts cells 0
  modify fun a => { a with groupSizes }
  let successorCounts ← mem.fill .successorCounts cells 0
  modify fun a => { a with successorCounts }
  let offsets ← mem.fill .predecessorOffsets cells 0
  modify fun a => { a with offsets }
  modify fun a => { a with numStates := n }
  modify fun a => { a with numInputs := m }

def allocate (mem : Memory) (n m : Nat) : Filling Unit :=
  if reserved < n then throw (Failure.refusal (.tooManyStates n))
  else if reserved < m then throw (Failure.refusal (.tooManyInputs m))
  else renew mem n m

def allocateTransitions (mem : Memory) (total : Nat) : Filling Unit :=
  if maxTransitions < total then throw (Failure.refusal (.tooManyTransitions total))
  else do
    let slots ← mem.fill .predecessorArray total State.zero
    modify fun a => { a with slots }

def setLayout (post : State) (u : Input) (g : Group) : Filling Unit := do
  let k ← (← get).locate post u
  let offsets ← write (← get).offsets k g.offset
  modify fun a => { a with offsets }
  let groupSizes ← write (← get).groupSizes k g.size
  modify fun a => { a with groupSizes }

def setPredecessor (slot : Nat) (pre : State) : Filling Unit := do
  let slots ← write (← get).slots slot pre
  modify fun a => { a with slots }

def setSuccessorCount (pre : State) (u : Input) (count : UInt32) : Filling Unit := do
  let k ← (← get).locate pre u
  let successorCounts ← write (← get).successorCounts k count
  modify fun a => { a with successorCounts }

def perform (mem : Memory) : Store.Call → Filling Unit
  | .allocate n m => allocate mem n m
  | .allocateTransitions total => allocateTransitions mem total
  | .setLayout post u g => setLayout post u g
  | .setPredecessor slot pre => setPredecessor slot pre
  | .setSuccessorCount pre u count => setSuccessorCount pre u count

end RawStore

/-- The sizes are in range, and every table has a place for every pair. -/
structure RawStore.Sound (a : RawStore) : Prop where
  sizes_le : a.numStates ≤ reserved ∧ a.numInputs ≤ reserved
  offsets : a.numStates * a.numInputs ≤ a.offsets.size
  groupSizes : a.numStates * a.numInputs ≤ a.groupSizes.size
  successorCounts : a.numStates * a.numInputs ≤ a.successorCounts.size

/-- The call leaves a sound store sound, also where it fails. -/
def Filling.KeepsSound {α : Type} (f : Filling α) : Prop :=
  ∀ {a : RawStore}, a.Sound → (f.on a).2.Sound

namespace RawStore

open Filling

theorem size_write {α : Type} {xs ys : Array α} {k : Nat} {x : α} (h : write xs k x = .ok ys) :
    ys.size = xs.size := by
  rw [write] at h
  split at h
  · rw [← Except.ok.inj h, Array.size_set]
  · cases h

/-- Without states and inputs there are no pairs to have a place for. -/
theorem sound_of_no_pairs {a : RawStore} (hn : a.numStates = 0) (hm : a.numInputs = 0) :
    a.Sound := by
  cases a
  cases hn
  cases hm
  exact ⟨⟨Nat.zero_le _, Nat.zero_le _⟩, Nat.zero_le _, Nat.zero_le _, Nat.zero_le _⟩

theorem sound_empty : empty.Sound := sound_of_no_pairs rfl rfl

section KeepsSound

variable (mem : Memory) (n m total slot : Nat) (x : State) (u : Input) (g : Group) (count : UInt32)

/-- The sizes are written once all tables are there. Until then there are no pairs. -/
theorem sound_renew (a : RawStore) (hn : n ≤ reserved) (hm : m ≤ reserved) :
    ((renew mem n m).on a).2.Sound := by
  rw [renew, on_set_bind]
  cases hgroups : mem.fill .predecessorCounts (n * m) (0 : UInt32) with
  | error _ => exact sound_empty
  | ok _ =>
    rw [on_ok_bind, on_modify_bind]
    cases hcounts : mem.fill .successorCounts (n * m) (0 : UInt32) with
    | error _ => exact sound_of_no_pairs rfl rfl
    | ok _ =>
      rw [on_ok_bind, on_modify_bind]
      cases hoffsets : mem.fill .predecessorOffsets (n * m) (0 : UInt32) with
      | error _ => exact sound_of_no_pairs rfl rfl
      | ok _ =>
        cases Memory.eq_replicate_of_fill hgroups
        cases Memory.eq_replicate_of_fill hcounts
        cases Memory.eq_replicate_of_fill hoffsets
        have hsize : n * m ≤ (Array.replicate (n * m) (0 : UInt32)).size :=
          Nat.le_of_eq Array.size_replicate.symm
        exact ⟨⟨hn, hm⟩, hsize, hsize, hsize⟩

theorem keepsSound_allocate : (allocate mem n m).KeepsSound := by
  intro a h
  unfold allocate
  split
  · exact h
  · split
    · exact h
    · next hn hm => exact sound_renew mem n m a (Nat.le_of_not_lt hn) (Nat.le_of_not_lt hm)

theorem keepsSound_allocateTransitions : (allocateTransitions mem total).KeepsSound := by
  intro a h
  unfold allocateTransitions
  split
  · exact h
  · cases mem.fill .predecessorArray total State.zero with
    | error _ => exact h
    | ok _ => exact { h with }

theorem keepsSound_setLayout : (setLayout x u g).KeepsSound := by
  intro a h
  rw [setLayout, on_get_bind]
  cases a.locate x u with
  | error _ => exact h
  | ok k =>
    rw [on_ok_bind, on_get_bind]
    cases hoffsets : write a.offsets k g.offset with
    | error _ => exact h
    | ok offsets =>
      have h' : { a with offsets }.Sound := { h with offsets := size_write hoffsets ▸ h.offsets }
      rw [on_ok_bind, on_modify_bind, on_get_bind]
      cases hsizes : write a.groupSizes k g.size with
      | error _ => exact h'
      | ok _ => exact { h' with groupSizes := size_write hsizes ▸ h.groupSizes }

theorem keepsSound_setPredecessor : (setPredecessor slot x).KeepsSound := by
  intro a h
  rw [setPredecessor, on_get_bind]
  cases write a.slots slot x with
  | error _ => exact h
  | ok _ => exact { h with }

theorem keepsSound_setSuccessorCount : (setSuccessorCount x u count).KeepsSound := by
  intro a h
  rw [setSuccessorCount, on_get_bind]
  cases a.locate x u with
  | error _ => exact h
  | ok k =>
    rw [on_ok_bind, on_get_bind]
    cases hcounts : write a.successorCounts k count with
    | error _ => exact h
    | ok _ => exact { h with successorCounts := size_write hcounts ▸ h.successorCounts }

theorem keepsSound_perform (c : Store.Call) : (perform mem c).KeepsSound := by
  cases c with
  | allocate n m => exact keepsSound_allocate mem n m
  | allocateTransitions total => exact keepsSound_allocateTransitions mem total
  | setLayout post u g => exact keepsSound_setLayout post u g
  | setPredecessor slot pre => exact keepsSound_setPredecessor slot pre
  | setSuccessorCount pre u count => exact keepsSound_setSuccessorCount pre u count

end KeepsSound

end RawStore

end ControlGames
