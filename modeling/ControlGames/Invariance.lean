import ControlGames.Event
import ControlGames.Region
import ControlGames.StateSet
import ControlGames.Store
import ControlGames.Worklist

/-! # Invariance games

The controller wants to stay inside a safe set for ever. The game is solved by peeling off losing
states from the outside: an input stops being valid at a state once it may lead to a losing state,
and a state without valid inputs is losing. The inputs that survive form the matrix of the winning
region. -/
namespace ControlGames

namespace Invariance

/-- The inputs that are still valid, the states found losing, and a record of the work. -/
structure Peeling (s : Store) where
  valid : IndexSet
  /-- How many inputs are valid at a state. -/
  validCount : Vector Nat s.numStates
  losing : Worklist s.numStates
  invalidated : Nat
  log : Log

variable {s : Store}

/-- Takes input `j` away from state `x`, since it may lead to the losing state `k`. A state that
keeps no input is losing too. -/
def prune (k : Fin s.numStates) (j : Fin s.numInputs) (p : Peeling s) (x : State) :
    Except Interruption (Peeling s) :=
  let bit := Region.bit s.numInputs x.id j
  if p.valid.contains bit then
    if h : x.id < s.numStates then
      let i : Fin s.numStates := ⟨x.id, h⟩
      match p.validCount[i] with
      | 0 => .error ⟨.subtractOverflow, p.log⟩
      | c + 1 =>
        let p := { p with
          valid := (p.valid.remove bit).2
          validCount := p.validCount.set i c
          invalidated := p.invalidated + 1 }
        if h : c = 0 ∧ p.losing.entered.isMarked i = false then
          .ok { p with
            losing := p.losing.enter i h.2
            log := p.log.push (.losesLast x (s.input j) (s.state k)) }
        else .ok p
    else .error ⟨.indexOutOfBounds, p.log⟩
  else .ok p

def pruneGroup (k : Fin s.numStates) (p : Peeling s) (j : Fin s.numInputs) :
    Except Interruption (Peeling s) :=
  match s.groupAt k j with
  | .ok xs => xs.foldlM (prune k j) p
  | .error f => .error ⟨f, p.log⟩

/-- Accounts for a losing state under every input. -/
def peel (k : Fin s.numStates) (p : Peeling s) : Except Interruption (Peeling s) :=
  (List.finRange s.numInputs).foldlM (pruneGroup k) p

/-- Peels off the losing states from the given arrival on, and those they make losing. -/
def run (p : Peeling s) (next : Nat) : Except Interruption (Peeling s) :=
  if h : next < p.losing.arrivals.size then
    match peel p.losing.arrivals[next] p with
    | .ok q => run q (next + 1)
    | .error e => .error e
  else .ok p
termination_by s.numStates - next
decreasing_by
  have hn : next < s.numStates := Nat.lt_of_lt_of_le h p.losing.size_le
  omega

variable {α : Type} [StateSet α] (s) (safe : α)

def isValidFirst (i : Fin s.numStates) (j : Fin s.numInputs) : Bool :=
  StateSet.containsId safe i && s.applicable i j

def initialRow (i : Fin s.numStates) : List Nat :=
  ((List.finRange s.numInputs).filter (isValidFirst s safe i)).map
    fun j : Fin s.numInputs => Region.bit s.numInputs i j

def initialBits : IndexSet :=
  (IndexSet.withCapacity (s.numStates * s.numInputs)).insertMany
    ((List.finRange s.numStates).flatMap (initialRow s safe))

def initial (log : Log) : Peeling s :=
  let counts := Vector.ofFn fun i => (List.finRange s.numInputs).countP (isValidFirst s safe i)
  let losing := Worklist.ofPred fun i => counts[i] == 0
  { valid := initialBits s safe
    validCount := counts
    losing := losing
    invalidated := 0
    log := log.push (.initiallyLosing losing.arrivals.size) }

def reservePeeling (mem : Memory) (n m : Nat) : Except Refusal Unit := do
  mem.reserve .bitSet ((n * m + 63) / 64)
  mem.reserve .validInputCounters n

end Invariance

open Invariance in
/-- Computes the states from which the safe set need never be left, and all inputs that keep it so.
-/
def Store.solveInvariance {α : Type} [StateSet α] (mem : Memory) (s : Store) (safe : α) :
    Logged Region :=
  match Region.checkAlphabet s.numInputs with
  | .error r => ⟨#[], .error r⟩
  | .ok () =>
    let log : Log := #[.solvingInvariance s.numStates s.numInputs s.transitionCount]
    match reservePeeling mem s.numStates s.numInputs with
    | .error r => ⟨log, .error r⟩
    | .ok () =>
      match run (initial s safe log) 0 with
      | .error e => ⟨e.log, .error e.fault⟩
      | .ok p =>
        let region := Region.ofMatrix s.sizes_le p.valid
        ⟨p.log.push (.invarianceSolved region.size p.invalidated), .ok region⟩

end ControlGames
