import ControlGames.Event
import ControlGames.Marks
import ControlGames.Region
import ControlGames.StateSet
import ControlGames.Store
import ControlGames.ValueFunction

/-! # Reachability games

The controller wants to force the system into a target without ever visiting a state to avoid,
whatever successor the environment picks. The game is solved backwards from the target, breadth
first over the pairs of a state and an input. Such a pair is complete once all its successors have
been expanded; its state then wins with that input, one step further away than the worst successor.
-/
namespace ControlGames

structure Solution where
  region : Region
  value : ValueFunction
deriving DecidableEq

/-- One more than the largest finite value, the number of layers in which states were found. -/
def Solution.layers (sol : Solution) : Nat := sol.value.maxFinite.elim 0 (· + 1)

structure ReachabilityGame where
  store : Store
  avoid : IndexSet

namespace ReachabilityGame

def new (store : Store) : ReachabilityGame := ⟨store, .empty⟩

/-- Sets the states that must never be visited, in place of those set before. -/
def avoiding {α : Type} [StateSet α] (g : ReachabilityGame) (set : α) : ReachabilityGame :=
  { g with avoid := StateSet.indices g.store.numStates set }

end ReachabilityGame

namespace Reachability

/-- What is known about states and about pairs of a state and an input while a game is solved. -/
structure Labels (s : Store) where
  value : Vector (Option Nat) s.numStates
  choice : Vector (Option (Fin s.numInputs)) s.numStates
  /-- How many successors of a pair have not been expanded. -/
  remaining : Table s.numStates s.numInputs Nat
  /-- One more than the largest value among the expanded successors of a pair. -/
  worst : Table s.numStates s.numInputs Nat
  /-- The states found winning, in the order of finding. They are expanded in this order. -/
  arrivals : Array (Fin s.numStates)
  log : Log

/-- The labels, the states that have been expanded, and the next arrival to look at. -/
structure Search (s : Store) where
  labels : Labels s
  expanded : Marks s.numStates
  next : Nat

variable (g : ReachabilityGame)

/-- Accounts for one successor of the pair of state `x` and input `j` that is now expanded and
lies `steps - 1` steps from the target. An infinite value counts as the reserved number. -/
def relax (j : Fin g.store.numInputs) (steps : Nat) (l : Labels g.store) (x : State) :
    Except Interruption (Labels g.store) :=
  if g.avoid.contains x.id then .ok l
  else if h : x.id < g.store.numStates then
    let i : Fin g.store.numStates := ⟨x.id, h⟩
    match l.remaining.get i j with
    | 0 => .error ⟨.subtractOverflow, l.log⟩
    | k + 1 =>
      let w := max (l.worst.get i j) steps
      let l := { l with remaining := l.remaining.set i j k, worst := l.worst.set i j w }
      if k = 0 ∧ w < l.value[i].getD reserved then
        .ok { l with
          value := l.value.set i (some w)
          choice := l.choice.set i (some j)
          arrivals := l.arrivals.push i
          log := l.log.push (.wins x (g.store.input j) w) }
      else .ok l
  else .error ⟨.indexOutOfBounds, l.log⟩

def relaxGroup (q : Fin g.store.numStates) (steps : Nat) (l : Labels g.store)
    (j : Fin g.store.numInputs) : Except Interruption (Labels g.store) :=
  match g.store.groupAt q j with
  | .ok xs => xs.foldlM (relax g j steps) l
  | .error f => .error ⟨f, l.log⟩

/-- Accounts for `q` as a successor under every input. Its own value has to leave room for one more
step in 32 bits. -/
def expand (q : Fin g.store.numStates) (l : Labels g.store) :
    Except Interruption (Labels g.store) :=
  let steps := l.value[q].getD reserved + 1
  if steps < wordSize then (List.finRange g.store.numInputs).foldlM (relaxGroup g q steps) l
  else .error ⟨.addOverflow, l.log⟩

def Search.fresh? {s : Store} (t : Search s) (k : Nat) : Option (Fin t.labels.arrivals.size) :=
  if h : k < t.labels.arrivals.size then
    if t.expanded.isMarked t.labels.arrivals[k] then t.fresh? (k + 1) else some ⟨k, h⟩
  else none
termination_by t.labels.arrivals.size - k

theorem Search.isMarked_of_fresh? {s : Store} {t : Search s} {k : Nat}
    {i : Fin t.labels.arrivals.size} (h : t.fresh? k = some i) :
    t.expanded.isMarked t.labels.arrivals[i] = false := by
  fun_induction Search.fresh? t k with
  | case1 k hk he ih => exact ih h
  | case2 k hk he =>
    cases h
    exact Bool.eq_false_iff.mpr he
  | case3 k hk => cases h

def turn (t : Search g.store) (k : Fin t.labels.arrivals.size) :
    Except Interruption (Search g.store) :=
  let q := t.labels.arrivals[k]
  match expand g q t.labels with
  | .ok l => .ok ⟨l, t.expanded.mark q, k + 1⟩
  | .error e => .error e

theorem turn_expanded {g : ReachabilityGame} {t u : Search g.store}
    {k : Fin t.labels.arrivals.size} (h : turn g t k = .ok u) :
    u.expanded = t.expanded.mark t.labels.arrivals[k] := by
  simp only [turn] at h
  split at h <;> cases h
  rfl

/-- Expands the arrivals in order, the new ones included, until all have been expanded. -/
def run (t : Search g.store) : Except Interruption (Search g.store) :=
  match _hk : t.fresh? t.next with
  | none => .ok t
  | some k =>
    match _hu : turn g t k with
    | .ok u => run u
    | .error e => .error e
termination_by t.expanded.unmarked
decreasing_by
  have h := Marks.unmarked_mark (Search.isMarked_of_fresh? _hk)
  rw [turn_expanded _hu]
  omega

variable {α : Type} [StateSet α] (target : α)

/-- The target states that need not be avoided win from the start. -/
def isSeed (i : Fin g.store.numStates) : Bool :=
  StateSet.containsId target i && !g.avoid.contains i

/-- The input reported for a state that has already won: the lowest one that can be applied there,
or else the lowest one of all. -/
def homeChoice (s : Store) (i : Fin s.numStates) : Option (Fin s.numInputs) :=
  let js := List.finRange s.numInputs
  (js.find? (s.applicable i)).or js.head?

def initialLabels (log : Log) : Labels g.store :=
  let seeds := (List.finRange g.store.numStates).filter (isSeed g target)
  { value := .ofFn fun i => if isSeed g target i then some 0 else none
    choice := .ofFn fun i => if isSeed g target i then homeChoice g.store i else none
    remaining := g.store.successorCounts.map UInt32.toNat
    worst := .replicate 0
    arrivals := seeds.toArray
    log := log.push (.targets seeds.length) }

def initial (log : Log) : Search g.store :=
  ⟨initialLabels g target log, .none _, 0⟩

def reserveLabels (mem : Memory) (n m : Nat) : Except Refusal Unit := do
  mem.reserve .valueFunction n
  mem.reserve .winningDomain n
  mem.reserve .successorCounters (n * m)
  mem.reserve .hyperedgeValues (n * m)

def Labels.solution {s : Store} (l : Labels s) : Solution where
  region := ⟨s.numStates, s.numInputs, s.sizes_le, l.choice.map (·.map s.input), none⟩
  value := ⟨s.numStates, s.sizes_le.1, l.value⟩

end Reachability

open Reachability in
/-- Computes from which states the target can be forced, and within how many steps. -/
def ReachabilityGame.solve {α : Type} [StateSet α] (mem : Memory) (g : ReachabilityGame)
    (target : α) : Logged Solution :=
  let n := g.store.numStates
  let m := g.store.numInputs
  match Region.checkAlphabet m with
  | .error r => ⟨#[], .error r⟩
  | .ok () =>
    let log : Log := #[.solvingReachability n m g.store.transitionCount]
    match reserveLabels mem n m with
    | .error r => ⟨log, .error r⟩
    | .ok () =>
      match run g (initial g target log) with
      | .error e => ⟨e.log, .error e.fault⟩
      | .ok s =>
        let sol := s.labels.solution
        ⟨s.labels.log.push (.reachabilitySolved sol.region.size sol.layers), .ok sol⟩

end ControlGames
