import Std.Data.TreeSet
import ControlGames.Event
import ControlGames.Store

/-! # Building a store

A builder collects transitions in any order, repetitions included. Building sorts them by
`(post, input, pre)` and drops the repetitions, so the group of each `(post, input)` is a run of the
sorted list and the groups follow one another without gaps. -/
namespace ControlGames

/-- A transition among `n` states under `m` inputs. -/
structure Edge (n m : Nat) where
  pre : Fin n
  input : Fin m
  post : Fin n
deriving DecidableEq

namespace Edge

variable {n m : Nat}

/-- The order of storage: by post state, then by input, then by pre state. -/
def order : Edge n m → Edge n m → Ordering :=
  compareLex (compareOn post) (compareLex (compareOn input) (compareOn pre))

instance : Std.TransCmp (order (n := n) (m := m)) := by
  unfold order
  infer_instance

instance : Std.LawfulEqCmp (order (n := n) (m := m)) where
  compare_self := by simp [order, compareLex, compareOn]
  eq_of_compare := by
    rintro ⟨p, u, q⟩ ⟨p', u', q'⟩ h
    simp only [order, compareLex, compareOn, Ordering.then_eq_eq, Std.compare_eq_iff_eq] at h
    simp [h]

/-- The distinct transitions in the order of storage. -/
def sorted (es : Array (Edge n m)) : List (Edge n m) := (Std.TreeSet.ofArray es order).toList

def within (n m : Nat) (pre : State) (u : Input) (post : State) : Except Refusal (Edge n m) :=
  if hpre : pre.id < n then
    if hpost : post.id < n then
      if hu : u.id < m then .ok ⟨⟨pre.id, hpre⟩, ⟨u.id, hu⟩, ⟨post.id, hpost⟩⟩
      else .error (.inputOutOfRange u m)
    else .error (.stateOutOfRange post n)
  else .error (.stateOutOfRange pre n)

def ofIds (n m : Nat) : Nat × Nat × Nat → Except Failure (Edge n m)
  | (pre, input, post) => do
    let pre ← orFail (State.ofId pre)
    let u ← orFail (Input.ofId input)
    let post ← orFail (State.ofId post)
    match within n m pre u post with
    | .ok e => .ok e
    | .error r => .error r

end Edge

structure Builder where
  numStates : Nat
  numInputs : Nat
  edges : Array (Edge numStates numInputs)

namespace Builder

def new (n m : Nat) : Builder := ⟨n, m, #[]⟩

instance : Inhabited Builder := ⟨new 0 0⟩

def size (b : Builder) : Nat := b.edges.size

def isEmpty (b : Builder) : Bool := b.edges.isEmpty

def push (b : Builder) (e : Edge b.numStates b.numInputs) : Builder :=
  { b with edges := b.edges.push e }

def add (b : Builder) (pre : State) (u : Input) (post : State) : Except Refusal Builder :=
  (Edge.within b.numStates b.numInputs pre u post).map b.push

def addIds (b : Builder) (t : Nat × Nat × Nat) : Except Failure Builder :=
  match Edge.ofIds b.numStates b.numInputs t with
  | .ok e => .ok (b.push e)
  | .error f => .error f

/-- Adds transitions given by numbers up to the first that fails, and keeps those before it. -/
def addAll (b : Builder) : List (Nat × Nat × Nat) → Except Failure Unit × Builder
  | [] => (.ok (), b)
  | t :: ts =>
    match Edge.ofIds b.numStates b.numInputs t with
    | .ok e => (b.push e).addAll ts
    | .error f => (.error f, b)

end Builder

/-- The arrays of a store while the sorted transitions are laid out one by one. -/
structure Layout (n m : Nat) where
  groups : Table n m Group
  successorCounts : Table n m UInt32
  slots : Array State

namespace Layout

variable {n m : Nat}

def empty : Layout n m := ⟨.replicate ⟨0, 0⟩, .replicate 0, #[]⟩

/-- A group starts at the slot of its first transition and grows with each further one. -/
def place (hn : n ≤ reserved) (l : Layout n m) (e : Edge n m) : Layout n m where
  groups := l.groups.modify e.post e.input fun g =>
    if g.size = 0 then ⟨.ofNat l.slots.size, 1⟩ else ⟨g.offset, g.size + 1⟩
  successorCounts := l.successorCounts.modify e.pre e.input (· + 1)
  slots := l.slots.push ⟨e.pre, Nat.lt_of_lt_of_le e.pre.isLt hn⟩

def ofSorted (hn : n ≤ reserved) (es : List (Edge n m)) : Layout n m := es.foldl (place hn) empty

end Layout

namespace Store

def ofLayout {n m : Nat} (h : n ≤ reserved ∧ m ≤ reserved) (l : Layout n m) : Store :=
  ⟨n, m, h, l.groups, l.successorCounts, l.slots⟩

end Store

namespace Builder

/-- The store of the collected transitions, if its sizes fit and memory lasts. -/
def store (mem : Memory) (b : Builder) : Except Refusal Store :=
  if h : b.numStates ≤ reserved ∧ b.numInputs ≤ reserved then do
    let cells := b.numStates * b.numInputs
    let es := Edge.sorted b.edges
    Store.reserveTables mem cells
    Store.reserveSlots mem es.length
    mem.reserve .builderCounts cells
    return .ofLayout h (.ofSorted h.1 es)
  else .error (Store.misfit b.numStates b.numInputs)

def build (mem : Memory) (b : Builder) : Logged Store :=
  match b.store mem with
  | .ok s => ⟨#[.built s.numStates s.numInputs s.transitionCount], .ok s⟩
  | .error r => ⟨#[], .error r⟩

end Builder

end ControlGames
