import ControlGames.Failure

/-! # The log

Building a store and solving a game report their progress as events. A computation that fails keeps
the events that came before its failure. -/
namespace ControlGames

inductive Level
  | debug
  | trace
deriving DecidableEq

inductive Event
  | built (states inputs transitions : Nat)
  | solvingReachability (states inputs transitions : Nat)
  | targets (count : Nat)
  | wins (s : State) (u : Input) (steps : Nat)
  | reachabilitySolved (winning layers : Nat)
  | solvingInvariance (states inputs transitions : Nat)
  | initiallyLosing (count : Nat)
  | losesLast (s : State) (u : Input) (via : State)
  | invarianceSolved (winning invalidated : Nat)
deriving DecidableEq

namespace Event

/-- What happens to a single state is traced; everything else is for debugging. -/
def level : Event → Level
  | wins .. | losesLast .. => .trace
  | _ => .debug

def message : Event → String
  | built n m t => s!"Built transition function: {n} states, {m} inputs, {t} transitions"
  | solvingReachability n m t =>
    s!"Solving reachability game: {n} states, {m} inputs, {t} transitions"
  | targets k => s!"Target: {k} states"
  | wins s u v => s!"{s} wins with {u} in {v} steps"
  | reachabilitySolved w l => s!"Reachability game solved: {w} winning states, {l} layers"
  | solvingInvariance n m t => s!"Solving invariance game: {n} states, {m} inputs, {t} transitions"
  | initiallyLosing k => s!"Initially losing: {k} states"
  | losesLast s u k => s!"{s} loses its last input {u} via {k}"
  | invarianceSolved w k => s!"Invariance game solved: {w} winning states, {k} inputs invalidated"

/-- Between events that are for debugging only, all that is traced is kept. -/
theorem filter_trace_eq {first mid last : List Event} (hfirst : ∀ e ∈ first, e.level = .debug)
    (hmid : ∀ e ∈ mid, e.level = .trace) (hlast : ∀ e ∈ last, e.level = .debug) :
    (first ++ mid ++ last).filter (fun e => e.level = .trace) = mid := by
  have hnone {es : List Event} (h : ∀ e ∈ es, e.level = .debug) :
      es.filter (fun e => e.level = .trace) = [] := by
    rw [List.filter_eq_nil_iff]
    intro e he
    rw [h e he]
    decide
  have hall : mid.filter (fun e => e.level = .trace) = mid := by
    rw [List.filter_eq_self]
    intro e he
    exact decide_eq_true (hmid e he)
  rw [List.filter_append, List.filter_append, hnone hfirst, hnone hlast, hall, List.nil_append,
    List.append_nil]

end Event

abbrev Log := Array Event

structure Logged (α : Type) where
  log : Log
  result : Except Failure α

/-- A fault in the middle of a computation, with the events up to it. -/
structure Interruption where
  fault : Fault
  log : Log

end ControlGames
