import ControlGames.IndexSet.Membership
import ControlGames.Proofs.InvarianceKernel
import ControlGames.Proofs.SearchHeads

/-!
# Kinds of sets of states

A list of states can be handed over as a set in several ways: as it is, in an array, hashed, in a
tree, as bits, or through a function that tests for membership. The solvers only ask sets for their
members, so the ways do not differ in what they lead to.
-/
namespace ControlGames

namespace StateSet

inductive Kind
  | list
  | array
  | hashSet
  | treeSet
  | indexSet
  | test

namespace Kind

def Carrier : Kind → Type
  | list => List State
  | array => Array State
  | hashSet => Std.HashSet State
  | treeSet => Std.TreeSet State
  | indexSet => IndexSet
  | test => State → Bool

instance (k : Kind) : StateSet k.Carrier :=
  match k with
  | list => inferInstanceAs (StateSet (List State))
  | array => inferInstanceAs (StateSet (Array State))
  | hashSet => inferInstanceAs (StateSet (Std.HashSet State))
  | treeSet => inferInstanceAs (StateSet (Std.TreeSet State))
  | indexSet => inferInstanceAs (StateSet IndexSet)
  | test => inferInstanceAs (StateSet (State → Bool))

def ofList (xs : List State) : (k : Kind) → k.Carrier
  | list => xs
  | array => xs.toArray
  | hashSet => Std.HashSet.ofList xs
  | treeSet => Std.TreeSet.ofList xs compare
  | indexSet => IndexSet.ofList (xs.map State.id)
  | test => fun x => decide (x ∈ xs)

theorem mem_map_id {xs : List State} {x : State} : x.id ∈ xs.map State.id ↔ x ∈ xs := by
  rw [List.mem_map]
  constructor
  · rintro ⟨y, hy, hid⟩
    rwa [← State.ext_id hid]
  · intro hx
    exact ⟨x, hx, rfl⟩

theorem contains_ofList (xs : List State) (k : Kind) (x : State) :
    contains (k.ofList xs) x = decide (x ∈ xs) := by
  cases k with
  | list =>
    change List.contains xs x = _
    exact List.contains_eq_mem x xs
  | array =>
    change xs.toArray.contains x = _
    simp
  | hashSet =>
    change (Std.HashSet.ofList xs).contains x = _
    rw [Std.HashSet.contains_ofList, List.contains_eq_mem]
  | treeSet =>
    change (Std.TreeSet.ofList xs compare).contains x = _
    rw [Std.TreeSet.contains_ofList, List.contains_eq_mem]
  | indexSet =>
    change (IndexSet.ofList (xs.map State.id)).contains x.id = _
    rw [IndexSet.contains_ofList, decide_eq_decide]
    exact mem_map_id
  | test => rfl

end Kind

end StateSet

/-! ### Sets with the same members -/

section Congruence

variable {α β : Type} [StateSet α] [StateSet β] {set : α} {set' : β}
  (h : ∀ x, StateSet.contains set x = StateSet.contains set' x)

include h

theorem StateSet.containsId_congr : containsId set = containsId set' := by
  funext i
  rw [containsId, containsId, funext h]

namespace ReachabilityGame

open Reachability

theorem avoiding_congr (g : ReachabilityGame) : g.avoiding set = g.avoiding set' := by
  rw [avoiding, avoiding, StateSet.indices, StateSet.indices, StateSet.containsId_congr h]

theorem solve_congr (g : ReachabilityGame) (mem : Memory) : g.solve mem set = g.solve mem set' := by
  have hseed : isSeed g set = isSeed g set' := by
    funext i
    rw [isSeed, isSeed, StateSet.containsId_congr h]
  have hinitial : initial g set = initial g set' := by
    funext log
    simp only [initial, initialLabels, hseed]
  simp only [solve, hinitial]

end ReachabilityGame

namespace Store

open Invariance

theorem solveInvariance_congr (s : Store) (mem : Memory) :
    s.solveInvariance mem set = s.solveInvariance mem set' := by
  have hvalid : isValidFirst s set = isValidFirst s set' := by
    funext i j
    rw [isValidFirst, isValidFirst, StateSet.containsId_congr h]
  have hrow : initialRow s set = initialRow s set' := by
    funext i
    rw [initialRow, initialRow, hvalid]
  have hinitial : Invariance.initial s set = Invariance.initial s set' := by
    funext log
    simp only [Invariance.initial, initialBits, hvalid, hrow]
  simp only [solveInvariance, hinitial]

end Store

end Congruence

/-! ### Sets to avoid with the same members -/

namespace Reachability

section AvoidCongruence

variable {s : Store} {a a' : IndexSet} (h : ∀ i, a.contains i = a'.contains i)

include h

theorem relax_congr : relax ⟨s, a⟩ = relax ⟨s, a'⟩ := by
  funext j steps l x
  simp only [relax, h]

theorem turn_congr : turn ⟨s, a⟩ = turn ⟨s, a'⟩ := by
  have hgroup : relaxGroup ⟨s, a⟩ = relaxGroup ⟨s, a'⟩ := by
    funext q steps l j
    simp only [relaxGroup, relax_congr h]
  have hexpand : expand ⟨s, a⟩ = expand ⟨s, a'⟩ := by
    funext q l
    simp only [expand, hgroup]
  funext t k
  simp only [turn, hexpand]
  cases expand ⟨s, a'⟩ t.labels.arrivals[k] t.labels <;> rfl

theorem run_congr (t : Search s) : run ⟨s, a⟩ t = run ⟨s, a'⟩ t := by
  fun_induction run ⟨s, a⟩ t with
  | case1 t hdone => exact (run_of_done (g := ⟨s, a'⟩) hdone).symm
  | case2 t k hk u hu ih =>
    rw [turn_congr h] at hu
    rw [ih, run_of_turn (g := ⟨s, a'⟩) hk hu]
  | case3 t k hk e he =>
    rw [turn_congr h] at he
    exact (run_of_fault (g := ⟨s, a'⟩) hk he).symm

end AvoidCongruence

end Reachability

namespace ReachabilityGame

open Reachability

/-- The avoid set matters through its members only, not through its capacity. -/
theorem solve_congr_avoid {s : Store} {a a' : IndexSet} (h : ∀ i, a.contains i = a'.contains i)
    {α : Type} [StateSet α] (mem : Memory) (target : α) :
    solve mem ⟨s, a⟩ target = solve mem ⟨s, a'⟩ target := by
  have hseed : isSeed ⟨s, a⟩ target = isSeed ⟨s, a'⟩ target := by
    funext i
    simp only [isSeed, h]
  have hinitial : initial ⟨s, a⟩ target = initial ⟨s, a'⟩ target := by
    funext log
    simp only [initial, initialLabels, hseed]
  simp only [solve, hinitial, run_congr h]
  cases Region.checkAlphabet s.numInputs with
  | error r => rfl
  | ok =>
    cases reserveLabels mem s.numStates s.numInputs with
    | error r => rfl
    | ok => cases run ⟨s, a'⟩ (initial ⟨s, a'⟩ target _) <;> rfl

theorem solve_avoiding_nothing (s : Store) {α : Type} [StateSet α] (mem : Memory) (target : α) :
    ((new s).avoiding StateSet.nothing).solve mem target = (new s).solve mem target := by
  refine solve_congr_avoid (fun i => ?_) mem target
  rw [StateSet.indices, IndexSet.contains_ofPred, IndexSet.contains_empty, StateSet.containsId]
  cases State.ofId? i <;> simp [StateSet.contains, StateSet.nothing]

end ReachabilityGame

/-! ### Interchangeable sets -/

namespace StateSet

/-- One set can stand in for the other wherever a game takes a set of states: the solution, the
fault or the refusal is the same, and so is the log. -/
structure Interchangeable {α β : Type} [StateSet α] [StateSet β] (set : α) (set' : β) : Prop where
  target (mem : Memory) (g : ReachabilityGame) : g.solve mem set = g.solve mem set'
  avoid (mem : Memory) (g : ReachabilityGame) {γ : Type} [StateSet γ] (target : γ) :
    (g.avoiding set).solve mem target = (g.avoiding set').solve mem target
  safe (mem : Memory) (s : Store) : s.solveInvariance mem set = s.solveInvariance mem set'

theorem Interchangeable.of_contains {α β : Type} [StateSet α] [StateSet β] {set : α} {set' : β}
    (h : ∀ x, contains set x = contains set' x) : Interchangeable set set' where
  target mem g := g.solve_congr h mem
  avoid mem g _ _ target := by rw [g.avoiding_congr h]
  safe mem s := s.solveInvariance_congr h mem

/-- All kinds of sets of a list of states are interchangeable, a range is interchangeable with the
test of its bounds, and to avoid no state is to avoid nothing at all. -/
theorem interchangeable_kinds (xs : List State) (lo hi : ℕ) :
    (∀ (k : Kind) (x : State), contains (k.ofList xs) x = true ↔ x ∈ xs) ∧
    (∀ k k' : Kind, Interchangeable (k.ofList xs) (k'.ofList xs)) ∧
    Interchangeable (⟨lo, hi⟩ : IdRange) (fun x : State => decide (lo ≤ x.id ∧ x.id < hi)) ∧
    ∀ (s : Store) (mem : Memory) {α : Type} [StateSet α] (target : α),
      ((ReachabilityGame.new s).avoiding nothing).solve mem target =
        (ReachabilityGame.new s).solve mem target := by
  refine ⟨fun k x => ?_, fun k k' => ?_, ?_, fun s mem _ _ target => ?_⟩
  · rw [Kind.contains_ofList, decide_eq_true_iff]
  · refine .of_contains fun x => ?_
    rw [Kind.contains_ofList, Kind.contains_ofList]
  · refine .of_contains fun x => ?_
    exact (Bool.decide_and _ _).symm
  · exact ReachabilityGame.solve_avoiding_nothing s mem target

end StateSet

end ControlGames
