import Mathlib.Data.Set.Card
import ControlGames.Proofs.ReachAvoidValues
import ControlGames.Proofs.SearchMoments

/-!
# Counters of the search

On a built store the counters of the search balance at every head of its loop. What a pair of a
state and an input has left to count and its successors expanded so far add up to all of its
successors. A state has been found just if it is a target or has a complete pair, and the states
found are those that have been expanded and those still in the queue.
-/
namespace ControlGames

namespace Reachability

def Search.queue {s : Store} (t : Search s) : List (Fin s.numStates) :=
  t.labels.arrivals.toList.drop t.next

theorem Search.past_append_queue {s : Store} (t : Search s) :
    t.past ++ t.queue = t.labels.arrivals.toList :=
  List.take_append_drop _ _

/-- The counters of a search for the targets `T` that avoids the states of `A`. A pair counts down
with every successor that is expanded, unless its state is to be avoided. A state has a value just
if it is a target or has a complete pair, and just if it has been expanded or is in the queue. -/
structure Search.Balanced {s : Store} (t : Search s)
    (leads : Fin s.numStates → Fin s.numInputs → Fin s.numStates → Prop)
    (T A : Set (Fin s.numStates)) : Prop where
  counted : ∀ i ∉ A, ∀ j, t.labels.remaining.get i j +
    {k | leads i j k ∧ t.expanded.isMarked k = true}.ncard = s.successorCountAt i j
  untouched : ∀ i ∈ A, ∀ j, t.labels.remaining.get i j = s.successorCountAt i j
  found_iff : ∀ i, (∃ a, t.labels.valueAt i = some a) ↔
    i ∈ T \ A ∨ i ∉ A ∧ ∃ j, 0 < s.successorCountAt i j ∧ t.labels.remaining.get i j = 0
  arrived_iff : ∀ i, (∃ a, t.labels.valueAt i = some a) ↔
    t.expanded.isMarked i = true ∨ i ∈ t.queue
  queued : ∀ i ∈ t.queue, t.expanded.isMarked i = false

variable {g : ReachabilityGame} {α : Type} [StateSet α] {target : α} {log : Log}
  {t : Search g.store} {l : Labels g.store} {i : Fin g.store.numStates}

/-- A state has a value from the start, or since one of its pairs is complete. -/
theorem Verdict.exists_valueAt_iff (h : Verdict g target l) : (∃ a, l.valueAt i = some a) ↔
    i ∈ g.store.members target \ {i | g.avoid.contains i = true} ∨
    i ∉ {i : Fin g.store.numStates | g.avoid.contains i = true} ∧
      ∃ j, 0 < g.store.successorCountAt i j ∧ l.remaining.get i j = 0 := by
  have hseed : isSeed g target i = true ↔
      i ∈ g.store.members target \ {i | g.avoid.contains i = true} := by
    rw [isSeed_eq_true_iff, ← Bool.not_eq_true]
    rfl
  rw [← hseed]
  constructor
  · rintro ⟨a, ha⟩
    by_cases hi : isSeed g target i = true
    · exact .inl hi
    · obtain ⟨j, -, havoid, hzero, -, hpos⟩ := h.won i a (Bool.eq_false_iff.mpr hi) ha
      exact .inr ⟨Bool.eq_false_iff.mp havoid, j, hpos, hzero⟩
  · rintro (hi | ⟨havoid, j, hpos, hzero⟩)
    · exact ⟨0, (h.seed i hi).1⟩
    · obtain ⟨a, -, ha⟩ := h.complete i j (Bool.eq_false_iff.mpr havoid) hzero hpos
      exact ⟨a, ha⟩

namespace AtHead

/-- The visits made so far have hit a pair once for each of its successors that is expanded. -/
theorem remaining_add_ncard (hs : g.store.Exact) (h : AtHead g target t)
    (hi : g.avoid.contains i = false) (j : Fin g.store.numInputs) :
    t.labels.remaining.get i j +
        {k | g.store.Leads i j k ∧ t.expanded.isMarked k = true}.ncard =
      g.store.successorCountAt i j := by
  obtain ⟨c, hacc, -⟩ := h.account
  have hnodup : t.past.Nodup := h.nodup.sublist (List.take_sublist _ _)
  have hset : {k | g.store.Leads i j k ∧ t.expanded.isMarked k = true} =
      t.past.toFinset.filter (g.store.Leads i j) := by
    ext k
    rw [SetLike.mem_coe, Finset.mem_filter, List.mem_toFinset, ← h.expanded, and_comm]
    rfl
  rw [hset, Set.ncard_coe_finset, ← hs.count_eq_card hnodup]
  exact hacc.remaining i j hi

theorem balanced (hs : g.store.Exact) (h : AtHead g target t) :
    t.Balanced g.store.Leads (g.store.members target) {i | g.avoid.contains i = true} := by
  obtain ⟨c, hacc, -⟩ := h.account
  have hnodup := h.nodup
  rw [← t.past_append_queue] at hnodup
  refine ⟨fun i hi => h.remaining_add_ncard hs (Bool.eq_false_iff.mpr hi),
    fun i hi j => hacc.untouched i j hi, fun i => hacc.exists_valueAt_iff, fun i => ?_,
    fun i hi => ?_⟩
  · rw [← Option.ne_none_iff_exists', ← hacc.mem_iff, ← t.past_append_queue, List.mem_append,
      h.expanded]
  · rw [Bool.eq_false_iff, ne_eq, h.expanded]
    exact fun hpast => List.disjoint_of_nodup_append hnodup hpast hi

end AtHead

/-- As long as the queue is not empty, its first state is expanded, which leads to the next head. -/
theorem Reached.exists_next (hs : g.store.Adequate) (ht : Reached g target log t)
    (hk : t.next < t.labels.arrivals.size) : t.fresh? t.next = some ⟨t.next, hk⟩ ∧
      ∃ u, Reachability.turn g t ⟨t.next, hk⟩ = .ok u ∧ Reached g target log u := by
  have hfresh := ht.atHead.fresh?_eq
  rw [dif_pos hk] at hfresh
  obtain ⟨u, hu⟩ := ht.atHead.exists_turn_of_fresh? hs hfresh
  exact ⟨hfresh, u, hu, ht.turn hfresh hu⟩

theorem Reached.queue_eq_nil (ht : Reached g target log t) (hdone : t.fresh? t.next = none) :
    t.queue = [] := by
  rw [Search.queue, (ht.past_eq hdone).1, ← Array.length_toList, List.drop_length]

end Reachability

open Reachability in
/-- On a built store the counters balance at every head that the search gets to from its start. From
each it expands the first state of the queue, which leads to the next head, until the queue is
empty, and the solution that a game returns is read off the labels of that moment. -/
theorem ReachabilityGame.search_balanced {b : Builder} {mem : Memory} {s : Store}
    (hb : (b.build mem).result = .ok s) {α β : Type} [StateSet α] [StateSet β] (target : α)
    (avoid : β) {log : Log} {t : Search s}
    (ht : Reached ((new s).avoiding avoid) target log t) :
    t.Balanced b.Leads (s.members target) (s.members avoid) ∧
      (∀ hk : t.next < t.labels.arrivals.size, t.fresh? t.next = some ⟨t.next, hk⟩ ∧
        ∃ u, turn ((new s).avoiding avoid) t ⟨t.next, hk⟩ = .ok u ∧
          Reached ((new s).avoiding avoid) target log u) ∧
      run ((new s).avoiding avoid) (initial ((new s).avoiding avoid) target log) =
        run ((new s).avoiding avoid) t ∧
      ∃ u, run ((new s).avoiding avoid) t = .ok u ∧
        Reached ((new s).avoiding avoid) target log u ∧ u.queue = [] ∧
        ∀ mem' sol, log = openingLog ((new s).avoiding avoid) →
          (((new s).avoiding avoid).solve mem' target).result = .ok sol →
          sol = u.labels.solution := by
  have hs : s.Exact := Builder.exact_of_build hb
  have havoid : {i : Fin s.numStates | ((new s).avoiding avoid).avoid.contains i = true} =
      s.members avoid := Set.ext (contains_avoiding s avoid)
  obtain ⟨u, hrun, hu, hdone⟩ := exists_reached_end target log
    (g := (new s).avoiding avoid) hs.adequate
  refine ⟨?_, ht.exists_next hs.adequate, ht.run_eq, u, ht.run_eq ▸ hrun, hu, hu.queue_eq_nil hdone,
    ?_⟩
  · rw [← Builder.leads_of_build hb, ← havoid]
    exact ht.atHead.balanced hs
  · rintro mem' sol rfl hsol
    obtain ⟨-, -, u', hrun', rfl⟩ := solve_eq_ok_iff.mp hsol
    rw [Except.ok.inj (hrun.symm.trans hrun')]

open Reachability in
/-- On the fork the target 2 has been expanded at the end, so state 1 has no successor left to count
under its first input and has been expanded as well. -/
theorem ReachabilityGame.search_balanced_fork :
    (Builder.fork.build .ample).result = .ok Builder.forkStore ∧
    ∃ t : Search Builder.forkStore,
      run ((new Builder.forkStore).avoiding StateSet.nothing)
        (initial _ (fun x : State => x.id == 2) #[]) = .ok t ∧
      Reached ((new Builder.forkStore).avoiding StateSet.nothing) (fun x : State => x.id == 2) #[]
        t ∧
      t.queue = [] ∧ t.labels.remaining.get (1 : Fin 4) (0 : Fin 2) = 0 ∧
      t.expanded.isMarked (1 : Fin 4) = true := by
  have hs := (Builder.exact_of_build Builder.build_fork).adequate
  obtain ⟨t, hrun, ht, hempty⟩ : ∃ t : Search Builder.forkStore,
      run ((new Builder.forkStore).avoiding StateSet.nothing)
        (initial _ (fun x : State => x.id == 2) #[]) = .ok t ∧
      Reached ((new Builder.forkStore).avoiding StateSet.nothing) (fun x : State => x.id == 2) #[]
        t ∧ t.queue = [] := by
    obtain ⟨t, hrun, ht, hdone⟩ := exists_reached_end
      (g := (new Builder.forkStore).avoiding StateSet.nothing) (fun x : State => x.id == 2) #[] hs
    exact ⟨t, hrun, ht, ht.queue_eq_nil hdone⟩
  obtain ⟨hbalanced, -⟩ := search_balanced Builder.build_fork (fun x : State => x.id == 2)
    StateSet.nothing ht
  have hexpanded : ∀ i : Fin 4, (∃ a, t.labels.valueAt i = some a) →
      t.expanded.isMarked i = true := by
    intro i hi
    refine ((hbalanced.arrived_iff i).mp hi).resolve_right ?_
    rw [hempty]
    exact List.not_mem_nil
  have htarget := hexpanded 2
    ((hbalanced.found_iff (2 : Fin 4)).mpr (.inl ⟨rfl, Bool.false_ne_true⟩))
  have hcounted := hbalanced.counted (1 : Fin 4) Bool.false_ne_true (0 : Fin 2)
  -- The target is the only successor of the pair, so nothing is left to count.
  rcases Nat.add_eq_one_iff.mp hcounted with ⟨hzero, -⟩ | ⟨-, hnone⟩
  · refine ⟨Builder.build_fork, t, hrun, ht, hempty, hzero, hexpanded 1 ?_⟩
    exact (hbalanced.found_iff (1 : Fin 4)).mpr
      (.inr ⟨Bool.false_ne_true, (0 : Fin 2), by decide, hzero⟩)
  · have hleads : Builder.fork.Leads (n := 4) (m := 2) 1 0 2 := by decide
    rw [Set.ncard_eq_zero] at hnone
    have hmem : (2 : Fin 4) ∈ (∅ : Set (Fin 4)) := hnone ▸ ⟨hleads, htarget⟩
    exact absurd hmem (Set.notMem_empty _)

end ControlGames
