import Mathlib.Data.Set.Card
import ControlGames.Proofs.PlainSearch
import ControlGames.Proofs.SearchSafety

/-!
# The search is breadth first

Wherever the search ends without a fault, whatever the store, it has gone breadth first. States are
taken out in the order of their values, no state enters the queue twice, and the queue never spans
more than two values. The guards of the search never decide anything, so it is a plain search.
-/
namespace ControlGames

namespace Reachability

variable {g : ReachabilityGame} {α : Type} [StateSet α] {target : α} {log : Log}
  {t u : Search g.store} {q : Fin g.store.numStates} {a : ℕ}
  {done : List (Visit g.store.numStates g.store.numInputs)} {l : Labels g.store} {sol : Solution}

/-- At the head of its loop a search has taken out states in the order of their values. If any is
left in the queue, the next one has not been expanded yet, and is expanded without a fault. -/
structure TakesInOrder (g : ReachabilityGame) {α : Type} [StateSet α] (target : α) (log : Log)
    (t : Search g.store) : Prop where
  sorted : t.past.Pairwise fun i k => t.labels.rank i ≤ t.labels.rank k
  found : ∀ i ∈ t.past, t.labels.valueAt i = some (t.labels.rank i)
  next : ∀ hk : t.next < t.labels.arrivals.size, t.fresh? t.next = some ⟨t.next, hk⟩ ∧
    ∃ q a u, turn g t ⟨t.next, hk⟩ = .ok u ∧ u.past = t.past ++ [q] ∧
      Expanding g target log t q a (g.store.visits q) u.labels

/-- While a state of value `a` is expanded, no state is in the queue twice, each has value `a` or
`a + 1`, and the pair counted last has worst value `a + 1`. The values known are those of the
solution. -/
structure SpansTwoValues (t : Search g.store) (a : ℕ)
    (done : List (Visit g.store.numStates g.store.numInputs)) (l : Labels g.store)
    (sol : Solution) : Prop where
  nodup : l.arrivals.toList.Nodup
  queued : ∀ i ∈ l.arrivals.toList.drop t.next, ∃ b, l.valueAt i = some b ∧ a ≤ b ∧ b ≤ a + 1
  worst : ∀ v i, done.getLast? = some v → v.pre = g.store.state i → g.avoid.contains i = false →
    l.worst.get i v.input = a + 1
  kept : ∀ i b, l.valueAt i = some b → sol.value.get (g.store.state i) = .ok (some b)

theorem Reached.takesInOrder (hrun : run g (Reachability.initial g target log) = .ok u)
    (ht : Reached g target log t) : TakesInOrder g target log t := by
  obtain ⟨c, hacc, -⟩ := ht.atHead.account
  refine ⟨hacc.sorted.sublist (List.take_sublist _ _), fun i hi => ?_, fun hk => ?_⟩
  · have hfound := (hacc.mem_iff i).mp (List.mem_of_mem_take hi)
    obtain ⟨b, hb⟩ := Option.ne_none_iff_exists'.mp hfound
    rw [hb, Labels.rank_eq hb]
  · have hfresh := ht.atHead.fresh?_eq
    rw [dif_pos hk] at hfresh
    refine ⟨hfresh, ?_⟩
    cases hturn : Reachability.turn g t ⟨t.next, hk⟩ with
    | error e =>
      rw [ht.run_eq, run_of_fault hfresh hturn] at hrun
      cases hrun
    | ok v =>
      obtain ⟨q, a, hexp, hpast⟩ := ht.expanding hfresh hturn
      exact ⟨q, a, v, rfl, hpast, hexp⟩

namespace Expanding

theorem valueAt_end (h : Expanding g target log t q a done l)
    (hrun : run g (Reachability.initial g target log) = .ok u) {i : Fin g.store.numStates} {b : ℕ}
    (hi : l.valueAt i = some b) : u.labels.valueAt i = some b := by
  obtain ⟨hlt, hget⟩ := Array.getElem?_eq_some_iff.mp h.taken
  obtain ⟨hfresh, q', a', v, hv, -, hexp⟩ := (h.reached.takesInOrder hrun).next hlt
  obtain rfl : q = q' := Option.some.inj (h.taken.symm.trans hexp.taken)
  obtain rfl : a = a' := Option.some.inj (h.value.symm.trans hexp.value)
  -- The rest of the expansion starts from the labels at hand.
  obtain ⟨rest, hrest⟩ := h.first
  have hlabels := hexp.labels
  rw [← hrest, List.foldlM_append, h.labels] at hlabels
  have hpost : ∀ w ∈ rest, w.post = q := fun w hw =>
    (Store.mem_visits.mp (hrest ▸ List.mem_append_right done hw)).1
  obtain ⟨-, hkeep, -⟩ := h.account.1.foldlM_relax h.valueAt_eq hpost hlabels
  have hreached := h.reached.turn hfresh hv
  rw [hreached.run_eq] at hrun
  exact (hreached.ended hrun).2.2 i b (hkeep i b hi)

theorem queued (h : Expanding g target log t q a done l) {i : Fin g.store.numStates}
    (hi : i ∈ l.arrivals.toList.drop t.next) : ∃ b, l.valueAt i = some b ∧ a ≤ b ∧ b ≤ a + 1 := by
  obtain ⟨hacc, -, hgrow⟩ := h.account
  have hfound := (hacc.mem_iff i).mp (List.mem_of_mem_drop hi)
  obtain ⟨b, hb⟩ := Option.ne_none_iff_exists'.mp hfound
  refine ⟨b, hb, ?_, hacc.value_le i b hb⟩
  -- The state taken out comes first of those in the queue.
  obtain ⟨hnext, htaken⟩ := Array.getElem?_eq_some_iff.mp h.taken
  have hlen : t.next < t.labels.arrivals.toList.length := by rwa [Array.length_toList]
  have hlt : t.next < l.arrivals.toList.length := hlen.trans_le hgrow.length_le
  have hget : l.arrivals.toList[t.next] = q := by
    rw [← hgrow.getElem hlen, Array.getElem_toList, htaken]
  rw [List.drop_eq_getElem_cons hlt, hget] at hi
  have hsorted := hacc.sorted.sublist (List.drop_sublist t.next _)
  rw [List.drop_eq_getElem_cons hlt, hget] at hsorted
  rcases List.mem_cons.mp hi with rfl | hi
  · rw [h.valueAt_eq, Option.some.injEq] at hb
    omega
  · have hle := List.rel_of_pairwise_cons hsorted hi
    rwa [Labels.rank_eq h.valueAt_eq, Labels.rank_eq hb] at hle

theorem worst_eq (h : Expanding g target log t q a done l)
    {v : Visit g.store.numStates g.store.numInputs} {i : Fin g.store.numStates}
    (hv : done.getLast? = some v) (hpre : v.pre = g.store.state i)
    (hi : g.avoid.contains i = false) : l.worst.get i v.input = a + 1 := by
  obtain ⟨first, rfl⟩ := List.getLast?_eq_some_iff.mp hv
  obtain ⟨l₁, -, -, hr⟩ := h.of_snoc
  generalize hx : v.pre = x at hr
  rw [hpre] at hx
  cases hr with
  | avoided havoid =>
    rw [← hx] at havoid
    exact absurd havoid (Bool.eq_false_iff.mp hi)
  | @counted k c hk hc hopen =>
    obtain rfl : i = k := Fin.ext (congrArg State.id hx)
    rw [Labels.counted_worst, if_pos ⟨rfl, rfl⟩]
  | @found k hk hc hopen =>
    obtain rfl : i = k := Fin.ext (congrArg State.id hx)
    rw [Labels.found_worst, Labels.counted_worst, if_pos ⟨rfl, rfl⟩]

theorem spansTwoValues (h : Expanding g target log t q a done l)
    (hrun : run g (Reachability.initial g target log) = .ok u) :
    SpansTwoValues t a done l u.labels.solution where
  nodup := h.account.1.nodup
  queued _ hi := h.queued hi
  worst _ _ hv hpre hi := h.worst_eq hv hpre hi
  kept i b hi := by rw [u.labels.tells.get, h.valueAt_end hrun hi]

end Expanding

theorem Reached.length_past (ht : Reached g target log t) (hdone : t.fresh? t.next = none) :
    t.past.length = {i : Fin g.store.numStates |
      ∃ b, t.labels.solution.value.get (g.store.state i) = .ok (some b)}.ncard := by
  obtain ⟨c, hacc, -⟩ := ht.atHead.account
  rw [(ht.past_eq hdone).2]
  refine (ncard_eq_length hacc.nodup fun i => ?_).symm
  rw [hacc.mem_iff, Option.ne_none_iff_exists', Set.mem_ofPred_eq]
  simp only [t.labels.tells.get, Except.ok.injEq]

end Reachability

open Reachability in
/-- On every store, built or filled by hand, a game that is solved is solved breadth first: at every
head states have been taken out in order and none is skipped, at every moment the queue spans two
values at most, at the end as many states have been taken out as have a finite value, and the plain
search gives the same result and the same log. -/
theorem ReachabilityGame.solve_breadth_first {g : ReachabilityGame} {mem : Memory} {α : Type}
    [StateSet α] {target : α} {sol : Solution} (hsol : (g.solve mem target).result = .ok sol) :
    (∀ t, Reached g target (openingLog g) t → TakesInOrder g target (openingLog g) t) ∧
      (∀ t q a done l, Expanding g target (openingLog g) t q a done l →
        SpansTwoValues t a done l sol) ∧
      (∃ u, Reached g target (openingLog g) u ∧ u.fresh? u.next = none ∧ u.labels.solution = sol ∧
        u.past = u.labels.arrivals.toList ∧ u.past.length = {i : Fin g.store.numStates |
          ∃ b, sol.value.get (g.store.state i) = .ok (some b)}.ncard) ∧
      g.plainSolve mem target = g.solve mem target := by
  obtain ⟨-, hmem, u, hrun, rfl⟩ := solve_eq_ok_iff.mp hsol
  obtain ⟨hu, hdone, -⟩ := Reached.initial.ended hrun
  exact ⟨fun t ht => ht.takesInOrder hrun, fun t q a done l h => h.spansTwoValues hrun,
    ⟨u, hu, hdone, rfl, (hu.past_eq hdone).2, hu.length_past hdone⟩,
    plainSolve_eq_solve hmem target⟩

/-- The store with a shared slot is searched breadth first for the target 1. -/
theorem ReachabilityGame.solve_shared_breadth_first :
    ∃ sol, ((new Store.shared).solve .ample fun x : State => x.id == 1).result = .ok sol ∧
      (new Store.shared).plainSolve .ample (fun x : State => x.id == 1) =
        (new Store.shared).solve .ample fun x : State => x.id == 1 := by
  have hm : (new Store.shared).store.numInputs < reserved - 1 := by decide
  obtain ⟨sol, hsol⟩ : ∃ sol,
      ((new Store.shared).solve .ample fun x : State => x.id == 1).result = .ok sol :=
    Reachability.exists_solve_eq_ok _ Store.adequate_shared hm rfl
  obtain ⟨-, -, -, hplain⟩ := solve_breadth_first hsol
  exact ⟨sol, hsol, hplain⟩

end ControlGames
