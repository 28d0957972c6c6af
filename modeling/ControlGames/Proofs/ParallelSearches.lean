import ControlGames.Proofs.EqualValues
import ControlGames.Proofs.SearchHeads

/-!
# Parallel searches

A search skips the slots that hold states to avoid. Without these slots a search that avoids nothing
does the same in every step: it relaxes the same pairs in the same order, finds the same states with
the same inputs, and keeps the same numbers for all pairs of states that are not to be avoided.
-/
namespace ControlGames.Reachability

variable {g g' : ReachabilityGame}

/-- The second game avoids nothing, and its store is that of the first without the slots that hold
states to avoid. -/
structure Thinned (g g' : ReachabilityGame) : Prop extends g.store.SameSize g'.store where
  kept : ∀ i, g'.avoid.contains i = false
  listed : ∀ k j, g'.store.listed (k.cast numStates) (j.cast numInputs) =
    (g.store.listed k j).filter fun x => !g.avoid.contains x.id
  counted : ∀ (i : Fin g.store.numStates) j, g.avoid.contains i = false →
    g.store.successorCountAt i j = g'.store.successorCountAt (i.cast numStates) (j.cast numInputs)

/-- Labels of both games that say the same of all states, and of all pairs of states that are not to
be avoided. -/
structure Parallel (h : Thinned g g') (l : Labels g.store) (l' : Labels g'.store) : Prop where
  value : ∀ i, l.valueAt i = l'.valueAt (i.cast h.numStates)
  choice : ∀ i, (l.choiceAt i).map (Fin.cast h.numInputs) = l'.choiceAt (i.cast h.numStates)
  arrivals : l.arrivals.toList.map (Fin.cast h.numStates) = l'.arrivals.toList
  remaining : ∀ (i : Fin g.store.numStates) j, g.avoid.contains i = false →
    l.remaining.get i j = l'.remaining.get (i.cast h.numStates) (j.cast h.numInputs)
  worst : ∀ (i : Fin g.store.numStates) j, g.avoid.contains i = false →
    l.worst.get i j = l'.worst.get (i.cast h.numStates) (j.cast h.numInputs)

namespace Parallel

variable {h : Thinned g g'} {l l₁ : Labels g.store} {l' : Labels g'.store}

/-! ### Steps -/

theorem counted (hp : Parallel h l l') (i : Fin g.store.numStates) (j : Fin g.store.numInputs)
    (k w : ℕ) :
    Parallel h (l.counted i j k w) (l'.counted (i.cast h.numStates) (j.cast h.numInputs) k w) where
  value := hp.value
  choice := hp.choice
  arrivals := hp.arrivals
  remaining i' j' hi' := by
    simp only [Labels.counted_remaining, Fin.cast_inj, hp.remaining i' j' hi']
  worst i' j' hi' := by
    simp only [Labels.counted_worst, Fin.cast_inj, hp.worst i' j' hi']

theorem found (hp : Parallel h l l') (i : Fin g.store.numStates) (j : Fin g.store.numInputs)
    (w : ℕ) :
    Parallel h (l.found i j w) (l'.found (i.cast h.numStates) (j.cast h.numInputs) w) where
  value i' := by
    simp only [Labels.found_valueAt, Fin.cast_inj, hp.value i']
  choice i' := by
    simp only [Labels.found_choiceAt, Fin.cast_inj, ← hp.choice i']
    split <;> rfl
  arrivals := by
    rw [Labels.found_arrivals, Labels.found_arrivals, List.map_append, hp.arrivals]
    rfl
  remaining := hp.remaining
  worst := hp.worst

theorem relax (hp : Parallel h l l') {j : Fin g.store.numInputs} {c : ℕ} {x : State}
    (hx : g.avoid.contains x.id = false) (hok : relax g j c l x = .ok l₁) :
    ∃ l₁', Reachability.relax g' (j.cast h.numInputs) c l' x = .ok l₁' ∧ Parallel h l₁ l₁' := by
  by_cases hlt : x.id < g.store.numStates
  · obtain ⟨i, rfl⟩ := Store.exists_state_eq hlt
    have hi : g.avoid.contains i = false := hx
    have hstate : g.store.state i = g'.store.state (i.cast h.numStates) := rfl
    -- State `i` is not to be avoided, so both searches keep the same numbers for its pairs.
    rw [relax_state_eq, if_neg (Bool.eq_false_iff.mp hi)] at hok
    rw [hstate, relax_state_eq, if_neg (Bool.eq_false_iff.mp (h.kept _)), ← hp.remaining i j hi,
      ← hp.worst i j hi, ← hp.value i]
    cases hk : l.remaining.get i j with
    | zero =>
      rw [hk] at hok
      cases hok
    | succ k =>
      rw [hk] at hok
      dsimp only at hok ⊢
      split at hok
      · next hfound =>
        rw [if_pos hfound]
        cases hok
        exact ⟨_, rfl, (hp.counted i j k _).found i j _⟩
      · next hfound =>
        rw [if_neg hfound]
        cases hok
        exact ⟨_, rfl, hp.counted i j k _⟩
  · simp only [Reachability.relax, if_neg (Bool.eq_false_iff.mp hx), dif_neg hlt] at hok
    cases hok

theorem solution_eq (hp : Parallel h l l') : l.solution = l'.solution := by
  have hvalue : l.solution.value = l'.solution.value :=
    ValueFunction.ext_cell h.numStates hp.value
  have hregion : l.solution.region = l'.solution.region := by
    refine Region.ext_cell h.numStates h.numInputs (fun (i : Fin g.store.numStates) => ?_) rfl
    change cell (l.choice.map _) i = cell (l'.choice.map _) (i.cast h.numStates)
    have hchoice : cell l'.choice (i.cast h.numStates) =
        (cell l.choice i).map (Fin.cast h.numInputs) := (hp.choice i).symm
    rw [cell_map, cell_map, hchoice, Option.map_map]
    rfl
  exact congrArg₂ Solution.mk hregion hvalue

end Parallel

/-- The second search visits the slots that the first one does not skip. -/
theorem Thinned.visits_eq (h : Thinned g g') (k : Fin g.store.numStates) :
    g'.store.visits (k.cast h.numStates) =
      ((g.store.visits k).filter fun v => !g.avoid.contains v.pre.id).map
        fun v => ⟨v.post.cast h.numStates, v.input.cast h.numInputs, v.pre⟩ := by
  rw [Store.visits, Store.visits, ← finRange_cast h.numInputs, List.flatMap_map,
    List.filter_flatMap, List.map_flatMap]
  congr 1
  funext j
  rw [h.listed, List.filter_map, List.map_map]
  rfl

namespace Parallel

variable {h : Thinned g g'} {l l₁ : Labels g.store} {l' : Labels g'.store}

theorem expand (hp : Parallel h l l') (hin : g.store.Inside) (hin' : g'.store.Inside)
    {q : Fin g.store.numStates} {a : ℕ} (hq : l.valueAt q = some a) (ha : a + 1 < wordSize)
    (hok : expand g q l = .ok l₁) :
    ∃ l₁', Reachability.expand g' (q.cast h.numStates) l' = .ok l₁' ∧ Parallel h l₁ l₁' := by
  have hq' : l'.valueAt (q.cast h.numStates) = some a := (hp.value q).symm.trans hq
  have hskip : ∀ (l : Labels g.store) (v : Visit g.store.numStates g.store.numInputs),
      (!g.avoid.contains v.pre.id) = false →
      Reachability.relax g v.input (a + 1) l v.pre = .ok l := by
    intro l v hv
    rw [Reachability.relax, if_pos (by simpa using hv)]
  rw [expand_eq_foldlM hin hq ha, ← foldlM_filter_eq hskip] at hok
  rw [expand_eq_foldlM hin' hq' ha, h.visits_eq, List.foldlM_map]
  refine exists_foldlM_related (Parallel h) (fun v hv l l' l₁ hp hok => ?_) hp hok
  have hv : (!g.avoid.contains v.pre.id) = true := (List.mem_filter.mp hv).2
  exact hp.relax (by simpa using hv) hok

end Parallel

/-! ### Runs -/

section Runs

variable {α β : Type} [StateSet α] [StateSet β] {target : α} {target' : β} {log log' : Log}

theorem Thinned.parallel_initial (h : Thinned g g')
    (hseed : ∀ i, isSeed g target i = isSeed g' target' (i.cast h.numStates)) (log log' : Log) :
    Parallel h (initialLabels g target log) (initialLabels g' target' log') where
  value i := by
    rw [valueAt_initial, valueAt_initial, hseed]
  choice i := by
    rw [choiceAt_initial, choiceAt_initial, ← hseed]
    split
    · next hi =>
      have hi := ((isSeed_eq_true_iff i).mp hi).2
      refine homeChoice_cast h.toSameSize fun j => ?_
      rw [Store.applicable, Store.applicable, h.counted i j hi]
    · rfl
  arrivals := by
    change ((List.finRange _).filter (isSeed g target)).map _ =
      (List.finRange _).filter (isSeed g' target')
    rw [← finRange_cast h.numStates, List.filter_map]
    congr 2
    funext i
    exact hseed i
  remaining i j hi := by
    rw [remaining_initial, remaining_initial, h.counted i j hi]
  worst i j _ := by
    rw [worst_initial, worst_initial]

variable {h : Thinned g g'}

theorem Parallel.getElem?_arrivals {l : Labels g.store} {l' : Labels g'.store}
    (hp : Parallel h l l') (p : ℕ) :
    l'.arrivals[p]? = l.arrivals[p]?.map (Fin.cast h.numStates) := by
  rw [← Array.getElem?_toList, ← hp.arrivals, List.getElem?_map, Array.getElem?_toList]

theorem Parallel.size_arrivals {l : Labels g.store} {l' : Labels g'.store}
    (hp : Parallel h l l') : l'.arrivals.size = l.arrivals.size := by
  rw [← Array.length_toList, ← hp.arrivals, List.length_map, Array.length_toList]

/-- Every head of the first search has a parallel head of the second one. -/
theorem Reached.exists_parallel (hs : g.store.Adequate) (hs' : g'.store.Adequate)
    (hinit : Parallel h (initialLabels g target log) (initialLabels g' target' log'))
    {t : Search g.store} (ht : Reached g target log t) :
    ∃ t', Reached g' target' log' t' ∧ Parallel h t.labels t'.labels ∧ t.next = t'.next := by
  induction ht with
  | initial => exact ⟨_, .initial, hinit, rfl⟩
  | @turn t u k ht hk hu ih =>
    obtain ⟨t', ht', hp, hnext⟩ := ih
    have hhead := ht.atHead
    have hhead' := ht'.atHead
    -- At a head the next arrival has not been expanded yet, so neither search skips it.
    rw [hhead.fresh?_eq] at hk
    split at hk
    · next hlt =>
      cases hk
      have hlt' : t'.next < t'.labels.arrivals.size := by rwa [hp.size_arrivals, ← hnext]
      have hk' : t'.fresh? t'.next = some ⟨t'.next, hlt'⟩ := by
        rw [hhead'.fresh?_eq, dif_pos hlt']
      obtain ⟨q, a, hq, ha, hacc, -⟩ := hhead.exists_next hlt
      have hget : t'.labels.arrivals[t'.next]? = some (q.cast h.numStates) := by
        rw [hp.getElem?_arrivals, ← hnext, Array.getElem?_eq_getElem hlt, hq, Option.map_some]
      have hq' : t'.labels.arrivals[t'.next] = q.cast h.numStates :=
        (Array.getElem?_eq_some_iff.mp hget).2
      obtain ⟨l, hl, rfl⟩ := turn_eq_ok_iff.mp hu
      rw [hq] at hl
      obtain ⟨l', hl', hpar⟩ := hp.expand hs.inside hs'.inside ha
        (hacc.toQueue.succ_lt_wordSize ha) hl
      refine ⟨⟨l', t'.expanded.mark (q.cast h.numStates), t'.next + 1⟩, ?_, hpar, ?_⟩
      · refine ht'.turn hk' (turn_eq_ok_iff.mpr ⟨l', ?_, ?_⟩)
        · rw [hq', hl']
        · rw [hq']
      · exact congrArg (· + 1) hnext
    · cases hk

theorem Thinned.exists_solution_eq (hthin : Thinned g g') (hs : g.store.Adequate)
    (hs' : g'.store.Adequate)
    (hseed : ∀ i, isSeed g target i = isSeed g' target' (i.cast hthin.numStates))
    (log log' : Log) :
    ∃ t t', run g (Reachability.initial g target log) = .ok t ∧
      run g' (Reachability.initial g' target' log') = .ok t' ∧
      t.labels.solution = t'.labels.solution := by
  obtain ⟨t, hrun, ht, hdone⟩ := exists_reached_end target log hs
  obtain ⟨t', ht', hp, hnext⟩ := ht.exists_parallel hs hs' (hthin.parallel_initial hseed log log')
  have hdone' : t'.fresh? t'.next = none := by
    rw [ht'.atHead.fresh?_eq_none_iff, hp.size_arrivals, ← hnext]
    exact ht.atHead.fresh?_eq_none_iff.mp hdone
  exact ⟨t, t', hrun, ht'.run_eq.trans (run_of_done hdone'), hp.solution_eq⟩

end Runs

end ControlGames.Reachability
