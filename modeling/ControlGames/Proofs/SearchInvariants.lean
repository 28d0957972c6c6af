import ControlGames.Proofs.SearchStep

/-!
# Invariants of the search

The labels account for the visits made so far: the number of successors left of a pair, the worst
value among those counted, the queue of the states found in the order of their values, and what is
known of every state. Each part is kept by a visit to a slot of the state being expanded.
-/
namespace ControlGames.Reachability

variable {g : ReachabilityGame} {c : ℕ} {l l' : Labels g.store}
  {H : List (Visit g.store.numStates g.store.numInputs)}

/-- The value of a state once it has been found. -/
def Labels.rank {s : Store} (l : Labels s) (i : Fin s.numStates) : ℕ := (l.valueAt i).getD 0

section Rank

variable {s : Store} {l : Labels s} {i k : Fin s.numStates} {j : Fin s.numInputs} {a w : ℕ}

theorem Labels.rank_eq (h : l.valueAt i = some a) : l.rank i = a := by
  rw [rank, h, Option.getD_some]

theorem Labels.rank_found_self : (l.found i j w).rank i = w :=
  Labels.rank_eq (by rw [Labels.found_valueAt, if_pos rfl])

theorem Labels.rank_found_of_ne (h : i ≠ k) : (l.found i j w).rank k = l.rank k := by
  rw [rank, found_valueAt, if_neg h, rank]

end Rank

/-- The numbers kept for the pairs of a state and an input after the visits `H`. -/
structure Tally (g : ReachabilityGame) (H : List (Visit g.store.numStates g.store.numInputs))
    (c : ℕ) (l : Labels g.store) : Prop where
  remaining : ∀ (i : Fin g.store.numStates) j, g.avoid.contains i = false →
    l.remaining.get i j + Visit.count H i j = g.store.successorCountAt i j
  untouched : ∀ (i : Fin g.store.numStates) j, g.avoid.contains i = true →
    l.remaining.get i j = g.store.successorCountAt i j
  worst_le : ∀ i j, l.worst.get i j ≤ c
  lt_worst : ∀ v ∈ H, ∀ i j, v.hits i j = true → g.avoid.contains i = false →
    ∃ a < l.worst.get i j, l.valueAt v.post = some a
  exists_worst : ∀ i j a, l.worst.get i j = a + 1 →
    ∃ v ∈ H, v.hits i j = true ∧ l.valueAt v.post = some a

/-- The arrivals are the states found, each once, in the order of their values, which never skip a
number. -/
structure Queue (c : ℕ) (l : Labels g.store) : Prop where
  nodup : l.arrivals.toList.Nodup
  mem_iff : ∀ i, i ∈ l.arrivals.toList ↔ l.valueAt i ≠ none
  sorted : l.arrivals.toList.Pairwise fun i k => l.rank i ≤ l.rank k
  rank_le : ∀ p i, l.arrivals.toList[p]? = some i → l.rank i ≤ p
  value_le : ∀ i a, l.valueAt i = some a → a ≤ c

/-- What the labels say of the states: the seeds have value zero, any other state found has a
complete pair whose worst value is its own, and no complete pair beats the value of its state. -/
structure Verdict {α : Type} [StateSet α] (g : ReachabilityGame) (target : α)
    (l : Labels g.store) : Prop where
  seed : ∀ i, isSeed g target i = true →
    l.valueAt i = some 0 ∧ l.choiceAt i = homeChoice g.store i
  won : ∀ i a, isSeed g target i = false → l.valueAt i = some a →
    ∃ j, l.choiceAt i = some j ∧ g.avoid.contains i = false ∧ l.remaining.get i j = 0 ∧
      l.worst.get i j = a ∧ 0 < g.store.successorCountAt i j
  lost : ∀ i, l.valueAt i = none → l.choiceAt i = none
  complete : ∀ (i : Fin g.store.numStates) j, g.avoid.contains i = false →
    l.remaining.get i j = 0 → 0 < g.store.successorCountAt i j →
    ∃ a ≤ l.worst.get i j, l.valueAt i = some a

/-- The labels after the visits `H`, none of which was to a state of value `c` or more. -/
structure Account {α : Type} [StateSet α] (g : ReachabilityGame) (target : α)
    (H : List (Visit g.store.numStates g.store.numInputs)) (c : ℕ) (l : Labels g.store) : Prop
    extends Tally g H c l, Queue c l, Verdict g target l

/-- The steps at hand do not outnumber the states found. -/
theorem Queue.succ_le_size (h : Queue c l) {q : Fin g.store.numStates} {a : ℕ}
    (hq : l.valueAt q = some a) : a + 1 ≤ l.arrivals.size := by
  have hmem : q ∈ l.arrivals.toList := (h.mem_iff q).mpr (by rw [hq]; exact Option.some_ne_none a)
  obtain ⟨p, hp, hpq⟩ := List.mem_iff_getElem.mp hmem
  have hrank := h.rank_le p q (List.getElem?_eq_some_iff.mpr ⟨hp, hpq⟩)
  rw [Labels.rank_eq hq] at hrank
  rw [Array.length_toList] at hp
  omega

theorem Queue.size_le (h : Queue c l) : l.arrivals.size ≤ g.store.numStates := by
  have hcard := h.nodup.length_le_card
  rwa [Fintype.card_fin, Array.length_toList] at hcard

theorem Queue.size_lt (h : Queue c l) {i : Fin g.store.numStates} (hi : l.valueAt i = none) :
    l.arrivals.size < g.store.numStates := by
  have hout : i ∉ l.arrivals.toList := fun hmem => (h.mem_iff i).mp hmem hi
  have hcard := (List.nodup_cons.mpr ⟨hout, h.nodup⟩).length_le_card
  rwa [List.length_cons, Fintype.card_fin, Array.length_toList] at hcard

theorem Queue.rank_le_bound (h : Queue c l) (i : Fin g.store.numStates) : l.rank i ≤ c := by
  cases hi : l.valueAt i with
  | none =>
    rw [Labels.rank, hi]
    exact Nat.zero_le c
  | some a =>
    rw [Labels.rank_eq hi]
    exact h.value_le i a hi

/-- Values stay below the number of states, so the steps at hand fit in 32 bits. -/
theorem Queue.succ_lt_wordSize (h : Queue c l) {q : Fin g.store.numStates} {a : ℕ}
    (hq : l.valueAt q = some a) : a + 1 < wordSize := by
  have hsucc := h.succ_le_size hq
  have hsize := h.size_le
  have hreserved := g.store.sizes_le.1
  unfold reserved at hreserved
  omega

variable {α : Type} [StateSet α] {target : α} {j : Fin g.store.numInputs} {a : ℕ}
  {q : Fin g.store.numStates} {x : State}

theorem Account.below (h : Account g target H (a + 1) l) (hq : l.valueAt q = some a) :
    l.Below (a + 1) where
  worst_le := h.worst_le
  value_le := h.value_le
  room i hi := by
    have hsucc := h.toQueue.succ_le_size hq
    have hsize := h.toQueue.size_lt hi
    exact hsucc.trans_lt (hsize.trans_le g.store.sizes_le.1)

theorem Account.mono {d : ℕ} (h : Account g target H c l) (hcd : c ≤ d) : Account g target H d l :=
  { h with
    worst_le := fun i j => (h.worst_le i j).trans hcd
    value_le := fun i a hi => (h.value_le i a hi).trans hcd }

/-- Visits never change a value that is known, and let new states in only at the end. -/
theorem Relaxed.valueAt_eq (hr : Relaxed g j c l x l') {i : Fin g.store.numStates} {b : ℕ}
    (hi : l.valueAt i = some b) : l'.valueAt i = some b := by
  cases hr with
  | avoided hx => exact hi
  | counted h hk hopen => exact hi
  | found h hk hopen =>
    rw [Labels.found_valueAt, if_neg]
    · exact hi
    · rintro rfl
      rw [hopen] at hi
      cases hi

theorem Relaxed.arrivals_isPrefix (hr : Relaxed g j c l x l') :
    l.arrivals.toList <+: l'.arrivals.toList := by
  cases hr with
  | avoided hx => exact List.prefix_rfl
  | counted h hk hopen => exact List.prefix_rfl
  | found h hk hopen =>
    rw [Labels.found_arrivals]
    exact List.prefix_append _ _

/-- A visit to a slot with a state to avoid counts for no pair. -/
theorem Tally.skipped (h : Tally g H c l) (hx : g.avoid.contains x.id = true) :
    Tally g (H ++ [⟨q, j, x⟩]) c l := by
  have hmiss : ∀ (i : Fin g.store.numStates) j', g.avoid.contains i = false →
      (⟨q, j, x⟩ : Visit _ _).hits i j' ≠ true := by
    intro i j' hi hhits
    rw [← (Visit.hits_eq_true_iff.mp hhits).2, hx] at hi
    cases hi
  refine ⟨?_, h.untouched, h.worst_le, ?_, ?_⟩
  · intro i j' hi
    have hzero : Visit.count [⟨q, j, x⟩] i j' = 0 :=
      List.countP_eq_zero.mpr fun v hv => List.mem_singleton.mp hv ▸ hmiss i j' hi
    rw [Visit.count_append, hzero, Nat.add_zero]
    exact h.remaining i j' hi
  · intro v hv i j' hij hi
    rcases List.mem_append.mp hv with hv | hv
    · exact h.lt_worst v hv i j' hij hi
    · exact absurd hij (List.mem_singleton.mp hv ▸ hmiss i j' hi)
  · intro i j' b hb
    obtain ⟨v, hv, hrest⟩ := h.exists_worst i j' b hb
    exact ⟨v, List.mem_append_left _ hv, hrest⟩

/-- Any other visit counts one successor of its pair, for which it is the worst so far. -/
theorem Tally.visited (h : Tally g H (a + 1) l) (hq : l.valueAt q = some a)
    {i : Fin g.store.numStates} (hi : g.avoid.contains i = false)
    (hstable : ∀ {i b}, l.valueAt i = some b → l'.valueAt i = some b)
    (hremaining : ∀ i' j', l'.remaining.get i' j' + (if i = i' ∧ j = j' then 1 else 0) =
      l.remaining.get i' j')
    (hworst : ∀ i' j', l'.worst.get i' j' = if i = i' ∧ j = j' then a + 1 else l.worst.get i' j') :
    Tally g (H ++ [⟨q, j, g.store.state i⟩]) (a + 1) l' := by
  have hhits : ∀ i' j', (⟨q, j, g.store.state i⟩ : Visit _ _).hits i' j' = true ↔
      i = i' ∧ j = j' := by
    intro i' j'
    rw [Visit.hits_eq_true_iff]
    exact ⟨fun hh => ⟨Fin.ext hh.2, hh.1⟩, fun hh => ⟨hh.2, congrArg Fin.val hh.1⟩⟩
  constructor
  · intro i' j' hi'
    have hold := h.remaining i' j' hi'
    have hnew := hremaining i' j'
    have hone : Visit.count [⟨q, j, g.store.state i⟩] i' j' =
        if i = i' ∧ j = j' then 1 else 0 := by
      rw [Visit.count, List.countP_singleton]
      simp only [hhits]
    rw [Visit.count_append]
    omega
  · intro i' j' hi'
    have hne : ¬ (i = i' ∧ j = j') := by
      intro hij
      rcases hij with ⟨rfl, -⟩
      rw [hi] at hi'
      cases hi'
    have hnew := hremaining i' j'
    rw [if_neg hne, Nat.add_zero] at hnew
    rw [hnew, h.untouched i' j' hi']
  · intro i' j'
    rw [hworst]
    split
    · exact le_rfl
    · exact h.worst_le i' j'
  · intro v hv i' j' hij hi'
    rw [hworst]
    rcases List.mem_append.mp hv with hv | hv
    · obtain ⟨b, hb, hpost⟩ := h.lt_worst v hv i' j' hij hi'
      refine ⟨b, ?_, hstable hpost⟩
      split
      · exact hb.trans_le (h.worst_le i' j')
      · exact hb
    · rw [List.mem_singleton.mp hv] at hij ⊢
      rw [if_pos ((hhits i' j').mp hij)]
      exact ⟨a, a.lt_succ_self, hstable hq⟩
  · intro i' j' b hb
    rw [hworst] at hb
    split at hb
    · next hij =>
      refine ⟨_, List.mem_append_right _ (List.mem_singleton_self _), (hhits i' j').mpr hij, ?_⟩
      rw [← Nat.succ.inj hb]
      exact hstable hq
    · obtain ⟨v, hv, hij, hpost⟩ := h.exists_worst i' j' b hb
      exact ⟨v, List.mem_append_left _ hv, hij, hstable hpost⟩

theorem Tally.relaxed (h : Tally g H (a + 1) l) (hq : l.valueAt q = some a)
    (hr : Relaxed g j (a + 1) l x l') : Tally g (H ++ [⟨q, j, x⟩]) (a + 1) l' := by
  have hstable : ∀ {i b}, l.valueAt i = some b → l'.valueAt i = some b := hr.valueAt_eq
  cases hr with
  | avoided hx => exact h.skipped hx
  | @counted i k hi hk hopen =>
    refine h.visited hq hi hstable (fun i' j' => ?_) (fun i' j' => Labels.counted_worst ..)
    rw [Labels.counted_remaining]
    split
    · next hij => rw [← hij.1, ← hij.2, hk]
    · rfl
  | @found i hi hk hopen =>
    refine h.visited hq hi hstable (fun i' j' => ?_)
      (fun i' j' => Labels.counted_worst l i i' j j' 0 (a + 1))
    rw [Labels.found_remaining, Labels.counted_remaining]
    split
    · next hij => rw [← hij.1, ← hij.2, hk]
    · rfl

/-- A state found now goes to the end of the queue, where no value is larger than its own. -/
theorem Queue.found (h : Queue c l) {i : Fin g.store.numStates} (hi : l.valueAt i = none)
    (hc : c ≤ l.arrivals.size) : Queue c (l.found i j c) := by
  have hout : i ∉ l.arrivals.toList := fun hmem => (h.mem_iff i).mp hmem hi
  have hold : ∀ k ∈ l.arrivals.toList, (l.found i j c).rank k = l.rank k := fun k hk =>
    Labels.rank_found_of_ne fun hik => hout (hik ▸ hk)
  constructor
  · rw [Labels.found_arrivals]
    apply List.Nodup.append h.nodup (List.nodup_singleton i)
    rwa [List.disjoint_singleton]
  · intro k
    rw [Labels.found_arrivals, List.mem_append, List.mem_singleton, Labels.found_valueAt]
    split
    · next hik => exact ⟨fun _ => Option.some_ne_none _, fun _ => Or.inr hik.symm⟩
    · next hik =>
      rw [or_iff_left fun hki => hik hki.symm]
      exact h.mem_iff k
  · rw [Labels.found_arrivals, List.pairwise_append]
    refine ⟨?_, List.pairwise_singleton _ _, ?_⟩
    · refine h.sorted.imp_of_mem fun {k k'} hk hk' hle => ?_
      rw [hold k hk, hold k' hk']
      exact hle
    · intro k hk i' hi'
      rw [List.mem_singleton.mp hi', hold k hk, Labels.rank_found_self]
      exact h.rank_le_bound k
  · intro p k hp
    rw [Labels.found_arrivals, List.getElem?_append] at hp
    split at hp
    · rw [hold k (List.mem_of_getElem? hp)]
      exact h.rank_le p k hp
    · next hlen =>
      rw [List.getElem?_singleton] at hp
      split at hp
      · cases hp
        rw [Labels.rank_found_self]
        rw [Array.length_toList] at hlen
        omega
      · cases hp
  · intro k b hb
    rw [Labels.found_valueAt] at hb
    split at hb
    · exact (Option.some.inj hb).ge
    · exact h.value_le k b hb

theorem Queue.counted (h : Queue c l) (i : Fin g.store.numStates) (j : Fin g.store.numInputs)
    (k w : ℕ) : Queue c (l.counted i j k w) :=
  ⟨h.nodup, h.mem_iff, h.sorted, h.rank_le, h.value_le⟩

theorem Queue.relaxed (h : Queue (a + 1) l) (hq : l.valueAt q = some a)
    (hr : Relaxed g j (a + 1) l x l') : Queue (a + 1) l' := by
  cases hr with
  | avoided hx => exact h
  | counted hi hk hopen => exact h.counted ..
  | found hi hk hopen => exact (h.counted ..).found hopen (h.succ_le_size hq)

/-- Counting a successor completes a pair of a state already found, or none. -/
theorem Verdict.counted (h : Verdict g target l) (hQ : Queue c l) {i : Fin g.store.numStates}
    {k : ℕ} (hk : l.remaining.get i j = k + 1) (hopen : k = 0 → l.valueAt i ≠ none) :
    Verdict g target (l.counted i j k c) := by
  refine ⟨h.seed, ?_, h.lost, ?_⟩
  · intro i' b hseed hb
    obtain ⟨j', hchoice, hi', hzero, hworst, hpos⟩ := h.won i' b hseed hb
    have hne : ¬ (i = i' ∧ j = j') := by
      intro hij
      rcases hij with ⟨rfl, rfl⟩
      omega
    refine ⟨j', hchoice, hi', ?_, ?_, hpos⟩
    · rw [Labels.counted_remaining, if_neg hne, hzero]
    · rw [Labels.counted_worst, if_neg hne, hworst]
  · intro i' j' hi' hzero hpos
    rw [Labels.counted_remaining] at hzero
    rw [Labels.counted_worst]
    split at hzero
    · next hij =>
      obtain ⟨b, hb⟩ := Option.ne_none_iff_exists'.mp (hopen hzero)
      rw [if_pos hij]
      exact ⟨b, hQ.value_le i b hb, hij.1 ▸ hb⟩
    · next hij =>
      rw [if_neg hij]
      exact h.complete i' j' hi' hzero hpos

/-- Counting the last successor of a pair is the verdict for a state not found before. -/
theorem Verdict.found (h : Verdict g target l) {i : Fin g.store.numStates}
    (hi : g.avoid.contains i = false) (hopen : l.valueAt i = none)
    (hpos : 0 < g.store.successorCountAt i j) :
    Verdict g target ((l.counted i j 0 c).found i j c) := by
  refine ⟨?_, ?_, ?_, ?_⟩
  · intro i' hseed
    obtain ⟨hvalue, hchoice⟩ := h.seed i' hseed
    have hne : i ≠ i' := by
      rintro rfl
      rw [hopen] at hvalue
      cases hvalue
    rw [Labels.found_valueAt, Labels.found_choiceAt, if_neg hne, if_neg hne]
    exact ⟨hvalue, hchoice⟩
  · intro i' b hseed hb
    rw [Labels.found_valueAt] at hb
    rw [Labels.found_choiceAt]
    split at hb
    · next hii =>
      subst hii
      refine ⟨j, if_pos rfl, hi, ?_, ?_, hpos⟩
      · rw [Labels.found_remaining, Labels.counted_remaining, if_pos ⟨rfl, rfl⟩]
      · rw [Labels.found_worst, Labels.counted_worst, if_pos ⟨rfl, rfl⟩]
        exact Option.some.inj hb
    · next hii =>
      have hne : ∀ j', ¬ (i = i' ∧ j = j') := fun j' hij => hii hij.1
      obtain ⟨j', hchoice, hi', hzero, hworst, hpos⟩ := h.won i' b hseed hb
      refine ⟨j', (if_neg hii).trans hchoice, hi', ?_, ?_, hpos⟩
      · rw [Labels.found_remaining, Labels.counted_remaining, if_neg (hne j'), hzero]
      · rw [Labels.found_worst, Labels.counted_worst, if_neg (hne j'), hworst]
  · intro i' hnone
    rw [Labels.found_valueAt] at hnone
    rw [Labels.found_choiceAt]
    split at hnone
    · cases hnone
    · next hii => exact (if_neg hii).trans (h.lost i' hnone)
  · intro i' j' hi' hzero hpos
    rw [Labels.found_remaining, Labels.counted_remaining] at hzero
    rw [Labels.found_worst, Labels.counted_worst, Labels.found_valueAt]
    split at hzero
    · next hij => exact ⟨c, by rw [if_pos hij], if_pos hij.1⟩
    · next hij =>
      obtain ⟨b, hb, hvalue⟩ := h.complete i' j' hi' hzero hpos
      have hii : i ≠ i' := by
        rintro rfl
        rw [hopen] at hvalue
        cases hvalue
      rw [if_neg hij]
      exact ⟨b, hb, (if_neg hii).trans hvalue⟩

theorem Verdict.relaxed (h : Verdict g target l) (hT : Tally g H (a + 1) l)
    (hQ : Queue (a + 1) l) (hr : Relaxed g j (a + 1) l x l') : Verdict g target l' := by
  cases hr with
  | avoided hx => exact h
  | counted hi hk hopen => exact h.counted hQ hk hopen
  | @found i hi hk hopen =>
    have hcount := hT.remaining i j hi
    exact h.found hi hopen (by omega)

/-- A visit to a slot of a state of value `a` keeps the account. -/
theorem Account.relaxed (h : Account g target H (a + 1) l) (hq : l.valueAt q = some a)
    (hr : Relaxed g j (a + 1) l x l') : Account g target (H ++ [⟨q, j, x⟩]) (a + 1) l' where
  toTally := h.toTally.relaxed hq hr
  toQueue := h.toQueue.relaxed hq hr
  toVerdict := h.toVerdict.relaxed h.toTally h.toQueue hr

end ControlGames.Reachability
