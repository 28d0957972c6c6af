import ControlGames.Proofs.FindingOrder
import ControlGames.Proofs.ReachAvoidPlays

/-!
# Sequences of winning states

The winning states of a game on a built store stand in a sequence, the order in which the search
finds them. States of lower rank come first. Among the pairs of a state that lead to winning states
only, the pair of the chosen input gets complete first, and states outside the target follow each
other as these pairs get complete.
-/
namespace ControlGames

theorem idxOf_lt_of_pairwise {α : Type} [DecidableEq α] {r : α → α → Prop} {xs : List α}
    (h : xs.Pairwise r) {x y : α} (hx : x ∈ xs) (hy : y ∈ xs) (hne : x ≠ y) (hyx : ¬ r y x) :
    xs.idxOf x < xs.idxOf y := by
  have hix := List.idxOf_lt_length_of_mem hx
  have hiy := List.idxOf_lt_length_of_mem hy
  rcases lt_trichotomy (xs.idxOf x) (xs.idxOf y) with hlt | heq | hlt
  · exact hlt
  · exact absurd ((List.idxOf_inj hx).mp heq) hne
  · have hr := List.pairwise_iff_getElem.mp h _ _ hiy hix hlt
    rw [List.getElem_idxOf, List.getElem_idxOf] at hr
    exact absurd hr hyx

section Sequence

variable {n m : ℕ}

/-- The states of finite rank in a sequence that follows from the relation and the ranks. -/
structure WinningSequence (R : Fin n → Fin m → Fin n → Prop) [∀ i j, DecidablePred (R i j)]
    (val : Fin n → Option ℕ) (c : Fin n → Option (Fin m)) (order : List (Fin n)) : Prop where
  mem_iff : ∀ i, i ∈ order ↔ ∃ a, val i = some a
  ranked : order.Pairwise fun i k => ∀ a b, val i = some a → val k = some b → a ≤ b
  least : ∀ i a, val i = some (a + 1) → ∃ j, c i = some j ∧ Forces R i j {k | k ∈ order} ∧
    ∀ j', Forces R i j' {k | k ∈ order} → finish R order i j ≤ finish R order i j'
  sorted : order.Pairwise fun i k => ∀ a b j j', val i = some (a + 1) → val k = some (b + 1) →
    c i = some j → c k = some j' → finish R order i j < finish R order k j'

namespace WinningSequence

variable {R : Fin n → Fin m → Fin n → Prop} [∀ i j, DecidablePred (R i j)] {val : Fin n → Option ℕ}
  {c : Fin n → Option (Fin m)} {order : List (Fin n)} (h : WinningSequence R val c order)
  {i k : Fin n} {a b : ℕ}

include h

theorem mem_of_val (hi : val i = some a) : i ∈ order := (h.mem_iff i).mpr ⟨a, hi⟩

theorem idxOf_lt_of_lt (hi : val i = some a) (hk : val k = some b) (hab : a < b) :
    order.idxOf i < order.idxOf k := by
  refine idxOf_lt_of_pairwise h.ranked (h.mem_of_val hi) (h.mem_of_val hk) ?_ fun hki =>
    hab.not_ge (hki b a hk hi)
  rintro rfl
  exact hab.ne (Option.some.inj (hi.symm.trans hk))

theorem idxOf_lt_of_finish_lt {j j' : Fin m} (hi : val i = some (a + 1)) (hk : val k = some (b + 1))
    (hj : c i = some j) (hj' : c k = some j') (hlt : finish R order i j < finish R order k j') :
    order.idxOf i < order.idxOf k := by
  refine idxOf_lt_of_pairwise h.sorted (h.mem_of_val hi) (h.mem_of_val hk) ?_ fun hki =>
    lt_asymm hlt (hki b a j' j hk hi hj' hj)
  rintro rfl
  cases Option.some.inj (hj.symm.trans hj')
  exact lt_irrefl _ hlt

/-- An input is chosen if the last of its successors comes before that of any other input that leads
to winning states only. -/
theorem choice_eq {j : Fin m} (hi : val i = some (a + 1)) (hj : Forces R i j {k | k ∈ order})
    (hlt : ∀ j', j' ≠ j → Forces R i j' {k | k ∈ order} →
      lastPos R order i j < lastPos R order i j') : c i = some j := by
  obtain ⟨j', hc, hforces, hleast⟩ := h.least i a hi
  by_contra hne
  have hlt := hlt j' (fun heq => hne (heq ▸ hc)) hforces
  exact absurd (hleast j hj) (finish_lt_finish hlt.le le_rfl (.inl hlt)).not_ge

end WinningSequence

end Sequence

theorem Solution.FoundInOrder.winningSequence {sol : Solution} {s : Store}
    {R : Fin s.numStates → Fin s.numInputs → Fin s.numStates → Prop}
    [∀ i j, DecidablePred (R i j)] {T A : Set (Fin s.numStates)} {order : List (Fin s.numStates)}
    (h : sol.FoundInOrder R T A order) {val : Fin s.numStates → Option ℕ}
    {c : Fin s.numStates → Option (Fin s.numInputs)} (htells : sol.Tells s val c)
    (hrank : Ranking R T A val c) (hchosen : ∀ i, (c i).isSome = true ↔ ∃ a, val i = some a)
    (hranked : order.Pairwise fun i k => ∀ a b, val i = some a → val k = some b → a ≤ b) :
    WinningSequence R val c order := by
  have hmem : ∀ i, i ∈ order ↔ ∃ a, val i = some a := by
    intro i
    rw [h.mem_iff, htells.isWinning, Except.ok.injEq, hchosen]
  obtain ⟨first, rest, hsplit, -, hfirst, hrest, hsorted⟩ := h.parts
  have hhome : ∀ i ∈ first, ∀ a, val i ≠ some (a + 1) := by
    intro i hi a ha
    cases ((hrank.zero_iff i).mpr ((hfirst i).mp hi)).symm.trans ha
  refine ⟨hmem, hranked, fun i a hi => ?_, ?_⟩
  · have hlist : i ∈ first ++ rest.map Win.state := hsplit ▸ (hmem i).mpr ⟨_, hi⟩
    have hlater := (List.mem_append.mp hlist).resolve_left fun hfirst => hhome i hfirst a hi
    obtain ⟨w, hw, rfl⟩ := List.mem_map.mp hlater
    obtain ⟨hwitness, hforces, hleast⟩ := hrest w hw
    exact ⟨w.input, htells.witness_eq_iff.mp hwitness, hforces, hleast⟩
  · -- Nothing is said of the target states, which come first.
    have hparts : ∀ r, (first ++ rest.map Win.state).Pairwise r → order.Pairwise r :=
      fun r hr => hsplit ▸ hr
    refine hparts _ (List.pairwise_append.mpr ⟨?_, ?_, ?_⟩)
    · exact List.pairwise_of_forall_mem_list fun i hi _ _ a _ _ _ ha => absurd ha (hhome i hi a)
    · refine List.pairwise_map.mpr (hsorted.imp_of_mem fun {w w'} hw hw' hlt => ?_)
      intro a b j j' _ _ hj hj'
      rw [htells.witness_eq_iff.mp (hrest w hw).1] at hj
      rw [htells.witness_eq_iff.mp (hrest w' hw').1] at hj'
      cases hj
      cases hj'
      exact hlt
    · exact fun i hi _ _ a _ _ _ ha => absurd ha (hhome i hi a)

open Reachability in
/-- On a built store the order of finding is a sequence of the winning states. -/
theorem Builder.exists_sequence_of_solve {b : Builder} {mem mem' : Memory} {s : Store}
    (hb : (b.build mem).result = .ok s) {α β : Type} [StateSet α] [StateSet β] {target : α}
    {avoid : β} {sol : Solution} (hpos : 0 < s.numInputs)
    (hsol : (((ReachabilityGame.new s).avoiding avoid).solve mem' target).result = .ok sol)
    {val : Fin s.numStates → Option ℕ} {c : Fin s.numStates → Option (Fin s.numInputs)}
    (htells : sol.Tells s val c)
    (hrank : Ranking b.Leads (s.members target) (s.members avoid) val c)
    (hchosen : ∀ i, (c i).isSome = true ↔ ∃ a, val i = some a) :
    ∃ order, WinningSequence b.Leads val c order := by
  obtain ⟨u, hu, hdone, hread, hfound⟩ := exists_foundInOrder_of_solve
    (g := (ReachabilityGame.new s).avoiding avoid) (exact_of_build hb)
    (pairwise_listed_of_build hb) hpos hsol
  have hfound : sol.FoundInOrder (s := s) s.Leads (s.members target)
      {i | ((ReachabilityGame.new s).avoiding avoid).avoid.contains i = true} u.past := hfound
  refine ⟨u.past, (hfound.congr (leads_of_build hb)
    (Set.ext (ReachabilityGame.contains_avoiding s avoid))).winningSequence htells hrank hchosen ?_⟩
  -- The search finds states in the order of their values.
  obtain ⟨_, hacc, -⟩ := hu.atHead.account
  have hval : ∀ (i : Fin s.numStates) a, val i = some a → u.labels.rank i = a := by
    intro i a hi
    have hget : sol.value.get (s.state i) = .ok (u.labels.valueAt i) := hread ▸ u.labels.tells.get i
    exact Labels.rank_eq ((Except.ok.inj (hget.symm.trans (htells.get i))).trans hi)
  rw [(hu.past_eq hdone).2]
  refine hacc.sorted.imp fun {i k} hle a b hi hk => ?_
  rwa [hval i a hi, hval k b hk] at hle

end ControlGames
