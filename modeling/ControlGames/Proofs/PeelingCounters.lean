import ControlGames.Proofs.PeelingLog

/-!
# Counters of the peeling

The counters of the peeling balance at every head of its loop, whatever the groups list. The number
kept for a state is that of its bits, and a state has entered the worklist, once, just if it has
none. A bit that was on at first is off just if its input may lead to a state taken out, and as many
inputs have been taken away as bits have gone off.
-/
namespace ControlGames

namespace Invariance

variable {s : Store} {α : Type} [StateSet α] {safe : α} {log : Log} {k : ℕ} {p : Peeling s}

/-- The counters of a peeling that has taken the first `k` arrivals out of its worklist. A state
counts the bits of its row, and it has arrived once if it has none, and else not at all. A bit is on
just if its input can be applied at a safe state and leads to none of the states taken out. The bits
that are on and the inputs taken away add up to the bits that were on at first. -/
structure Peeling.Balanced (p : Peeling s) (safe : α) (k : ℕ) : Prop where
  counted : ∀ i, p.countAt i = {j | p.holds i j = true}.ncard
  entered_iff : ∀ i, p.losing.entered.isMarked i = true ↔ p.countAt i = 0
  arrived : ∀ i, p.losing.arrivals.toList.count i = if p.countAt i = 0 then 1 else 0
  holds_iff : ∀ i j, p.holds i j = true ↔ i ∈ s.members safe ∧ 0 < s.successorCountAt i j ∧
    ∀ q ∈ p.losing.arrivals.toList.take k, ¬ s.Leads i j q
  total : p.valid.members.ncard + p.invalidated = (initialBits s safe).members.ncard
  count_eq : p.valid.count = p.valid.members.ncard

theorem Matrix.countAt_eq_ncard {H : List (Visit s.numStates s.numInputs)}
    (h : Matrix s safe H p) (i : Fin s.numStates) :
    p.countAt i = {j | p.holds i j = true}.ncard := by
  have hmem : ∀ j, j ∈ {j | p.holds i j = true} ↔
      j ∈ (List.finRange s.numInputs).filter (p.holds i) := by
    intro j
    simp
  rw [ncard_eq_length ((List.nodup_finRange _).filter _) hmem, ← List.countP_eq_length_filter,
    h.countAt_eq]

/-- At any moment a state has arrived once if it has no bits left, and else not at all. -/
theorem Losers.count_arrivals {H : List (Visit s.numStates s.numInputs)}
    (h : Losers s safe H p) (i : Fin s.numStates) :
    p.losing.arrivals.toList.count i = if p.countAt i = 0 then 1 else 0 := by
  rw [h.faithful.nodup.count]
  exact if_congr (h.mem_iff i) rfl rfl

theorem AfterVisits.ncard_members_add {H : List (Visit s.numStates s.numInputs)}
    (hp : AfterVisits s safe log H p) :
    p.valid.members.ncard + p.invalidated = (initialBits s safe).members.ncard := by
  have hcounted : p.valid.Counted := hp.progress.fits.counted
  have hinitial : (initialBits s safe).Counted := (matrix_initial s safe log).fits.counted
  rw [← hcounted, ← hinitial, Nat.add_comm]
  exact hp.invalidated_add_count

theorem Reached.exists_next (hin : s.Inside) (hp : Reached s safe log k p)
    (hk : k < p.losing.arrivals.size) :
    ∃ q, peel p.losing.arrivals[k] p = .ok q ∧ Reached s safe log (k + 1) q := by
  obtain ⟨q, hq, -⟩ := hp.afterVisits.2.progress.exists_turn_eq_ok hin hk
  exact ⟨q, hq, hp.peeled hk hq⟩

end Invariance

open Invariance in
/-- On a store whose groups lie inside the flat array the counters balance at every head that the
peeling gets to from its start. From each it gets to the next until the worklist is empty, and the
region that a game returns is read off the bits that are on then. -/
theorem Store.peeling_balanced {s : Store} (hin : s.Inside) {α : Type} [StateSet α] {safe : α}
    {log : Log} {k : ℕ} {p : Peeling s} (hp : Reached s safe log k p) :
    p.Balanced safe k ∧
    (∀ hk : k < p.losing.arrivals.size,
      ∃ q, peel p.losing.arrivals[k] p = .ok q ∧ Reached s safe log (k + 1) q) ∧
    run (initial s safe log) 0 = run p k ∧
    ∃ q, run p k = .ok q ∧ Reached s safe log q.losing.arrivals.size q ∧
      ∀ mem r, log = openingLog s → (s.solveInvariance mem safe).result = .ok r →
        r = Region.ofMatrix s.sizes_le q.valid := by
  have hafter := hp.afterVisits.2
  have hprogress := hafter.progress
  obtain ⟨q, hq, hend⟩ := hp.exists_run_eq_ok hin
  refine ⟨⟨hprogress.countAt_eq_ncard, fun i => ?_, hprogress.count_arrivals, fun i j => ?_,
    hafter.ncard_members_add, hprogress.fits.counted⟩, fun hk => hp.exists_next hin hk, hp.run_eq,
    q, hq, hend, ?_⟩
  · rw [hprogress.faithful.isMarked_iff, hprogress.mem_iff]
  · rw [hprogress.holds_iff_of_flatMap, isValidFirst_eq_true_iff, and_assoc]
  · rintro mem r rfl hr
    obtain ⟨-, -, q', hq', rfl⟩ := solveInvariance_eq_ok_iff.mp hr
    rw [Except.ok.inj ((hp.run_eq.trans hq).symm.trans hq')]

open Invariance in
/-- On the scrambled store state 3 has no input from the start, so at the end it has been taken out,
and state 2, which its group lists twice, has entered the worklist once. -/
theorem Store.peeling_balanced_scrambled :
    scrambled.Inside ∧ ∃ p : Peeling scrambled,
      run (initial scrambled StateSet.everything #[]) 0 = .ok p ∧
      Reached scrambled StateSet.everything #[] p.losing.arrivals.size p ∧
      p.holds (2 : Fin 4) (0 : Fin 1) = false ∧
      p.losing.arrivals.toList.count (2 : Fin 4) = 1 := by
  have hin : scrambled.Inside := inside_iff.mpr (by decide)
  have hinitial : Reached scrambled StateSet.everything #[] 0 (initial scrambled _ _) := .initial
  obtain ⟨p, hrun, hp⟩ := hinitial.exists_run_eq_ok hin
  obtain ⟨hbalanced, -⟩ := peeling_balanced hin hp
  have hlost : ∀ i, (∀ j, p.holds i j = false) → p.losing.arrivals.toList.count i = 1 := by
    intro i hi
    have hnone : {j | p.holds i j = true} = ∅ :=
      Set.eq_empty_of_forall_notMem fun j => Bool.eq_false_iff.mp (hi j)
    have hcount : p.countAt i = 0 := by rw [hbalanced.counted, hnone, Set.ncard_empty]
    rw [hbalanced.arrived, if_pos hcount]
  have hblocked : ∀ j, ¬ 0 < scrambled.successorCountAt (3 : Fin 4) j := by decide
  have hleads : ∀ j, scrambled.state (2 : Fin 4) ∈ scrambled.listed (3 : Fin 4) j := by decide
  have hthree := hlost (3 : Fin 4) fun j => Bool.eq_false_iff.mpr fun hj =>
    hblocked j ((hbalanced.holds_iff _ j).mp hj).2.1
  have htaken : (3 : Fin 4) ∈ p.losing.arrivals.toList.take p.losing.arrivals.size := by
    rw [List.take_of_length_le Array.length_toList.le]
    exact List.count_pos_iff.mp (hthree ▸ Nat.one_pos)
  have htwo : ∀ j, p.holds (2 : Fin 4) j = false := fun j => Bool.eq_false_iff.mpr fun hj =>
    ((hbalanced.holds_iff _ j).mp hj).2.2 _ htaken (hleads j)
  exact ⟨hin, p, hrun, hp, htwo (0 : Fin 1), hlost _ htwo⟩

end ControlGames
