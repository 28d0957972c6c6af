import ControlGames.Proofs.PeelingInvariants

/-!
# Runs of the peeling

At the head of its loop the peeling has visited the slots of the arrivals before the next one. At
the end it has visited those of all arrivals, which are then all losing states, and a bit is on just
if its input is permitted. All that this takes of a store is that its groups lie inside the flat
array.
-/
namespace ControlGames.Invariance

variable {s : Store} {α : Type} [StateSet α] {safe : α} {p p' : Peeling s}

theorem Pruned.arrivals_isPrefix {k : Fin s.numStates} {j : Fin s.numInputs} {x : State}
    (hr : Pruned k j p x p') : p.losing.arrivals.toList <+: p'.losing.arrivals.toList := by
  cases hr with
  | kept hx => exact List.prefix_rfl
  | dropped hi hc hopen => exact List.prefix_rfl
  | lost hi hc hnew =>
    rw [Peeling.lost_losing, Worklist.arrivals_enter]
    exact List.prefix_append _ _

/-- Peeling off one more losing state succeeds and adds its visits. -/
theorem exists_peel_eq_ok (hin : s.Inside) {E : List (Fin s.numStates)}
    (h : Progress s safe (E.flatMap s.visits) p) {k : Fin s.numStates} (hk : Losing s safe k) :
    ∃ p', peel k p = .ok p' ∧ Progress s safe ((E ++ [k]).flatMap s.visits) p' ∧
      p.losing.arrivals.toList <+: p'.losing.arrivals.toList := by
  rw [peel_eq_foldlM hin, List.flatMap_append, List.flatMap_singleton]
  refine exists_foldlM_eq_ok (fun done p' =>
    Progress s safe (E.flatMap s.visits ++ done) p' ∧
      p.losing.arrivals.toList <+: p'.losing.arrivals.toList) ?_
    ⟨by rwa [List.append_nil], List.prefix_rfl⟩
  rintro done v rest p₁ hsplit ⟨hprog, hgrow⟩
  obtain ⟨hpost, hlisted⟩ :=
    Store.mem_visits.mp (hsplit ▸ List.mem_append_right done List.mem_cons_self)
  obtain ⟨p₂, hp₂, hr⟩ := hprog.exists_pruned k v.input v.pre
  refine ⟨p₂, hp₂, ?_, hgrow.trans hr.arrivals_isPrefix⟩
  have hnext := hprog.pruned (hpost ▸ hlisted) hk hr
  rw [List.append_assoc, ← hpost] at hnext
  exact hnext

theorem Progress.exists_turn_eq_ok (hin : s.Inside) {next : ℕ}
    (h : Progress s safe ((p.losing.arrivals.toList.take next).flatMap s.visits) p)
    (hlt : next < p.losing.arrivals.size) :
    ∃ p', peel p.losing.arrivals[next] p = .ok p' ∧
      Progress s safe ((p'.losing.arrivals.toList.take (next + 1)).flatMap s.visits) p' ∧
      p.losing.arrivals.toList <+: p'.losing.arrivals.toList := by
  have hlen : next < p.losing.arrivals.toList.length := by rwa [Array.length_toList]
  have hlosing := h.losing _ (List.getElem_mem hlen)
  obtain ⟨p', hp', hprog, hgrow⟩ := exists_peel_eq_ok hin h hlosing
  rw [Array.getElem_toList] at hp'
  refine ⟨p', hp', ?_, hgrow⟩
  rw [take_succ_of_isPrefix hgrow hlen]
  exact hprog

/-- From every head of its loop the peeling ends with all arrivals visited. -/
theorem exists_run_eq_ok (hin : s.Inside) (next : ℕ)
    (h : Progress s safe ((p.losing.arrivals.toList.take next).flatMap s.visits) p) :
    ∃ p', run p next = .ok p' ∧
      Progress s safe (p'.losing.arrivals.toList.flatMap s.visits) p' := by
  fun_induction run p next with
  | case1 p next hlt q hq ih =>
    obtain ⟨q', hq', hprog, -⟩ := h.exists_turn_eq_ok hin hlt
    rw [hq, Except.ok.injEq] at hq'
    exact ih (hq' ▸ hprog)
  | case2 p next hlt e he =>
    obtain ⟨q', hq', -⟩ := h.exists_turn_eq_ok hin hlt
    rw [he] at hq'
    cases hq'
  | case3 p next hge =>
    refine ⟨p, rfl, ?_⟩
    rwa [List.take_of_length_le] at h
    rw [Array.length_toList]
    omega

section Initial

variable (s safe) (log : Log)

private theorem contains_initialBits (b : ℕ) : (initialBits s safe).contains b = true ↔
    ∃ i j, isValidFirst s safe i j = true ∧ Region.bit s.numInputs i j = b := by
  rw [initialBits, IndexSet.contains_insertMany, IndexSet.contains_withCapacity, Bool.or_false,
    decide_eq_true_iff]
  simp only [initialRow, List.mem_flatMap, List.mem_map, List.mem_filter, List.mem_finRange,
    true_and]

private theorem holds_initial (i : Fin s.numStates) (j : Fin s.numInputs) :
    (initial s safe log).holds i j = isValidFirst s safe i j := by
  rw [Bool.eq_iff_iff]
  refine (contains_initialBits s safe _).trans ?_
  constructor
  · intro h
    rcases h with ⟨i', j', hvalid, hbit⟩
    obtain ⟨hi, rfl⟩ := Region.bit_inj.mp hbit
    rwa [Fin.ext hi] at hvalid
  · intro hvalid
    exact ⟨i, j, hvalid, rfl⟩

private theorem countAt_initial (i : Fin s.numStates) : (initial s safe log).countAt i =
    (List.finRange s.numInputs).countP (isValidFirst s safe i) :=
  cell_ofFn ..

private theorem lt_of_mem_initialRow {i : Fin s.numStates} {b : ℕ} (hb : b ∈ initialRow s safe i) :
    b < s.numStates * s.numInputs := by
  obtain ⟨j, -, rfl⟩ := List.mem_map.mp hb
  exact Region.bit_lt i j

theorem matrix_initial : Matrix s safe [] (initial s safe log) where
  fits := by
    refine (IndexSet.fits_withCapacity _).insertMany fun b hb => ?_
    obtain ⟨i, -, hrow⟩ := List.mem_flatMap.mp hb
    exact lt_of_mem_initialRow s safe hrow
  inside b hb := by
    obtain ⟨i, j, -, hbit⟩ := (contains_initialBits s safe b).mp hb
    exact ⟨i, j, hbit.symm⟩
  holds_iff i j := by
    rw [holds_initial, iff_self_and]
    exact fun _ => nofun
  countAt_eq i := by
    rw [countAt_initial]
    congr 1
    funext j
    rw [holds_initial]

theorem progress_initial : Progress s safe [] (initial s safe log) := by
  have hmatrix := matrix_initial s safe log
  have hmem : ∀ i, i ∈ (initial s safe log).losing.arrivals.toList ↔
      (initial s safe log).countAt i = 0 := fun i =>
    (Worklist.mem_ofPred _ i).trans beq_iff_eq
  have hlosing : ∀ i ∈ (initial s safe log).losing.arrivals.toList, Losing s safe i := fun i hi =>
    hmatrix.losing_of_countAt_eq_zero nofun ((hmem i).mp hi)
  exact ⟨hmatrix, ⟨Worklist.faithful_ofPred _, hmem, hlosing, nofun⟩⟩

end Initial

/-- Once the slots of some states have been visited, a bit is on just if its input is valid at first
and leads to none of them. -/
theorem Matrix.holds_iff_of_flatMap {L : List (Fin s.numStates)}
    (h : Matrix s safe (L.flatMap s.visits) p) (i : Fin s.numStates) (j : Fin s.numInputs) :
    p.holds i j = true ↔ isValidFirst s safe i j = true ∧ ∀ k ∈ L, ¬ s.Leads i j k := by
  rw [h.holds_iff]
  apply and_congr_right'
  constructor
  · intro hmiss k hk hleads
    obtain ⟨v, hv, hhits, -⟩ := Store.exists_hits_iff.mpr ⟨hk, hleads⟩
    rw [hmiss v hv] at hhits
    cases hhits
  · intro hall v hv
    rw [Bool.eq_false_iff]
    intro hhits
    obtain ⟨hk, hleads⟩ := Store.exists_hits_iff.mp ⟨v, hv, hhits, rfl⟩
    exact hall v.post hk hleads

theorem Progress.mem_arrivals_iff
    (h : Progress s safe (p.losing.arrivals.toList.flatMap s.visits) p) (i : Fin s.numStates) :
    i ∈ p.losing.arrivals.toList ↔ Losing s safe i := by
  constructor
  · exact h.losing i
  · intro hi
    induction hi with
    | intro i next hleads hlosing ih =>
      rw [h.mem_iff, h.countAt_eq_zero_iff]
      intro j
      rw [Bool.eq_false_iff, ne_eq, h.holds_iff_of_flatMap]
      intro hon
      rcases hon with ⟨hvalid, hmiss⟩
      exact hmiss _ (ih j hvalid) (hleads j hvalid)

theorem Progress.holds_iff_permitted
    (h : Progress s safe (p.losing.arrivals.toList.flatMap s.visits) p) (i : Fin s.numStates)
    (j : Fin s.numInputs) : p.holds i j = true ↔ Permitted s safe i j := by
  rw [h.holds_iff_of_flatMap, Permitted]
  apply and_congr_right'
  simp only [h.mem_arrivals_iff]
  exact forall_congr' fun k => imp_not_comm

end ControlGames.Invariance
