import ControlGames.Proofs.InvarianceKernel

/-!
# The peeling at the head of its loop

The peeling goes on by visits to slots of losing states, and what every visit keeps holds at any
moment. This asks nothing of the store. At the head of its loop the peeling has taken some states
out of the worklist, one with each turn. It ends when it has taken out all that have arrived. These
are the losing states, so their number and the size of the region add up to the number of states.
-/
namespace ControlGames.Invariance

variable {s : Store} {α : Type} [StateSet α] {safe : α} {log : Log} {k : ℕ} {p q : Peeling s}
  {H : List (Visit s.numStates s.numInputs)}

/-- The peeling after the visits `H`, each of them to a slot of a state found losing before. -/
inductive AfterVisits (s : Store) {α : Type} [StateSet α] (safe : α) (log : Log) :
    List (Visit s.numStates s.numInputs) → Peeling s → Prop
  | initial : AfterVisits s safe log [] (Invariance.initial s safe log)
  | visit {H : List (Visit s.numStates s.numInputs)} {k : Fin s.numStates}
      {v : Visit s.numStates s.numInputs} {p q : Peeling s} (hp : AfterVisits s safe log H p)
      (hk : k ∈ p.losing.arrivals.toList) (hv : v ∈ s.visits k) (hq : Pruned k v.input p v.pre q) :
      AfterVisits s safe log (H ++ [v]) q

theorem AfterVisits.progress (hp : AfterVisits s safe log H p) : Progress s safe H p := by
  induction hp with
  | initial => exact progress_initial s safe log
  | visit hp hk hv hq ih =>
    obtain ⟨rfl, hlisted⟩ := Store.mem_visits.mp hv
    exact ih.pruned hlisted (ih.losing _ hk) hq

/-- Peeling off a state that has been found losing adds its visits. -/
theorem AfterVisits.peeled (hp : AfterVisits s safe log H p) {i : Fin s.numStates}
    (hi : i ∈ p.losing.arrivals.toList) (hq : peel i p = .ok q) :
    AfterVisits s safe log (H ++ s.visits i) q ∧
      p.losing.arrivals.toList <+: q.losing.arrivals.toList := by
  refine foldlM_keeps (fun done p₁ => AfterVisits s safe log (H ++ done) p₁ ∧
      p.losing.arrivals.toList <+: p₁.losing.arrivals.toList) ?_
    ⟨by rwa [List.append_nil], List.prefix_rfl⟩ (foldlM_visits_of_peel hq)
  rintro done v rest p₁ p₂ hsplit ⟨hafter, hgrow⟩ hp₂
  have hv : v ∈ s.visits i := hsplit ▸ List.mem_append_right done List.mem_cons_self
  obtain ⟨p₃, hp₃, hr⟩ := hafter.progress.exists_pruned i v.input v.pre
  rw [hp₂, Except.ok.injEq] at hp₃
  subst hp₃
  have hnext := hafter.visit (hgrow.subset hi) hv hr
  rw [List.append_assoc] at hnext
  exact ⟨hnext, hgrow.trans hr.arrivals_isPrefix⟩

/-- The peeling after the given number of states has been taken out of the worklist. -/
inductive Reached (s : Store) {α : Type} [StateSet α] (safe : α) (log : Log) :
    ℕ → Peeling s → Prop
  | initial : Reached s safe log 0 (Invariance.initial s safe log)
  | peeled {k : ℕ} {p q : Peeling s} (hp : Reached s safe log k p)
      (hk : k < p.losing.arrivals.size) (hq : peel p.losing.arrivals[k] p = .ok q) :
      Reached s safe log (k + 1) q

/-- No more states are taken out than have arrived, and just their slots have been visited. -/
theorem Reached.afterVisits (hp : Reached s safe log k p) :
    k ≤ p.losing.arrivals.size ∧
      AfterVisits s safe log ((p.losing.arrivals.toList.take k).flatMap s.visits) p := by
  induction hp with
  | initial => exact ⟨Nat.zero_le _, .initial⟩
  | @peeled k p q hp hk hq ih =>
    have hlen : k < p.losing.arrivals.toList.length := by rwa [Array.length_toList]
    obtain ⟨hafter, hgrow⟩ := ih.2.peeled (Array.getElem_mem_toList hk) hq
    have hle := hgrow.length_le
    rw [Array.length_toList, Array.length_toList] at hle
    refine ⟨hk.trans_le hle, ?_⟩
    rw [take_succ_of_isPrefix hgrow hlen, List.flatMap_append, List.flatMap_singleton,
      Array.getElem_toList]
    exact hafter

/-- From every head the peeling goes on to where it ends from the first one. -/
theorem Reached.run_eq (hp : Reached s safe log k p) :
    run (Invariance.initial s safe log) 0 = run p k := by
  induction hp with
  | initial => rfl
  | @peeled k p q hp hk hq ih =>
    rw [ih, run, dif_pos hk]
    simp only [hq]

/-- Where a peeling ends that started at a head, all arrivals have been taken out. -/
theorem Reached.ended (hp : Reached s safe log k p) (hq : run p k = .ok q) :
    Reached s safe log q.losing.arrivals.size q := by
  fun_induction run p k with
  | case1 p k hk p' hp' ih => exact ih (hp.peeled hk hp') hq
  | case2 p k hk e he => cases hq
  | case3 p k hk =>
    have hend : p.losing.arrivals.size = k :=
      le_antisymm (Nat.le_of_not_lt hk) hp.afterVisits.1
    cases hq
    rwa [hend]

theorem Reached.exists_run_eq_ok (hin : s.Inside) (hp : Reached s safe log k p) :
    ∃ q, run p k = .ok q ∧ Reached s safe log q.losing.arrivals.size q := by
  obtain ⟨q, hq, -⟩ := Invariance.exists_run_eq_ok hin k hp.afterVisits.2.progress
  exact ⟨q, hq, hp.ended hq⟩

theorem Reached.afterVisits_end (hp : Reached s safe log p.losing.arrivals.size p) :
    AfterVisits s safe log (p.losing.arrivals.toList.flatMap s.visits) p := by
  have hafter := hp.afterVisits.2
  rwa [List.take_of_length_le Array.length_toList.le] at hafter

theorem Progress.exists_isWinning
    (h : Progress s safe (p.losing.arrivals.toList.flatMap s.visits) p) (i : Fin s.numStates) :
    ∃ w, (Region.ofMatrix s.sizes_le p.valid).isWinning (s.state i) = .ok w ∧
      (w = true ↔ ¬ Losing s safe i) := by
  obtain ⟨w, hw, hwin⟩ := Region.exists_isWinning_ofMatrix p.valid i
  refine ⟨w, hw, ?_⟩
  rw [hwin, not_losing_iff]
  exact exists_congr fun j => h.holds_iff_permitted i j

/-- Every state is found losing or it wins. -/
theorem Progress.size_add_size (h : Progress s safe (p.losing.arrivals.toList.flatMap s.visits) p) :
    p.losing.arrivals.size + (Region.ofMatrix s.sizes_le p.valid).size = s.numStates := by
  have hlosing : p.losing.arrivals.size = {i | Losing s safe i}.ncard := by
    rw [← Array.length_toList]
    exact (ncard_eq_length h.faithful.nodup fun i => (h.mem_arrivals_iff i).symm).symm
  have hwinning : (Region.ofMatrix s.sizes_le p.valid).size = {i | Losing s safe i}ᶜ.ncard := by
    rw [Region.size_eq_ncard]
    congr 1
    refine Set.ext fun (i : Fin s.numStates) => ?_
    obtain ⟨w, hw, hwin⟩ := h.exists_isWinning i
    change (Region.ofMatrix s.sizes_le p.valid).isWinning (s.state i) = .ok true ↔ ¬ Losing s safe i
    rw [hw, Except.ok.injEq, hwin]
  rw [hlosing, hwinning, Set.ncard_add_ncard_compl, Nat.card_fin]

end ControlGames.Invariance
