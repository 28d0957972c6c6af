import ControlGames.IndexSet.Membership
import ControlGames.Proofs.Plays
import ControlGames.Proofs.Regions
import ControlGames.Proofs.SearchRun
import ControlGames.Proofs.SortedLayout

/-!
# Values of reach-avoid games

On a store that records its relation exactly, the labels at the end of the search rank the states by
the relation. What the solution answers is read off these labels, so its values are the numbers of
the attractor layers.
-/
namespace ControlGames

namespace Reachability

section FinalLabels

variable {g : ReachabilityGame} {α : Type} [StateSet α] {target : α} {l : Labels g.store} {c : ℕ}

theorem Account.remaining_eq_zero_iff (hs : g.store.Exact)
    (h : Account g target (l.arrivals.toList.flatMap g.store.visits) c l)
    {i : Fin g.store.numStates} (hi : g.avoid.contains i = false) (j : Fin g.store.numInputs) :
    l.remaining.get i j = 0 ↔ ∀ k, g.store.Leads i j k → l.valueAt k ≠ none := by
  have hsum := h.remaining i j hi
  have hall := hs.count_eq_iff h.nodup i j
  simp only [h.mem_iff] at hall
  rw [← hall]
  omega

theorem Account.lt_worst_of_leads
    (h : Account g target (l.arrivals.toList.flatMap g.store.visits) c l)
    {i k : Fin g.store.numStates} {j : Fin g.store.numInputs} (hi : g.avoid.contains i = false)
    (hk : l.valueAt k ≠ none) (hleads : g.store.Leads i j k) :
    ∃ a < l.worst.get i j, l.valueAt k = some a := by
  obtain ⟨v, hv, hhits, rfl⟩ := Store.exists_hits_iff.mpr ⟨(h.mem_iff k).mpr hk, hleads⟩
  exact h.lt_worst v hv i j hhits hi

theorem Account.exists_leads_worst
    (h : Account g target (l.arrivals.toList.flatMap g.store.visits) c l)
    {i : Fin g.store.numStates} {j : Fin g.store.numInputs} {a : ℕ}
    (ha : l.worst.get i j = a + 1) : ∃ k, g.store.Leads i j k ∧ l.valueAt k = some a := by
  obtain ⟨v, hv, hhits, hvalue⟩ := h.exists_worst i j a ha
  exact ⟨v.post, (Store.exists_hits_iff.mp ⟨v, hv, hhits, rfl⟩).2, hvalue⟩

/-- The final labels rank the states. -/
theorem Account.ranking (hs : g.store.Exact)
    (h : Account g target (l.arrivals.toList.flatMap g.store.visits) c l) :
    Ranking g.store.Leads (g.store.members target) {i | g.avoid.contains i = true}
      l.valueAt l.choiceAt where
  zero_iff i := by
    constructor
    · intro hi
      by_cases hseed : isSeed g target i = true
      · obtain ⟨hT, hA⟩ := (isSeed_eq_true_iff i).mp hseed
        exact ⟨hT, Bool.eq_false_iff.mp hA⟩
      · -- a complete pair of worst value zero would have no successors
        obtain ⟨j, -, hA, hzero, hworst, hpos⟩ :=
          h.won i 0 (Bool.eq_false_iff.mpr hseed) hi
        obtain ⟨k, hk⟩ := (hs.applicable_iff i j).mp (decide_eq_true hpos)
        have hfound := (h.remaining_eq_zero_iff hs hA j).mp hzero k hk
        obtain ⟨a, ha, -⟩ := h.lt_worst_of_leads hA hfound hk
        omega
    · intro hseed
      rcases hseed with ⟨hT, hA⟩
      exact (h.seed i ((isSeed_eq_true_iff i).mpr ⟨hT, Bool.eq_false_iff.mpr hA⟩)).1
  forced i k hi := by
    have hseed : isSeed g target i = false := by
      rw [Bool.eq_false_iff]
      intro hseed
      have hzero := (h.seed i hseed).1
      rw [hi] at hzero
      cases hzero
    obtain ⟨j, hchoice, hA, hzero, hworst, -⟩ := h.won i (k + 1) hseed hi
    have hT : i ∉ g.store.members target := by
      intro hT
      rw [(isSeed_eq_true_iff i).mpr ⟨hT, hA⟩] at hseed
      cases hseed
    refine ⟨hT, Bool.eq_false_iff.mp hA, j, hchoice, fun y hy => ?_, h.exists_leads_worst hworst⟩
    have hfound := (h.remaining_eq_zero_iff hs hA j).mp hzero y hy
    obtain ⟨a, ha, hvalue⟩ := h.lt_worst_of_leads hA hfound hy
    exact ⟨a, by omega, hvalue⟩
  complete i j k hA hj := by
    have hA : g.avoid.contains i = false := Bool.eq_false_iff.mpr hA
    have hzero : l.remaining.get i j = 0 := by
      rw [h.remaining_eq_zero_iff hs hA]
      intro y hy hnone
      obtain ⟨a, -, ha⟩ := hj.2 y hy
      rw [hnone] at ha
      cases ha
    have hpos : 0 < g.store.successorCountAt i j :=
      of_decide_eq_true ((hs.applicable_iff i j).mpr hj.1)
    have hworst : l.worst.get i j ≤ k + 1 := by
      cases hw : l.worst.get i j with
      | zero => exact Nat.zero_le _
      | succ w =>
        obtain ⟨y, hy, hyw⟩ := h.exists_leads_worst hw
        obtain ⟨a, ha, hya⟩ := hj.2 y hy
        rw [hyw, Option.some.injEq] at hya
        omega
    obtain ⟨a, ha, hvalue⟩ := h.complete i j hA hzero hpos
    exact ⟨a, ha.trans hworst, hvalue⟩

theorem Account.choiceAt_isSome_iff {H : List (Visit g.store.numStates g.store.numInputs)}
    (h : Account g target H c l) (hm : 0 < g.store.numInputs) (i : Fin g.store.numStates) :
    (l.choiceAt i).isSome = true ↔ ∃ a, l.valueAt i = some a := by
  constructor
  · intro hi
    rw [← Option.ne_none_iff_exists']
    intro hnone
    rw [h.lost i hnone] at hi
    cases hi
  · intro hfound
    rcases hfound with ⟨a, ha⟩
    by_cases hseed : isSeed g target i = true
    · rw [(h.seed i hseed).2, homeChoice, Option.isSome_or, Bool.or_eq_true]
      refine Or.inr ?_
      rw [List.isSome_head?, ne_eq, List.finRange_eq_nil_iff]
      exact hm.ne'
    · obtain ⟨j, hj, -⟩ := h.won i a (Bool.eq_false_iff.mpr hseed) ha
      rw [hj, Option.isSome_some]

end FinalLabels

/-! ### Solutions -/

variable {mem : Memory} {g : ReachabilityGame} {α : Type} [StateSet α] {target : α}
  {sol : Solution}

theorem solve_eq_ok_iff : (g.solve mem target).result = .ok sol ↔
    g.store.numInputs < reserved - 1 ∧
    reserveLabels mem g.store.numStates g.store.numInputs = .ok () ∧
    ∃ t, run g (initial g target #[.solvingReachability g.store.numStates g.store.numInputs
      g.store.transitionCount]) = .ok t ∧ t.labels.solution = sol := by
  rw [← Region.checkAlphabet_eq_ok_iff, ReachabilityGame.solve]
  cases Region.checkAlphabet g.store.numInputs with
  | error r => simp
  | ok =>
    cases reserveLabels mem g.store.numStates g.store.numInputs with
    | error r => simp
    | ok =>
      dsimp only
      cases run g (initial g target _) with
      | error e => simp
      | ok t => simp

def granted (mem : Memory) (n m : ℕ) : Except Refusal Unit := do
  Region.checkAlphabet m
  reserveLabels mem n m

theorem solve_result_of_run {t : Search g.store}
    (ht : run g (initial g target #[.solvingReachability g.store.numStates g.store.numInputs
      g.store.transitionCount]) = .ok t) (mem : Memory) :
    (g.solve mem target).result =
      ((granted mem g.store.numStates g.store.numInputs).mapError .refusal).map
        fun _ => t.labels.solution := by
  rw [ReachabilityGame.solve, granted]
  cases Region.checkAlphabet g.store.numInputs with
  | error r => rfl
  | ok =>
    dsimp only
    change _ = ((reserveLabels mem _ _).mapError _).map _
    cases reserveLabels mem g.store.numStates g.store.numInputs with
    | error r => rfl
    | ok =>
      rw [ht]
      rfl

variable (target) in
theorem exists_solve_eq_ok (hs : g.store.Adequate) (hm : g.store.numInputs < reserved - 1)
    (hmem : reserveLabels mem g.store.numStates g.store.numInputs = .ok ()) :
    ∃ sol, (g.solve mem target).result = .ok sol := by
  obtain ⟨t, -, ht, -⟩ := exists_run_initial g target _ hs
  exact ⟨_, solve_eq_ok_iff.mpr ⟨hm, hmem, t, ht, rfl⟩⟩

/-- A solution is read off labels that account for all states found. -/
theorem exists_account_of_solve (hs : g.store.Adequate)
    (hsol : (g.solve mem target).result = .ok sol) :
    ∃ l c, l.solution = sol ∧
      Account g target (l.arrivals.toList.flatMap g.store.visits) c l := by
  obtain ⟨-, -, t, ht, hread⟩ := solve_eq_ok_iff.mp hsol
  obtain ⟨t', c, ht', hc⟩ := exists_run_initial g target _ hs
  rw [ht, Except.ok.injEq] at ht'
  subst ht'
  exact ⟨t.labels, c, hread, hc⟩

end Reachability

/-- What the solution tells about the states of a store: their values, and the inputs to apply. -/
structure Solution.Tells (sol : Solution) (s : Store) (val : Fin s.numStates → Option ℕ)
    (c : Fin s.numStates → Option (Fin s.numInputs)) : Prop where
  get : ∀ i, sol.value.get (s.state i) = .ok (val i)
  witness : ∀ i, sol.region.witness (s.state i) = .ok ((c i).map s.input)

theorem Reachability.Labels.tells {s : Store} (l : Labels s) :
    l.solution.Tells s l.valueAt l.choiceAt where
  get i := by
    have hi : (s.state i).id < l.solution.value.numStates := i.isLt
    rw [ValueFunction.get, dif_pos hi]
    rfl
  witness i := by
    have hi : (s.state i).id < l.solution.region.numStates := i.isLt
    rw [Region.witness, dif_pos hi]
    exact congrArg Except.ok (cell_map _ _ i)

theorem Solution.Tells.isWinning {sol : Solution} {s : Store} {val : Fin s.numStates → Option ℕ}
    {c : Fin s.numStates → Option (Fin s.numInputs)} (h : sol.Tells s val c) (i : Fin s.numStates) :
    sol.region.isWinning (s.state i) = .ok (c i).isSome := by
  rw [Region.isWinning, h.witness]
  exact congrArg Except.ok Option.isSome_map

theorem ReachabilityGame.contains_avoiding {β : Type} [StateSet β] (s : Store) (avoid : β)
    (i : Fin s.numStates) :
    ((new s).avoiding avoid).avoid.contains i = true ↔ i ∈ s.members avoid := by
  change (IndexSet.ofPred s.numStates (StateSet.containsId avoid)).contains i = true ↔ _
  rw [IndexSet.contains_ofPred, decide_eq_true i.isLt, Bool.true_and,
    Store.containsId_eq_true_iff]

/-- The solution of a game on a built store ranks the states by the transitions added. -/
theorem Builder.ranking_of_solve {b : Builder} {mem mem' : Memory} {s : Store}
    (hb : (b.build mem).result = .ok s) {α β : Type} [StateSet α] [StateSet β] {target : α}
    {avoid : β} {sol : Solution}
    (hsol : (((ReachabilityGame.new s).avoiding avoid).solve mem' target).result = .ok sol) :
    ∃ val c, sol.Tells s val c ∧
      Ranking b.Leads (s.members target) (s.members avoid) val c ∧
      (0 < s.numInputs → ∀ i, (c i).isSome = true ↔ ∃ a, val i = some a) := by
  have hs : s.Exact := exact_of_build hb
  obtain ⟨l, c, hl, hc⟩ := Reachability.exists_account_of_solve
    (g := (ReachabilityGame.new s).avoiding avoid) hs.adequate hsol
  have hrank := hc.ranking hs
  have havoid : {i : Fin s.numStates |
      ((ReachabilityGame.new s).avoiding avoid).avoid.contains i = true} = s.members avoid :=
    Set.ext (ReachabilityGame.contains_avoiding s avoid)
  refine ⟨l.valueAt, l.choiceAt, hl ▸ l.tells, ?_, hc.choiceAt_isSome_iff⟩
  rw [← leads_of_build hb, ← havoid]
  exact hrank

theorem Builder.forces_fork : Forces (fork.Leads (n := 4) (m := 2)) 1 0 {2} :=
  ⟨⟨2, by decide⟩, by decide⟩

/-- Every game on a built store has a solution, and its values are the numbers of the attractor
layers: zero on the target, one more than the best bound that an input has on its successors
elsewhere, and infinite outside all layers. -/
theorem ReachabilityGame.solve_eq_layers {b : Builder} {mem mem' : Memory} {s : Store}
    (hb : (b.build mem).result = .ok s) (hm : s.numInputs < reserved - 1)
    (hmem : Reachability.reserveLabels mem' s.numStates s.numInputs = .ok ())
    {α β : Type} [StateSet α] [StateSet β] (target : α) (avoid : β) :
    ∃ sol, (((new s).avoiding avoid).solve mem' target).result = .ok sol ∧
      ∀ i : Fin s.numStates,
        (sol.value.get (s.state i) = .ok (some 0) ↔ i ∈ s.members target \ s.members avoid) ∧
        (∀ k, sol.value.get (s.state i) = .ok (some (k + 1)) ↔
          i ∉ s.members target ∧ i ∉ s.members avoid ∧
          IsLeast {l | ∃ j : Fin s.numInputs,
            Forces b.Leads i j {y | ∃ v ≤ l, sol.value.get (s.state y) = .ok (some v)}} k) ∧
        (sol.value.get (s.state i) = .ok none ↔
          ∀ k, i ∉ layer (I := Fin s.numInputs) b.Leads (s.members target) (s.members avoid) k) ∧
        (0 < s.numInputs → ∃ w, sol.region.isWinning (s.state i) = .ok w ∧
          (w = true ↔ ∃ v, sol.value.get (s.state i) = .ok (some v))) := by
  obtain ⟨sol, hsol⟩ := Reachability.exists_solve_eq_ok (g := (new s).avoiding avoid) target
    (Builder.exact_of_build hb).adequate hm hmem
  obtain ⟨val, c, htells, hrank, hchosen⟩ := Builder.ranking_of_solve hb hsol
  refine ⟨sol, hsol, fun i => ?_⟩
  simp only [htells.get, Except.ok.injEq]
  exact ⟨hrank.zero_iff i, hrank.eq_some_succ_iff i, hrank.eq_none_iff i,
    fun hpos => ⟨(c i).isSome, htells.isWinning i, hchosen hpos i⟩⟩

/-- On the fork the value of state 1 is one if state 2 is the target. -/
theorem ReachabilityGame.solve_fork_eq_layers :
    (Builder.fork.build .ample).result = .ok Builder.forkStore ∧
    Builder.forkStore.numInputs < reserved - 1 ∧
    Reachability.reserveLabels .ample Builder.forkStore.numStates Builder.forkStore.numInputs =
      .ok () ∧
    ∃ sol, (((new Builder.forkStore).avoiding StateSet.nothing).solve .ample
        fun x : State => x.id == 2).result = .ok sol ∧
      sol.value.get (Builder.forkStore.state (1 : Fin 4)) = .ok (some 1) := by
  have hm : Builder.forkStore.numInputs < reserved - 1 := by decide
  have hmem : Reachability.reserveLabels .ample Builder.forkStore.numStates
      Builder.forkStore.numInputs = .ok () := rfl
  obtain ⟨sol, hsol, hvalue⟩ := solve_eq_layers Builder.build_fork hm hmem
    (fun x : State => x.id == 2) StateSet.nothing
  refine ⟨Builder.build_fork, hm, hmem, sol, hsol, ?_⟩
  have htarget := (hvalue (2 : Fin 4)).1.mpr ⟨rfl, Bool.false_ne_true⟩
  refine ((hvalue (1 : Fin 4)).2.1 0).mpr ⟨Bool.false_ne_true, Bool.false_ne_true,
    ⟨(0 : Fin 2), Builder.forces_fork.mono ?_⟩, fun _ _ => Nat.zero_le _⟩
  rintro y rfl
  exact ⟨0, le_rfl, htarget⟩

end ControlGames
