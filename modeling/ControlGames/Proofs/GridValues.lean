import Mathlib.Data.Set.Card
import ControlGames.Proofs.GridDistances

/-!
# The solution of the game on a grid

All cells but the walls win, within as many steps as the goal is far away. The controller stays at
the goal and moves elsewhere.
-/
namespace ControlGames.Scenario.Grid

variable {g : Grid} {slip : Bool} {mem : Memory}

theorem ncard_walls {n : ℕ} (h : g.Sized) (hn : n = g.width * g.height) :
    {i : Fin n | g.isWall (i % g.width) (i / g.width) = true}.ncard = g.height * 3 / 4 := by
  have hx : g.width / 2 < g.width := Nat.div_lt_self h.width_pos one_lt_two
  have hlt : ∀ y < g.height * 3 / 4, g.cellId (g.width / 2) y < n := by
    intro y hy
    rw [hn]
    exact cellId_lt hx (by omega)
  let wall : Fin (g.height * 3 / 4) → Fin n := fun y => ⟨_, hlt y y.isLt⟩
  have hwall : Function.Injective wall := by
    intro y y' hy
    exact Fin.ext ((cellId_inj hx hx).mp (congrArg Fin.val hy)).2
  have hset : {i : Fin n | g.isWall (i % g.width) (i / g.width) = true} = Set.range wall := by
    ext i
    rw [Set.mem_ofPred_eq, isWall_eq_true_iff]
    constructor
    · rintro ⟨hcolumn, hrow⟩
      refine ⟨⟨_, hrow⟩, Fin.ext ?_⟩
      change g.cellId (g.width / 2) (i / g.width) = i
      rw [← hcolumn, cellId_mod_div]
    · rintro ⟨y, rfl⟩
      exact ⟨cellId_mod hx, (cellId_div hx).trans_lt y.isLt⟩
  rw [hset, Set.ncard_range_of_injective hwall, Nat.card_eq_fintype_card, Fintype.card_fin]

/-- What a solution tells about the cells of a grid. -/
structure Charts (g : Grid) (sol : Solution) : Prop where
  numStates : sol.region.numStates = g.width * g.height
  value : ∀ c : State, c.id < g.width * g.height →
    sol.value.get c = .ok (g.steps (c.id % g.width) (c.id / g.width))
  wall : ∀ c : State, c.id < g.width * g.height → g.walls c = true →
    sol.region.witness c = .ok none
  goal : ∀ c : State, c.id = g.cellId (g.width - 1) (g.height - 1) →
    ∃ u : Input, sol.region.witness c = .ok (some u) ∧ u.id = 0
  elsewhere : ∀ c : State, c.id < g.width * g.height → g.walls c = false →
    c.id ≠ g.cellId (g.width - 1) (g.height - 1) →
    ∃ u : Input, sol.region.witness c = .ok (some u) ∧ u.id ≠ 0 ∧ u.id < moves.length

namespace Charts

variable {sol : Solution} (hsol : g.Charts sol)

include hsol

theorem isWinning {c : State} (hc : c.id < g.width * g.height) :
    sol.region.isWinning c = .ok (!g.walls c) := by
  cases hwall : g.walls c with
  | true =>
    rw [Region.isWinning, hsol.wall c hc hwall]
    rfl
  | false =>
    have hwitness : ∃ u, sol.region.witness c = .ok (some u) := by
      by_cases hgoal : c.id = g.cellId (g.width - 1) (g.height - 1)
      · obtain ⟨u, hu, -⟩ := hsol.goal c hgoal
        exact ⟨u, hu⟩
      · obtain ⟨u, hu, -⟩ := hsol.elsewhere c hc hwall hgoal
        exact ⟨u, hu⟩
    obtain ⟨u, hu⟩ := hwitness
    rw [Region.isWinning, hu]
    rfl

theorem size_eq (h : g.Sized) :
    sol.region.size = g.width * g.height - g.height * 3 / 4 := by
  have hwins : {i | sol.region.isWinning (sol.region.state i) = .ok true} =
      {i : Fin sol.region.numStates | g.isWall (i % g.width) (i / g.width) = true}ᶜ := by
    ext i
    have hi : (sol.region.state i).id < g.width * g.height := i.isLt.trans_eq hsol.numStates
    rw [Set.mem_ofPred_eq, hsol.isWinning hi, Except.ok.injEq, Bool.not_eq_true']
    exact Bool.eq_false_iff
  rw [Region.size_eq_ncard, hwins, Set.ncard_compl, ncard_walls h hsol.numStates,
    Nat.card_eq_fintype_card, Fintype.card_fin, hsol.numStates]

end Charts

/-! ### Solving the game -/

theorem Sized.exists_goal (h : g.Sized) :
    ∃ goal, g.goal = .ok goal ∧ goal.id = g.cellId (g.width - 1) (g.height - 1) := by
  have hlt := h.goal_lt.trans_le h.cells_le
  have hcells : ¬ (g.width = 0 ∨ g.height = 0) :=
    not_or.mpr ⟨h.width_pos.ne_zero, h.height_pos.ne_zero⟩
  refine ⟨⟨_, hlt⟩, ?_, rfl⟩
  rw [Grid.goal, if_neg hcells, State.ofId_eq_ok hlt]

section Solve

open Reachability ReachabilityGame

variable (h : g.Sized) {b : Builder} {s : Store} (hs : (b.build mem).result = .ok s)
  (hb : b.triples = g.transitions slip) (hn : s.numStates = g.width * g.height)
  (hm : s.numInputs = moves.length)

theorem members_walls (s : Store) :
    s.members g.walls = {i | g.isWall (i.val % g.width) (i.val / g.width) = true} :=
  rfl

theorem members_goal {goal : State} (hgoal : goal.id = g.cellId (g.width - 1) (g.height - 1))
    (s : Store) : s.members [goal] = {i | i.val = g.cellId (g.width - 1) (g.height - 1)} := by
  ext i
  change List.contains [goal] (s.state i) = true ↔ i.val = _
  rw [List.contains_iff_mem, List.mem_singleton, ← hgoal]
  exact ⟨congrArg State.id, fun hi => State.ext_id hi⟩

include h hb hn

/-- A controller that keeps to the distances does not stay in a cell that is not the goal. -/
theorem Sized.choice_ne_stay {T A : Set (Fin s.numStates)}
    {c : Fin s.numStates → Option (Fin s.numInputs)}
    (hrank : Ranking b.Leads T A (fun i => g.steps (i % g.width) (i / g.width)) c)
    {i : Fin s.numStates} {k : ℕ} (hk : g.steps (i % g.width) (i / g.width) = some (k + 1))
    {j : Fin s.numInputs} (hj : c i = some j) : j.val ≠ 0 := by
  intro hstay
  obtain ⟨-, -, u, hu, hall, -⟩ := hrank.forced i k hk
  rw [hj, Option.some.injEq] at hu
  subst hu
  obtain ⟨a, ha, hvalue⟩ := hall i (h.leads_stay hb hn i hstay)
  have hsame : k + 1 = a := Option.some.inj (hk.symm.trans hvalue)
  omega

variable {goal : State} (hgoal : goal.id = g.cellId (g.width - 1) (g.height - 1)) {mem' : Memory}
  {sol : Solution} (hsol : (((new s).avoiding g.walls).solve mem' [goal]).result = .ok sol)

include hs hm hgoal hsol

theorem Sized.exists_ranking_of_solve :
    ∃ c, sol.Tells s (fun i => g.steps (i % g.width) (i / g.width)) c ∧
      Ranking b.Leads (s.members [goal]) (s.members g.walls)
        (fun i => g.steps (i % g.width) (i / g.width)) c ∧
      ∀ i, (c i).isSome = true ↔ ∃ k, g.steps (i.val % g.width) (i.val / g.width) = some k := by
  obtain ⟨val, c, htells, hrank, hchosen⟩ := Builder.ranking_of_solve hs hsol
  have hval : val = fun i : Fin s.numStates => g.steps (i % g.width) (i / g.width) := by
    rw [members_goal hgoal, members_walls] at hrank
    exact hrank.val_eq (h.ranking_steps hb hn hm)
  subst hval
  refine ⟨c, htells, hrank, hchosen ?_⟩
  rw [hm]
  decide

theorem Sized.witness_goal {x : State} (hx : x.id = g.cellId (g.width - 1) (g.height - 1)) :
    ∃ u : Input, sol.region.witness x = .ok (some u) ∧ u.id = 0 := by
  have hexact : s.Exact := Builder.exact_of_build hs
  have hpos : 0 < s.numInputs := by
    rw [hm]
    decide
  have hlast : g.width - 1 < g.width := Nat.sub_one_lt_of_lt h.width_pos
  have hlt : x.id < s.numStates := hx.trans_lt (h.goal_lt.trans_eq hn.symm)
  obtain ⟨i, rfl⟩ := Store.exists_state_eq hlt
  have hi : i.val = g.cellId (g.width - 1) (g.height - 1) := hx
  have happlicable : s.applicable i ⟨0, hpos⟩ = true := by
    rw [hexact.applicable_iff, Builder.leads_of_build hs]
    exact ⟨i, h.leads_stay hb hn i rfl⟩
  have hfree : ((new s).avoiding g.walls).avoid.contains i = false := by
    rw [Bool.eq_false_iff, ne_eq, contains_avoiding, members_walls, Set.mem_ofPred_eq, hi,
      cellId_mod hlast, cellId_div hlast, h.isWall_goal]
    exact Bool.false_ne_true
  have htarget : i ∈ s.members [goal] := by
    rw [members_goal hgoal]
    exact hi
  have hwitness := witness_of_mem_target (g := (new s).avoiding g.walls) hexact.adequate hsol
    htarget hfree
  refine ⟨s.input ⟨0, hpos⟩, hwitness.trans ?_, rfl⟩
  have hchoice : homeChoice ((new s).avoiding g.walls).store i = some ⟨0, hpos⟩ :=
    homeChoice_eq_zero hpos happlicable
  rw [hchoice]
  rfl

theorem Sized.charts_of_solve : g.Charts sol := by
  have hexact : s.Exact := Builder.exact_of_build hs
  obtain ⟨c, htells, hrank, hchosen⟩ := h.exists_ranking_of_solve hs hb hn hm hgoal hsol
  have hstate : ∀ x : State, x.id < g.width * g.height → ∃ i, x = s.state i :=
    fun x hx => Store.exists_state_eq (hx.trans_eq hn.symm)
  refine ⟨?_, fun x hx => ?_, fun x hx hwall => ?_, fun x hx => ?_, fun x hx hwall hne => ?_⟩
  · obtain ⟨l, -, rfl, -⟩ := exists_account_of_solve (g := (new s).avoiding g.walls)
      hexact.adequate hsol
    exact hn
  · obtain ⟨i, rfl⟩ := hstate x hx
    exact htells.get i
  · obtain ⟨i, rfl⟩ := hstate x hx
    have hlost : c i = none := by
      rw [← Option.not_isSome_iff_eq_none, hchosen]
      rintro ⟨k, hk⟩
      exact Bool.eq_false_iff.mp (steps_eq_some_iff.mp hk).1 hwall
    rw [htells.witness, hlost]
    rfl
  · exact h.witness_goal hs hb hn hm hgoal hsol hx
  · obtain ⟨i, rfl⟩ := hstate x hx
    have hpos : g.distance (i % g.width) (i / g.width) ≠ 0 :=
      (h.eq_goal_iff hx).not.mp hne
    obtain ⟨k, hk⟩ := Nat.exists_eq_succ_of_ne_zero hpos
    have hsteps : g.steps (i % g.width) (i / g.width) = some (k + 1) :=
      steps_eq_some_iff.mpr ⟨hwall, hk⟩
    obtain ⟨-, -, j, hj, -⟩ := hrank.forced i k hsteps
    refine ⟨s.input j, ?_, h.choice_ne_stay hb hn hrank hsteps hj, hm ▸ j.isLt⟩
    rw [htells.witness, hj]
    rfl

end Solve

/-- A grid that fits is built from its transitions and solved. -/
theorem Fits.exists_solution (h : g.Fits slip mem) : ∃ (b : Builder) (s : Store) (goal : State)
    (sol : Solution), g.build mem slip = .ok s ∧ (b.build mem).result = .ok s ∧
      b.triples = g.transitions slip ∧ s.numStates = g.width * g.height ∧
      s.numInputs = moves.length ∧ g.goal = .ok goal ∧
      goal.id = g.cellId (g.width - 1) (g.height - 1) ∧
      (((ReachabilityGame.new s).avoiding g.walls).solve mem [goal]).result = .ok sol := by
  obtain ⟨b, s, hbuild, hs, hb, hn, hm⟩ := h.exists_build
  obtain ⟨goal, hgoal, hid⟩ := h.exists_goal
  have hexact : s.Exact := Builder.exact_of_build hs
  have hlabels : Reachability.reserveLabels mem s.numStates s.numInputs = .ok () := by
    rw [hn, hm]
    exact h.labels
  have halphabet : s.numInputs < reserved - 1 := by
    rw [hm]
    decide
  obtain ⟨sol, hsol⟩ := Reachability.exists_solve_eq_ok
    (g := (ReachabilityGame.new s).avoiding g.walls) [goal] hexact.adequate halphabet hlabels
  exact ⟨b, s, goal, sol, hbuild, hs, hb, hn, hm, hgoal, hid, hsol⟩

theorem Fits.exists_charts (h : g.Fits slip mem) : ∃ s goal sol, g.build mem slip = .ok s ∧
    g.goal = .ok goal ∧ goal.id = g.cellId (g.width - 1) (g.height - 1) ∧
    (((ReachabilityGame.new s).avoiding g.walls).solve mem [goal]).result = .ok sol ∧
    s.numStates = g.width * g.height ∧ g.Charts sol := by
  obtain ⟨b, s, goal, sol, hbuild, hs, hb, hn, hm, hgoal, hid, hsol⟩ := h.exists_solution
  exact ⟨s, goal, sol, hbuild, hgoal, hid, hsol, hn, h.charts_of_solve hs hb hn hm hid hsol⟩

end ControlGames.Scenario.Grid
