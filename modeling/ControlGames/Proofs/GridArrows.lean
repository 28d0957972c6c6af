import ControlGames.Proofs.GridReports
import ControlGames.Proofs.WinningSequences

/-!
# Arrows on a grid

From a cell the robot goes east if no wall stands in its way, wherever the floor takes it, and north
otherwise. Both moves bring it to a cell that is one step closer, but cells of one distance are
found from east to west, so the move east gets complete first.
-/
namespace ControlGames.Scenario.Grid

variable {g : Grid} {x y : ℕ} {slip : Bool}

/-! ### The way east -/

/-- The robot may go east: neither the next cell nor the one to which it may overshoot is a wall. -/
structure Clear (g : Grid) (slip : Bool) (x y : ℕ) : Prop where
  lt_last : x < g.width - 1
  next : g.isWall (x + 1) y = false
  overshot : slip = true → g.isWall (min (x + 2) (g.width - 1)) y = false

theorem clear_iff : g.Clear slip x y ↔ x < g.width - 1 ∧ g.isWall (x + 1) y = false ∧
    (slip = true → g.isWall (min (x + 2) (g.width - 1)) y = false) := by
  constructor
  · intro h
    exact ⟨h.lt_last, h.next, h.overshot⟩
  · rintro ⟨hlast, hnext, hovershot⟩
    exact ⟨hlast, hnext, hovershot⟩

instance : Decidable (g.Clear slip x y) := decidable_of_iff _ clear_iff.symm

variable (g slip) in
/-- The number of the move that the controller makes: east if the way is clear, and else north. -/
def arrow (x y : ℕ) : ℕ := if g.Clear slip x y then 2 else 1

variable (g slip) in
def gate (x y : ℕ) : ℕ × ℕ := if g.Clear slip x y then (x + 1, y) else (x, y + 1)

variable (g slip) in
theorem gate_cases (x y : ℕ) : g.gate slip x y = (x + 1, y) ∧ g.arrow slip x y = 2 ∨
    g.gate slip x y = (x, y + 1) ∧ g.arrow slip x y = 1 := by
  rw [gate, arrow]
  split
  · exact .inl ⟨rfl, rfl⟩
  · exact .inr ⟨rfl, rfl⟩

variable (g slip) in
theorem arrow_lt (x y : ℕ) : g.arrow slip x y < moves.length := by
  rw [arrow]
  split <;> decide

/-- If all stops of a move east are free, the way is clear. -/
theorem clear_of_stops (hx : x < g.width - 1) (hy : y < g.height)
    (hfree : ∀ steps ∈ Move.stepCounts slip ⟨1, 0, '>'⟩,
      g.isWall (g.stop x y ⟨1, 0, '>'⟩ steps).1 (g.stop x y ⟨1, 0, '>'⟩ steps).2 = false) :
    g.Clear slip x y where
  lt_last := hx
  next := by
    have hone := hfree (1 : ℕ) (Move.one_mem_stepCounts _ slip)
    rwa [stop_east hy, Nat.min_eq_left (by omega)] at hone
  overshot hslip := by
    subst hslip
    have htwo := hfree (2 : ℕ) (by decide)
    rwa [stop_east hy] at htwo

section Stops

variable {d : ℕ} (hx : x < g.width) (hy : y < g.height) (hd : g.distance x y = d + 1)

include hy hd

/-- In the top row the way is clear up to the goal, so north of a cell whose way is not clear there
is another cell. -/
theorem lt_of_not_clear (hblocked : ¬ g.Clear slip x y) : y + 1 < g.height := by
  rw [distance] at hd
  by_contra htop
  have htop : y + 1 = g.height := by omega
  exact hblocked ⟨by omega, isWall_top htop, fun _ => isWall_top htop⟩

include hx

theorem distance_gate (slip : Bool) : g.distance (g.gate slip x y).1 (g.gate slip x y).2 = d := by
  rw [gate]
  split
  · next hclear =>
    have hlast := hclear.lt_last
    rw [distance] at hd ⊢
    omega
  · next hblocked =>
    have hrow := lt_of_not_clear hy hd hblocked
    rw [distance] at hd ⊢
    omega

/-- All stops of the arrow are free. The one after a single step is the gate, and all others are
closer to the goal. -/
theorem stop_arrow {v : Move} {steps : ℤ} (hv : moves[g.arrow slip x y]? = some v)
    (hsteps : steps ∈ v.stepCounts slip) (hwall : g.isWall x y = false) :
    g.isWall (g.stop x y v steps).1 (g.stop x y v steps).2 = false ∧
      (steps = 1 → g.stop x y v steps = g.gate slip x y) ∧
      (g.stop x y v steps = g.gate slip x y ∨
        g.distance (g.stop x y v steps).1 (g.stop x y v steps).2 < d) := by
  have hcases := Move.mem_stepCounts hsteps
  obtain ⟨n, rfl⟩ : ∃ n : ℕ, steps = n := Int.eq_ofNat_of_zero_le (by omega)
  rw [arrow] at hv
  rw [gate]
  split at hv
  · next hclear =>
    obtain rfl : ⟨1, 0, '>'⟩ = v := Option.some.inj hv
    have hlast := hclear.lt_last
    rw [distance] at hd
    rw [if_pos hclear, stop_east hy, distance, Prod.mk.injEq]
    obtain rfl | rfl : n = 1 ∨ n = 2 := by omega
    · rw [Nat.min_eq_left (by omega)]
      exact ⟨hclear.next, fun _ => ⟨rfl, rfl⟩, .inl ⟨rfl, rfl⟩⟩
    · have hslip := Move.slip_of_two_mem hsteps
      refine ⟨hclear.overshot hslip, fun htwo => absurd htwo (by decide), ?_⟩
      dsimp only
      omega
  · next hblocked =>
    obtain rfl : ⟨0, 1, '^'⟩ = v := Option.some.inj hv
    have hrow := lt_of_not_clear hy hd hblocked
    rw [distance] at hd
    rw [if_neg hblocked, stop_north hx, distance, Prod.mk.injEq]
    refine ⟨isWall_eq_false_of_le hwall (by omega), by omega, ?_⟩
    dsimp only
    omega

/-- A single step of another move leads farther away, or as far as the arrow but not as far east. -/
theorem stop_of_ne_arrow {v : Move} {j : ℕ} (hv : moves[j]? = some v)
    (hj : j ≠ g.arrow slip x y) (hfree : ∀ steps ∈ v.stepCounts slip,
      g.isWall (g.stop x y v steps).1 (g.stop x y v steps).2 = false) :
    d < g.distance (g.stop x y v 1).1 (g.stop x y v 1).2 ∨
      g.distance (g.stop x y v 1).1 (g.stop x y v 1).2 = d ∧
        (g.stop x y v 1).1 < (g.gate slip x y).1 := by
  have hlt : j < 5 := (List.getElem?_eq_some_iff.mp hv).1
  rw [arrow] at hj
  obtain rfl | rfl | rfl | rfl | rfl : j = 0 ∨ j = 1 ∨ j = 2 ∨ j = 3 ∨ j = 4 := by omega
  all_goals obtain rfl := Option.some.inj hv
  · rw [stop_stay hx hy]
    exact .inl (hd ▸ d.lt_succ_self)
  · have hclear : g.Clear slip x y := by
      by_contra hblocked
      exact hj (if_neg hblocked).symm
    have hstop : g.stop x y ⟨0, 1, '^'⟩ 1 = _ := stop_north (n := 1) hx
    rw [distance] at hd
    rw [hstop, gate, if_pos hclear, distance]
    dsimp only
    omega
  · have hblocked : ¬ g.Clear slip x y := fun hclear => hj (if_pos hclear).symm
    have hlast : ¬ x < g.width - 1 := fun hlt => hblocked (clear_of_stops hlt hy hfree)
    have hstop : g.stop x y ⟨1, 0, '>'⟩ 1 = _ := stop_east (n := 1) hy
    rw [distance] at hd
    rw [hstop, distance]
    dsimp only
    omega
  · left
    simp only [distance, stop] at hd ⊢
    omega
  · left
    simp only [distance, stop] at hd ⊢
    omega

end Stops

/-- Of two cells at one distance the eastern one has the eastern gate. If both have the same gate,
the eastern cell goes north and the western one east. -/
theorem gate_of_lt (slip : Bool) {x' y' d : ℕ} (hlt : x' < x) (hx : x < g.width) (hy : y < g.height)
    (hy' : y' < g.height) (hd : g.distance x y = d + 1) (hd' : g.distance x' y' = d + 1) :
    (g.gate slip x' y').1 < (g.gate slip x y).1 ∨
      g.gate slip x y = g.gate slip x' y' ∧ g.arrow slip x y < g.arrow slip x' y' := by
  rw [distance] at hd hd'
  rcases gate_cases g slip x y with ⟨hgate, harrow⟩ | ⟨hgate, harrow⟩
  · rcases gate_cases g slip x' y' with ⟨hgate', -⟩ | ⟨hgate', -⟩
    · rw [hgate, hgate']
      exact .inl (Nat.succ_lt_succ hlt)
    · rw [hgate, hgate']
      exact .inl (hlt.trans x.lt_succ_self)
  · rcases gate_cases g slip x' y' with ⟨hgate', harrow'⟩ | ⟨hgate', -⟩
    · rw [hgate, hgate', harrow, harrow', Prod.mk.injEq]
      dsimp only
      omega
    · rw [hgate, hgate']
      exact .inl hlt

/-! ### Sweeps -/

section Sweep

variable (h : g.Sized) {b : Builder} (hb : b.triples = g.transitions slip) {n m : ℕ}
  (hn : n = g.width * g.height) (hm : m = moves.length) {c : Fin n → Option (Fin m)}
  {order : List (Fin n)}
  (hseq : WinningSequence b.Leads (fun i : Fin n => g.steps (i % g.width) (i / g.width)) c order)
  {i k : Fin n} {j : Fin m} {d : ℕ}

theorem cell_ext (hcolumn : i % g.width = k % g.width) (hrow : i / g.width = k / g.width) :
    i = k := by
  refine Fin.ext ?_
  rw [← cellId_mod_div (g := g) i, hcolumn, hrow, cellId_mod_div]

variable (g order d) in
/-- The cells at one distance come from east to west. -/
def Swept : Prop :=
  ∀ i k : Fin n, g.steps (i % g.width) (i / g.width) = some d →
    g.steps (k % g.width) (k / g.width) = some d → k % g.width < i % g.width →
    order.idxOf i < order.idxOf k

include h hb hn hseq

/-- The arrow leads to winning cells only, and the gate comes last among them. -/
theorem exists_gate (hi : g.steps (i % g.width) (i / g.width) = some (d + 1))
    (hj : j.val = g.arrow slip (i % g.width) (i / g.width)) :
    ∃ k : Fin n, (k % g.width, k / g.width) = g.gate slip (i % g.width) (i / g.width) ∧
      g.steps (k % g.width) (k / g.width) = some d ∧ Forces b.Leads i j {k | k ∈ order} ∧
      lastPos b.Leads order i j = order.idxOf k := by
  obtain ⟨hwall, hd⟩ := steps_eq_some_iff.mp hi
  have hx := h.mod_lt i
  have hy : i / g.width < g.height := div_lt (i.isLt.trans_eq hn)
  obtain ⟨v, hv⟩ : ∃ v, moves[j.val]? = some v :=
    ⟨_, List.getElem?_eq_getElem (hj.trans_lt (arrow_lt g slip _ _))⟩
  have hstop := fun steps (hsteps : steps ∈ v.stepCounts slip) =>
    stop_arrow hx hy hd (hj ▸ hv) hsteps hwall
  obtain ⟨hfree, hone, -⟩ := hstop 1 (v.one_mem_stepCounts slip)
  obtain ⟨k, hk, hcolumn, hrow⟩ := h.exists_leads_one hb hn i hv
  have hgate : (k % g.width, k / g.width) = g.gate slip (i % g.width) (i / g.width) := by
    rw [hcolumn, hrow]
    exact hone rfl
  have hkval : g.steps (k % g.width) (k / g.width) = some d := by
    have hdist := distance_gate hx hy hd slip
    rw [← hgate] at hdist
    rw [steps_eq_some_iff, and_iff_left hdist, hcolumn, hrow]
    exact hfree
  -- Any other successor is closer to the goal.
  have hsucc : ∀ q, b.Leads i j q →
      q = k ∨ ∃ a < d, g.steps (q % g.width) (q / g.width) = some a := by
    intro q hq
    obtain ⟨v', hv', steps, hsteps, hcolumn', hrow'⟩ := (h.leads_iff hb hn).mp hq
    cases hv.symm.trans hv'
    obtain ⟨hfree', -, heq | hlt⟩ := hstop steps hsteps
    · rw [← hgate] at heq
      rw [heq] at hcolumn' hrow'
      exact .inl (cell_ext hcolumn' hrow')
    · refine .inr ⟨_, hlt, steps_eq_some_iff.mpr ?_⟩
      rw [hcolumn', hrow']
      exact ⟨hfree', rfl⟩
  refine ⟨k, hgate, hkval, ⟨⟨k, hk⟩, fun q hq => ?_⟩, le_antisymm ?_ (idxOf_le_lastPos hk)⟩
  · rcases hsucc q hq with rfl | ⟨a, -, hqval⟩
    · exact hseq.mem_of_val hkval
    · exact hseq.mem_of_val hqval
  · refine lastPos_le_iff.mpr fun q hq => ?_
    rcases hsucc q hq with rfl | ⟨a, ha, hqval⟩
    · exact le_rfl
    · exact (hseq.idxOf_lt_of_lt hqval hkval ha).le

include hm

/-- The gate comes before the last successor of any other input that leads to winning cells only. -/
theorem idxOf_gate_lt (hswept : Swept g order d)
    (hi : g.steps (i % g.width) (i / g.width) = some (d + 1))
    (hj : j.val ≠ g.arrow slip (i % g.width) (i / g.width))
    (hforces : Forces b.Leads i j {k | k ∈ order})
    (hgate : (k % g.width, k / g.width) = g.gate slip (i % g.width) (i / g.width))
    (hkval : g.steps (k % g.width) (k / g.width) = some d) :
    order.idxOf k < lastPos b.Leads order i j := by
  obtain ⟨-, hd⟩ := steps_eq_some_iff.mp hi
  have hx := h.mod_lt i
  have hy : i / g.width < g.height := div_lt (i.isLt.trans_eq hn)
  obtain ⟨v, hv⟩ : ∃ v, moves[j.val]? = some v :=
    ⟨_, List.getElem?_eq_getElem (j.isLt.trans_eq hm)⟩
  have hfree : ∀ q, b.Leads i j q → g.isWall (q % g.width) (q / g.width) = false := by
    intro q hq
    obtain ⟨a, ha⟩ := (hseq.mem_iff q).mp (hforces.2 q hq)
    exact (steps_eq_some_iff.mp ha).1
  have hstops : ∀ steps ∈ v.stepCounts slip,
      g.isWall (g.stop (i % g.width) (i / g.width) v steps).1
        (g.stop (i % g.width) (i / g.width) v steps).2 = false := by
    intro steps hsteps
    obtain ⟨q, hq, hcolumn, hrow⟩ := h.exists_leads hb hn i hv hsteps
    rw [← hcolumn, ← hrow]
    exact hfree q hq
  obtain ⟨q, hq, hcolumn, hrow⟩ := h.exists_leads_one hb hn i hv
  have hfar := stop_of_ne_arrow hx hy hd hv hj hstops
  rw [← hcolumn, ← hrow, ← hgate] at hfar
  refine lt_of_lt_of_le ?_ (idxOf_le_lastPos hq)
  rcases hfar with hlt | ⟨heq, hlt⟩
  · exact hseq.idxOf_lt_of_lt hkval (steps_eq_some_iff.mpr ⟨hfree q hq, rfl⟩) hlt
  · exact hswept k q hkval (steps_eq_some_iff.mpr ⟨hfree q hq, heq⟩) hlt

theorem choice_eq_arrow (hswept : Swept g order d)
    (hi : g.steps (i % g.width) (i / g.width) = some (d + 1))
    (hj : j.val = g.arrow slip (i % g.width) (i / g.width)) : c i = some j := by
  obtain ⟨k, hgate, hkval, hforces, hlast⟩ := exists_gate h hb hn hseq hi hj
  refine hseq.choice_eq hi hforces fun j' hne hforces' => ?_
  have hother : j'.val ≠ g.arrow slip (i % g.width) (i / g.width) :=
    fun heq => hne (Fin.ext (heq.trans hj.symm))
  rw [hlast]
  exact idxOf_gate_lt h hb hn hm hseq hswept hi hother hforces' hgate hkval

/-- The sweep of one distance settles that of the next. -/
theorem swept_succ (hswept : Swept g order d) : Swept g order (d + 1) := by
  intro i k hi hk hcolumns
  have hinput : ∀ i : Fin n, ∃ j : Fin m, j.val = g.arrow slip (i % g.width) (i / g.width) :=
    fun i => ⟨⟨_, (arrow_lt g slip _ _).trans_eq hm.symm⟩, rfl⟩
  obtain ⟨j, hj⟩ := hinput i
  obtain ⟨j', hj'⟩ := hinput k
  obtain ⟨p, hp, hpval, -, hlast⟩ := exists_gate h hb hn hseq hi hj
  obtain ⟨q, hq, hqval, -, hlast'⟩ := exists_gate h hb hn hseq hk hj'
  refine hseq.idxOf_lt_of_finish_lt hi hk (choice_eq_arrow h hb hn hm hseq hswept hi hj)
    (choice_eq_arrow h hb hn hm hseq hswept hk hj') ?_
  obtain ⟨-, hd⟩ := steps_eq_some_iff.mp hi
  obtain ⟨-, hd'⟩ := steps_eq_some_iff.mp hk
  have hgates := gate_of_lt slip hcolumns (h.mod_lt i) (div_lt (i.isLt.trans_eq hn))
    (div_lt (k.isLt.trans_eq hn)) hd hd'
  rw [← hp, ← hq, ← hj, ← hj'] at hgates
  rcases hgates with hlt | ⟨heq, hlt⟩
  · have hgates := hswept p q hpval hqval hlt
    exact finish_lt_finish (hlast.trans_le hgates.le) hlast'.ge (.inl (hlast.trans_lt hgates))
  · obtain ⟨hcolumn, hrow⟩ := Prod.mk.inj heq
    obtain rfl := cell_ext hcolumn hrow
    exact finish_lt_finish hlast.le hlast'.ge (.inr (Prod.Lex.toLex_lt_toLex.mpr (.inl hlt)))

/-- At every distance the cells come from east to west. -/
theorem swept (d : ℕ) : Swept g order d := by
  induction d with
  | zero =>
    intro i k hi hk hlt
    obtain ⟨-, hd⟩ := steps_eq_some_iff.mp hi
    obtain ⟨-, hd'⟩ := steps_eq_some_iff.mp hk
    have hx := h.mod_lt i
    rw [distance] at hd hd'
    omega
  | succ d ih => exact swept_succ h hb hn hm hseq ih

end Sweep

/-! ### The map of the controller -/

theorem mark_arrow (x y : ℕ) : moves[g.arrow slip x y]?.elim '.' Move.mark =
    if g.Clear slip x y then '>' else '^' := by
  rw [arrow]
  split <;> rfl

section Solve

variable {mem mem' : Memory} (h : g.Sized) {b : Builder} {s : Store} {goal : State} {sol : Solution}
  (hs : (b.build mem).result = .ok s) (hb : b.triples = g.transitions slip)
  (hn : s.numStates = g.width * g.height) (hm : s.numInputs = moves.length)
  (hgoal : goal.id = g.cellId (g.width - 1) (g.height - 1))
  (hsol : (((ReachabilityGame.new s).avoiding g.walls).solve mem' [goal]).result = .ok sol)

include h hs hb hn hm hgoal hsol

theorem Sized.exists_witness_arrow {i : Fin s.numStates} {d : ℕ}
    (hi : g.steps (i % g.width) (i / g.width) = some (d + 1)) :
    ∃ u : Input, sol.region.witness (s.state i) = .ok (some u) ∧
      u.id = g.arrow slip (i % g.width) (i / g.width) := by
  obtain ⟨c, htells, hrank, hchosen⟩ := h.exists_ranking_of_solve hs hb hn hm hgoal hsol
  have hpos : 0 < s.numInputs := by
    rw [hm]
    decide
  obtain ⟨order, hseq⟩ := Builder.exists_sequence_of_solve hs hpos hsol htells hrank hchosen
  let j : Fin s.numInputs := ⟨_, (arrow_lt g slip (i % g.width) (i / g.width)).trans_eq hm.symm⟩
  have hchoice := choice_eq_arrow h hb hn hm hseq (swept h hb hn hm hseq d) hi (j := j) rfl
  exact ⟨s.input j, htells.witness_eq_iff.mpr hchoice, rfl⟩

theorem Sized.mark_eq_arrow (hx : x < g.width) (hy : y < g.height) (hwall : g.isWall x y = false)
    (hne : ¬ (x = g.width - 1 ∧ y = g.height - 1)) :
    g.mark sol.region x y = .ok (if g.Clear slip x y then '>' else '^') := by
  let i : Fin s.numStates := ⟨g.cellId x y, (cellId_lt hx hy).trans_eq hn.symm⟩
  have hcolumn : i % g.width = x := cellId_mod hx
  have hrow : i / g.width = y := cellId_div hx
  have hpos : g.distance x y ≠ 0 := (distance_eq_zero_iff hx hy).not.mpr hne
  obtain ⟨d, hd⟩ := Nat.exists_eq_succ_of_ne_zero hpos
  have hi : g.steps (i % g.width) (i / g.width) = some (d + 1) := by
    rw [hcolumn, hrow]
    exact steps_eq_some_iff.mpr ⟨hwall, hd⟩
  obtain ⟨u, hu, hid⟩ := h.exists_witness_arrow hs hb hn hm hgoal hsol hi
  have hc : (s.state i).id = g.cellId x y := rfl
  rw [Sized.mark_eq_ok hx hy h hc hu, hwall, Option.bind_some, hid, hcolumn, hrow, mark_arrow]
  rfl

end Solve

/-- On every grid that fits, with and without slip, the map of the controller in the report points
east just from the cells whose way east is clear: the next cell is not a wall, and with slip neither
is the one to which the robot may overshoot. From all other cells but the walls and the goal it
points north, and it never points south or west. -/
theorem Fits.points_east_iff_clear (h : g.Fits slip mem) (draw : Bool) :
    ∃ s goal sol, g.build mem slip = .ok s ∧ g.goal = .ok goal ∧
      (((ReachabilityGame.new s).avoiding g.walls).solve mem [goal]).result = .ok sol ∧
      ∃ (glyph : ℕ → ℕ → Char) (texts : List String),
        (g.report mem slip draw).lines.toList =
          .plain s!"tf = {s.describe}" ::
          .note s!"Winning states: {sol.region.size} of {s.numStates}" ::
          .plain "Controller (o = stay, # = wall, . = losing):" ::
          ((g.lined fun y => .ofList ((List.range g.width).map (glyph · y))).map .plain ++
            .plain "Steps to goal:" :: texts.map .plain) ∧
        ∀ x < g.width, ∀ y < g.height, glyph x y ≠ 'v' ∧ glyph x y ≠ '<' ∧
          (g.isWall x y = false → ¬ (x = g.width - 1 ∧ y = g.height - 1) →
            (glyph x y = '>' ↔ x < g.width - 1 ∧ g.isWall (x + 1) y = false ∧
              (slip = true → g.isWall (min (x + 2) (g.width - 1)) y = false)) ∧
            (glyph x y ≠ '>' → glyph x y = '^')) := by
  have hsized : g.Sized := h.toSized
  obtain ⟨b, s, goal, sol, hbuild, hs, hb, hn, hm, hgoal, hid, hsol⟩ := h.exists_solution
  have hcharts := hsized.charts_of_solve hs hb hn hm hid hsol
  obtain ⟨glyph, hglyph⟩ := hcharts.exists_glyph hsized
  have hmarks := markRows_eq_ok fun x hx y hy => (hglyph x hx y hy).1
  have htexts := stepsRows_eq_ok fun x hx y hy => hcharts.stepsText_eq hx hy hsized
  have hreport := prints_reporting hbuild hgoal hsol hmarks htexts draw
  refine ⟨s, goal, sol, hbuild, hgoal, hsol, glyph, _, congrArg Array.toList hreport.lines_run,
    fun x hx y hy => ?_⟩
  obtain ⟨hmark, -, hwalls, hhome⟩ := hglyph x hx y hy
  rw [← clear_iff]
  by_cases hmoves : g.isWall x y = false ∧ ¬ (x = g.width - 1 ∧ y = g.height - 1)
  · have hsame := hsized.mark_eq_arrow hs hb hn hm hid hsol hx hy hmoves.1 hmoves.2
    rw [hmark, Except.ok.injEq] at hsame
    rw [hsame]
    split
    · next hclear =>
      exact ⟨by decide, by decide, fun _ _ => ⟨iff_of_true rfl hclear, fun hne => absurd rfl hne⟩⟩
    · next hblocked =>
      exact ⟨by decide, by decide, fun _ _ => ⟨iff_of_false (by decide) hblocked, fun _ => rfl⟩⟩
  · have hother : glyph x y = '#' ∨ glyph x y = 'o' := by
      rw [hwalls, hhome, ← Bool.not_eq_false]
      tauto
    refine ⟨?_, ?_, fun hwall hne => absurd ⟨hwall, hne⟩ hmoves⟩
    · rcases hother with hother | hother <;> rw [hother] <;> decide
    · rcases hother with hother | hother <;> rw [hother] <;> decide

/-- On the standard grid the wall is in column 6. On a slippery floor the robot keeps a distance of
two columns from it, and goes north already in column 4. -/
theorem Fits.points_east_iff_clear_standard : standard.Fits true .ample ∧
    ∃ s goal sol, standard.build .ample true = .ok s ∧ standard.goal = .ok goal ∧
      (((ReachabilityGame.new s).avoiding standard.walls).solve .ample [goal]).result = .ok sol ∧
      ∃ glyph : ℕ → ℕ → Char,
        .plain ("  " ++ .ofList ((List.range 12).map (glyph · 0))) ∈
          (standard.report .ample true false).lines.toList ∧
        glyph 3 0 = '>' ∧ glyph 4 0 = '^' ∧ glyph 5 0 = '^' := by
  obtain ⟨s, goal, sol, hbuild, hgoal, hsol, glyph, texts, hlines, hglyph⟩ :=
    fits_standard.points_east_iff_clear false
  have hmoves := fun x hx hwall hne => (hglyph x hx 0 (by decide)).2.2 hwall hne
  obtain ⟨heast, -⟩ := hmoves 3 (by decide) rfl (by decide)
  obtain ⟨hblocked, hnorth⟩ := hmoves 4 (by decide) rfl (by decide)
  obtain ⟨hblocked', hnorth'⟩ := hmoves 5 (by decide) rfl (by decide)
  refine ⟨fits_standard, s, goal, sol, hbuild, hgoal, hsol, glyph, ?_,
    heast.mpr (by decide), hnorth (hblocked.not.mpr (by decide)),
    hnorth' (hblocked'.not.mpr (by decide))⟩
  rw [hlines]
  have hrow : "  " ++ .ofList ((List.range 12).map (glyph · 0)) ∈
      standard.lined fun y => .ofList ((List.range 12).map (glyph · y)) :=
    List.mem_map_of_mem (f := fun y => "  " ++ String.ofList ((List.range 12).map (glyph · y)))
      (List.mem_reverse.mpr (List.mem_range.mpr (by decide)))
  simp only [List.mem_cons, List.mem_append]
  exact .inr (.inr (.inr (.inl (List.mem_map_of_mem hrow))))

end ControlGames.Scenario.Grid
