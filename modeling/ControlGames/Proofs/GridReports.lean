import ControlGames.Proofs.GridValues
import ControlGames.Proofs.ReportLines

/-!
# Reports on a grid

The report on a grid counts the winning cells and shows two maps, with one line for each row of
cells. Since all cells but the walls win, the map of the controller has marks for walls and moves
only, and the map of the steps shows the distances to the goal.
-/
namespace ControlGames.Scenario.Grid

open Reporting

variable {g : Grid} {slip : Bool} {mem : Memory}

/-! ### Maps -/

variable (g) in
def lined (text : ℕ → String) : List String :=
  (List.range g.height).reverse.map fun y => "  " ++ text y

def padded : Option ℕ → String
  | some v => "".pushn ' ' (3 - (toString v).length) ++ toString v
  | none => "  -"

theorem rows_eq_ok {line : ℕ → Except Fault String} {text : ℕ → String}
    (h : ∀ y < g.height, line y = .ok (text y)) : g.rows line = .ok (g.lined text) := by
  refine mapM_eq_ok fun y hy => ?_
  rw [h y (by simpa using hy)]
  rfl

theorem markRows_eq_ok {r : Region} {glyph : ℕ → ℕ → Char}
    (h : ∀ x < g.width, ∀ y < g.height, g.mark r x y = .ok (glyph x y)) :
    g.markRows r = .ok (g.lined fun y => .ofList ((List.range g.width).map (glyph · y))) := by
  refine rows_eq_ok fun y hy => ?_
  rw [mapM_eq_ok fun x hx => h x (List.mem_range.mp hx) y hy]
  rfl

theorem stepsRows_eq_ok {f : ValueFunction} {text : ℕ → ℕ → String}
    (h : ∀ x < g.width, ∀ y < g.height, g.stepsText f x y = .ok (text x y)) :
    g.stepsRows f = .ok (g.lined fun y => .join ((List.range g.width).map (text · y))) := by
  refine rows_eq_ok fun y hy => ?_
  rw [mapM_eq_ok fun x hx => h x (List.mem_range.mp hx) y hy]
  rfl

theorem prints_reporting {s : Store} {goal : State} {sol : Solution} {marks texts : List String}
    (hbuild : g.build mem slip = .ok s) (hgoal : g.goal = .ok goal)
    (hsol : (((ReachabilityGame.new s).avoiding g.walls).solve mem [goal]).result = .ok sol)
    (hmarks : g.markRows sol.region = .ok marks) (htexts : g.stepsRows sol.value = .ok texts)
    (draw : Bool) :
    Prints (g.reporting mem slip draw)
      (.plain s!"tf = {s.describe}" ::
        .note s!"Winning states: {sol.region.size} of {s.numStates}" ::
        .plain "Controller (o = stay, # = wall, . = losing):" ::
        (marks.map .plain ++ .plain "Steps to goal:" :: texts.map .plain)) := by
  have hend : Prints (if draw
      then some <$> orEnd (orFail (s.dot Dot.defaultStyle (some sol.region)))
      else return none) [] := by
    cases draw with
    | true => exact (prints_orEnd _).map some
    | false => exact (yields_pure none).prints
  rw [reporting, ← List.append_nil (texts.map Line.plain)]
  refine (yields_orEnd hbuild).bind_prints ((yields_say _).bind_prints ?_)
  refine (yields_orFail hgoal).bind_prints ((yields_orEnd hsol).bind_prints ?_)
  refine (yields_note _).bind_prints ((yields_say _).bind_prints ?_)
  refine (yields_orFail hmarks).bind_prints ((yields_forM_say marks).bind_prints ?_)
  refine (yields_say _).bind_prints ?_
  exact (yields_orFail htexts).bind_prints ((yields_forM_say texts).bind_prints hend)

/-! ### Cells of the maps -/

theorem mark_of_ne_zero {j : ℕ} (hj : j ≠ 0) (hlt : j < moves.length) :
    ∃ v, moves[j]? = some v ∧ v.mark ≠ '.' ∧ v.mark ≠ '#' ∧ v.mark ≠ 'o' := by
  have hlt : j < 5 := hlt
  obtain rfl | rfl | rfl | rfl : j = 1 ∨ j = 2 ∨ j = 3 ∨ j = 4 := by omega
  all_goals exact ⟨_, rfl, by decide, by decide, by decide⟩

section Cells

variable {x y : ℕ} (hx : x < g.width)

include hx

theorem walls_eq {c : State} (hc : c.id = g.cellId x y) : g.walls c = g.isWall x y := by
  rw [walls, hc, cellId_mod hx, cellId_div hx]

variable (hy : y < g.height)

include hy

theorem Charts.get_eq {sol : Solution} (hsol : g.Charts sol) {c : State}
    (hc : c.id = g.cellId x y) : sol.value.get c = .ok (g.steps x y) := by
  have hvalue := hsol.value c (hc.trans_lt (cellId_lt hx hy))
  rwa [hc, cellId_mod hx, cellId_div hx] at hvalue

variable (h : g.Sized)

include h

theorem Sized.ofId_cellId : ∃ c, State.ofId (g.cellId x y) = .ok c ∧ c.id = g.cellId x y :=
  ⟨_, State.ofId_eq_ok ((cellId_lt hx hy).trans_le h.cells_le), rfl⟩

theorem Sized.mark_eq_ok {r : Region} {c : State} (hc : c.id = g.cellId x y) {w : Option Input}
    (hw : r.witness c = .ok w) : g.mark r x y =
      .ok (if g.isWall x y then '#' else (w.bind fun u => moves[u.id]?).elim '.' Move.mark) := by
  obtain ⟨c', hc', hid⟩ := Sized.ofId_cellId hx hy h
  obtain rfl : c' = c := State.ext_id (hid.trans hc.symm)
  rw [mark, hc']
  exact bind_eq_ok_iff.mpr ⟨_, rfl, bind_eq_ok_iff.mpr ⟨_, hw, rfl⟩⟩

theorem Charts.stepsText_eq {sol : Solution} (hsol : g.Charts sol) :
    g.stepsText sol.value x y = .ok (padded (g.steps x y)) := by
  obtain ⟨c, hc, hid⟩ := Sized.ofId_cellId hx hy h
  rw [stepsText, hc]
  refine bind_eq_ok_iff.mpr ⟨_, rfl, bind_eq_ok_iff.mpr ⟨_, hsol.get_eq hx hy hid, ?_⟩⟩
  cases g.steps x y <;> rfl

theorem Charts.exists_mark {sol : Solution} (hsol : g.Charts sol) :
    ∃ ch, g.mark sol.region x y = .ok ch ∧ ch ≠ '.' ∧ (ch = '#' ↔ g.isWall x y = true) ∧
      (ch = 'o' ↔ x = g.width - 1 ∧ y = g.height - 1) := by
  obtain ⟨c, -, hid⟩ := Sized.ofId_cellId hx hy h
  have hlt : c.id < g.width * g.height := hid.trans_lt (cellId_lt hx hy)
  have hwalls : g.walls c = g.isWall x y := walls_eq hx hid
  have hgoal : c.id = g.cellId (g.width - 1) (g.height - 1) ↔
      x = g.width - 1 ∧ y = g.height - 1 := by
    rw [hid, cellId_inj hx (Nat.sub_one_lt_of_lt h.width_pos)]
  cases hwall : g.isWall x y with
  | true =>
    refine ⟨'#', ?_, by decide, iff_of_true rfl rfl, iff_of_false (by decide) ?_⟩
    · rw [Sized.mark_eq_ok hx hy h hid (hsol.wall c hlt (hwalls.trans hwall)), hwall]
      rfl
    · rintro ⟨rfl, rfl⟩
      rw [h.isWall_goal] at hwall
      cases hwall
  | false =>
    by_cases hhome : c.id = g.cellId (g.width - 1) (g.height - 1)
    · obtain ⟨u, hu, hzero⟩ := hsol.goal c hhome
      refine ⟨'o', ?_, by decide, iff_of_false (by decide) Bool.false_ne_true,
        iff_of_true rfl (hgoal.mp hhome)⟩
      rw [Sized.mark_eq_ok hx hy h hid hu, hwall, Option.bind_some, hzero]
      rfl
    · obtain ⟨u, hu, hne, hlt⟩ := hsol.elsewhere c hlt (hwalls.trans hwall) hhome
      obtain ⟨v, hv, hdot, hhash, hstay⟩ := mark_of_ne_zero hne hlt
      refine ⟨v.mark, ?_, hdot, iff_of_false hhash Bool.false_ne_true,
        iff_of_false hstay (hgoal.not.mp hhome)⟩
      rw [Sized.mark_eq_ok hx hy h hid hu, hwall, Option.bind_some, hv]
      rfl

end Cells

theorem Charts.exists_glyph {sol : Solution} (hsol : g.Charts sol) (h : g.Sized) :
    ∃ glyph : ℕ → ℕ → Char, ∀ x < g.width, ∀ y < g.height,
      g.mark sol.region x y = .ok (glyph x y) ∧ glyph x y ≠ '.' ∧
      (glyph x y = '#' ↔ g.isWall x y = true) ∧
      (glyph x y = 'o' ↔ x = g.width - 1 ∧ y = g.height - 1) := by
  have hmarks : ∀ x y, ∃ ch, x < g.width → y < g.height → g.mark sol.region x y = .ok ch ∧
      ch ≠ '.' ∧ (ch = '#' ↔ g.isWall x y = true) ∧
      (ch = 'o' ↔ x = g.width - 1 ∧ y = g.height - 1) := by
    intro x y
    by_cases hxy : x < g.width ∧ y < g.height
    · obtain ⟨ch, hch⟩ := hsol.exists_mark hxy.1 hxy.2 h
      exact ⟨ch, fun _ _ => hch⟩
    · -- Nothing is said of places outside the grid.
      exact ⟨' ', fun hx hy => absurd ⟨hx, hy⟩ hxy⟩
  choose glyph hglyph using hmarks
  exact ⟨glyph, fun x hx y hy => hglyph x y hx hy⟩

/-- On every grid that fits, with and without slip, the goal is not a wall, each cell that is not a
wall is winning and its value is the number of columns and rows between it and the goal, and each
wall is losing. So the report counts all cells but the walls as winning. In the map of the
controller no cell is marked as losing, just the walls are marked as walls, and the controller stays
just at the goal. The map of the steps shows the values. -/
theorem Fits.controller_complete (h : g.Fits slip mem) (draw : Bool) :
    let winning := g.width * g.height - 3 * g.height / 4
    g.isWall (g.width - 1) (g.height - 1) = false ∧ ∃ s goal sol,
      g.build mem slip = .ok s ∧ g.goal = .ok goal ∧
      goal.id = g.cellId (g.width - 1) (g.height - 1) ∧
      (((ReachabilityGame.new s).avoiding g.walls).solve mem [goal]).result = .ok sol ∧
      (∀ x < g.width, ∀ y < g.height, ∃ c : State, c.id = g.cellId x y ∧
        sol.value.get c = .ok (if g.isWall x y then none
          else some ((g.width - 1 - x) + (g.height - 1 - y))) ∧
        sol.region.isWinning c = .ok (!g.isWall x y)) ∧
      sol.region.size = winning ∧
      ∃ glyph : ℕ → ℕ → Char,
        (∀ x < g.width, ∀ y < g.height, glyph x y ≠ '.' ∧
          (glyph x y = '#' ↔ g.isWall x y = true) ∧
          (glyph x y = 'o' ↔ x = g.width - 1 ∧ y = g.height - 1)) ∧
        (g.report mem slip draw).lines.toList =
          .plain s!"tf = {s.describe}" ::
          .note s!"Winning states: {winning} of {g.width * g.height}" ::
          .plain "Controller (o = stay, # = wall, . = losing):" ::
          ((g.lined fun y => .ofList ((List.range g.width).map (glyph · y))).map .plain ++
            .plain "Steps to goal:" ::
            (g.lined fun y => .join ((List.range g.width).map fun x =>
              padded (if g.isWall x y then none
                else some ((g.width - 1 - x) + (g.height - 1 - y))))).map .plain) := by
  intro winning
  have hsized : g.Sized := h.toSized
  obtain ⟨s, goal, sol, hbuild, hgoal, hid, hsol, hn, hcharts⟩ := h.exists_charts
  obtain ⟨glyph, hglyph⟩ := hcharts.exists_glyph hsized
  have hmarks := markRows_eq_ok fun x hx y hy => (hglyph x hx y hy).1
  have htexts := stepsRows_eq_ok fun x hx y hy => hcharts.stepsText_eq hx hy hsized
  have hreport := prints_reporting hbuild hgoal hsol hmarks htexts draw
  have hsize : sol.region.size = winning := by
    rw [hcharts.size_eq hsized, Nat.mul_comm g.height 3]
  rw [hsize, hn] at hreport
  refine ⟨hsized.isWall_goal, s, goal, sol, hbuild, hgoal, hid, hsol, fun x hx y hy => ?_, hsize,
    glyph, fun x hx y hy => (hglyph x hx y hy).2, ?_⟩
  · obtain ⟨c, -, hc⟩ := Sized.ofId_cellId hx hy hsized
    refine ⟨c, hc, hcharts.get_eq hx hy hc, ?_⟩
    rw [hcharts.isWinning (hc.trans_lt (cellId_lt hx hy)), walls_eq hx hc]
  · rw [report, hreport.lines_run]
    rfl

/-- The standard grid has 90 winning cells, and the robot needs 18 steps from the bottom left. -/
theorem Fits.controller_complete_standard : standard.Fits true .ample ∧ ∃ s goal sol c,
    standard.build .ample true = .ok s ∧ standard.goal = .ok goal ∧
    (((ReachabilityGame.new s).avoiding standard.walls).solve .ample [goal]).result = .ok sol ∧
    sol.region.size = 90 ∧ c.id = 0 ∧ sol.value.get c = .ok (some 18) := by
  obtain ⟨-, s, goal, sol, hbuild, hgoal, -, hsol, hcells, hsize, -⟩ :=
    fits_standard.controller_complete false
  obtain ⟨c, hc, hvalue, -⟩ := hcells 0 (by decide) 0 (by decide)
  exact ⟨fits_standard, s, goal, sol, c, hbuild, hgoal, hsol, hsize, hc, hvalue⟩

end ControlGames.Scenario.Grid
