import ControlGames.Proofs.EqualValues
import ControlGames.Proofs.GridTransitions

/-!
# Distances on a grid

From a cell that is no wall the robot can go north up to the top row, which has no walls, and from
there east to the goal. Overshooting does no harm on this way, and no move brings the robot closer
to the goal by more than one cell, so the values are the distances to the goal.
-/
namespace ControlGames.Scenario

namespace Grid

variable {g : Grid} {x y : ℕ}

/-! ### Walls -/

theorem isWall_eq_true_iff : g.isWall x y = true ↔ x = g.width / 2 ∧ y < g.height * 3 / 4 := by
  rw [isWall, Bool.and_eq_true, beq_iff_eq, decide_eq_true_iff]

theorem isWall_eq_false_of_le {y' : ℕ} (h : g.isWall x y = false) (hy : y ≤ y') :
    g.isWall x y' = false := by
  rw [Bool.eq_false_iff, ne_eq, isWall_eq_true_iff] at h ⊢
  omega

theorem isWall_top (hy : y + 1 = g.height) : g.isWall x y = false := by
  rw [Bool.eq_false_iff, ne_eq, isWall_eq_true_iff]
  omega

/-! ### Distances -/

variable (g) in
def distance (x y : ℕ) : ℕ := (g.width - 1 - x) + (g.height - 1 - y)

variable (g) in
def steps (x y : ℕ) : Option ℕ := if g.isWall x y then none else some (g.distance x y)

variable (g) in
/-- The number of a move that leads from a row to the goal past all walls: north, or east in the top
row. -/
def heading (y : ℕ) : ℕ := if y + 1 < g.height then 1 else 2

theorem heading_lt (y : ℕ) : g.heading y < moves.length := by
  rw [heading]
  split <;> decide

theorem steps_eq_some_iff {k : ℕ} :
    g.steps x y = some k ↔ g.isWall x y = false ∧ g.distance x y = k := by
  rw [steps]
  split
  · next hwall => simp [hwall]
  · next hwall => simp [hwall]

theorem stop_stay (hx : x < g.width) (hy : y < g.height) : g.stop x y ⟨0, 0, 'o'⟩ 1 = (x, y) := by
  rw [stop, Prod.mk.injEq]
  constructor
  · dsimp only
    omega
  · dsimp only
    omega

theorem stop_north {n : ℕ} (hx : x < g.width) :
    g.stop x y ⟨0, 1, '^'⟩ n = (x, min (y + n) (g.height - 1)) := by
  rw [stop, Prod.mk.injEq]
  constructor
  · dsimp only
    omega
  · dsimp only
    omega

theorem stop_east {n : ℕ} (hy : y < g.height) :
    g.stop x y ⟨1, 0, '>'⟩ n = (min (x + n) (g.width - 1), y) := by
  rw [stop, Prod.mk.injEq]
  constructor
  · dsimp only
    omega
  · dsimp only
    omega

/-- No move brings the robot closer by more than one cell if it takes one step. -/
theorem distance_le_stop {v : Move} (hv : v ∈ moves) (hx : x < g.width) (hy : y < g.height) :
    g.distance x y ≤ g.distance (g.stop x y v 1).1 (g.stop x y v 1).2 + 1 := by
  simp only [moves, List.mem_cons, List.not_mem_nil, or_false] at hv
  simp only [distance, stop]
  rcases hv with rfl | rfl | rfl | rfl | rfl <;> dsimp only <;> omega

/-- The heading leads past all walls and brings the robot closer, by one cell if it takes one step.
-/
theorem stop_heading {v : Move} {steps : ℤ} {k : ℕ} (hv : moves[g.heading y]? = some v)
    (hsteps : steps = 1 ∨ steps = 2) (hx : x < g.width) (hy : y < g.height)
    (hwall : g.isWall x y = false) (hk : g.distance x y = k + 1) :
    g.isWall (g.stop x y v steps).1 (g.stop x y v steps).2 = false ∧
      g.distance (g.stop x y v steps).1 (g.stop x y v steps).2 ≤ k ∧
      (steps = 1 → g.distance (g.stop x y v steps).1 (g.stop x y v steps).2 = k) := by
  obtain ⟨n, rfl⟩ : ∃ n : ℕ, steps = n := Int.eq_ofNat_of_zero_le (by omega)
  rw [distance] at hk
  rw [heading] at hv
  split at hv
  · next hnorth =>
    obtain rfl : ⟨0, 1, '^'⟩ = v := Option.some.inj hv
    rw [stop_north hx, distance]
    refine ⟨isWall_eq_false_of_le hwall ?_, ?_, ?_⟩ <;> dsimp only <;> omega
  · next htop =>
    obtain rfl : ⟨1, 0, '>'⟩ = v := Option.some.inj hv
    rw [stop_east hy, distance]
    refine ⟨isWall_top ?_, ?_, ?_⟩ <;> dsimp only <;> omega

theorem distance_eq_zero_iff (hx : x < g.width) (hy : y < g.height) :
    g.distance x y = 0 ↔ x = g.width - 1 ∧ y = g.height - 1 := by
  rw [distance]
  omega

/-! ### Ranks of cells -/

namespace Sized

variable (h : g.Sized)

include h

theorem isWall_goal : g.isWall (g.width - 1) (g.height - 1) = false :=
  isWall_top (Nat.sub_add_cancel h.height_pos)

theorem goal_lt : g.cellId (g.width - 1) (g.height - 1) < g.width * g.height :=
  cellId_lt (Nat.sub_one_lt_of_lt h.width_pos) (Nat.sub_one_lt_of_lt h.height_pos)

theorem eq_goal_iff {k : ℕ} (hk : k < g.width * g.height) :
    k = g.cellId (g.width - 1) (g.height - 1) ↔ g.distance (k % g.width) (k / g.width) = 0 := by
  have hlast : g.width - 1 < g.width := Nat.sub_one_lt_of_lt h.width_pos
  rw [distance_eq_zero_iff (h.mod_lt k) (div_lt hk), ← cellId_inj (h.mod_lt k) hlast,
    cellId_mod_div]

variable {b : Builder} {slip : Bool} {n m : ℕ} (hb : b.triples = g.transitions slip)
  (hn : n = g.width * g.height)

include hb hn

theorem leads_iff {i k : Fin n} {j : Fin m} :
    b.Leads i j k ↔ ∃ v, moves[j.val]? = some v ∧ ∃ steps ∈ v.stepCounts slip,
      k % g.width = (g.stop (i % g.width) (i / g.width) v steps).1 ∧
      k / g.width = (g.stop (i % g.width) (i / g.width) v steps).2 := by
  have hi : i.val < g.width * g.height := i.isLt.trans_eq hn
  rw [Builder.leads_iff_mem_triples, hb, mem_transitions, and_iff_right hi]
  refine exists_congr fun v => and_congr_right' (exists_congr fun steps => and_congr_right' ?_)
  rw [stopId, ← cellId_mod_div (g := g) k, cellId_inj (h.stop_fst_lt _ _ v steps) (h.mod_lt k),
    cellId_mod_div]
  exact and_congr eq_comm eq_comm

theorem exists_leads (i : Fin n) {j : Fin m} {v : Move} (hv : moves[j.val]? = some v) {steps : ℤ}
    (hsteps : steps ∈ v.stepCounts slip) : ∃ k : Fin n, b.Leads i j k ∧
      k % g.width = (g.stop (i % g.width) (i / g.width) v steps).1 ∧
      k / g.width = (g.stop (i % g.width) (i / g.width) v steps).2 := by
  have hx := h.stop_fst_lt (i % g.width) (i / g.width) v steps
  let k : Fin n := ⟨_, (h.stopId_lt i v steps).trans_eq hn.symm⟩
  have hcolumn : k % g.width = _ := cellId_mod hx
  have hrow : k / g.width = _ := cellId_div hx
  exact ⟨k, (h.leads_iff hb hn).mpr ⟨v, hv, steps, hsteps, hcolumn, hrow⟩, hcolumn, hrow⟩

theorem exists_leads_one (i : Fin n) {j : Fin m} {v : Move} (hv : moves[j.val]? = some v) :
    ∃ k : Fin n, b.Leads i j k ∧
      k % g.width = (g.stop (i % g.width) (i / g.width) v 1).1 ∧
      k / g.width = (g.stop (i % g.width) (i / g.width) v 1).2 :=
  h.exists_leads hb hn i hv (v.one_mem_stepCounts slip)

theorem leads_stay (i : Fin n) {j : Fin m} (hj : j.val = 0) : b.Leads i j i := by
  have hx := h.mod_lt i
  have hy : i.val / g.width < g.height := div_lt (i.isLt.trans_eq hn)
  have hv : moves[j.val]? = some ⟨0, 0, 'o'⟩ := by
    rw [hj]
    rfl
  have hstop := stop_stay hx hy
  refine (h.leads_iff hb hn).mpr ⟨_, hv, 1, Move.one_mem_stepCounts _ slip, ?_, ?_⟩
  · rw [hstop]
  · rw [hstop]

/-- The headings rank the cells by their distances. -/
theorem ranking_steps (hm : m = moves.length) :
    Ranking (b.Leads (n := n) (m := m)) {i | i.val = g.cellId (g.width - 1) (g.height - 1)}
      {i | g.isWall (i % g.width) (i / g.width) = true}
      (fun i => g.steps (i % g.width) (i / g.width))
      (fun i => some ⟨g.heading (i / g.width), hm ▸ heading_lt _⟩) where
  zero_iff i := by
    have hi : i.val < g.width * g.height := i.isLt.trans_eq hn
    rw [steps_eq_some_iff, ← h.eq_goal_iff hi, and_comm]
    exact and_congr_right' Bool.eq_false_iff
  forced i k hk := by
    have hi : i.val < g.width * g.height := i.isLt.trans_eq hn
    have hx := h.mod_lt i
    have hy := div_lt hi
    obtain ⟨hwall, hk⟩ := steps_eq_some_iff.mp hk
    refine ⟨fun hgoal => ?_, Bool.eq_false_iff.mp hwall, _, rfl, fun q hq => ?_, ?_⟩
    · rw [(h.eq_goal_iff hi).mp hgoal] at hk
      cases hk
    · obtain ⟨v, hv, steps, hsteps, hcolumn, hrow⟩ := (h.leads_iff hb hn).mp hq
      obtain ⟨hfree, hle, -⟩ := stop_heading hv (Move.mem_stepCounts hsteps) hx hy hwall hk
      refine ⟨_, hle, steps_eq_some_iff.mpr ?_⟩
      rw [hcolumn, hrow]
      exact ⟨hfree, rfl⟩
    · -- Overshooting only brings the robot closer, so a single step is the worst that can happen.
      have hv := List.getElem?_eq_getElem (heading_lt (g := g) (i / g.width))
      obtain ⟨q, hq, hcolumn, hrow⟩ := h.exists_leads_one hb hn (m := m) i (j := ⟨_, _⟩) hv
      obtain ⟨hfree, -, hone⟩ := stop_heading hv (.inl rfl) hx hy hwall hk
      refine ⟨q, hq, steps_eq_some_iff.mpr ?_⟩
      rw [hcolumn, hrow]
      exact ⟨hfree, hone rfl⟩
  complete i j k hwall hj := by
    have hi : i.val < g.width * g.height := i.isLt.trans_eq hn
    obtain ⟨⟨q, hq⟩, hall⟩ := hj
    -- The input is a move, and the floor may let the robot take a single step of it.
    obtain ⟨v, hv, -⟩ := (h.leads_iff hb hn).mp hq
    obtain ⟨q', hq', hcolumn, hrow⟩ := h.exists_leads_one hb hn i hv
    obtain ⟨a, ha, hvalue⟩ := hall q' hq'
    obtain ⟨-, hdist⟩ := steps_eq_some_iff.mp hvalue
    rw [hcolumn, hrow] at hdist
    have hle := distance_le_stop (List.mem_of_getElem? hv) (h.mod_lt i) (div_lt hi)
    exact ⟨_, by omega, steps_eq_some_iff.mpr ⟨Bool.eq_false_iff.mpr hwall, rfl⟩⟩

end Sized

end Grid

end ControlGames.Scenario
