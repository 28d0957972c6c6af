import ControlGames.Proofs.NumberedTransitions
import ControlGames.Scenario.Grid

/-!
# Transitions of a grid

Every step of a robot ends in a cell of the grid, since it stops at the border. So all transitions
that are added are in range, and a grid that fits is built into a store of just these.
-/
namespace ControlGames.Scenario

theorem Move.mem_stepCounts {v : Move} {slip : Bool} {steps : ℤ} (h : steps ∈ v.stepCounts slip) :
    steps = 1 ∨ steps = 2 := by
  rw [Move.stepCounts] at h
  split at h <;> simp at h <;> omega

theorem Move.one_mem_stepCounts (v : Move) (slip : Bool) : 1 ∈ v.stepCounts slip := by
  rw [Move.stepCounts]
  split <;> simp

theorem Move.slip_of_two_mem {v : Move} {slip : Bool} (h : 2 ∈ v.stepCounts slip) :
    slip = true := by
  cases slip with
  | true => rfl
  | false => exact absurd (List.mem_singleton.mp h) (by decide)

namespace Grid

variable {g : Grid} {x y k : ℕ}

/-! ### Numbers of cells -/

theorem cellId_lt (hx : x < g.width) (hy : y < g.height) : g.cellId x y < g.width * g.height := by
  rw [cellId]
  calc
    y * g.width + x < y * g.width + g.width := Nat.add_lt_add_left hx _
    _ = (y + 1) * g.width := (Nat.succ_mul _ _).symm
    _ ≤ g.height * g.width := Nat.mul_le_mul_right _ hy
    _ = g.width * g.height := Nat.mul_comm _ _

theorem cellId_mod (hx : x < g.width) : g.cellId x y % g.width = x := by
  rw [cellId, Nat.mul_add_mod_self_right, Nat.mod_eq_of_lt hx]

theorem cellId_div (hx : x < g.width) : g.cellId x y / g.width = y := by
  rw [cellId, Nat.mul_comm, Nat.mul_add_div (Nat.zero_lt_of_lt hx), Nat.div_eq_of_lt hx,
    Nat.add_zero]

theorem div_lt (hk : k < g.width * g.height) : k / g.width < g.height := Nat.div_lt_of_lt_mul hk

theorem cellId_mod_div (k : ℕ) : g.cellId (k % g.width) (k / g.width) = k := by
  rw [cellId, Nat.mul_comm, Nat.div_add_mod]

theorem cellId_inj {x' y' : ℕ} (hx : x < g.width) (hx' : x' < g.width) :
    g.cellId x y = g.cellId x' y' ↔ x = x' ∧ y = y' := by
  constructor
  · intro h
    have hmod := congrArg (· % g.width) h
    have hdiv := congrArg (· / g.width) h
    simp only [cellId_mod hx, cellId_mod hx', cellId_div hx, cellId_div hx'] at hmod hdiv
    exact ⟨hmod, hdiv⟩
  · rintro ⟨rfl, rfl⟩
    rfl

/-! ### Steps -/

variable (g) in
def stop (x y : ℕ) (v : Move) (steps : ℤ) : ℕ × ℕ :=
  (min (x + steps * v.dx).toNat (g.width - 1), min (y + steps * v.dy).toNat (g.height - 1))

variable (g) in
def stopId (k : ℕ) (v : Move) (steps : ℤ) : ℕ :=
  g.cellId (g.stop (k % g.width) (k / g.width) v steps).1
    (g.stop (k % g.width) (k / g.width) v steps).2

variable (g) in
def cellTransitions (slip : Bool) (k : ℕ) : List Triple :=
  moves.zipIdx.flatMap fun (v, j) => (v.stepCounts slip).map fun steps => (k, j, g.stopId k v steps)

variable (g) in
def transitions (slip : Bool) : List Triple :=
  (List.range (g.width * g.height)).flatMap (g.cellTransitions slip)

theorem mem_transitions {slip : Bool} {p j q : ℕ} : (p, j, q) ∈ g.transitions slip ↔
    p < g.width * g.height ∧ ∃ v, moves[j]? = some v ∧ ∃ steps ∈ v.stepCounts slip,
      g.stopId p v steps = q := by
  simp only [transitions, cellTransitions, List.mem_flatMap, List.mem_range, List.mem_map,
    Prod.exists, Prod.mk.injEq, List.mem_zipIdx_iff_getElem?]
  constructor
  · rintro ⟨_, hp, v, _, hv, steps, hsteps, rfl, rfl, rfl⟩
    exact ⟨hp, v, hv, steps, hsteps, rfl⟩
  · rintro ⟨hp, v, hv, steps, hsteps, rfl⟩
    exact ⟨p, hp, v, j, hv, steps, hsteps, rfl, rfl, rfl⟩

theorem card_transitions_le (g : Grid) (slip : Bool) :
    (g.transitions slip).toFinset.card ≤ g.width * g.height * 9 := by
  have hcell : ∀ k, (g.cellTransitions slip k).length ≤ 9 := by
    intro k
    cases slip with
    | false => exact Nat.le_add_left 5 4
    | true => exact le_refl 9
  have hlengths : ∀ len ∈ (List.range (g.width * g.height)).map
      fun k => (g.cellTransitions slip k).length, len ≤ 9 := by
    intro len hlen
    obtain ⟨k, -, rfl⟩ := List.mem_map.mp hlen
    exact hcell k
  calc
    (g.transitions slip).toFinset.card ≤ (g.transitions slip).length := List.toFinset_card_le _
    _ = ((List.range (g.width * g.height)).map
        fun k => (g.cellTransitions slip k).length).sum := List.length_flatMap
    _ ≤ _ • 9 := List.sum_le_card_nsmul _ 9 hlengths
    _ = g.width * g.height * 9 := by rw [List.length_map, List.length_range, smul_eq_mul]

/-- A grid with cells that are not too many to be numbered. -/
structure Sized (g : Grid) : Prop where
  width_pos : 0 < g.width
  height_pos : 0 < g.height
  cells_le : g.width * g.height ≤ reserved

namespace Sized

variable (h : g.Sized)

include h

theorem width_le : g.width ≤ reserved :=
  (Nat.le_mul_of_pos_right _ h.height_pos).trans h.cells_le

theorem height_le : g.height ≤ reserved :=
  (Nat.le_mul_of_pos_left _ h.width_pos).trans h.cells_le

theorem mod_lt (k : ℕ) : k % g.width < g.width := Nat.mod_lt k h.width_pos

theorem stop_fst_lt (x y : ℕ) (v : Move) (steps : ℤ) : (g.stop x y v steps).1 < g.width := by
  have hpos := h.width_pos
  rw [stop]
  omega

theorem stop_snd_lt (x y : ℕ) (v : Move) (steps : ℤ) : (g.stop x y v steps).2 < g.height := by
  have hpos := h.height_pos
  rw [stop]
  omega

theorem stopId_lt (k : ℕ) (v : Move) (steps : ℤ) : g.stopId k v steps < g.width * g.height :=
  cellId_lt (h.stop_fst_lt _ _ v steps) (h.stop_snd_lt _ _ v steps)

theorem inRange (slip : Bool) :
    InRange (g.width * g.height) moves.length (g.transitions slip) := by
  rintro ⟨p, j, q⟩ ht
  obtain ⟨hp, v, hv, steps, -, rfl⟩ := mem_transitions.mp ht
  obtain ⟨hj, -⟩ := List.getElem?_eq_some_iff.mp hv
  exact ⟨hp, hj, h.stopId_lt p v steps⟩

theorem nearest_eq_ok (a b : ℤ) :
    g.nearest a b = .ok (min a.toNat (g.width - 1), min b.toNat (g.height - 1)) := by
  have hlast : ∀ n : ℕ, 0 < n → n ≤ reserved → lastPlace n = .ok ((n - 1 : ℕ) : ℤ) := by
    intro n hpos hle
    obtain ⟨m, rfl⟩ := Nat.exists_eq_add_one.mpr hpos
    have hbound : (reserved : ℤ) < signedBound := by decide
    exact lastPlace_succ (by omega)
  refine bind_eq_ok_iff.mpr ⟨_, hlast _ h.width_pos h.width_le, ?_⟩
  refine bind_eq_ok_iff.mpr ⟨_, nearestPlace_natCast _ a, ?_⟩
  refine bind_eq_ok_iff.mpr ⟨_, hlast _ h.height_pos h.height_le, ?_⟩
  exact bind_eq_ok_iff.mpr ⟨_, nearestPlace_natCast _ b, rfl⟩

theorem landing_eq_ok (k : ℕ) (v : Move) (steps : ℤ) :
    g.landing (k % g.width) (k / g.width) v steps = .ok (g.stopId k v steps) :=
  bind_eq_ok_iff.mpr ⟨_, h.nearest_eq_ok _ _, rfl⟩

theorem addSteps_eq (hk : k < g.width * g.height) (j : ℕ) (v : Move) (b : Builder) (steps : ℤ) :
    g.addSteps k j v b steps = b.addIds (k, j, g.stopId k v steps) := by
  have hword : g.width * g.height < wordSize := h.cells_le.trans_lt (by decide)
  rw [addSteps, h.landing_eq_ok, Nat.mod_eq_of_lt (hk.trans hword)]
  change b.addIds (k, j, g.stopId k v steps % wordSize) = _
  rw [Nat.mod_eq_of_lt ((h.stopId_lt k v steps).trans hword)]

theorem addCell_eq (hk : k < g.width * g.height) (slip : Bool) (b : Builder) :
    g.addCell slip b k = (g.cellTransitions slip k).foldlM Builder.addIds b := by
  rw [addCell, cellTransitions, foldlM_flatMap]
  congr 1
  funext b ⟨v, j⟩
  have hadd : g.addSteps k j v = _ := funext₂ (h.addSteps_eq hk j v)
  rw [addMove, hadd, List.foldlM_map]

/-- The grid is built from the transitions in their order. -/
theorem build_eq {mem : Memory} {slip : Bool} {b : Builder}
    (hb : (g.transitions slip).foldlM Builder.addIds
      (Builder.new (g.width * g.height) moves.length) = .ok b) :
    g.build mem slip = (b.build mem).result := by
  have hcell : ∀ b, ∀ k < 0 + g.width * g.height,
      g.addCell slip b k = (g.cellTransitions slip k).foldlM Builder.addIds b := by
    intro b k hk
    exact h.addCell_eq (by omega) slip b
  have hfold : foldCount (g.addCell slip) 0 (g.width * g.height)
      (Builder.new (g.width * g.height) moves.length) = .ok b := by
    rw [foldCount_eq_foldlM_flatMap hcell, ← hb, transitions, List.range_eq_range']
  have hword : g.width * g.height < longWordSize := h.cells_le.trans_lt (by decide)
  rw [build, if_neg hword.not_ge]
  simp only [hfold, bind, Except.bind]

end Sized

/-- The abstraction of the grid fits the store, and memory grants the arrays of the store, of the
builder and of the search. -/
structure Fits (g : Grid) (slip : Bool) (mem : Memory) : Prop extends g.Sized where
  transitions_le : (g.transitions slip).toFinset.card ≤ maxTransitions
  tables : Store.reserveTables mem (g.width * g.height * moves.length) = .ok ()
  slots : mem.reserve .predecessorArray (g.transitions slip).toFinset.card = .ok ()
  counts : mem.reserve .builderCounts (g.width * g.height * moves.length) = .ok ()
  labels : Reachability.reserveLabels mem (g.width * g.height) moves.length = .ok ()

/-- With ample memory every grid fits whose cells and transitions can be numbered. -/
theorem Sized.fits_ample (h : g.Sized)
    (hcount : (g.transitions slip).toFinset.card ≤ maxTransitions) : g.Fits slip .ample := by
  have hmax : maxTransitions < 0x100000000000 := by decide
  have hcells : g.width * g.height * moves.length < 0x100000000000 :=
    (Nat.mul_le_mul_right _ h.cells_le).trans_lt (by decide)
  have hcells' : g.width * g.height < 0x100000000000 := h.cells_le.trans_lt (by decide)
  refine ⟨h, hcount, ?_, Memory.reserve_ample _ (hcount.trans_lt hmax),
    Memory.reserve_ample _ hcells, ?_⟩
  · simp only [Store.reserveTables, Memory.reserve_ample _ hcells]
    rfl
  · simp only [Reachability.reserveLabels, Memory.reserve_ample _ hcells,
      Memory.reserve_ample _ hcells']
    rfl

theorem fits_standard : standard.Fits true .ample := by
  have hsized : standard.Sized := ⟨by decide, by decide, by decide⟩
  exact hsized.fits_ample ((card_transitions_le standard true).trans (by decide))

/-- A grid that fits is built into a store of its transitions. -/
theorem Fits.exists_build {slip : Bool} {mem : Memory} (h : g.Fits slip mem) :
    ∃ (b : Builder) (s : Store), g.build mem slip = .ok s ∧ (b.build mem).result = .ok s ∧
      b.triples = g.transitions slip ∧ s.numStates = g.width * g.height ∧
      s.numInputs = moves.length := by
  obtain ⟨b, s, hb, hs, hbuilt⟩ := Builder.exists_build_foldlM_addIds h.cells_le (by decide)
    (h.inRange slip) h.transitions_le h.tables h.slots h.counts
  exact ⟨b, s, (h.build_eq hb).trans hs, hs, hbuilt⟩

end Grid

end ControlGames.Scenario
