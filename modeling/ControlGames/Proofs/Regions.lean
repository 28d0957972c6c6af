import Mathlib.Algebra.BigOperators.Fin
import Mathlib.Algebra.Order.BigOperators.Group.Finset
import Mathlib.Data.List.Basic
import ControlGames.Region
import ControlGames.Store
import ControlGames.Proofs.IndexSets
import ControlGames.Proofs.VectorCells

/-!
# Reading winning regions

A matrix keeps the bits of the inputs of a state in one row, and different pairs have different
places. A state of a matrix wins if its row has a bit, and an input of the game is valid if its bit
is on.
-/
namespace ControlGames.Region

theorem checkAlphabet_eq_ok_iff {m : ℕ} : checkAlphabet m = .ok () ↔ m < reserved - 1 := by
  rw [checkAlphabet]
  split
  · simp only [reduceCtorEq, false_iff]
    omega
  · simp only [true_iff]
    omega

/-- The bits of different pairs differ, also if the first state lies outside the game. -/
theorem bit_inj {m a a' : ℕ} {j j' : Fin m} :
    bit m a j = bit m a' j' ↔ a = a' ∧ j = j' := by
  have h : Table.place (⟨a, by omega⟩ : Fin (a + a' + 1)) j =
      Table.place (⟨a', by omega⟩ : Fin (a + a' + 1)) j' ↔ _ := Table.place_inj
  simpa only [bit, Table.place, Fin.mk.injEq] using h

theorem bit_lt {n m : ℕ} (i : Fin n) (j : Fin m) : bit m i j < n * m := (Table.place i j).isLt

variable {s : Store} (valid : IndexSet)

theorem row_eq_nil_iff {m : ℕ} (hm : m ≤ reserved) (a : ℕ) :
    row hm valid a = [] ↔ ∀ j : Fin m, valid.contains (bit m a j) = false := by
  rw [row, List.map_eq_nil_iff, List.filter_eq_nil_iff]
  constructor
  · intro h j
    exact Bool.eq_false_iff.mpr (h j (List.mem_finRange j))
  · intro h j _
    exact Bool.eq_false_iff.mp (h j)

theorem witness_ofMatrix (i : Fin s.numStates) :
    (ofMatrix s.sizes_le valid).witness (s.state i) = .ok (row s.sizes_le.2 valid i).head? := by
  have hi : (s.state i).id < (ofMatrix s.sizes_le valid).numStates := i.isLt
  rw [witness, dif_pos hi]
  exact congrArg Except.ok (Vector.getElem_ofFn _)

theorem exists_isWinning_ofMatrix (i : Fin s.numStates) :
    ∃ w, (ofMatrix s.sizes_le valid).isWinning (s.state i) = .ok w ∧
      (w = true ↔ ∃ j : Fin s.numInputs, valid.contains (bit s.numInputs i j) = true) := by
  refine ⟨(row s.sizes_le.2 valid i).head?.isSome, by rw [isWinning, witness_ofMatrix]; rfl, ?_⟩
  rw [List.isSome_head?, ne_eq, row_eq_nil_iff, not_forall]
  apply exists_congr
  intro j
  rw [Bool.not_eq_false]

theorem row_congr {m m' : ℕ} {hm : m ≤ reserved} {hm' : m' ≤ reserved} {valid valid' : IndexSet}
    {a a' : ℕ} (h : m = m') (hbits : ∀ j : Fin m, valid.contains (bit m a j) = true ↔
      valid'.contains (bit m' a' (j.cast h)) = true) : row hm valid a = row hm' valid' a' := by
  subst h
  exact congrArg _ (List.filter_congr fun j _ => Bool.eq_iff_iff.mpr (hbits j))

theorem isValid_ofMatrix (i : Fin s.numStates) (j : Fin s.numInputs) :
    (ofMatrix s.sizes_le valid).isValid (s.state i) (s.input j) =
      .ok (valid.contains (bit s.numInputs i j)) := rfl

theorem ext_cell {r r' : Region} (hn : r.numStates = r'.numStates)
    (hm : r.numInputs = r'.numInputs)
    (hw : ∀ i, cell r.witnesses i = cell r'.witnesses (i.cast hn)) (hv : r.valid = r'.valid) :
    r = r' := by
  obtain ⟨n, m, hle, witnesses, valid⟩ := r
  obtain ⟨n', m', hle', witnesses', valid'⟩ := r'
  obtain rfl : n = n' := hn
  obtain rfl : m = m' := hm
  obtain rfl : witnesses = witnesses' := Vector.ext fun i hi => hw ⟨i, hi⟩
  obtain rfl : valid = valid' := hv
  rfl

theorem ofMatrix_congr {n n' m m' : ℕ} {h : n ≤ reserved ∧ m ≤ reserved}
    {h' : n' ≤ reserved ∧ m' ≤ reserved} (hn : n = n') (hm : m = m') :
    ofMatrix h valid = ofMatrix h' valid := by
  subst hn hm
  rfl

/-! ### Lists of inputs -/

section Inputs

variable (r : Region)

theorem numInputs_le : r.numInputs ≤ reserved := r.sizes_le.2

/-- The inputs that may be applied at a state of the region. -/
def inputsAt (i : Fin r.numStates) : List Input :=
  match r.valid with
  | some valid => row r.numInputs_le valid i
  | none => (cell r.witnesses i).toList

variable {r} {valid}

theorem inputsAt_of_matrix (hv : r.valid = some valid) (i : Fin r.numStates) :
    r.inputsAt i = row r.numInputs_le valid i := by
  rw [inputsAt, hv]

theorem inputsAt_of_none (hv : r.valid = none) (i : Fin r.numStates) :
    r.inputsAt i = (cell r.witnesses i).toList := by
  rw [inputsAt, hv]

end Inputs

/-! ### Lists of winning states -/

section Lists

variable (r : Region)

theorem witness_state (i : Fin r.numStates) :
    r.witness (r.state i) = .ok (cell r.witnesses i) := by
  have hi : (r.state i).id < r.numStates := i.isLt
  rw [witness, dif_pos hi]
  rfl

theorem isWinning_state (i : Fin r.numStates) :
    r.isWinning (r.state i) = .ok (cell r.witnesses i).isSome := by
  rw [isWinning, witness_state]
  rfl

theorem isWinning_eq_true_iff {x : State} :
    r.isWinning x = .ok true ↔ ∃ u, r.witness x = .ok (some u) := by
  rw [isWinning]
  cases r.witness x with
  | error e => simp [Except.map]
  | ok w => simp [Except.map, Option.isSome_iff_exists]

theorem mem_controller {x : State} {u : Input} :
    (x, u) ∈ r.controller ↔ r.witness x = .ok (some u) := by
  simp only [controller, List.mem_filterMap, List.mem_finRange, true_and, Option.map_eq_some_iff,
    Prod.mk.injEq]
  constructor
  · rintro ⟨i, _, hu, rfl, rfl⟩
    rw [witness_state]
    exact congrArg Except.ok hu
  · intro h
    by_cases hx : x.id < r.numStates
    · rw [witness, dif_pos hx, Except.ok.injEq] at h
      exact ⟨⟨x.id, hx⟩, u, h, rfl, rfl⟩
    · rw [witness, dif_neg hx] at h
      cases h

theorem mem_winningStates {x : State} : x ∈ r.winningStates ↔ r.isWinning x = .ok true := by
  rw [isWinning_eq_true_iff, winningStates, List.mem_map]
  constructor
  · rintro ⟨⟨_, u⟩, hu, rfl⟩
    exact ⟨u, r.mem_controller.mp hu⟩
  · rintro ⟨u, hu⟩
    exact ⟨(x, u), r.mem_controller.mpr hu, rfl⟩

theorem size_eq_ncard : r.size = {i | r.isWinning (r.state i) = .ok true}.ncard := by
  have hmem : ∀ i, i ∈ {i | r.isWinning (r.state i) = .ok true} ↔
      i ∈ (List.finRange r.numStates).filter fun i => (cell r.witnesses i).isSome := by
    intro i
    simp [isWinning_state]
  rw [ncard_eq_length ((List.nodup_finRange _).filter _) hmem, ← List.countP_eq_length_filter,
    size, controller, List.length_filterMap_eq_countP]
  congr 1
  funext i
  exact Option.isSome_map

end Lists

/-! ### Numbers of controllers -/

section Controllers

variable {n m : ℕ} {h : n ≤ reserved ∧ m ≤ reserved} {valid valid' : IndexSet}

theorem winningStates_eq (r : Region) : r.winningStates =
    ((List.finRange r.numStates).filter fun i => (cell r.witnesses i).isSome).map r.state := by
  rw [winningStates, controller, List.map_filterMap, ← List.filterMap_eq_map,
    List.filterMap_filter]
  congr 1
  funext i
  change ((cell r.witnesses i).map (r.state i, ·)).map _ = _
  cases cell r.witnesses i <;> rfl

def occupied (n : ℕ) (hm : m ≤ reserved) (valid : IndexSet) : Finset (Fin n) :=
  Finset.univ.filter fun i => (row hm valid i.val).head?.isSome

theorem mem_occupied {hm : m ≤ reserved} {i : Fin n} :
    i ∈ occupied n hm valid ↔ 0 < (row hm valid i).length := by
  rw [occupied, Finset.mem_filter_univ, List.isSome_head?, List.length_pos_iff]

/-- The number of controllers is a product over the winning states. Each of them contributes the
number of inputs that may be applied there. -/
theorem countControllers_eq_prod (r : Region) : r.countControllers =
    ∏ i with (cell r.witnesses i).isSome = true, (r.inputsAt i).length := by
  cases hv : r.valid with
  | none =>
    have hone : ∀ i ∈ Finset.univ.filter fun i => (cell r.witnesses i).isSome = true,
        (r.inputsAt i).length = 1 := by
      intro i hi
      rw [inputsAt_of_none hv, Option.length_toList, if_pos ((Finset.mem_filter_univ i).mp hi)]
    rw [countControllers, hv, Finset.prod_eq_one hone]
  | some valid =>
    let wins := (List.finRange r.numStates).filter fun i => (cell r.witnesses i).isSome
    calc r.countControllers
        = r.winningStates.foldl (fun k x => k * (row r.sizes_le.2 valid x.id).length) 1 := by
          rw [countControllers, hv]
      _ = (wins.map fun i => (r.inputsAt i).length).prod := by
        simp only [winningStates_eq, List.foldl_map, List.prod_eq_foldl, wins,
          inputsAt_of_matrix hv]
        rfl
      _ = _ := by
        rw [← List.prod_toFinset _ ((List.nodup_finRange _).filter _), List.toFinset_filter,
          List.toFinset_finRange]

theorem countControllers_ofMatrix (h : n ≤ reserved ∧ m ≤ reserved) (valid : IndexSet) :
    (ofMatrix h valid).countControllers =
      ∏ i ∈ occupied n h.2 valid, (row h.2 valid i.val).length := by
  have hwitness : ∀ i : Fin n,
      cell (ofMatrix h valid).witnesses i = (row h.2 valid i).head? := fun i => cell_ofFn _ i
  have hoccupied : Finset.univ.filter (fun i : Fin n =>
      (cell (ofMatrix h valid).witnesses i).isSome = true) = occupied n h.2 valid := by
    simp only [hwitness, occupied]
  rw [countControllers_eq_prod, ← hoccupied]
  rfl

theorem length_row_le (hm : m ≤ reserved) {a : ℕ}
    (hsub : ∀ j : Fin m, valid.contains (bit m a j) = true → valid'.contains (bit m a j) = true) :
    (row hm valid a).length ≤ (row hm valid' a).length := by
  rw [row, row, List.length_map, List.length_map, ← List.countP_eq_length_filter,
    ← List.countP_eq_length_filter]
  exact List.countP_mono_left fun j _ => hsub j

theorem countControllers_le (hsub : ∀ (i : Fin n) (j : Fin m),
    valid.contains (bit m i j) = true → valid'.contains (bit m i j) = true) :
    (ofMatrix h valid).countControllers ≤ (ofMatrix h valid').countControllers := by
  have hlength : ∀ i : Fin n, (row h.2 valid i).length ≤ (row h.2 valid' i).length := fun i =>
    length_row_le h.2 (hsub i)
  rw [countControllers_ofMatrix, countControllers_ofMatrix]
  calc ∏ i ∈ occupied n h.2 valid, (row h.2 valid i.val).length
      ≤ ∏ i ∈ occupied n h.2 valid, (row h.2 valid' i.val).length :=
        Finset.prod_le_prod' fun i _ => hlength i
    _ ≤ _ := by
      refine Finset.prod_le_prod_of_subset_of_one_le' (fun i hi => ?_) fun i hi _ => ?_
      · exact mem_occupied.mpr ((mem_occupied.mp hi).trans_le (hlength i))
      · exact mem_occupied.mp hi

end Controllers

end ControlGames.Region
