import ControlGames.Proofs.PeelingHeads
import ControlGames.Proofs.ReachAvoidValues

/-!
# Queries of winning regions

A region keeps its answer twice, as a witness for each state and as a matrix, and is asked in many
ways. In a coherent region the witness is the first of the inputs listed for a state, and all that
is asked agrees with these lists. Both solvers return coherent regions. A matrix says what the lists
say as long as it is asked for inputs of the game; any other input is read off a later row.
-/
namespace ControlGames

namespace Region

/-! ### Rows -/

section Row

variable {m a : ℕ} {hm : m ≤ reserved} {valid : IndexSet} {u : Input}

theorem mem_row : u ∈ row hm valid a ↔ u.id < m ∧ valid.contains (bit m a u.id) = true := by
  simp only [row, List.mem_map, List.mem_filter, List.mem_finRange, true_and]
  constructor
  · rintro ⟨j, hj, rfl⟩
    exact ⟨j.isLt, hj⟩
  · rintro ⟨hu, hbit⟩
    exact ⟨⟨u.id, hu⟩, hbit, rfl⟩

theorem pairwise_row : (row hm valid a).Pairwise fun u v => u.id < v.id := by
  rw [row, List.pairwise_map]
  exact (List.pairwise_lt_finRange m).filter _

end Row

/-! ### Coherent regions -/

variable (r : Region)

section Kinds

variable {r} {valid : IndexSet}

theorem isValid_of_matrix (hv : r.valid = some valid) (i : Fin r.numStates) (u : Input) :
    r.isValid (r.state i) u = .ok (valid.contains (bit r.numInputs i u.id)) := by
  rw [isValid, hv]
  rfl

theorem isValid_of_none (hv : r.valid = none) (i : Fin r.numStates) (u : Input) :
    r.isValid (r.state i) u = .ok (cell r.witnesses i == some u) := by
  rw [isValid, hv, witness_state]
  rfl

end Kinds

theorem inputs_state (i : Fin r.numStates) : r.inputs (r.state i) = .ok (r.inputsAt i) := by
  cases hv : r.valid with
  | none =>
    rw [inputsAt_of_none hv, inputs, hv, witness_state]
    rfl
  | some valid =>
    rw [inputsAt_of_matrix hv, inputs, hv]
    rfl

/-- An input of the game is valid just if it is listed. Without a matrix this holds of any input. -/
theorem exists_isValid_state (i : Fin r.numStates) (u : Input) :
    ∃ v, r.isValid (r.state i) u = .ok v ∧
      (u.id < r.numInputs ∨ r.valid = none → (v = true ↔ u ∈ r.inputsAt i)) := by
  cases hv : r.valid with
  | none =>
    refine ⟨_, isValid_of_none hv i u, fun _ => ?_⟩
    rw [inputsAt_of_none hv, Option.mem_toList, beq_iff_eq]
  | some valid =>
    refine ⟨_, isValid_of_matrix hv i u, fun hu => ?_⟩
    have hj := hu.resolve_right (Option.some_ne_none valid)
    rw [inputsAt_of_matrix hv, mem_row, and_iff_right hj]

/-- The inputs listed for a state are inputs of the game in increasing order, and the first of them
is its witness. -/
structure Coherent : Prop where
  head? : ∀ i, (r.inputsAt i).head? = cell r.witnesses i
  sorted : ∀ i, (r.inputsAt i).Pairwise fun u v => u.id < v.id
  lt : ∀ i, ∀ u ∈ r.inputsAt i, u.id < r.numInputs

theorem coherent_ofMatrix {n m : ℕ} (h : n ≤ reserved ∧ m ≤ reserved) (valid : IndexSet) :
    (ofMatrix h valid).Coherent where
  head? i := (cell_ofFn (fun i : Fin n => (row h.2 valid i).head?) i).symm
  sorted i := by
    change (row h.2 valid i).Pairwise _
    exact pairwise_row
  lt i u hu := by
    change u ∈ row h.2 valid i at hu
    exact (mem_row.mp hu).1

theorem coherent_of_none {r : Region} (hv : r.valid = none)
    (hlt : ∀ i u, cell r.witnesses i = some u → u.id < r.numInputs) : r.Coherent where
  head? i := by rw [inputsAt_of_none hv, Option.head?_toList]
  sorted i := by
    rw [inputsAt_of_none hv]
    cases cell r.witnesses i with
    | none => exact List.Pairwise.nil
    | some u => exact List.pairwise_singleton _ u
  lt i u hu := by
    rw [inputsAt_of_none hv, Option.mem_toList] at hu
    exact hlt i u hu

section Coherent

variable {r} (hr : r.Coherent) (i : Fin r.numStates) {u : Input}

include hr

theorem Coherent.isSome_iff : (cell r.witnesses i).isSome = true ↔ r.inputsAt i ≠ [] := by
  rw [← hr.head? i, List.isSome_head?]

theorem Coherent.mem_inputsAt :
    u ∈ r.inputsAt i ↔ u.id < r.numInputs ∧ r.isValid (r.state i) u = .ok true := by
  obtain ⟨v, hv, hlisted⟩ := r.exists_isValid_state i u
  rw [hv, Except.ok.injEq]
  constructor
  · intro hu
    have hlt := hr.lt i u hu
    exact ⟨hlt, (hlisted (Or.inl hlt)).mpr hu⟩
  · rintro ⟨hlt, htrue⟩
    exact (hlisted (Or.inl hlt)).mp htrue

omit hr in
theorem isValid_eq_false_iff (hu : u.id < r.numInputs) :
    r.isValid (r.state i) u = .ok false ↔ u ∉ r.inputsAt i := by
  obtain ⟨v, hv, hlisted⟩ := r.exists_isValid_state i u
  rw [hv, Except.ok.injEq, ← hlisted (Or.inl hu), Bool.not_eq_true]

end Coherent

theorem head?_eq_some_iff_lowest {us : List Input} (hus : us.Pairwise fun u v => u.id < v.id)
    {u : Input} : us.head? = some u ↔ u ∈ us ∧ ∀ v : Input, v.id < u.id → v ∉ us := by
  cases us with
  | nil => simp
  | cons w us =>
    rw [List.head?_cons, Option.some.injEq]
    constructor
    · rintro rfl
      refine ⟨List.mem_cons_self, fun v hv hmem => ?_⟩
      rcases List.mem_cons.mp hmem with rfl | hmem
      · exact lt_irrefl _ hv
      · exact lt_asymm hv (List.rel_of_pairwise_cons hus hmem)
    · rintro ⟨hu, hlowest⟩
      rcases List.mem_cons.mp hu with rfl | hu
      · rfl
      · exact absurd List.mem_cons_self (hlowest w (List.rel_of_pairwise_cons hus hu))

theorem pairwise_winningStates : r.winningStates.Pairwise fun x y => x.id < y.id := by
  rw [winningStates_eq, List.pairwise_map]
  exact (List.pairwise_lt_finRange r.numStates).filter _

/-! ### Answers -/

/-- What is asked about a state agrees with its witness and the inputs listed for it: the state wins
just if it has a witness, or inputs, or a valid input of the game; the inputs are inputs of the game
in increasing order; and the witness is the first of them, the lowest one that is valid. -/
structure AgreesOn (x : State) (w : Option Input) (us : List Input) : Prop where
  witness : r.witness x = .ok w
  inputs : r.inputs x = .ok us
  isWinning : r.isWinning x = .ok w.isSome
  isSome_iff : w.isSome = true ↔ us ≠ []
  head? : us.head? = w
  sorted : us.Pairwise fun u v => u.id < v.id
  lt : ∀ u ∈ us, u.id < r.numInputs
  wins_iff : w.isSome = true ↔ ∃ u : Input, u.id < r.numInputs ∧ r.isValid x u = .ok true
  lowest : ∀ u, w = some u ↔ (u.id < r.numInputs ∧ r.isValid x u = .ok true) ∧
    ∀ v : Input, v.id < u.id → r.isValid x v = .ok false

/-- The lists of the region hold just the winning states in increasing order, with their witnesses,
and the size of the region counts them. -/
structure ListsWinners : Prop where
  sorted : r.winningStates.Pairwise fun x y => x.id < y.id
  mem_iff : ∀ x, x ∈ r.winningStates ↔ r.isWinning x = .ok true
  controller : r.controller.map Prod.fst = r.winningStates
  mem_controller : ∀ x u, (x, u) ∈ r.controller ↔ r.witness x = .ok (some u)
  size_eq : r.size = r.winningStates.length
  isEmpty_iff : r.isEmpty = true ↔ r.winningStates = []

theorem Coherent.agreesOn {r : Region} (hr : r.Coherent) (i : Fin r.numStates) :
    r.AgreesOn (r.state i) (cell r.witnesses i) (r.inputsAt i) where
  witness := r.witness_state i
  inputs := r.inputs_state i
  isWinning := r.isWinning_state i
  isSome_iff := hr.isSome_iff i
  head? := hr.head? i
  sorted := hr.sorted i
  lt := hr.lt i
  wins_iff := by
    rw [hr.isSome_iff, ne_eq, List.eq_nil_iff_forall_not_mem, not_forall_not]
    exact exists_congr fun u => hr.mem_inputsAt i
  lowest u := by
    rw [← hr.head?, head?_eq_some_iff_lowest (hr.sorted i), hr.mem_inputsAt]
    refine and_congr_right fun hu => forall_congr' fun v => forall_congr' fun hv => ?_
    rw [isValid_eq_false_iff i (hv.trans hu.1)]

theorem listsWinners : r.ListsWinners where
  sorted := r.pairwise_winningStates
  mem_iff _ := r.mem_winningStates
  controller := rfl
  mem_controller _ _ := r.mem_controller
  size_eq := (List.length_map _).symm
  isEmpty_iff := by
    rw [isEmpty, beq_iff_eq, size, List.length_eq_zero_iff, winningStates, List.map_eq_nil_iff]

/-! ### Regions returned by the solvers -/

end Region

/-- The kinds of games that have a region. -/
inductive GameKind
  | reachAvoid
  | invariance

/-- The region is what the solver returns for a game on the store. -/
inductive Region.SolutionOf : Region → Store → GameKind → Prop
  | reachAvoid {mem : Memory} {g : ReachabilityGame} {α : Type} [StateSet α] {target : α}
      {sol : Solution} (h : (g.solve mem target).result = .ok sol) :
      SolutionOf sol.region g.store .reachAvoid
  | invariance {mem : Memory} {s : Store} {α : Type} [StateSet α] {safe : α} {r : Region}
      (h : (s.solveInvariance mem safe).result = .ok r) : SolutionOf r s .invariance

theorem Reachability.Labels.coherent_solution {s : Store} (l : Labels s) :
    l.solution.region.Coherent := by
  refine Region.coherent_of_none rfl fun i u hu => ?_
  have hcell : cell l.solution.region.witnesses i = (cell l.choice i).map s.input :=
    cell_map (Option.map s.input) l.choice i
  rw [hcell, Option.map_eq_some_iff] at hu
  obtain ⟨j, -, rfl⟩ := hu
  exact j.isLt

/-- The region of an invariance game is that of a matrix, and the matrix has no bits outside the
game. -/
theorem Invariance.exists_valid_of_solve {mem : Memory} {s : Store} {α : Type} [StateSet α]
    {safe : α} {r : Region} (hr : (s.solveInvariance mem safe).result = .ok r) :
    ∃ valid, r = .ofMatrix s.sizes_le valid ∧ ∀ b, valid.contains b = true →
      ∃ (i : Fin s.numStates) (j : Fin s.numInputs), b = Region.bit s.numInputs i j := by
  obtain ⟨-, -, p, hp, rfl⟩ := solveInvariance_eq_ok_iff.mp hr
  have hend := (Reached.ended .initial hp).afterVisits_end
  exact ⟨p.valid, rfl, hend.progress.inside⟩

namespace Region.SolutionOf

variable {r : Region} {s : Store} {kind : GameKind} (h : r.SolutionOf s kind)

include h

theorem coherent : r.Coherent := by
  cases h with
  | reachAvoid hsol =>
    obtain ⟨-, -, u, -, rfl⟩ := Reachability.solve_eq_ok_iff.mp hsol
    exact u.labels.coherent_solution
  | invariance hr =>
    obtain ⟨valid, rfl, -⟩ := Invariance.exists_valid_of_solve hr
    exact coherent_ofMatrix _ _

theorem sizes_eq : r.numStates = s.numStates ∧ r.numInputs = s.numInputs := by
  cases h with
  | reachAvoid hsol =>
    obtain ⟨-, -, u, -, rfl⟩ := Reachability.solve_eq_ok_iff.mp hsol
    exact ⟨rfl, rfl⟩
  | invariance hr =>
    obtain ⟨valid, rfl, -⟩ := Invariance.exists_valid_of_solve hr
    exact ⟨rfl, rfl⟩

theorem numInputs_lt : r.numInputs < reserved - 1 := by
  rw [h.sizes_eq.2]
  cases h with
  | reachAvoid hsol => exact (Reachability.solve_eq_ok_iff.mp hsol).1
  | invariance hr => exact (Invariance.solveInvariance_eq_ok_iff.mp hr).1

theorem valid_eq_none (hkind : kind = .reachAvoid) : r.valid = none := by
  cases h with
  | reachAvoid hsol =>
    obtain ⟨-, -, u, -, rfl⟩ := Reachability.solve_eq_ok_iff.mp hsol
    rfl
  | invariance hr => cases hkind

/-- The matrix of an invariance game is read row by row, also behind the inputs of the game. -/
theorem isValid_eq_true_iff_exists (hkind : kind = .invariance) (i : Fin r.numStates)
    (u : Input) : r.isValid (r.state i) u = .ok true ↔
      ∃ k, ∃ w ∈ r.inputsAt k, i * r.numInputs + u.id = k * r.numInputs + w.id := by
  cases h with
  | reachAvoid hsol => cases hkind
  | invariance hr =>
    obtain ⟨valid, rfl, hinside⟩ := Invariance.exists_valid_of_solve hr
    rw [isValid_of_matrix rfl, Except.ok.injEq]
    simp only [inputsAt_of_matrix (r := ofMatrix _ valid) rfl, mem_row]
    constructor
    · intro hbit
      obtain ⟨k, j, hkj⟩ := hinside _ hbit
      exact ⟨k, ⟨j, Nat.lt_of_lt_of_le j.isLt s.sizes_le.2⟩, ⟨j.isLt, hkj ▸ hbit⟩, hkj⟩
    · rintro ⟨k, w, ⟨-, hbit⟩, hplace⟩
      rwa [bit, hplace]

end Region.SolutionOf

/-! ### A swing -/

/-- States 1 and 2 lead to themselves under the first input and to each other under the second one.
State 0 leads nowhere. -/
def Builder.swing : Builder :=
  ((new 3 2).addAll [(1, 0, 1), (1, 1, 2), (2, 0, 2), (2, 1, 1)]).2

def Builder.swingStore : Store :=
  .ofLayout (n := 3) (m := 2) (by decide) (.ofSorted (by decide) (Edge.sorted swing.edges))

theorem Builder.build_swing : (swing.build .ample).result = .ok swingStore := rfl

/-- If all states are safe, all inputs stay valid at the last two. -/
def Builder.swingRegion : Region := .ofMatrix swingStore.sizes_le ⟨#[60], 4⟩

theorem Builder.solutionOf_swing : swingRegion.SolutionOf swingStore .invariance := by
  have hr : (swingStore.solveInvariance .ample StateSet.everything).result = .ok swingRegion := by
    decide +kernel
  exact .invariance hr

/-! ### Queries of a region that is returned -/

/-- All queries of a region that is returned agree. Its inputs stay clear of the reserved number. -/
theorem Region.queries_agree {r : Region} {s : Store} {kind : GameKind}
    (h : r.SolutionOf s kind) :
    r.numStates = s.numStates ∧ r.numInputs = s.numInputs ∧ r.numInputs < reserved - 1 ∧
    (∀ i : Fin r.numStates, ∃ w us, r.AgreesOn (r.state i) w us) ∧ r.ListsWinners :=
  ⟨h.sizes_eq.1, h.sizes_eq.2, h.numInputs_lt, fun i => ⟨_, _, h.coherent.agreesOn i⟩,
    r.listsWinners⟩

/-- On the swing the witness of state 2 is the first of its inputs, and two states win. -/
theorem Region.queries_agree_swing :
    Builder.swingRegion.SolutionOf Builder.swingStore .invariance ∧
    ∃ w us, Builder.swingRegion.AgreesOn (Builder.swingRegion.state (2 : Fin 3)) w us ∧
      w = some ⟨0, by decide⟩ ∧ us.head? = w ∧
      Builder.swingRegion.winningStates.length = 2 := by
  obtain ⟨-, -, -, hagree, hlists⟩ := queries_agree Builder.solutionOf_swing
  obtain ⟨w, us, h⟩ := hagree (2 : Fin 3)
  have hwitness : Builder.swingRegion.witness (Builder.swingRegion.state (2 : Fin 3)) =
      .ok (some ⟨0, by decide⟩) := by
    decide +kernel
  refine ⟨Builder.solutionOf_swing, w, us, h, ?_, h.head?, ?_⟩
  · exact Except.ok.inj (h.witness.symm.trans hwitness)
  · rw [← hlists.size_eq]
    decide +kernel

/-- An input is valid at a state of a region that is returned just if it is listed there, provided
that it is an input of the game or that the game is a reach-avoid game. A matrix takes any other
input for one of a later row. -/
theorem Region.isValid_iff_mem_inputs {r : Region} {s : Store} {kind : GameKind}
    (h : r.SolutionOf s kind) (i : Fin r.numStates) (u : Input) :
    ∃ v us, r.isValid (r.state i) u = .ok v ∧ r.inputs (r.state i) = .ok us ∧
      (u.id < r.numInputs ∨ kind = .reachAvoid → (v = true ↔ u ∈ us)) ∧
      (kind = .invariance → (v = true ↔ ∃ k ws, r.inputs (r.state k) = .ok ws ∧
        ∃ w ∈ ws, i * r.numInputs + u.id = k * r.numInputs + w.id)) := by
  obtain ⟨v, hv, hlisted⟩ := r.exists_isValid_state i u
  refine ⟨v, _, hv, r.inputs_state i, fun hu => hlisted (hu.imp_right h.valid_eq_none), ?_⟩
  intro hkind
  have hrows := h.isValid_eq_true_iff_exists hkind i u
  rw [hv, Except.ok.injEq] at hrows
  simpa only [inputs_state, Except.ok.injEq, exists_eq_left'] using hrows

/-- On the swing the second input is valid at state 2, and it is listed there. -/
theorem Region.isValid_swing_iff_mem_inputs :
    Builder.swingRegion.SolutionOf Builder.swingStore .invariance ∧
    ∃ us, Builder.swingRegion.isValid (Builder.swingRegion.state (2 : Fin 3)) ⟨1, by decide⟩ =
        .ok true ∧
      Builder.swingRegion.inputs (Builder.swingRegion.state (2 : Fin 3)) = .ok us ∧
      ⟨1, by decide⟩ ∈ us := by
  obtain ⟨v, us, hvalid, hus, hlisted, -⟩ :=
    isValid_iff_mem_inputs Builder.solutionOf_swing (2 : Fin 3) ⟨1, by decide⟩
  have hv : Builder.swingRegion.isValid (Builder.swingRegion.state (2 : Fin 3)) ⟨1, by decide⟩ =
      .ok true := by
    decide +kernel
  have htrue : v = true := Except.ok.inj (hvalid.symm.trans hv)
  exact ⟨Builder.solutionOf_swing, us, hv, hus, (hlisted (Or.inl (by decide))).mp htrue⟩

/-- A third input, which the swing does not have, is valid at state 0, where no input is listed. -/
theorem Region.isValid_swing_beyond_inputs :
    (Builder.swing.build .ample).result = .ok Builder.swingStore ∧
    (Builder.swingStore.solveInvariance .ample StateSet.everything).result =
      .ok Builder.swingRegion ∧
    Builder.swingRegion.isWinning (Builder.swingRegion.state (0 : Fin 3)) = .ok false ∧
    Builder.swingRegion.isValid (Builder.swingRegion.state (0 : Fin 3)) ⟨2, by decide⟩ =
      .ok true ∧
    ∃ us, Builder.swingRegion.inputs (Builder.swingRegion.state (0 : Fin 3)) = .ok us ∧
      ⟨2, by decide⟩ ∉ us := by
  refine ⟨Builder.build_swing, ?_, ?_, ?_, [], ?_, List.not_mem_nil⟩ <;> decide +kernel

end ControlGames
