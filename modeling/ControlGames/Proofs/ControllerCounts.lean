import Mathlib.SetTheory.Cardinal.Finite
import ControlGames.Proofs.RegionQueries

/-!
# Numbers of controllers

A memoryless controller chooses, for each winning state of a region, one of the inputs that may be
applied there. The number computed for a region that is returned is the number of these choices.
-/
namespace ControlGames.Region

/-- The controllers that a region admits. -/
def Controller (r : Region) : Type :=
  (i : {i : Fin r.numStates // r.isWinning (r.state i) = .ok true}) →
    {u : Input // ∃ us, r.inputs (r.state i) = .ok us ∧ u ∈ us}

variable {r : Region}

theorem card_choices (hr : r.Coherent) (i : Fin r.numStates) :
    Nat.card {u : Input // ∃ us, r.inputs (r.state i) = .ok us ∧ u ∈ us} =
      (r.inputsAt i).length := by
  have hnodup : (r.inputsAt i).Nodup :=
    (hr.sorted i).imp fun {u v} hlt heq => (heq ▸ hlt).ne rfl
  calc Nat.card {u : Input // ∃ us, r.inputs (r.state i) = .ok us ∧ u ∈ us}
      = {u : Input | ∃ us, r.inputs (r.state i) = .ok us ∧ u ∈ us}.ncard := rfl
    _ = (r.inputsAt i).length := ncard_eq_length hnodup fun u => by simp [inputs_state]

/-- The choices at different states are independent. -/
theorem card_controller (hr : r.Coherent) :
    Nat.card r.Controller =
      ∏ i with (cell r.witnesses i).isSome = true, (r.inputsAt i).length := by
  classical
  have hwins : ∀ i, r.isWinning (r.state i) = .ok true ↔ (cell r.witnesses i).isSome = true := by
    intro i
    rw [isWinning_state, Except.ok.injEq]
  calc Nat.card r.Controller
      = ∏ i : {i : Fin r.numStates // r.isWinning (r.state i) = .ok true},
          (r.inputsAt i).length := by
        rw [Controller, Nat.card_pi]
        exact Finset.prod_congr rfl fun i _ => card_choices hr i
    _ = _ := (Finset.prod_subtype _ (fun i => by rw [Finset.mem_filter_univ, hwins])
          fun i => (r.inputsAt i).length).symm

theorem countControllers_of_winningStates_eq_nil (h : r.winningStates = []) :
    r.countControllers = 1 := by
  rw [winningStates_eq, List.map_eq_nil_iff, List.filter_eq_nil_iff] at h
  rw [countControllers_eq_prod]
  refine Finset.prod_eq_one fun i hi => ?_
  exact absurd ((Finset.mem_filter_univ i).mp hi) (h i (List.mem_finRange i))

/-- No factor is zero, for a winning state has an input. -/
theorem Coherent.one_le_countControllers (hr : r.Coherent) : 1 ≤ r.countControllers := by
  rw [countControllers_eq_prod]
  refine Finset.one_le_prod' fun i hi => ?_
  have hwin : (cell r.witnesses i).isSome = true := (Finset.mem_filter_univ i).mp hi
  exact List.length_pos_iff.mpr ((hr.isSome_iff i).mp hwin)

/-- The controllers of a region that is returned are counted exactly. There is at least one, and
just one if no state wins or if the game is a reach-avoid game. -/
theorem countControllers_eq_card {s : Store} {kind : GameKind} (h : r.SolutionOf s kind) :
    r.countControllers = Nat.card r.Controller ∧ 1 ≤ r.countControllers ∧
    (r.winningStates = [] → r.countControllers = 1) ∧
    (kind = .reachAvoid → r.countControllers = 1) := by
  refine ⟨?_, h.coherent.one_le_countControllers, countControllers_of_winningStates_eq_nil, ?_⟩
  · rw [countControllers_eq_prod, card_controller h.coherent]
  · intro hkind
    rw [countControllers, h.valid_eq_none hkind]

/-- On the swing both winning states leave a choice of two inputs. -/
theorem countControllers_eq_card_swing :
    Builder.swingRegion.SolutionOf Builder.swingStore .invariance ∧
    Nat.card Builder.swingRegion.Controller = 4 := by
  obtain ⟨hcard, -⟩ := countControllers_eq_card Builder.solutionOf_swing
  have hcount : Builder.swingRegion.countControllers = 4 := by decide +kernel
  exact ⟨Builder.solutionOf_swing, hcard.symm.trans hcount⟩

end ControlGames.Region
