import Mathlib.Logic.Equiv.Defs
import ControlGames.Proofs.Attractor

/-!
# Bisimulations

Two relations may be defined on different states. If related states have the same moves, up to the
names of inputs and to successors that are related again, no sequence of moves tells one from the
other. So related states lie in the same attractor layers and in the same kernels, provided that
related states always agree on the sets in question.
-/
namespace ControlGames

variable {S I S' I' : Type*}

/-- Related states have the same moves, and these lead to related states. -/
structure Bisimulation (R : S → I → S → Prop) (R' : S' → I' → S' → Prop) (e : I ≃ I')
    (E : S → S' → Prop) : Prop where
  forth : ∀ x x' u y, E x x' → R x u y → ∃ y', R' x' (e u) y' ∧ E y y'
  back : ∀ x x' u y', E x x' → R' x' (e u) y' → ∃ y, R x u y ∧ E y y'

/-- Related states agree on whether they belong to the sets. -/
def Agree (E : S → S' → Prop) (P : Set S) (P' : Set S') : Prop :=
  ∀ x x', E x x' → (x ∈ P ↔ x' ∈ P')

namespace Bisimulation

variable {R : S → I → S → Prop} {R' : S' → I' → S' → Prop} {e : I ≃ I'} {E : S → S' → Prop}

theorem symm (h : Bisimulation R R' e E) : Bisimulation R' R e.symm fun x' x => E x x' where
  forth x' x u' y' hx hy' := h.back x x' (e.symm u') y' hx (by rwa [e.apply_symm_apply])
  back x' x u' y hx hy := by
    obtain ⟨y', hy', hE⟩ := h.forth x x' (e.symm u') y hx hy
    rw [e.apply_symm_apply] at hy'
    exact ⟨y', hy', hE⟩

variable {x : S} {x' : S'} (h : Bisimulation R R' e E) (hx : E x x')

include h hx

theorem forces_image {u : I} {P : Set S} (hu : Forces R x u P) :
    Forces R' x' (e u) {y' | ∃ y ∈ P, E y y'} := by
  obtain ⟨⟨y, hy⟩, hall⟩ := hu
  obtain ⟨y', hy', -⟩ := h.forth x x' u y hx hy
  refine ⟨⟨y', hy'⟩, fun z' hz' => ?_⟩
  obtain ⟨z, hz, hE⟩ := h.back x x' u z' hx hz'
  exact ⟨z, hall z hz, hE⟩

theorem forces_of_forces {u : I} {P : Set S} {P' : Set S'}
    (hP : ∀ y y', E y y' → y ∈ P → y' ∈ P') (hu : Forces R x u P) : Forces R' x' (e u) P' := by
  refine (h.forces_image hx hu).mono ?_
  rintro y' ⟨y, hy, hE⟩
  exact hP y y' hE hy

theorem forces_iff (u : I) {P : Set S} {P' : Set S'} (hP : Agree E P P') :
    Forces R x u P ↔ Forces R' x' (e u) P' := by
  refine ⟨h.forces_of_forces hx fun y y' hE => (hP y y' hE).mp, fun hu => ?_⟩
  have hback := h.symm.forces_of_forces hx (fun y' y hE => (hP y y' hE).mpr) hu
  rwa [e.symm_apply_apply] at hback

theorem exists_forces_iff {P : Set S} {P' : Set S'} (hP : Agree E P P') :
    (∃ u, Forces R x u P) ↔ ∃ u', Forces R' x' u' P' := by
  rw [← e.exists_congr_right]
  exact exists_congr fun u => h.forces_iff hx u hP

omit hx

theorem agree_layer {T A : Set S} {T' A' : Set S'} (hT : Agree E T T') (hA : Agree E A A')
    (k : ℕ) : Agree E (layer R T A k) (layer R' T' A' k) := by
  induction k with
  | zero =>
    intro x x' hx
    exact and_congr (hT x x' hx) (not_congr (hA x x' hx))
  | succ k ih =>
    intro x x' hx
    exact or_congr (ih x x' hx)
      (and_congr (not_congr (hA x x' hx)) (h.exists_forces_iff hx ih))

/-- The states related to a kernel belong to the kernel on the other side. -/
theorem mem_kernel_of_mem_kernel {P : Set S} {P' : Set S'} (hP : Agree E P P') {x : S} {x' : S'}
    (hx : E x x') (hmem : x ∈ kernel R P) : x' ∈ kernel R' P' := by
  refine subset_kernel (X := {y' | ∃ y ∈ kernel R P, E y y'}) ?_ ?_ ⟨x, hmem, hx⟩
  · rintro y' ⟨y, hy, hE⟩
    exact (hP y y' hE).mp (kernel_subset hy)
  · rintro y' ⟨y, hy, hE⟩
    obtain ⟨u, hu⟩ := exists_forces_kernel hy
    exact ⟨e u, h.forces_image hE hu⟩

theorem agree_kernel {P : Set S} {P' : Set S'} (hP : Agree E P P') :
    Agree E (kernel R P) (kernel R' P') := fun _ _ hx =>
  ⟨h.mem_kernel_of_mem_kernel hP hx,
    h.symm.mem_kernel_of_mem_kernel (fun x' x hx => (hP x x' hx).symm) hx⟩

end Bisimulation

end ControlGames
