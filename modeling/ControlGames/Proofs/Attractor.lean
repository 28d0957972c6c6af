import Mathlib.Data.Fintype.Order
import Mathlib.Data.Set.Lattice

/-!
# Attractor layers and kernels

A relation `R` says which states an input may lead to from a state. Several successors are a choice
of the environment, none means that the input cannot be applied. The attractor layers collect the
states from which a target is forced within a number of steps; the kernel of a set is the largest
part of it that need never be left.
-/
namespace ControlGames

variable {S I : Type*}

/-- Input `u` can be applied at `x`, and wherever it leads lies in `P`. -/
def Forces (R : S → I → S → Prop) (x : S) (u : I) (P : Set S) : Prop :=
  (∃ y, R x u y) ∧ ∀ y, R x u y → y ∈ P

/-- The states from which `T` is forced within the given number of steps without visiting `A`. -/
def layer (R : S → I → S → Prop) (T A : Set S) : ℕ → Set S
  | 0 => T \ A
  | k + 1 => layer R T A k ∪ {x | x ∉ A ∧ ∃ u, Forces R x u (layer R T A k)}

/-- The union of all sets inside `P` whose states have an input that does not leave the set. -/
def kernel (R : S → I → S → Prop) (P : Set S) : Set S :=
  ⋃₀ {X | X ⊆ P ∧ ∀ x ∈ X, ∃ u, Forces R x u X}

variable {R : S → I → S → Prop} {T A : Set S}

theorem Forces.mono {x : S} {u : I} {P Q : Set S} (h : Forces R x u P) (hPQ : P ⊆ Q) :
    Forces R x u Q :=
  ⟨h.1, fun y hy => hPQ (h.2 y hy)⟩

theorem layer_subset_succ (k : ℕ) : layer R T A k ⊆ layer R T A (k + 1) :=
  Set.subset_union_left

theorem layer_mono {k l : ℕ} (h : k ≤ l) : layer R T A k ⊆ layer R T A l :=
  monotone_nat_of_le_succ layer_subset_succ h

theorem mem_layer_succ_of_forces {k : ℕ} {x : S} {u : I} (hx : x ∉ A)
    (h : Forces R x u (layer R T A k)) : x ∈ layer R T A (k + 1) :=
  Or.inr ⟨hx, u, h⟩

/-- A larger target and less to avoid can only help. -/
theorem layer_subset_of_subset {T' A' : Set S} (hT : T ⊆ T') (hA : A' ⊆ A) (k : ℕ) :
    layer R T A k ⊆ layer R T' A' k := by
  induction k with
  | zero => exact Set.sdiff_subset_sdiff hT hA
  | succ k ih =>
    rintro x (hx | ⟨hx, u, hu⟩)
    · exact layer_subset_succ k (ih hx)
    · exact mem_layer_succ_of_forces (fun h => hx (hA h)) (hu.mono ih)

theorem notMem_of_mem_layer {k : ℕ} {x : S} (hx : x ∈ layer R T A k) : x ∉ A := by
  induction k with
  | zero => exact hx.2
  | succ k ih =>
    rcases hx with hx | ⟨hA, -⟩
    · exact ih hx
    · exact hA

/-- Among finitely many states the layers are all reached within a common number of steps, so a
state outside all layers has for each input a successor outside all of them. -/
theorem exists_notMem_layers [Finite S] {x : S} {u : I} (hx : ∀ k, x ∉ layer R T A k) (hA : x ∉ A)
    (hu : ∃ y, R x u y) : ∃ y, R x u y ∧ ∀ k, y ∉ layer R T A k := by
  by_contra hcon
  have hreached : ∀ y, ∃ k, R x u y → y ∈ layer R T A k := by
    intro y
    by_cases hy : R x u y
    · by_contra hno
      exact hcon ⟨y, hy, fun k hk => hno ⟨k, fun _ => hk⟩⟩
    · exact ⟨0, fun h => absurd h hy⟩
  choose stage hstage using hreached
  obtain ⟨K, hK⟩ := Finite.exists_le stage
  exact hx (K + 1) (mem_layer_succ_of_forces hA
    ⟨hu, fun y hy => layer_mono (hK y) (hstage y hy)⟩)

/-- The states from which `T` is forced at all without visiting `A`. -/
def attractor (R : S → I → S → Prop) (T A : Set S) : Set S := {x | ∃ k, x ∈ layer R T A k}

/-- No layer is won in addition once all states from which the target is forced are the target. -/
theorem layer_attractor [Finite S] (k : ℕ) :
    layer R (attractor R T A) A k = attractor R T A := by
  induction k with
  | zero =>
    refine sdiff_eq_left.mpr (Set.disjoint_left.mpr ?_)
    rintro x ⟨k, hx⟩
    exact notMem_of_mem_layer hx
  | succ k ih =>
    rw [layer, ih, Set.union_eq_left]
    rintro x ⟨hA, u, hu⟩
    by_contra hx
    obtain ⟨y, hy, hout⟩ := exists_notMem_layers (fun k hk => hx ⟨k, hk⟩) hA hu.1
    obtain ⟨l, hl⟩ := hu.2 y hy
    exact hout l hl

theorem kernel_subset {P : Set S} : kernel R P ⊆ P :=
  Set.sUnion_subset fun _ hX => hX.1

theorem exists_forces_kernel {P : Set S} {x : S} (h : x ∈ kernel R P) :
    ∃ u, Forces R x u (kernel R P) := by
  obtain ⟨X, hX, hx⟩ := h
  obtain ⟨u, hu⟩ := hX.2 x hx
  exact ⟨u, hu.mono (Set.subset_sUnion_of_mem hX)⟩

theorem subset_kernel {P X : Set S} (hP : X ⊆ P) (h : ∀ x ∈ X, ∃ u, Forces R x u X) :
    X ⊆ kernel R P :=
  Set.subset_sUnion_of_mem ⟨hP, h⟩

theorem kernel_mono {P Q : Set S} (h : P ⊆ Q) : kernel R P ⊆ kernel R Q :=
  subset_kernel (kernel_subset.trans h) fun _ hx => exists_forces_kernel hx

theorem kernel_kernel (P : Set S) : kernel R (kernel R P) = kernel R P :=
  kernel_subset.antisymm (subset_kernel subset_rfl fun _ hx => exists_forces_kernel hx)

theorem mem_kernel_of_forces {P : Set S} {x : S} {u : I} (hx : x ∈ P)
    (hu : Forces R x u (kernel R P)) : x ∈ kernel R P := by
  have hgrow : kernel R P ⊆ insert x (kernel R P) := Set.subset_insert x _
  refine subset_kernel (X := insert x (kernel R P)) ?_ ?_ (Set.mem_insert x _)
  · exact Set.insert_subset hx kernel_subset
  · rintro y (rfl | hy)
    · exact ⟨u, hu.mono hgrow⟩
    · obtain ⟨v, hv⟩ := exists_forces_kernel hy
      exact ⟨v, hv.mono hgrow⟩

/-- No layer is won in addition if the kernel is to be forced without leaving the set. -/
theorem layer_kernel (P : Set S) (k : ℕ) : layer R (kernel R P) Pᶜ k = kernel R P := by
  induction k with
  | zero =>
    rw [layer, Set.sdiff_compl]
    exact Set.inter_eq_left.mpr kernel_subset
  | succ k ih =>
    rw [layer, ih, Set.union_eq_left]
    rintro x ⟨hx, u, hu⟩
    exact mem_kernel_of_forces (Set.notMem_compl_iff.mp hx) hu

end ControlGames
