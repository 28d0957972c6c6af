import ControlGames.Invariance
import ControlGames.Proofs.Attractor
import ControlGames.Proofs.StoredRelation

/-!
# Losing states of invariance games

A state is losing if every input that is valid at first may lead to a losing state. On a store that
records its relation exactly the other states form the kernel of the safe set.
-/
namespace ControlGames.Invariance

variable {s : Store} {α : Type} [StateSet α] {safe : α}

/-- A losing state comes with a losing successor for each input that is valid at first. -/
inductive Losing (s : Store) {α : Type} [StateSet α] (safe : α) : Fin s.numStates → Prop
  | intro (i : Fin s.numStates) (next : Fin s.numInputs → Fin s.numStates)
      (leads : ∀ j, isValidFirst s safe i j = true → s.Leads i j (next j))
      (losing : ∀ j, isValidFirst s safe i j = true → Losing s safe (next j)) : Losing s safe i

/-- An input that is valid at first and never leads to a losing state. -/
def Permitted (s : Store) {α : Type} [StateSet α] (safe : α) (i : Fin s.numStates)
    (j : Fin s.numInputs) : Prop :=
  isValidFirst s safe i j = true ∧ ∀ k, s.Leads i j k → ¬ Losing s safe k

theorem losing_iff (i : Fin s.numStates) :
    Losing s safe i ↔
      ∀ j, isValidFirst s safe i j = true → ∃ k, s.Leads i j k ∧ Losing s safe k := by
  constructor
  · rintro ⟨_, next, hleads, hlosing⟩ j hj
    exact ⟨next j, hleads j hj, hlosing j hj⟩
  · intro h
    have hnext : ∀ j, ∃ k, isValidFirst s safe i j = true → s.Leads i j k ∧ Losing s safe k := by
      intro j
      by_cases hj : isValidFirst s safe i j = true
      · obtain ⟨k, hk⟩ := h j hj
        exact ⟨k, fun _ => hk⟩
      · exact ⟨i, fun hj' => absurd hj' hj⟩
    choose next hnext using hnext
    exact .intro i next (fun j hj => (hnext j hj).1) fun j hj => (hnext j hj).2

theorem not_losing_iff (i : Fin s.numStates) :
    ¬ Losing s safe i ↔ ∃ j, Permitted s safe i j := by
  rw [losing_iff]
  simp only [Permitted, not_forall, not_exists, not_and, exists_prop]

theorem isValidFirst_iff (hs : s.Exact) (i : Fin s.numStates) (j : Fin s.numInputs) :
    isValidFirst s safe i j = true ↔ i ∈ s.members safe ∧ ∃ k, s.Leads i j k := by
  rw [isValidFirst, Bool.and_eq_true, Store.containsId_eq_true_iff, hs.applicable_iff]

theorem Losing.notMem_kernel (hs : s.Exact) {i : Fin s.numStates} (h : Losing s safe i) :
    i ∉ kernel s.Leads (s.members safe) := by
  induction h with
  | intro i next hleads hlosing ih =>
    intro hi
    obtain ⟨j, hj⟩ := exists_forces_kernel hi
    have hvalid := (isValidFirst_iff hs i j).mpr ⟨kernel_subset hi, hj.1⟩
    exact ih j hvalid (hj.2 _ (hleads j hvalid))

theorem permitted_iff_forces (hs : s.Exact) (i : Fin s.numStates) (j : Fin s.numInputs) :
    Permitted s safe i j ↔ i ∈ s.members safe ∧ Forces s.Leads i j {k | ¬ Losing s safe k} := by
  rw [Permitted, isValidFirst_iff hs, and_assoc]
  rfl

theorem not_losing_iff_mem_kernel (hs : s.Exact) (i : Fin s.numStates) :
    ¬ Losing s safe i ↔ i ∈ kernel s.Leads (s.members safe) := by
  constructor
  · intro hi
    refine subset_kernel (X := {k | ¬ Losing s safe k}) ?_ ?_ hi
    · intro k hk
      obtain ⟨j, hj⟩ := (not_losing_iff k).mp hk
      exact ((permitted_iff_forces hs k j).mp hj).1
    · intro k hk
      obtain ⟨j, hj⟩ := (not_losing_iff k).mp hk
      exact ⟨j, ((permitted_iff_forces hs k j).mp hj).2⟩
  · intro hi hlosing
    exact hlosing.notMem_kernel hs hi

theorem permitted_iff_mem_kernel (hs : s.Exact) (i : Fin s.numStates) (j : Fin s.numInputs) :
    Permitted s safe i j ↔ i ∈ kernel s.Leads (s.members safe) ∧
      Forces s.Leads i j (kernel s.Leads (s.members safe)) := by
  have hkernel : {k | ¬ Losing s safe k} = kernel s.Leads (s.members safe) :=
    Set.ext (not_losing_iff_mem_kernel hs)
  constructor
  · intro h
    rw [← hkernel]
    exact ⟨(not_losing_iff i).mpr ⟨j, h⟩, ((permitted_iff_forces hs i j).mp h).2⟩
  · intro hstay
    rcases hstay with ⟨hi, hforces⟩
    rw [permitted_iff_forces hs, hkernel]
    exact ⟨kernel_subset hi, hforces⟩

end ControlGames.Invariance
