import ControlGames.Proofs.EqualRegions
import ControlGames.Proofs.KernelTargets

/-!
# Growing safe sets

In a larger safe set no valid input is lost, so no winning state and no controller is. Taking all
winning states as the safe set changes nothing at all, not even the matrix. So the winning states of
an invariance game depend on the safe set as the interior of a set depends on the set.
-/
namespace ControlGames

namespace Invariance

variable {s : Store} {α β : Type} [StateSet α] [StateSet β] {safe : α} {safe' : β}
  {i : Fin s.numStates} {j : Fin s.numInputs}

theorem Permitted.mono (hs : s.Exact) (h : s.members safe ⊆ s.members safe')
    (hj : Permitted s safe i j) : Permitted s safe' i j := by
  rw [permitted_iff_mem_kernel hs] at hj ⊢
  have hsub := kernel_mono (R := s.Leads) h
  exact ⟨hsub hj.1, hj.2.mono hsub⟩

theorem permitted_iff_of_members_eq_kernel (hs : s.Exact)
    (h : s.members safe' = kernel s.Leads (s.members safe)) :
    Permitted s safe i j ↔ Permitted s safe' i j := by
  rw [permitted_iff_mem_kernel hs, permitted_iff_mem_kernel hs, h, kernel_kernel]

variable {mem : Memory} {r r' : Region}

theorem exists_solve_of_solve (hin : s.Inside) (hr : (s.solveInvariance mem safe).result = .ok r)
    (safe' : β) : ∃ r', (s.solveInvariance mem safe').result = .ok r' := by
  obtain ⟨hm, hmem, -⟩ := solveInvariance_eq_ok_iff.mp hr
  obtain ⟨valid, hr', -⟩ := exists_solveInvariance_eq_ok hin hm hmem safe'
  exact ⟨_, hr'⟩

/-- In a larger safe set all valid inputs stay valid, so all winning states still win, and there are
no fewer controllers. -/
theorem region_mono (hs : s.Exact) (hr : (s.solveInvariance mem safe).result = .ok r)
    (hr' : (s.solveInvariance mem safe').result = .ok r')
    (h : s.members safe ⊆ s.members safe') :
    (∀ x u, r.isValid x u = .ok true → r'.isValid x u = .ok true) ∧
    (∀ i, r.isWinning (s.state i) = .ok true → r'.isWinning (s.state i) = .ok true) ∧
    r.countControllers ≤ r'.countControllers := by
  obtain ⟨p, rfl, hp⟩ := exists_progress_of_solve hs.inside hr
  obtain ⟨p', rfl, hp'⟩ := exists_progress_of_solve hs.inside hr'
  have hbits : p.valid.members ⊆ p'.valid.members :=
    hp.members_subset hp' ⟨rfl, rfl⟩ fun _ _ hj => hj.mono hs h
  refine ⟨fun x u hvalid => ?_, fun i hwin => ?_, Region.countControllers_le fun i j => ?_⟩
  · exact congrArg Except.ok (hbits (Except.ok.inj hvalid))
  · obtain ⟨w, hw, hrow⟩ := Region.exists_isWinning_ofMatrix p.valid i
    obtain ⟨w', hw', hrow'⟩ := Region.exists_isWinning_ofMatrix p'.valid i
    rw [hw, Except.ok.injEq] at hwin
    obtain ⟨j, hj⟩ := hrow.mp hwin
    rw [hw', hrow'.mpr ⟨j, hbits hj⟩]
  · exact fun hj => hbits hj

theorem region_eq (hin : s.Inside) (hr : (s.solveInvariance mem safe).result = .ok r)
    (hr' : (s.solveInvariance mem safe').result = .ok r')
    (h : ∀ i j, Permitted s safe i j ↔ Permitted s safe' i j) : r = r' := by
  obtain ⟨p, rfl, hp⟩ := exists_progress_of_solve hin hr
  obtain ⟨p', rfl, hp'⟩ := exists_progress_of_solve hin hr'
  rw [hp.valid_eq hp' ⟨rfl, rfl⟩ h]

end Invariance

open Invariance in
/-- On a built store the winning states are a monotone interior of the safe set. All of them are
safe. In a larger safe set there is a region as well, which keeps all valid inputs and all winning
states and admits no fewer controllers. With the winning states as the safe set the region is the
same, its witnesses and its matrix included. -/
theorem Store.solveInvariance_monotone_interior {b : Builder} {mem : Memory} {s : Store}
    (hb : (b.build mem).result = .ok s) (mem' : Memory) {α : Type} [StateSet α] (safe : α) :
    (s.numInputs < reserved - 1 → reservePeeling mem' s.numStates s.numInputs = .ok () →
      ∃ r, (s.solveInvariance mem' safe).result = .ok r) ∧
    ∀ r, (s.solveInvariance mem' safe).result = .ok r →
      {i | r.isWinning (s.state i) = .ok true} ⊆ s.members safe ∧
      (∀ {β : Type} [StateSet β] (safe' : β), s.members safe ⊆ s.members safe' →
        ∃ r', (s.solveInvariance mem' safe').result = .ok r' ∧
          (∀ x u, r.isValid x u = .ok true → r'.isValid x u = .ok true) ∧
          (∀ i, r.isWinning (s.state i) = .ok true → r'.isWinning (s.state i) = .ok true) ∧
          r.countControllers ≤ r'.countControllers) ∧
      ∀ {γ : Type} [StateSet γ] (won : γ),
        s.members won = {i | r.isWinning (s.state i) = .ok true} →
        (s.solveInvariance mem' won).result = .ok r := by
  have hs : s.Exact := Builder.exact_of_build hb
  refine ⟨fun hm hmem => ?_, fun r hr => ?_⟩
  · obtain ⟨valid, hr, -⟩ := exists_solveInvariance_eq_ok hs.inside hm hmem safe
    exact ⟨_, hr⟩
  · have hkernel : {i | r.isWinning (s.state i) = .ok true} = kernel s.Leads (s.members safe) := by
      refine Set.ext fun i => ?_
      obtain ⟨w, hw, hwin⟩ := exists_isWinning_eq_ok hb hr i
      change r.isWinning (s.state i) = .ok true ↔ _
      rw [hw, Except.ok.injEq, hwin, Builder.leads_of_build hb]
    refine ⟨hkernel ▸ kernel_subset, fun safe' hsub => ?_, fun won hwon => ?_⟩
    · obtain ⟨r', hr'⟩ := exists_solve_of_solve hs.inside hr safe'
      exact ⟨r', hr', region_mono hs hr hr' hsub⟩
    · obtain ⟨r', hr'⟩ := exists_solve_of_solve hs.inside hr won
      rw [hr', region_eq hs.inside hr hr' fun i j =>
        permitted_iff_of_members_eq_kernel hs (hwon.trans hkernel)]

/-- On the fork there are no fewer controllers if state 2 is safe as well, and the states that win
without it are the largest part that need never be left. -/
theorem Store.solveInvariance_fork_monotone_interior : ∃ r r',
    (Builder.fork.build .ample).result = .ok Builder.forkStore ∧
    (Builder.forkStore.solveInvariance .ample fun x : State => x.id != 2).result = .ok r ∧
    (Builder.forkStore.solveInvariance .ample StateSet.everything).result = .ok r' ∧
    r.countControllers ≤ r'.countControllers ∧
    (Builder.forkStore.solveInvariance .ample r.winningStates).result = .ok r := by
  obtain ⟨hsolve, hinterior⟩ := solveInvariance_monotone_interior Builder.build_fork .ample
    fun x : State => x.id != 2
  obtain ⟨r, hr⟩ := hsolve (by decide) rfl
  obtain ⟨-, hmono, hagain⟩ := hinterior r hr
  obtain ⟨r', hr', -, -, hcount⟩ := hmono StateSet.everything fun _ _ => rfl
  exact ⟨r, r', Builder.build_fork, hr, hr', hcount,
    hagain r.winningStates (Builder.forkStore.members_winningStates r)⟩

end ControlGames
