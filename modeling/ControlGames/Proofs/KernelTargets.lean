import ControlGames.Proofs.InvarianceKernel
import ControlGames.Proofs.ReachAvoidWinners

/-!
# Kernels as targets

A safe state outside the kernel cannot be forced into it without leaving the safe set, or else it
would belong to the kernel. So both games agree: the winning region of an invariance game, taken as
the target of the game that avoids the unsafe states, is won from its own states only.
-/
namespace ControlGames

theorem Store.members_winningStates (s : Store) (r : Region) :
    s.members r.winningStates = {i | r.isWinning (s.state i) = .ok true} :=
  Set.ext fun _ => List.contains_iff_mem.trans r.mem_winningStates

namespace ReachabilityGame

variable {b : Builder} {mem mem' mem'' : Memory} {s : Store} {α β γ : Type} [StateSet α]
  [StateSet β] [StateSet γ] {safe : α} {target : β} {avoid : γ} {r : Region} {sol : Solution}

/-- With the kernel as target and the unsafe states to avoid, the states of the kernel have value
zero, all others are infinitely far away, and just those of the kernel win. -/
theorem solve_kernel (hb : (b.build mem).result = .ok s)
    (hsol : (((new s).avoiding avoid).solve mem' target).result = .ok sol)
    (htarget : s.members target = kernel (I := Fin s.numInputs) b.Leads (s.members safe))
    (havoid : s.members avoid = (s.members safe)ᶜ) {i : Fin s.numStates} {w : Bool}
    (hw : w = true ↔ i ∈ kernel (I := Fin s.numInputs) b.Leads (s.members safe)) :
    sol.value.get (s.state i) = .ok (if w then some 0 else none) ∧
      sol.region.isWinning (s.state i) = .ok w := by
  refine solve_of_layer_eq hb hsol (fun k => ?_) (by rw [hw, htarget]) fun hwin => ?_
  · rw [htarget, havoid, layer_kernel]
  · -- without any input no state wins, since the kernel is empty as well
    obtain ⟨u, -⟩ := exists_forces_kernel (hw.mp hwin)
    exact u.pos

/-- The game whose target is the winning region of a safe set, and which avoids the unsafe states,
is won from that region only, in no steps at all. -/
theorem solve_winning_region (hb : (b.build mem).result = .ok s)
    (hr : (s.solveInvariance mem' safe).result = .ok r)
    (hmem : Reachability.reserveLabels mem'' s.numStates s.numInputs = .ok ())
    (htarget : s.members target = {i | r.isWinning (s.state i) = .ok true})
    (havoid : s.members avoid = (s.members safe)ᶜ) :
    ∃ sol, (((new s).avoiding avoid).solve mem'' target).result = .ok sol ∧
      ∀ i : Fin s.numStates, ∃ w, r.isWinning (s.state i) = .ok w ∧
        sol.region.isWinning (s.state i) = .ok w ∧
        sol.value.get (s.state i) = .ok (if w then some 0 else none) := by
  have hm := (Invariance.solveInvariance_eq_ok_iff.mp hr).1
  have hkernel : s.members target =
      kernel (I := Fin s.numInputs) b.Leads (s.members safe) := by
    rw [htarget]
    refine Set.ext fun i => ?_
    obtain ⟨w, hw, hwin⟩ := Invariance.exists_isWinning_eq_ok hb hr i
    change r.isWinning (s.state i) = .ok true ↔ _
    rw [hw, Except.ok.injEq, hwin]
  obtain ⟨sol, hsol⟩ := Reachability.exists_solve_eq_ok (g := (new s).avoiding avoid) target
    (Builder.exact_of_build hb).adequate hm hmem
  refine ⟨sol, hsol, fun i => ?_⟩
  obtain ⟨w, hw, hwin⟩ := Invariance.exists_isWinning_eq_ok hb hr i
  obtain ⟨hvalue, hwins⟩ := solve_kernel hb hsol hkernel havoid hwin
  exact ⟨w, hw, hwins, hvalue⟩

end ReachabilityGame

theorem Builder.notMem_kernel_fork : (1 : Fin 4) ∉
    kernel (fork.Leads (n := 4) (m := 2)) (forkStore.members fun x : State => x.id != 2) := by
  intro hmem
  have honly : ∀ (u : Fin 2) (y : Fin 4), fork.Leads (1 : Fin 4) u y →
      fork.Leads (1 : Fin 4) u (2 : Fin 4) := by decide
  obtain ⟨u, ⟨y, hy⟩, hall⟩ := exists_forces_kernel hmem
  have hsafe := kernel_subset (hall 2 (honly u y hy))
  exact Bool.false_ne_true hsafe

/-- So if state 2 is the only unsafe one, state 1 is safe, but nothing forces it into the winning
region. -/
theorem ReachabilityGame.solve_fork_winning_region : ∃ r sol,
    (Builder.fork.build .ample).result = .ok Builder.forkStore ∧
    (Builder.forkStore.solveInvariance .ample fun x : State => x.id != 2).result = .ok r ∧
    Reachability.reserveLabels .ample Builder.forkStore.numStates Builder.forkStore.numInputs =
      .ok () ∧
    Builder.forkStore.members r.winningStates =
      {i | r.isWinning (Builder.forkStore.state i) = .ok true} ∧
    Builder.forkStore.members (fun x : State => x.id == 2) =
      (Builder.forkStore.members fun x : State => x.id != 2)ᶜ ∧
    (((new Builder.forkStore).avoiding fun x : State => x.id == 2).solve .ample
      r.winningStates).result = .ok sol ∧
    sol.value.get (Builder.forkStore.state (1 : Fin 4)) = .ok none := by
  have hmem : Reachability.reserveLabels .ample Builder.forkStore.numStates
      Builder.forkStore.numInputs = .ok () := rfl
  have hmem' : Invariance.reservePeeling .ample Builder.forkStore.numStates
      Builder.forkStore.numInputs = .ok () := rfl
  obtain ⟨valid, hr, -⟩ := Invariance.exists_solveInvariance_eq_ok
    (Builder.exact_of_build Builder.build_fork).inside (by decide) hmem' fun x : State => x.id != 2
  have htarget := Builder.forkStore.members_winningStates
    (.ofMatrix Builder.forkStore.sizes_le valid)
  have havoid : Builder.forkStore.members (fun x : State => x.id == 2) =
      (Builder.forkStore.members fun x : State => x.id != 2)ᶜ := by
    ext i
    simp [Store.members, StateSet.contains]
  obtain ⟨sol, hsol, htells⟩ := solve_winning_region Builder.build_fork hr hmem htarget havoid
  refine ⟨_, sol, Builder.build_fork, hr, hmem, htarget, havoid, hsol, ?_⟩
  obtain ⟨w, hw, -, hvalue⟩ := htells (1 : Fin 4)
  obtain ⟨w', hw', hwin⟩ :=
    Invariance.exists_isWinning_eq_ok Builder.build_fork hr (1 : Fin 4)
  cases w with
  | false => exact hvalue
  | true =>
    rw [hw, Except.ok.injEq] at hw'
    exact absurd (hwin.mp hw'.symm) Builder.notMem_kernel_fork

end ControlGames
