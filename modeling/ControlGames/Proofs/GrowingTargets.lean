import Mathlib.Data.ENat.Basic
import ControlGames.Proofs.KernelTargets

/-!
# Growing targets

With more targets and less to avoid no state gets farther away. Taking all winning states as the
target changes nothing but the values, which are then all zero. So the winning states of a
reach-avoid game depend on the target as the closure of a set depends on the set.
-/
namespace ControlGames

/-- A value as a number of steps, which may be infinite. -/
def ValueFunction.steps : Option ℕ → ℕ∞
  | some k => k
  | none => ⊤

theorem ValueFunction.steps_le_steps {v v' : Option ℕ}
    (h : ∀ k, v = some k → ∃ k' ≤ k, v' = some k') : steps v' ≤ steps v := by
  cases v with
  | none => exact le_top
  | some k =>
    obtain ⟨k', hk', rfl⟩ := h k rfl
    exact Nat.cast_le.mpr hk'

namespace ReachabilityGame

open Reachability ValueFunction

variable {b : Builder} {mem mem' : Memory} {s : Store} {α β : Type} [StateSet α] [StateSet β]
  {target : α} {avoid : β} {sol : Solution}

theorem exists_solve_of_solve (hs : s.Adequate)
    (hsol : (((new s).avoiding avoid).solve mem target).result = .ok sol)
    {α' β' : Type} [StateSet α'] [StateSet β'] (target' : α') (avoid' : β') :
    ∃ sol', (((new s).avoiding avoid').solve mem target').result = .ok sol' := by
  obtain ⟨hm, hmem, -⟩ := solve_eq_ok_iff.mp hsol
  exact exists_solve_eq_ok (g := (new s).avoiding avoid') target' hs hm hmem

section Built

variable (hb : (b.build mem).result = .ok s)
  (hsol : (((new s).avoiding avoid).solve mem' target).result = .ok sol)

include hb hsol

/-- With more targets and less to avoid no value gets larger. -/
theorem exists_steps_le {α' β' : Type} [StateSet α'] [StateSet β'] {target' : α'} {avoid' : β'}
    {sol' : Solution}
    (hsol' : (((new s).avoiding avoid').solve mem' target').result = .ok sol')
    (htarget : s.members target ⊆ s.members target') (havoid : s.members avoid' ⊆ s.members avoid)
    (i : Fin s.numStates) : ∃ v v', sol.value.get (s.state i) = .ok v ∧
      sol'.value.get (s.state i) = .ok v' ∧ steps v' ≤ steps v := by
  obtain ⟨val, c, htells, hrank, -⟩ := Builder.ranking_of_solve hb hsol
  obtain ⟨val', c', htells', hrank', -⟩ := Builder.ranking_of_solve hb hsol'
  refine ⟨val i, val' i, htells.get i, htells'.get i, steps_le_steps fun k hk => ?_⟩
  exact hrank.exists_le_of_layers hrank' (fun k hk => layer_subset_of_subset htarget havoid k hk) hk

end Built

/-- On a built store with inputs the winning states are a monotone closure of the target. Every
target state that need not be avoided wins. With more targets and less to avoid there is a solution
as well, in which no value is larger and all these states still win. With the winning states as the
target, and the same states to avoid, there is a solution in which just they win, in no steps. -/
theorem solve_monotone_closure (hb : (b.build mem).result = .ok s) (hpos : 0 < s.numInputs)
    (mem' : Memory) (target : α) (avoid : β) :
    (s.numInputs < reserved - 1 → reserveLabels mem' s.numStates s.numInputs = .ok () →
      ∃ sol, (((new s).avoiding avoid).solve mem' target).result = .ok sol) ∧
    ∀ sol, (((new s).avoiding avoid).solve mem' target).result = .ok sol →
      (∀ i ∈ s.members target \ s.members avoid, sol.region.isWinning (s.state i) = .ok true) ∧
      (∀ {α' β' : Type} [StateSet α'] [StateSet β'] (target' : α') (avoid' : β'),
        s.members target ⊆ s.members target' → s.members avoid' ⊆ s.members avoid →
        ∃ sol', (((new s).avoiding avoid').solve mem' target').result = .ok sol' ∧
          ∀ i : Fin s.numStates,
            (∃ v v', sol.value.get (s.state i) = .ok v ∧ sol'.value.get (s.state i) = .ok v' ∧
              steps v' ≤ steps v) ∧
            ∃ w w', sol.region.isWinning (s.state i) = .ok w ∧
              sol'.region.isWinning (s.state i) = .ok w' ∧ (w = true → w' = true)) ∧
      ∀ {γ : Type} [StateSet γ] (won : γ),
        s.members won = {i | sol.region.isWinning (s.state i) = .ok true} →
        ∃ sol', (((new s).avoiding avoid).solve mem' won).result = .ok sol' ∧
          ∀ i : Fin s.numStates, ∃ w, sol.region.isWinning (s.state i) = .ok w ∧
            sol'.region.isWinning (s.state i) = .ok w ∧
            sol'.value.get (s.state i) = .ok (if w then some 0 else none) := by
  have hs : s.Adequate := (Builder.exact_of_build hb).adequate
  refine ⟨exists_solve_eq_ok (g := (new s).avoiding avoid) target hs, fun sol hsol =>
    ⟨fun i hi => ?_, fun target' avoid' htarget havoid => ?_, fun won hwon => ?_⟩⟩
  · obtain ⟨w, hw, hwin⟩ := exists_isWinning_iff_mem_attractor hb hsol hpos i
    rw [hw, hwin.mpr ⟨0, hi⟩]
  · obtain ⟨sol', hsol'⟩ := exists_solve_of_solve hs hsol target' avoid'
    refine ⟨sol', hsol', fun i => ⟨exists_steps_le hb hsol hsol' htarget havoid i, ?_⟩⟩
    obtain ⟨w, hw, hwin⟩ := exists_isWinning_iff_mem_attractor hb hsol hpos i
    obtain ⟨w', hw', hwin'⟩ := exists_isWinning_iff_mem_attractor hb hsol' hpos i
    refine ⟨w, w', hw, hw', fun h => ?_⟩
    obtain ⟨k, hk⟩ := hwin.mp h
    exact hwin'.mpr ⟨k, layer_subset_of_subset htarget havoid k hk⟩
  · obtain ⟨sol', hsol'⟩ := exists_solve_of_solve hs hsol won avoid
    have hwon : s.members won =
        attractor (I := Fin s.numInputs) b.Leads (s.members target) (s.members avoid) := by
      rw [hwon]
      refine Set.ext fun i => ?_
      obtain ⟨w, hw, hwin⟩ := exists_isWinning_iff_mem_attractor hb hsol hpos i
      change sol.region.isWinning (s.state i) = .ok true ↔ _
      rw [hw, Except.ok.injEq, hwin]
    refine ⟨sol', hsol', fun i => ?_⟩
    obtain ⟨w, hw, hwin⟩ := exists_isWinning_iff_mem_attractor hb hsol hpos i
    obtain ⟨hvalue, hwins⟩ := solve_of_layer_eq hb hsol' (fun k => by rw [hwon, layer_attractor])
      (hwin.trans (Set.ext_iff.mp hwon i).symm) fun _ => hpos
    exact ⟨w, hw, hwins, hvalue⟩

/-- On the fork, with state 2 as the target, state 0 gets no farther away if state 1 need not be
avoided any more, and only winning states win if these are the target. -/
theorem solve_fork_monotone_closure : ∃ sol sol' sol'',
    (Builder.fork.build .ample).result = .ok Builder.forkStore ∧ 0 < Builder.forkStore.numInputs ∧
    (((new Builder.forkStore).avoiding fun x : State => x.id == 1).solve .ample
      fun x : State => x.id == 2).result = .ok sol ∧
    (((new Builder.forkStore).avoiding StateSet.nothing).solve .ample
      fun x : State => x.id == 2).result = .ok sol' ∧
    (((new Builder.forkStore).avoiding fun x : State => x.id == 1).solve .ample
      sol.region.winningStates).result = .ok sol'' ∧
    (∃ v v', sol.value.get (Builder.forkStore.state (0 : Fin 4)) = .ok v ∧
      sol'.value.get (Builder.forkStore.state (0 : Fin 4)) = .ok v' ∧ steps v' ≤ steps v) ∧
    ∀ i : Fin 4, sol''.region.isWinning (Builder.forkStore.state i) =
      sol.region.isWinning (Builder.forkStore.state i) := by
  have hpos : 0 < Builder.forkStore.numInputs := by decide
  obtain ⟨hsolve, hclosure⟩ := solve_monotone_closure Builder.build_fork hpos .ample
    (fun x : State => x.id == 2) fun x : State => x.id == 1
  obtain ⟨sol, hsol⟩ := hsolve (by decide) rfl
  obtain ⟨-, hmono, hagain⟩ := hclosure sol hsol
  have hless : Builder.forkStore.members StateSet.nothing ⊆
      Builder.forkStore.members fun x : State => x.id == 1 := fun _ hi => absurd hi nofun
  obtain ⟨sol', hsol', hle⟩ := hmono (fun x : State => x.id == 2) StateSet.nothing subset_rfl hless
  obtain ⟨sol'', hsol'', hsame⟩ := hagain sol.region.winningStates
    (Builder.forkStore.members_winningStates sol.region)
  refine ⟨sol, sol', sol'', Builder.build_fork, hpos, hsol, hsol', hsol'', (hle (0 : Fin 4)).1,
    fun i => ?_⟩
  obtain ⟨w, hw, hw'', -⟩ := hsame i
  rw [hw, hw'']

end ReachabilityGame

end ControlGames
