import ControlGames.Proofs.PeelingRun
import ControlGames.Proofs.SortedLayout

/-!
# Kernels of safe sets

The region of an invariance game is read off the bits that are on at the end of the peeling. On a
built store it consists of the kernel of the safe set, and an input is valid just if it forces the
kernel.
-/
namespace ControlGames

namespace Invariance

variable {mem : Memory} {s : Store} {α : Type} [StateSet α] {safe : α} {r : Region}

theorem solveInvariance_eq_ok_iff : (s.solveInvariance mem safe).result = .ok r ↔
    s.numInputs < reserved - 1 ∧ reservePeeling mem s.numStates s.numInputs = .ok () ∧
    ∃ p, run (initial s safe #[.solvingInvariance s.numStates s.numInputs s.transitionCount]) 0 =
      .ok p ∧ Region.ofMatrix s.sizes_le p.valid = r := by
  rw [← Region.checkAlphabet_eq_ok_iff, Store.solveInvariance]
  cases Region.checkAlphabet s.numInputs with
  | error r => simp
  | ok =>
    cases reservePeeling mem s.numStates s.numInputs with
    | error r => simp
    | ok =>
      dsimp only
      cases run (initial s safe _) 0 with
      | error e => simp
      | ok p => simp

/-- What is asked for before a peeling begins: a small enough alphabet, and memory. -/
def granted (mem : Memory) (n m : ℕ) : Except Refusal Unit := do
  Region.checkAlphabet m
  reservePeeling mem n m

theorem solveInvariance_result_of_run {p : Peeling s}
    (hp : run (initial s safe #[.solvingInvariance s.numStates s.numInputs s.transitionCount]) 0 =
      .ok p) (mem : Memory) :
    (s.solveInvariance mem safe).result =
      ((granted mem s.numStates s.numInputs).mapError .refusal).map
        fun _ => .ofMatrix s.sizes_le p.valid := by
  rw [Store.solveInvariance, granted]
  cases Region.checkAlphabet s.numInputs with
  | error r => rfl
  | ok =>
    dsimp only
    change _ = ((reservePeeling mem _ _).mapError _).map _
    cases reservePeeling mem s.numStates s.numInputs with
    | error r => rfl
    | ok =>
      rw [hp]
      rfl

/-- With all groups inside the flat array there is a region, whose bits are the permitted inputs. -/
theorem exists_solveInvariance_eq_ok (hin : s.Inside) (hm : s.numInputs < reserved - 1)
    (hmem : reservePeeling mem s.numStates s.numInputs = .ok ()) (safe : α) :
    ∃ valid, (s.solveInvariance mem safe).result = .ok (.ofMatrix s.sizes_le valid) ∧
      ∀ (i : Fin s.numStates) (j : Fin s.numInputs),
        valid.contains (Region.bit s.numInputs i j) = true ↔ Permitted s safe i j := by
  obtain ⟨p, hp, hprog⟩ := exists_run_eq_ok hin 0 (progress_initial s safe _)
  exact ⟨p.valid, solveInvariance_eq_ok_iff.mpr ⟨hm, hmem, p, hp, rfl⟩, hprog.holds_iff_permitted⟩

theorem exists_progress_of_solve (hin : s.Inside)
    (hr : (s.solveInvariance mem safe).result = .ok r) :
    ∃ p, r = .ofMatrix s.sizes_le p.valid ∧
      Progress s safe (p.losing.arrivals.toList.flatMap s.visits) p := by
  obtain ⟨-, -, p, hp, hread⟩ := solveInvariance_eq_ok_iff.mp hr
  obtain ⟨p', hp', hprog⟩ := exists_run_eq_ok hin 0 (progress_initial s safe _)
  rw [hp, Except.ok.injEq] at hp'
  subst hp'
  exact ⟨p, hread.symm, hprog⟩

theorem exists_eq_ofMatrix (hin : s.Inside) (hr : (s.solveInvariance mem safe).result = .ok r) :
    ∃ valid, r = .ofMatrix s.sizes_le valid ∧
      ∀ (i : Fin s.numStates) (j : Fin s.numInputs),
        valid.contains (Region.bit s.numInputs i j) = true ↔ Permitted s safe i j := by
  obtain ⟨p, rfl, hprog⟩ := exists_progress_of_solve hin hr
  exact ⟨p.valid, rfl, hprog.holds_iff_permitted⟩

section Built

variable {b : Builder} {mem' : Memory} (hb : (b.build mem').result = .ok s)
  (hr : (s.solveInvariance mem safe).result = .ok r) (i : Fin s.numStates)

include hb hr

theorem exists_isWinning_eq_ok : ∃ w, r.isWinning (s.state i) = .ok w ∧
    (w = true ↔ i ∈ kernel (I := Fin s.numInputs) b.Leads (s.members safe)) := by
  have hs : s.Exact := Builder.exact_of_build hb
  obtain ⟨valid, rfl, hvalid⟩ := exists_eq_ofMatrix hs.inside hr
  obtain ⟨w, hw, hwin⟩ := Region.exists_isWinning_ofMatrix valid i
  refine ⟨w, hw, ?_⟩
  rw [hwin, ← Builder.leads_of_build hb, ← not_losing_iff_mem_kernel hs, not_losing_iff]
  exact exists_congr fun j => hvalid i j

theorem isValid_eq_true_iff (j : Fin s.numInputs) :
    r.isValid (s.state i) (s.input j) = .ok true ↔
      i ∈ kernel (I := Fin s.numInputs) b.Leads (s.members safe) ∧
        Forces b.Leads i j (kernel (I := Fin s.numInputs) b.Leads (s.members safe)) := by
  have hs : s.Exact := Builder.exact_of_build hb
  obtain ⟨valid, rfl, hvalid⟩ := exists_eq_ofMatrix hs.inside hr
  rw [Region.isValid_ofMatrix, Except.ok.injEq, hvalid, permitted_iff_mem_kernel hs,
    Builder.leads_of_build hb]

end Built

end Invariance

open Invariance in
/-- Every invariance game on a built store has a region. Its states are the kernel of the safe set,
and an input is valid at one of them if it can be applied and does not leave the kernel. -/
theorem Store.solveInvariance_eq_kernel {b : Builder} {mem mem' : Memory} {s : Store}
    (hb : (b.build mem).result = .ok s) (hm : s.numInputs < reserved - 1)
    (hmem : reservePeeling mem' s.numStates s.numInputs = .ok ())
    {α : Type} [StateSet α] (safe : α) :
    ∃ r, (s.solveInvariance mem' safe).result = .ok r ∧
      ∀ i : Fin s.numStates,
        (∃ w, r.isWinning (s.state i) = .ok w ∧
          (w = true ↔ i ∈ kernel (I := Fin s.numInputs) b.Leads (s.members safe))) ∧
        ∀ j : Fin s.numInputs, ∃ w, r.isValid (s.state i) (s.input j) = .ok w ∧
          (w = true ↔ i ∈ kernel (I := Fin s.numInputs) b.Leads (s.members safe) ∧
            Forces b.Leads i j (kernel (I := Fin s.numInputs) b.Leads (s.members safe))) := by
  have hs : s.Exact := Builder.exact_of_build hb
  obtain ⟨valid, hsolve, hvalid⟩ := exists_solveInvariance_eq_ok hs.inside hm hmem safe
  rw [← Builder.leads_of_build hb]
  refine ⟨_, hsolve, fun i => ⟨?_, fun j => ?_⟩⟩
  · obtain ⟨w, hw, hwin⟩ := Region.exists_isWinning_ofMatrix valid i
    refine ⟨w, hw, ?_⟩
    rw [hwin, ← not_losing_iff_mem_kernel hs, not_losing_iff]
    exact exists_congr fun j => hvalid i j
  · exact ⟨_, Region.isValid_ofMatrix valid i j,
      (hvalid i j).trans (permitted_iff_mem_kernel hs i j)⟩

/-- On the fork state 3 never needs to be left, so it wins if state 2 is to be avoided. -/
theorem Store.solveInvariance_fork_eq_kernel :
    (Builder.fork.build .ample).result = .ok Builder.forkStore ∧
    Builder.forkStore.numInputs < reserved - 1 ∧
    Invariance.reservePeeling .ample Builder.forkStore.numStates Builder.forkStore.numInputs =
      .ok () ∧
    ∃ r, (Builder.forkStore.solveInvariance .ample fun x : State => x.id != 2).result = .ok r ∧
      r.isWinning (Builder.forkStore.state (3 : Fin 4)) = .ok true := by
  have hm : Builder.forkStore.numInputs < reserved - 1 := by decide
  have hmem : Invariance.reservePeeling .ample Builder.forkStore.numStates
      Builder.forkStore.numInputs = .ok () := rfl
  obtain ⟨r, hr, hregion⟩ :=
    Store.solveInvariance_eq_kernel Builder.build_fork hm hmem fun x : State => x.id != 2
  have hkernel : (3 : Fin 4) ∈ kernel (Builder.fork.Leads (n := 4) (m := 2))
      (Builder.forkStore.members fun x : State => x.id != 2) := by
    refine subset_kernel (X := {3}) ?_ ?_ rfl
    · rintro x rfl
      rfl
    · rintro x rfl
      exact ⟨1, ⟨3, by decide⟩, by decide⟩
  obtain ⟨w, hw, hwin⟩ := (hregion (3 : Fin 4)).1
  refine ⟨Builder.build_fork, hm, hmem, r, hr, ?_⟩
  rw [hw, hwin.mpr hkernel]

end ControlGames
