import Mathlib.Logic.Equiv.Fin.Basic
import ControlGames.Proofs.AddedTransitions
import ControlGames.Proofs.Bisimulations
import ControlGames.Proofs.InvarianceKernel
import ControlGames.Proofs.ReachAvoidWinners

/-!
# Shared parts

Two stores may have some states in common whose transitions are the same in both and never lead
elsewhere. What the solutions tell about these states depends on nothing else, however many states
the stores have besides and however these lead back into the common part.
-/
namespace ControlGames

/-- The two numbers are those of one state of the set. -/
def Store.Twins (s s' : Store) (R : Set State) (i : Fin s.numStates) (i' : Fin s'.numStates) :
    Prop :=
  s.state i = s'.state i' ∧ s.state i ∈ R

theorem Store.Twins.symm {s s' : Store} {R : Set State} {i : Fin s.numStates}
    {i' : Fin s'.numStates} (h : s.Twins s' R i i') : s'.Twins s R i' i :=
  ⟨h.1.symm, h.1 ▸ h.2⟩

/-- Two sets of states have the same members in `R`. -/
def StateSet.Same (R : Set State) {α α' : Type} [StateSet α] [StateSet α'] (set : α) (set' : α') :
    Prop :=
  ∀ x ∈ R, contains set x = contains set' x

theorem StateSet.Same.agree {R : Set State} {α α' : Type} [StateSet α] [StateSet α'] {set : α}
    {set' : α'} (h : Same R set set') (s s' : Store) :
    Agree (s.Twins s' R) (s.members set) (s'.members set') := by
  rintro i i' ⟨hi, hR⟩
  change contains set (s.state i) = true ↔ contains set' (s'.state i') = true
  rw [h _ hR, hi]

/-- The states of `R` belong to both builders, have the same transitions in both, and these lead to
states of `R` only. -/
structure Builder.Shares (b b' : Builder) (R : Set State) : Prop where
  numInputs : b.numInputs = b'.numInputs
  fits : ∀ x ∈ R, x.id < b.numStates ∧ x.id < b'.numStates
  same : ∀ x ∈ R, ∀ u y, (x.id, u, y) ∈ b.triples ↔ (x.id, u, y) ∈ b'.triples
  closed : ∀ x ∈ R, ∀ (u : ℕ) (y : State), (x.id, u, y.id) ∈ b.triples → y ∈ R

namespace Builder.Shares

variable {b b' : Builder} {R : Set State}

theorem symm (h : b.Shares b' R) : b'.Shares b R where
  numInputs := h.numInputs.symm
  fits x hx := (h.fits x hx).symm
  same x hx u y := (h.same x hx u y).symm
  closed x hx u y hy := h.closed x hx u y ((h.same x hx u y.id).mpr hy)

section Built

variable {mem mem' : Memory} {s s' : Store} (h : b.Shares b' R)
  (hb : (b.build mem).result = .ok s) (hb' : (b'.build mem').result = .ok s')

include h hb hb'

theorem numInputs_eq : s.numInputs = s'.numInputs := by
  rw [(sizes_of_build hb).2, h.numInputs, (sizes_of_build hb').2]

theorem exists_twins {x : State} (hx : x ∈ R) :
    ∃ i i', s.state i = x ∧ s'.state i' = x ∧ s.Twins s' R i i' := by
  obtain ⟨hid, hid'⟩ := h.fits x hx
  rw [← (sizes_of_build hb).1] at hid
  rw [← (sizes_of_build hb').1] at hid'
  exact ⟨⟨x.id, hid⟩, ⟨x.id, hid'⟩, rfl, rfl, rfl, hx⟩

/-- Every transition of a state of `R` is found in the other store. -/
theorem exists_leads {i k : Fin s.numStates} {i' : Fin s'.numStates} {j : Fin s.numInputs}
    {j' : Fin s'.numInputs} (hj : j.val = j'.val) (hi : s.Twins s' R i i') (hk : b.Leads i j k) :
    ∃ k', b'.Leads i' j' k' ∧ s.Twins s' R k k' := by
  obtain ⟨hstate, hR⟩ := hi
  have hadded : (i.val, j.val, k.val) ∈ b.triples := leads_iff_mem_triples.mp hk
  obtain ⟨k₀, k', hk₀, hk', htwins⟩ := h.exists_twins hb hb' (h.closed _ hR _ (s.state k) hadded)
  obtain rfl : k₀ = k := Fin.ext (congrArg State.id hk₀)
  refine ⟨k', leads_iff_mem_triples.mpr ?_, htwins⟩
  have hid : i.val = i'.val := congrArg State.id hstate
  have hidk : k'.val = k₀.val := congrArg State.id hk'
  rw [← hid, ← hj, hidk]
  exact (h.same _ hR _ _).mp hadded

/-- So no sequence of moves tells the two stores apart. -/
theorem bisimulation : Bisimulation b.Leads b'.Leads (finCongr (h.numInputs_eq hb hb'))
    (s.Twins s' R) where
  forth _ _ _ _ hi hk := h.exists_leads hb hb' rfl hi hk
  back _ _ _ _ hi hk' := by
    obtain ⟨k, hk, htwins⟩ := h.symm.exists_leads hb' hb rfl hi.symm hk'
    exact ⟨k, hk, htwins.symm⟩

open Invariance in
theorem permitted_iff {α α' : Type} [StateSet α] [StateSet α'] {safe : α} {safe' : α'}
    (hsafe : StateSet.Same R safe safe') {i : Fin s.numStates} {i' : Fin s'.numStates}
    (hi : s.Twins s' R i i') (j : Fin s.numInputs) :
    Permitted s safe i j ↔ Permitted s' safe' i' (j.cast (h.numInputs_eq hb hb')) := by
  have hbisim := h.bisimulation hb hb'
  have hkernel := hbisim.agree_kernel (hsafe.agree s s')
  rw [permitted_iff_mem_kernel (exact_of_build hb), permitted_iff_mem_kernel (exact_of_build hb'),
    leads_of_build hb, leads_of_build hb']
  exact and_congr (hkernel i i' hi) (hbisim.forces_iff hi j hkernel)

end Built

end Builder.Shares

/-! ### Solutions -/

variable {b b' : Builder} {R : Set State} {mem mem' m₁ m₁' : Memory} {s s' : Store}
  {α α' β β' : Type} [StateSet α] [StateSet α'] [StateSet β] [StateSet β']

theorem ReachabilityGame.values_eq_of_shares (h : b.Shares b' R)
    (hb : (b.build mem).result = .ok s) (hb' : (b'.build mem').result = .ok s') {target : α}
    {target' : α'} {avoid : β} {avoid' : β'} {sol sol' : Solution}
    (hsol : (((new s).avoiding avoid).solve m₁ target).result = .ok sol)
    (hsol' : (((new s').avoiding avoid').solve m₁' target').result = .ok sol')
    (htarget : StateSet.Same R target target') (havoid : StateSet.Same R avoid avoid') {x : State}
    (hx : x ∈ R) :
    ∃ v w, sol.value.get x = .ok v ∧ sol'.value.get x = .ok v ∧
      sol.region.isWinning x = .ok w ∧ sol'.region.isWinning x = .ok w := by
  obtain ⟨i, i', rfl, hx', htwins⟩ := h.exists_twins hb hb' hx
  obtain ⟨val, c, htells, hrank, hchosen⟩ := Builder.ranking_of_solve hb hsol
  obtain ⟨val', c', htells', hrank', hchosen'⟩ := Builder.ranking_of_solve hb' hsol'
  have hvalue : val i = val' i' := hrank.val_eq_of_layers hrank' fun k =>
    (h.bisimulation hb hb').agree_layer (htarget.agree s s') (havoid.agree s s') k i i' htwins
  have hwins : (c i).isSome = (c' i').isSome := by
    rw [Bool.eq_iff_iff, isSome_iff_pos_and fun hpos => hchosen hpos i,
      isSome_iff_pos_and fun hpos => hchosen' hpos i', h.numInputs_eq hb hb', hvalue]
  refine ⟨val i, (c i).isSome, htells.get i, ?_, htells.isWinning i, ?_⟩
  · rw [← hx', htells'.get, hvalue]
  · rw [← hx', htells'.isWinning, hwins]

open Invariance in
theorem Invariance.inputs_eq_of_shares (h : b.Shares b' R) (hb : (b.build mem).result = .ok s)
    (hb' : (b'.build mem').result = .ok s') {safe : α} {safe' : α'} {r r' : Region}
    (hr : (s.solveInvariance m₁ safe).result = .ok r)
    (hr' : (s'.solveInvariance m₁' safe').result = .ok r')
    (hsafe : StateSet.Same R safe safe') {x : State} (hx : x ∈ R) :
    ∃ us u, r.inputs x = .ok us ∧ r'.inputs x = .ok us ∧
      r.witness x = .ok u ∧ r'.witness x = .ok u := by
  obtain ⟨i, i', rfl, hx', htwins⟩ := h.exists_twins hb hb' hx
  obtain ⟨valid, rfl, hvalid⟩ := exists_eq_ofMatrix (Builder.exact_of_build hb).inside hr
  obtain ⟨valid', rfl, hvalid'⟩ := exists_eq_ofMatrix (Builder.exact_of_build hb').inside hr'
  have hrow : Region.row s.sizes_le.2 valid i = Region.row s'.sizes_le.2 valid' i' := by
    refine Region.row_congr (h.numInputs_eq hb hb') fun j => ?_
    exact (hvalid i j).trans ((h.permitted_iff hb hb' hsafe htwins j).trans (hvalid' i' _).symm)
  refine ⟨Region.row s.sizes_le.2 valid i, _, rfl, ?_, Region.witness_ofMatrix valid i, ?_⟩
  · rw [← hx', hrow]
    rfl
  · rw [← hx', Region.witness_ofMatrix, hrow]

open Reachability ReachabilityGame Invariance in
/-- The solutions of the games on two built stores tell the same about the states of a shared part
if the sets of states have the same members there. Both reach-avoid games have solutions, and these
give the same values and the same winning states. Both invariance games have regions, and these give
the same valid inputs and the same witnesses. -/
theorem Store.solutions_eq_of_shares (h : b.Shares b' R) (hb : (b.build mem).result = .ok s)
    (hb' : (b'.build mem').result = .ok s') (m₁ m₁' : Memory) :
    (∀ {α α' β β' : Type} [StateSet α] [StateSet α'] [StateSet β] [StateSet β'] (target : α)
        (target' : α') (avoid : β) (avoid' : β'),
      StateSet.Same R target target' → StateSet.Same R avoid avoid' →
      (s.numInputs < reserved - 1 → reserveLabels m₁ s.numStates s.numInputs = .ok () →
        reserveLabels m₁' s'.numStates s'.numInputs = .ok () →
        ∃ sol sol', (((new s).avoiding avoid).solve m₁ target).result = .ok sol ∧
          (((new s').avoiding avoid').solve m₁' target').result = .ok sol') ∧
      ∀ sol sol', (((new s).avoiding avoid).solve m₁ target).result = .ok sol →
        (((new s').avoiding avoid').solve m₁' target').result = .ok sol' →
        ∀ x ∈ R, ∃ v w, sol.value.get x = .ok v ∧ sol'.value.get x = .ok v ∧
          sol.region.isWinning x = .ok w ∧ sol'.region.isWinning x = .ok w) ∧
    ∀ {α α' : Type} [StateSet α] [StateSet α'] (safe : α) (safe' : α'),
      StateSet.Same R safe safe' →
      (s.numInputs < reserved - 1 → reservePeeling m₁ s.numStates s.numInputs = .ok () →
        reservePeeling m₁' s'.numStates s'.numInputs = .ok () →
        ∃ r r', (s.solveInvariance m₁ safe).result = .ok r ∧
          (s'.solveInvariance m₁' safe').result = .ok r') ∧
      ∀ r r', (s.solveInvariance m₁ safe).result = .ok r →
        (s'.solveInvariance m₁' safe').result = .ok r' →
        ∀ x ∈ R, ∃ us u, r.inputs x = .ok us ∧ r'.inputs x = .ok us ∧
          r.witness x = .ok u ∧ r'.witness x = .ok u := by
  have hs : s.Exact := Builder.exact_of_build hb
  have hs' : s'.Exact := Builder.exact_of_build hb'
  refine ⟨fun target target' avoid avoid' htarget havoid => ⟨fun hm hmem hmem' => ?_, ?_⟩,
    fun safe safe' hsafe => ⟨fun hm hmem hmem' => ?_, ?_⟩⟩
  · obtain ⟨sol, hsol⟩ :=
      exists_solve_eq_ok (g := (new s).avoiding avoid) target hs.adequate hm hmem
    rw [h.numInputs_eq hb hb'] at hm
    obtain ⟨sol', hsol'⟩ :=
      exists_solve_eq_ok (g := (new s').avoiding avoid') target' hs'.adequate hm hmem'
    exact ⟨sol, sol', hsol, hsol'⟩
  · intro sol sol' hsol hsol' x hx
    exact values_eq_of_shares h hb hb' hsol hsol' htarget havoid hx
  · obtain ⟨valid, hr, -⟩ := exists_solveInvariance_eq_ok hs.inside hm hmem safe
    rw [h.numInputs_eq hb hb'] at hm
    obtain ⟨valid', hr', -⟩ := exists_solveInvariance_eq_ok hs'.inside hm hmem' safe'
    exact ⟨_, _, hr, hr'⟩
  · intro r r' hr hr' x hx
    exact inputs_eq_of_shares h hb hb' hr hr' hsafe hx

/-! ### A shared part of the fork -/

/-- A junction: the states behind the fork are as they were, but others lead there. -/
def Builder.junction : Builder :=
  ((new 5 2).addAll [(4, 0, 1), (4, 0, 3), (0, 1, 0), (1, 0, 2), (3, 1, 3)]).2

def Builder.junctionStore : Store :=
  .ofLayout (n := 5) (m := 2) (by decide) (.ofSorted (by decide) (Edge.sorted junction.edges))

theorem Builder.build_junction : (junction.build .ample).result = .ok junctionStore := rfl

theorem Builder.shares_junction : fork.Shares junction {x | x.id = 1 ∨ x.id = 2 ∨ x.id = 3} := by
  have htriples : fork.triples = [(0, 0, 1), (0, 0, 2), (1, 0, 2), (0, 1, 3), (3, 1, 3)] := rfl
  have htriples' : junction.triples = [(4, 0, 1), (4, 0, 3), (0, 1, 0), (1, 0, 2), (3, 1, 3)] := rfl
  refine ⟨rfl, ?_, ?_, ?_⟩
  · have hlt : ∀ a, a = 1 ∨ a = 2 ∨ a = 3 → a < 4 ∧ a < 5 := by omega
    exact fun x hx => hlt x.id hx
  · rintro ⟨_, _⟩ (rfl | rfl | rfl) u y <;> simp [htriples, htriples']
  · rintro ⟨_, _⟩ (rfl | rfl | rfl) u y hy <;> simp [htriples] at hy <;> simp [hy]

open ReachabilityGame in
/-- State 1 is as far from state 2 on the fork as at the junction, also if states 0 and 4 are to be
avoided there, and state 3 can be kept to by the same inputs if these two are unsafe there. -/
theorem Store.solutions_eq_on_fork_and_junction : ∃ sol sol' r r' v us,
    (Builder.fork.build .ample).result = .ok Builder.forkStore ∧
    (Builder.junction.build .ample).result = .ok Builder.junctionStore ∧
    Builder.fork.Shares Builder.junction {x | x.id = 1 ∨ x.id = 2 ∨ x.id = 3} ∧
    (((new Builder.forkStore).avoiding StateSet.nothing).solve .ample
      fun x : State => x.id == 2).result = .ok sol ∧
    (((new Builder.junctionStore).avoiding fun x : State => x.id % 4 == 0).solve .ample
      fun x : State => x.id == 2).result = .ok sol' ∧
    sol.value.get ⟨1, by decide⟩ = .ok v ∧ sol'.value.get ⟨1, by decide⟩ = .ok v ∧
    (Builder.forkStore.solveInvariance .ample fun x : State => x.id != 2).result = .ok r ∧
    (Builder.junctionStore.solveInvariance .ample fun x : State => x.id % 2 == 1).result = .ok r' ∧
    r.inputs ⟨3, by decide⟩ = .ok us ∧ r'.inputs ⟨3, by decide⟩ = .ok us := by
  obtain ⟨hreach, hsafe⟩ := solutions_eq_of_shares Builder.shares_junction Builder.build_fork
    Builder.build_junction .ample .ample
  obtain ⟨hsolve, hvalues⟩ := hreach (fun x : State => x.id == 2) (fun x : State => x.id == 2)
    StateSet.nothing (fun x : State => x.id % 4 == 0) (fun _ _ => rfl) (by
      rintro ⟨_, _⟩ (rfl | rfl | rfl) <;> rfl)
  obtain ⟨sol, sol', hsol, hsol'⟩ := hsolve (by decide) rfl rfl
  obtain ⟨v, -, hv, hv', -⟩ := hvalues sol sol' hsol hsol' ⟨1, by decide⟩ (Or.inl rfl)
  obtain ⟨hregion, hinputs⟩ := hsafe (fun x : State => x.id != 2) (fun x : State => x.id % 2 == 1)
    (by rintro ⟨_, _⟩ (rfl | rfl | rfl) <;> simp [StateSet.contains])
  obtain ⟨r, r', hr, hr'⟩ := hregion (by decide) rfl rfl
  obtain ⟨us, -, hus, hus', -⟩ := hinputs r r' hr hr' ⟨3, by decide⟩ (Or.inr (Or.inr rfl))
  exact ⟨sol, sol', r, r', v, us, Builder.build_fork, Builder.build_junction,
    Builder.shares_junction, hsol, hsol', hv, hv', hr, hr', hus, hus'⟩

end ControlGames
