import ControlGames.Proofs.ReachAvoidWinners
import ControlGames.Proofs.RecordedRelations

/-!
# Values on stores of one relation

The order in which groups list their states decides in which order states are found, and which of
several inputs is found first. The values are those of the attractor layers, so they only depend on
the relation, and so do the winning states and the inputs reported for the target.
-/
namespace ControlGames

theorem Ranking.val_cast {n n' m m' : ℕ} (hn : n = n') (hm : m = m')
    {R : Fin n → Fin m → Fin n → Prop} {R' : Fin n' → Fin m' → Fin n' → Prop}
    {T A : Set (Fin n)} {T' A' : Set (Fin n')} {val : Fin n → Option ℕ} {val' : Fin n' → Option ℕ}
    {c : Fin n → Option (Fin m)} {c' : Fin n' → Option (Fin m')}
    (h : Ranking R T A val c) (h' : Ranking R' T' A' val' c')
    (hR : ∀ i j k, R i j k ↔ R' (i.cast hn) (j.cast hm) (k.cast hn))
    (hT : ∀ i, i ∈ T ↔ i.cast hn ∈ T') (hA : ∀ i, i ∈ A ↔ i.cast hn ∈ A') (i : Fin n) :
    val i = val' (i.cast hn) := by
  subst hn hm
  obtain rfl : R = R' := funext fun i => funext fun j => funext fun k => propext (hR i j k)
  obtain rfl : T = T' := Set.ext hT
  obtain rfl : A = A' := Set.ext hA
  exact congrFun (h.val_eq h') i

theorem ValueFunction.ext_cell {f f' : ValueFunction} (hn : f.numStates = f'.numStates)
    (h : ∀ i, cell f.values i = cell f'.values (i.cast hn)) : f = f' := by
  obtain ⟨n, hle, values⟩ := f
  obtain ⟨n', hle', values'⟩ := f'
  obtain rfl : n = n' := hn
  obtain rfl : values = values' := Vector.ext fun i hi => h ⟨i, hi⟩
  rfl

namespace Reachability

theorem homeChoice_cast {s s' : Store} (h : s.SameSize s') {i : Fin s.numStates}
    (happlicable : ∀ j, s.applicable i j =
      s'.applicable (i.cast h.numStates) (j.cast h.numInputs)) :
    (homeChoice s i).map (Fin.cast h.numInputs) = homeChoice s' (i.cast h.numStates) := by
  have hsame : s.applicable i = s'.applicable (i.cast h.numStates) ∘ Fin.cast h.numInputs :=
    funext happlicable
  rw [homeChoice, homeChoice, ← finRange_cast h.numInputs, List.find?_map, List.head?_map,
    hsame, Option.map_or]

theorem Account.choiceAt_of_mem_target {g : ReachabilityGame} {α : Type} [StateSet α] {target : α}
    {H : List (Visit g.store.numStates g.store.numInputs)} {c : ℕ} {l : Labels g.store}
    (h : Account g target H c l) {i : Fin g.store.numStates} (hi : i ∈ g.store.members target) :
    l.choiceAt i = if g.avoid.contains i then none else homeChoice g.store i := by
  split
  · next hA =>
    have hseed : isSeed g target i = false := by
      rw [Bool.eq_false_iff, ne_eq, isSeed_eq_true_iff, hA]
      exact fun hseed => Bool.noConfusion hseed.2
    refine h.lost i ?_
    cases hv : l.valueAt i with
    | none => rfl
    | some a =>
      obtain ⟨-, -, hout, -⟩ := h.won i a hseed hv
      rw [hA] at hout
      cases hout
  · next hA => exact (h.seed i ((isSeed_eq_true_iff i).mpr ⟨hi, Bool.eq_false_iff.mpr hA⟩)).2

theorem homeChoice_eq_zero {s : Store} {i : Fin s.numStates} (hpos : 0 < s.numInputs)
    (h : s.applicable i ⟨0, hpos⟩ = true) : homeChoice s i = some ⟨0, hpos⟩ := by
  have hfind : ∀ {m : ℕ} (hm : 0 < m) (p : Fin m → Bool), p ⟨0, hm⟩ = true →
      (List.finRange m).find? p = some ⟨0, hm⟩ := by
    intro m hm p hp
    obtain ⟨k, rfl⟩ := Nat.exists_eq_add_one.mpr hm
    rw [List.finRange_succ]
    exact List.find?_cons_of_pos hp
  rw [homeChoice, hfind hpos _ h, Option.some_or]

theorem witness_of_mem_target {g : ReachabilityGame} {mem : Memory} {α : Type} [StateSet α]
    {target : α} {sol : Solution} (hs : g.store.Adequate)
    (hsol : (g.solve mem target).result = .ok sol) {i : Fin g.store.numStates}
    (hi : i ∈ g.store.members target) (hA : g.avoid.contains i = false) :
    sol.region.witness (g.store.state i) =
      .ok ((homeChoice g.store i).map g.store.input) := by
  obtain ⟨l, c, rfl, hc⟩ := exists_account_of_solve hs hsol
  rw [l.tells.witness, hc.choiceAt_of_mem_target hi, if_neg (Bool.eq_false_iff.mp hA)]

end Reachability

/-- Two stores of one size in which the same inputs lead to the same states. -/
structure Store.SameRelation (s s' : Store) : Prop extends s.SameSize s' where
  leads : ∀ i j k, s.Leads i j k ↔
    s'.Leads (i.cast numStates) (j.cast numInputs) (k.cast numStates)

theorem Store.Records.sameRelation {s s' : Store} {n m : ℕ} {R : List Triple}
    (h : s.Records n m R) (h' : s'.Records n m R) : s.SameRelation s' where
  toSameSize := h.sameSize h'
  leads i j k := (h.leads_iff i j k).trans (h'.leads_iff (i.cast _) (j.cast _) (k.cast _)).symm

namespace Store.SameRelation

open Reachability ReachabilityGame

variable {s s' : Store}

theorem witness_eq_of_not_lt (h : s.SameRelation s') {l : Labels s} {l' : Labels s'} {x : State}
    (hx : ¬ x.id < s.numStates) :
    l.solution.region.witness x = l'.solution.region.witness x := by
  have hx' : ¬ x.id < s'.numStates := by rwa [← h.numStates]
  have hout : l.solution.region.witness x = .error .indexOutOfBounds := dif_neg hx
  have hout' : l'.solution.region.witness x = .error .indexOutOfBounds := dif_neg hx'
  rw [hout, hout']

variable (h : s.SameRelation s') (hs : s.Exact) (hs' : s'.Exact)

include h hs hs'

theorem applicable_eq (i : Fin s.numStates) (j : Fin s.numInputs) :
    s.applicable i j = s'.applicable (i.cast h.numStates) (j.cast h.numInputs) := by
  rw [Bool.eq_iff_iff, hs.applicable_iff, hs'.applicable_iff]
  constructor
  · rintro ⟨k, hk⟩
    exact ⟨_, (h.leads i j k).mp hk⟩
  · rintro ⟨k, hk⟩
    exact ⟨k.cast h.numStates.symm, (h.leads i j _).mpr hk⟩

section Labels

variable {α β : Type} [StateSet α] [StateSet β] {target : α} {avoid : β}
  {l : Labels s} {l' : Labels s'} {c c' : ℕ}
  (hl : Account ((new s).avoiding avoid) target (l.arrivals.toList.flatMap s.visits) c l)
  (hl' : Account ((new s').avoiding avoid) target (l'.arrivals.toList.flatMap s'.visits) c' l')

include hl hl'

theorem valueAt_eq (i : Fin s.numStates) : l.valueAt i = l'.valueAt (i.cast h.numStates) := by
  refine (hl.ranking hs).val_cast h.numStates h.numInputs (hl'.ranking hs') h.leads
    (fun i => Iff.rfl) (fun i => ?_) i
  exact (contains_avoiding s avoid i).trans (contains_avoiding s' avoid (i.cast h.numStates)).symm

theorem solution_value_eq : l.solution.value = l'.solution.value :=
  ValueFunction.ext_cell h.numStates (h.valueAt_eq hs hs' hl hl')

theorem isWinning_eq (x : State) :
    l.solution.region.isWinning x = l'.solution.region.isWinning x := by
  by_cases hx : x.id < s.numStates
  · obtain ⟨i, rfl⟩ := exists_state_eq hx
    have hstate : s.state i = s'.state (i.cast h.numStates) := rfl
    have hchosen : (l.choiceAt i).isSome = true ↔
        (l'.choiceAt (i.cast h.numStates)).isSome = true := by
      refine (hl.isSome_choiceAt_iff i).trans (Iff.trans ?_ (hl'.isSome_choiceAt_iff _).symm)
      change 0 < s.numInputs ∧ (l.valueAt i).isSome = true ↔
        0 < s'.numInputs ∧ (l'.valueAt (i.cast h.numStates)).isSome = true
      rw [h.numInputs, h.valueAt_eq hs hs' hl hl']
    rw [l.tells.isWinning, hstate, l'.tells.isWinning, Except.ok.injEq, Bool.eq_iff_iff]
    exact hchosen
  · rw [Region.isWinning, Region.isWinning, h.witness_eq_of_not_lt hx]

theorem witness_eq {x : State} (hx : StateSet.contains target x = true) :
    l.solution.region.witness x = l'.solution.region.witness x := by
  by_cases hlt : x.id < s.numStates
  · obtain ⟨i, rfl⟩ := exists_state_eq hlt
    have hstate : s.state i = s'.state (i.cast h.numStates) := rfl
    have havoid : ((new s').avoiding avoid).avoid = ((new s).avoiding avoid).avoid :=
      congrArg (StateSet.indices · avoid) h.numStates.symm
    have hchoice : l.choiceAt i = if ((new s).avoiding avoid).avoid.contains i then none
        else homeChoice s i := hl.choiceAt_of_mem_target hx
    have hchoice' : l'.choiceAt (i.cast h.numStates) =
        if ((new s').avoiding avoid).avoid.contains i then none
        else homeChoice s' (i.cast h.numStates) := hl'.choiceAt_of_mem_target hx
    have hcast : (l.choiceAt i).map (Fin.cast h.numInputs) = l'.choiceAt (i.cast h.numStates) := by
      rw [hchoice, hchoice', havoid]
      split
      · rfl
      · exact homeChoice_cast h.toSameSize (h.applicable_eq hs hs' i)
    rw [l.tells.witness, hstate, l'.tells.witness, ← hcast, Option.map_map]
    rfl
  · exact h.witness_eq_of_not_lt hlt

end Labels

end Store.SameRelation

open Reachability in
/-- A game on a store that records a relation in some layout fails just if it does on the store
built from the relation. Otherwise both solutions have the same values, the same winning states and
the same inputs for the states of the target. -/
theorem ReachabilityGame.solve_layout_independent {n m : ℕ} {R : List Triple} {s s' : Store}
    (hs : s.Records n m R) (hs' : s'.BuiltFrom n m R) (mem : Memory) {α β : Type} [StateSet α]
    [StateSet β] (target : α) (avoid : β) :
    (∀ e, (((new s).avoiding avoid).solve mem target).result = .error e ↔
      (((new s').avoiding avoid).solve mem target).result = .error e) ∧
    (m < reserved - 1 → reserveLabels mem n m = .ok () → ∃ sol sol',
      (((new s).avoiding avoid).solve mem target).result = .ok sol ∧
      (((new s').avoiding avoid).solve mem target).result = .ok sol' ∧
      sol.value = sol'.value ∧
      (∀ x, sol.region.isWinning x = sol'.region.isWinning x) ∧
      ∀ x, StateSet.contains target x = true → sol.region.witness x = sol'.region.witness x) := by
  have hexact : s.Exact := hs.exact hs'.inRange
  have hexact' : s'.Exact := hs'.exact
  have hsame : s.SameRelation s' := hs.sameRelation hs'.records
  obtain ⟨t, c, ht, hc⟩ :=
    exists_run_initial ((new s).avoiding avoid) target _ hexact.adequate
  obtain ⟨t', c', ht', hc'⟩ :=
    exists_run_initial ((new s').avoiding avoid) target _ hexact'.adequate
  have hresult : (((new s).avoiding avoid).solve mem target).result =
      ((granted mem n m).mapError .refusal).map fun _ => t.labels.solution := by
    rw [← hs.numStates, ← hs.numInputs]
    exact solve_result_of_run ht mem
  have hresult' : (((new s').avoiding avoid).solve mem target).result =
      ((granted mem n m).mapError .refusal).map fun _ => t'.labels.solution := by
    rw [← hs'.records.numStates, ← hs'.records.numInputs]
    exact solve_result_of_run ht' mem
  rw [hresult, hresult']
  constructor
  · intro e
    cases granted mem n m with
    | error r => exact Iff.rfl
    | ok => exact ⟨nofun, nofun⟩
  · intro hm hmem
    have hgranted : granted mem n m = .ok () := by
      rw [granted, Region.checkAlphabet_eq_ok_iff.mpr hm]
      exact hmem
    rw [hgranted]
    exact ⟨_, _, rfl, rfl, hsame.solution_value_eq hexact hexact' hc hc',
      hsame.isWinning_eq hexact hexact' hc hc',
      fun x hx => hsame.witness_eq hexact hexact' hc hc' hx⟩

def Builder.forkTriples : List Triple := [(0, 0, 1), (0, 0, 2), (1, 0, 2), (0, 1, 3), (3, 1, 3)]

theorem Builder.builtFrom_fork : forkStore.BuiltFrom 4 2 forkTriples :=
  ⟨fork, .ample, rfl, build_fork⟩

/-- The same transitions laid out by hand: the groups of states 1 and 2 share a slot, their states
and those of state 3 come in decreasing order, and the first slot is not used. -/
def Store.forkByHand : Store where
  numStates := 4
  numInputs := 2
  sizes_le := Builder.forkStore.sizes_le
  groups := ⟨#v[⟨5, 0⟩, ⟨0, 0⟩, ⟨2, 1⟩, ⟨1, 0⟩, ⟨1, 2⟩, ⟨0, 0⟩, ⟨5, 0⟩, ⟨3, 2⟩]⟩
  successorCounts := ⟨#v[2, 1, 1, 0, 0, 0, 0, 1]⟩
  slots := ([9, 1, 0, 3, 0].filterMap State.ofId?).toArray

theorem Store.records_forkByHand : forkByHand.Records 4 2 Builder.forkTriples := by
  have hexact : forkByHand.Exact :=
    { inside := inside_iff.mpr (by decide)
      known := by decide
      nodup := by decide
      counted := by decide }
  exact hexact.records rfl rfl (by decide) (by decide)

/-- Both stores give the same values if state 2 is the target. -/
theorem ReachabilityGame.solve_forkByHand_layout_independent :
    Store.forkByHand.Records 4 2 Builder.forkTriples ∧
    Builder.forkStore.BuiltFrom 4 2 Builder.forkTriples ∧ ∃ sol sol',
    (((new Store.forkByHand).avoiding StateSet.nothing).solve .ample
      fun x : State => x.id == 2).result = .ok sol ∧
    (((new Builder.forkStore).avoiding StateSet.nothing).solve .ample
      fun x : State => x.id == 2).result = .ok sol' ∧ sol.value = sol'.value := by
  obtain ⟨-, hsolve⟩ := solve_layout_independent Store.records_forkByHand Builder.builtFrom_fork
    .ample (fun x : State => x.id == 2) StateSet.nothing
  obtain ⟨sol, sol', hsol, hsol', hvalue, -⟩ := hsolve (by decide) rfl
  exact ⟨Store.records_forkByHand, Builder.builtFrom_fork, sol, sol', hsol, hsol', hvalue⟩

end ControlGames
