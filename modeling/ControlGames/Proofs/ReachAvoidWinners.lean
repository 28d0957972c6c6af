import ControlGames.Proofs.ReachAvoidValues

/-!
# Winning states of reach-avoid games

A state wins if an input has been chosen for it, and its value is finite if it has been found. With
at least one input the two tell the same states. Without inputs nothing can be chosen, not even at a
target state, where nothing needs to be.
-/
namespace ControlGames

theorem Solution.Tells.isFinite {sol : Solution} {s : Store} {val : Fin s.numStates → Option ℕ}
    {c : Fin s.numStates → Option (Fin s.numInputs)} (h : sol.Tells s val c) (i : Fin s.numStates) :
    sol.value.isFinite (s.state i) = .ok (val i).isSome := by
  rw [ValueFunction.isFinite, h.get]
  rfl

theorem isSome_iff_pos_and {m : ℕ} {u : Option (Fin m)} {P : Prop}
    (h : 0 < m → (u.isSome = true ↔ P)) : u.isSome = true ↔ 0 < m ∧ P := by
  constructor
  · intro hu
    have hpos : 0 < m := (u.get hu).pos
    exact ⟨hpos, (h hpos).mp hu⟩
  · rintro ⟨hpos, hP⟩
    exact (h hpos).mpr hP

namespace Reachability

variable {g : ReachabilityGame} {α : Type} [StateSet α] {target : α} {l : Labels g.store} {c : ℕ}
  {H : List (Visit g.store.numStates g.store.numInputs)}

theorem Account.isSome_choiceAt_iff (h : Account g target H c l) (i : Fin g.store.numStates) :
    (l.choiceAt i).isSome = true ↔ 0 < g.store.numInputs ∧ (l.valueAt i).isSome = true := by
  rw [Option.isSome_iff_exists (x := l.valueAt i)]
  exact isSome_iff_pos_and fun hpos => h.choiceAt_isSome_iff hpos i

theorem Account.isSome_valueAt (h : Account g target H c l) {i : Fin g.store.numStates}
    (hi : i ∈ g.store.members target \ g.store.members g.avoid) : (l.valueAt i).isSome = true := by
  have hseed : isSeed g target i = true :=
    (isSeed_eq_true_iff i).mpr ⟨hi.1, Bool.eq_false_iff.mpr hi.2⟩
  rw [(h.seed i hseed).1, Option.isSome_some]

theorem Account.size_solution (h : Account g target H c l) : l.solution.region.size =
    if 0 < g.store.numInputs then
      {i : Fin g.store.numStates | l.solution.value.isFinite (g.store.state i) = .ok true}.ncard
    else 0 := by
  have hwins : {i | l.solution.region.isWinning (l.solution.region.state i) = .ok true} =
      {i : Fin g.store.numStates | 0 < g.store.numInputs ∧
        l.solution.value.isFinite (g.store.state i) = .ok true} := by
    refine Set.ext fun (i : Fin g.store.numStates) => ?_
    change l.solution.region.isWinning (g.store.state i) = .ok true ↔ _ ∧ _
    rw [l.tells.isWinning, l.tells.isFinite, Except.ok.injEq, Except.ok.injEq]
    exact h.isSome_choiceAt_iff i
  have hsize : l.solution.region.size = {i : Fin g.store.numStates | 0 < g.store.numInputs ∧
      l.solution.value.isFinite (g.store.state i) = .ok true}.ncard :=
    (Region.size_eq_ncard _).trans (congrArg Set.ncard hwins)
  rw [hsize]
  split
  · next hpos => simp only [hpos, true_and]
  · next hpos => simp only [hpos, false_and, Set.ofPred_false, Set.ncard_empty]

end Reachability

namespace ReachabilityGame

variable {g : ReachabilityGame} {b : Builder} {mem mem' : Memory} {α : Type} [StateSet α]
  {target : α} {sol : Solution}

/-- With at least one input the winning states are those in some layer. -/
theorem exists_isWinning_iff_mem_attractor {s : Store} {β : Type} [StateSet β] {avoid : β}
    (hb : (b.build mem).result = .ok s)
    (hsol : (((new s).avoiding avoid).solve mem' target).result = .ok sol) (hpos : 0 < s.numInputs)
    (i : Fin s.numStates) :
    ∃ w, sol.region.isWinning (s.state i) = .ok w ∧ (w = true ↔
      i ∈ attractor (I := Fin s.numInputs) b.Leads (s.members target) (s.members avoid)) := by
  obtain ⟨val, c, htells, hrank, hchosen⟩ := Builder.ranking_of_solve hb hsol
  refine ⟨(c i).isSome, htells.isWinning i, ?_⟩
  rw [hchosen hpos, hrank.mem_attractor_iff]

/-- If no layer adds to the target, just its states are won, and in no steps at all. -/
theorem solve_of_layer_eq {s : Store} {β : Type} [StateSet β] {avoid : β}
    (hb : (b.build mem).result = .ok s)
    (hsol : (((new s).avoiding avoid).solve mem' target).result = .ok sol)
    (hT : ∀ k, layer (I := Fin s.numInputs) b.Leads (s.members target) (s.members avoid) k =
      s.members target)
    {i : Fin s.numStates} {w : Bool} (hw : w = true ↔ i ∈ s.members target)
    (hpos : w = true → 0 < s.numInputs) :
    sol.value.get (s.state i) = .ok (if w then some 0 else none) ∧
      sol.region.isWinning (s.state i) = .ok w := by
  obtain ⟨val, c, htells, hrank, hchosen⟩ := Builder.ranking_of_solve hb hsol
  have hvalue : val i = if w then some 0 else none := hrank.val_eq_ite hT hw
  have hchoice : (c i).isSome = w := by
    rw [Bool.eq_iff_iff, isSome_iff_pos_and fun hpos => hchosen hpos i, hvalue]
    cases w with
    | false => simp
    | true => simpa using hpos rfl
  rw [htells.get, htells.isWinning, hvalue, hchoice]
  exact ⟨rfl, rfl⟩

/-- On a built store the winning states are those of finite value, all target states that need not
be avoided among them, provided that there are inputs. Without inputs no state wins. -/
theorem isWinning_iff_isFinite (hb : (b.build mem).result = .ok g.store)
    (hsol : (g.solve mem' target).result = .ok sol) :
    (∀ i : Fin g.store.numStates, ∃ w f, sol.region.isWinning (g.store.state i) = .ok w ∧
      sol.value.isFinite (g.store.state i) = .ok f ∧
      (w = true ↔ 0 < g.store.numInputs ∧ f = true) ∧
      (i ∈ g.store.members target \ g.store.members g.avoid → f = true)) ∧
    sol.region.size = if 0 < g.store.numInputs then
      {i : Fin g.store.numStates | sol.value.isFinite (g.store.state i) = .ok true}.ncard
      else 0 := by
  have hs : g.store.Exact := Builder.exact_of_build hb
  obtain ⟨l, c, rfl, hc⟩ := Reachability.exists_account_of_solve hs.adequate hsol
  refine ⟨fun i => ?_, hc.size_solution⟩
  exact ⟨_, _, l.tells.isWinning i, l.tells.isFinite i, hc.isSome_choiceAt_iff i, hc.isSome_valueAt⟩

/-- On the fork, with state 1 to avoid, the target state 2 wins. -/
theorem isWinning_fork_of_isFinite : ∃ sol,
    (Builder.fork.build .ample).result = .ok Builder.forkStore ∧
    (((new Builder.forkStore).avoiding fun x : State => x.id == 1).solve .ample
      fun x : State => x.id == 2).result = .ok sol ∧
    sol.region.isWinning (Builder.forkStore.state (2 : Fin 4)) = .ok true := by
  let game := (new Builder.forkStore).avoiding fun x : State => x.id == 1
  obtain ⟨sol, hsol⟩ : ∃ sol, (game.solve .ample fun x : State => x.id == 2).result = .ok sol :=
    Reachability.exists_solve_eq_ok _ (Builder.exact_of_build Builder.build_fork).adequate
      (by decide) rfl
  obtain ⟨w, f, hw, -, hwf, htarget⟩ :=
    (isWinning_iff_isFinite (g := game) Builder.build_fork hsol).1 (2 : Fin 4)
  have hout : (2 : Fin 4) ∉ game.store.members game.avoid :=
    (contains_avoiding Builder.forkStore _ (2 : Fin 4)).not.mpr Bool.false_ne_true
  have hwins : w = true := hwf.mpr ⟨by decide, htarget ⟨rfl, hout⟩⟩
  exact ⟨sol, Builder.build_fork, hsol, hwins ▸ hw⟩

end ReachabilityGame

def Builder.idle : Builder := new 1 0

def Builder.idleStore : Store := .blank 1 0 (by decide)

/-- If the state is the target, its value is zero, but it does not win. -/
theorem ReachabilityGame.isFinite_idle_not_isWinning : ∃ sol,
    (Builder.idle.build .ample).result = .ok Builder.idleStore ∧
    ((new Builder.idleStore).solve .ample StateSet.everything).result = .ok sol ∧
    sol.value.get (Builder.idleStore.state (0 : Fin 1)) = .ok (some 0) ∧
    sol.value.isFinite (Builder.idleStore.state (0 : Fin 1)) = .ok true ∧
    sol.region.isWinning (Builder.idleStore.state (0 : Fin 1)) = .ok false ∧
    sol.region.size = 0 := by
  refine ⟨⟨⟨1, 0, by decide, #v[none], none⟩, ⟨1, by decide, #v[some 0]⟩⟩, rfl, ?_, rfl, rfl, rfl,
    rfl⟩
  decide +kernel

end ControlGames
