import ControlGames.Proofs.ReachAvoidWinners

/-!
# Plays of reach-avoid games

A controller that applies the witnesses of a solution reaches the target within as many steps as the
value of the first state says, and the environment can make it take all of them. No other strategy
does better, even if it remembers all states visited so far.
-/
namespace ControlGames

namespace Solution

variable {sol : Solution} {b : Builder} {mem : Memory} {s : Store}
  {val : Fin s.numStates → Option ℕ} {c : Fin s.numStates → Option (Fin s.numInputs)}
  {T A : Set (Fin s.numStates)}

def Answers (sol : Solution) (s : Store) (b : Builder) (i k : Fin s.numStates) : Prop :=
  ∃ j : Fin s.numInputs, sol.region.witness (s.state i) = .ok (some (s.input j)) ∧ b.Leads i j k

/-- The promise of a value above zero: the witness can be applied, it leads to winning states only,
and the worst of these is exactly one step closer to the target. -/
def Promises (sol : Solution) (s : Store) (b : Builder) (i : Fin s.numStates) : Prop :=
  ∃ (j : Fin s.numInputs) (w : ℕ),
    sol.region.witness (s.state i) = .ok (some (s.input j)) ∧
    (∃ count > 0, s.successorCount (s.state i) (s.input j) = .ok count) ∧
    sol.value.get (s.state i) = .ok (some (w + 1)) ∧
    (∀ k, b.Leads i j k → sol.region.isWinning (s.state k) = .ok true ∧
      ∃ a ≤ w, sol.value.get (s.state k) = .ok (some a)) ∧
    ∃ k, b.Leads i j k ∧ sol.value.get (s.state k) = .ok (some w)

theorem Tells.witness_eq_iff (h : sol.Tells s val c) {i : Fin s.numStates} {j : Fin s.numInputs} :
    sol.region.witness (s.state i) = .ok (some (s.input j)) ↔ c i = some j := by
  rw [h.witness, Except.ok.injEq, Option.map_eq_some_iff]
  constructor
  · intro hchoice
    rcases hchoice with ⟨j', hc, hj⟩
    rwa [Store.input_inj.mp hj] at hc
  · intro hc
    exact ⟨j, hc, rfl⟩

theorem Tells.answers_eq (h : sol.Tells s val c) (b : Builder) :
    sol.Answers s b = Moves b.Leads c := by
  funext i k
  apply propext
  apply exists_congr
  intro j
  rw [h.witness_eq_iff]

theorem Tells.promises (h : sol.Tells s val c) (hb : (b.build mem).result = .ok s)
    (hrank : Ranking b.Leads T A val c)
    (hchosen : ∀ i, (c i).isSome = true ↔ ∃ a, val i = some a) {i : Fin s.numStates} {w : ℕ}
    (hi : val i = some (w + 1)) : sol.Promises s b i := by
  obtain ⟨-, -, j, hj, hall, y, hy, hyw⟩ := hrank.forced i w hi
  have happlicable : s.applicable i j = true :=
    ((Builder.exact_of_build hb).applicable_iff i j).mpr ⟨y, Builder.leads_of_build hb ▸ hy⟩
  refine ⟨j, w, h.witness_eq_iff.mpr hj,
    ⟨_, of_decide_eq_true happlicable, Store.successorCount_state i j⟩, ?_, ?_, y, hy, ?_⟩
  · rw [h.get, hi]
  · intro k hk
    obtain ⟨a, ha, hka⟩ := hall k hk
    refine ⟨?_, a, ha, ?_⟩
    · rw [h.isWinning, (hchosen k).mpr ⟨a, hka⟩]
    · rw [h.get, hka]
  · rw [h.get, hyw]

end Solution

namespace ReachabilityGame

variable {b : Builder} {mem mem' : Memory} {s : Store} {α β : Type} [StateSet α] [StateSet β]
  {target : α} {avoid : β} {sol : Solution}

theorem isWinning_of_mem_layer (hb : (b.build mem).result = .ok s)
    (hsol : (((new s).avoiding avoid).solve mem' target).result = .ok sol) (hm : 0 < s.numInputs)
    {i : Fin s.numStates} {k : ℕ}
    (hi : i ∈ layer (I := Fin s.numInputs) b.Leads (s.members target) (s.members avoid) k) :
    sol.region.isWinning (s.state i) = .ok true := by
  obtain ⟨w, hw, hwin⟩ := exists_isWinning_iff_mem_attractor hb hsol hm i
  rw [hw, hwin.mpr ⟨k, hi⟩]

theorem exists_solve_fork : ∃ sol, (((new Builder.forkStore).avoiding StateSet.nothing).solve .ample
    fun x : State => x.id == 2).result = .ok sol :=
  Reachability.exists_solve_eq_ok _ (Builder.exact_of_build Builder.build_fork).adequate
    (by decide) rfl

/-- Every play of the witnesses from a winning state keeps all promises and enters the target in
time, and one play takes exactly as many steps as the value says. -/
theorem witness_wins_in_time (hb : (b.build mem).result = .ok s)
    (hsol : (((new s).avoiding avoid).solve mem' target).result = .ok sol)
    {i : Fin s.numStates} (hwin : sol.region.isWinning (s.state i) = .ok true) :
    ∃ v, sol.value.get (s.state i) = .ok (some v) ∧
      (∀ p n, p 0 = i → Plays (sol.Answers s b) (s.members target) p n → n ≤ v ∧
        ∀ t ≤ n, p t ∉ s.members avoid ∧
          (p t ∉ s.members target → sol.Promises s b (p t))) ∧
      (∀ p : ℕ → Fin s.numStates, p 0 = i →
        (∀ t, (∀ r ≤ t, p r ∉ s.members target) → sol.Answers s b (p t) (p (t + 1))) →
          ∃ t ≤ v, p t ∈ s.members target) ∧
      ∃ p, p 0 = i ∧ Plays (sol.Answers s b) (s.members target) p v ∧ p v ∈ s.members target := by
  obtain ⟨val, c, htells, hrank, hchosen⟩ := Builder.ranking_of_solve hb hsol
  have hi : (c i).isSome = true := by
    rw [htells.isWinning, Except.ok.injEq] at hwin
    exact hwin
  have hpos : 0 < s.numInputs := ((c i).get hi).pos
  obtain ⟨v, hv⟩ := (hchosen hpos i).mp hi
  rw [htells.answers_eq]
  refine ⟨v, by rw [htells.get, hv], ?_, ?_, hrank.exists_longest_play hv⟩
  · rintro p n rfl hplay
    obtain ⟨_, _, hle⟩ := hrank.rank_add_le hv hplay
    refine ⟨by omega, fun t ht => ?_⟩
    obtain ⟨a, ha, -⟩ := hrank.rank_add_le hv (hplay.mono ht)
    refine ⟨hrank.notMem_avoid ha, fun hT => ?_⟩
    cases a with
    | zero => exact absurd ((hrank.zero_iff _).mp ha).1 hT
    | succ w => exact htells.promises hb hrank (hchosen hpos) ha
  · rintro p rfl hplay
    exact hrank.exists_mem_target hv hplay

/-- From state 1 of the fork some play takes as many steps as its value says. -/
theorem witness_wins_fork_in_time : ∃ sol,
    (Builder.fork.build .ample).result = .ok Builder.forkStore ∧
    (((new Builder.forkStore).avoiding StateSet.nothing).solve .ample
      fun x : State => x.id == 2).result = .ok sol ∧
    sol.region.isWinning (Builder.forkStore.state (1 : Fin 4)) = .ok true ∧
    ∃ v p, sol.value.get (Builder.forkStore.state (1 : Fin 4)) = .ok (some v) ∧
      p 0 = (1 : Fin 4) ∧ Plays (sol.Answers Builder.forkStore Builder.fork)
        (Builder.forkStore.members fun x : State => x.id == 2) p v := by
  obtain ⟨sol, hsol⟩ := exists_solve_fork
  have hlayer : (1 : Fin 4) ∈ layer (Builder.fork.Leads (n := 4) (m := 2))
      (Builder.forkStore.members fun x : State => x.id == 2)
      (Builder.forkStore.members StateSet.nothing) 1 := by
    refine mem_layer_succ_of_forces ?_ (Builder.forces_fork.mono ?_)
    · exact Bool.false_ne_true
    · rintro y rfl
      exact ⟨rfl, Bool.false_ne_true⟩
  have hwin := isWinning_of_mem_layer Builder.build_fork hsol (by decide) hlayer
  obtain ⟨v, hv, -, -, p, hp, hplays, -⟩ := witness_wins_in_time Builder.build_fork hsol hwin
  exact ⟨sol, Builder.build_fork, hsol, hwin, v, p, hv, hp, hplays⟩

/-- Against every strategy the environment has a play that does not reach the target earlier than
the value of its first state says, and never if the value is infinite. -/
theorem exists_play_not_earlier (hb : (b.build mem).result = .ok s)
    (hsol : (((new s).avoiding avoid).solve mem' target).result = .ok sol)
    (i : Fin s.numStates) (σ : List (Fin s.numStates) → Fin s.numInputs) :
    ∃ p : ℕ → Fin s.numStates, p 0 = i ∧ Legal b.Leads σ p ∧
      (∀ v, sol.value.get (s.state i) = .ok (some v) →
        ∀ t < v, ¬ ReachesAt b.Leads (s.members target) (s.members avoid) σ p t) ∧
      (sol.value.get (s.state i) = .ok none →
        ∀ t, ¬ ReachesAt b.Leads (s.members target) (s.members avoid) σ p t) := by
  obtain ⟨val, c, htells, hrank, -⟩ := Builder.ranking_of_solve hb hsol
  simp only [htells.get, Except.ok.injEq]
  cases hi : val i with
  | none =>
    obtain ⟨p, hp, hlegal, hnever⟩ := exists_play_not_reachesAt σ ((hrank.eq_none_iff i).mp hi)
    exact ⟨p, hp, hlegal, nofun, fun _ => hnever⟩
  | some v =>
    obtain ⟨p, hp, hlegal, hlate⟩ := exists_play_not_reachesAt_lt σ
      fun k hk => hrank.notMem_layer_of_lt hi hk
    refine ⟨p, hp, hlegal, ?_, nofun⟩
    rintro v' hv'
    rwa [← Option.some.inj hv']

/-- On the fork it can answer a controller that always takes the first input. -/
theorem exists_play_fork_not_earlier : ∃ sol,
    (Builder.fork.build .ample).result = .ok Builder.forkStore ∧
    (((new Builder.forkStore).avoiding StateSet.nothing).solve .ample
      fun x : State => x.id == 2).result = .ok sol ∧
    ∃ p : ℕ → Fin 4, p 0 = 0 ∧ Legal Builder.fork.Leads (fun _ => (0 : Fin 2)) p ∧
      ∀ v, sol.value.get (Builder.forkStore.state (0 : Fin 4)) = .ok (some v) →
        ∀ t < v, ¬ ReachesAt Builder.fork.Leads
          (Builder.forkStore.members fun x : State => x.id == 2)
          (Builder.forkStore.members StateSet.nothing) (fun _ => (0 : Fin 2)) p t := by
  obtain ⟨sol, hsol⟩ := exists_solve_fork
  obtain ⟨p, hp, hlegal, hlate, -⟩ :=
    exists_play_not_earlier Builder.build_fork hsol (0 : Fin 4) fun _ => (0 : Fin 2)
  exact ⟨sol, Builder.build_fork, hsol, p, hp, hlegal, hlate⟩

end ReachabilityGame

end ControlGames
