import Mathlib.Data.Set.Card
import ControlGames.Proofs.ReachAvoidValues
import ControlGames.Proofs.SearchMoments

/-!
# The log of a search

The search writes one record for each state that it finds on its way. No state is found twice, so
every record is final, and the records stand in the order of finding. On a built store the finite
values leave no gap, so the number of layers in the last record is the number of different ones.
-/
namespace ControlGames

/-- A state found to win, with the input and the number of steps. -/
structure Win (s : Store) where
  state : Fin s.numStates
  input : Fin s.numInputs
  steps : ℕ

def Win.event {s : Store} (w : Win s) : Event := .wins (s.state w.state) (s.input w.input) w.steps

theorem Win.traced_messages {s : Store} {ws : List (Win s)} {log : List Event} {n m t k w d : ℕ}
    (hlog : log = [.solvingReachability n m t, .targets k] ++ ws.map event ++
      [.reachabilitySolved w d]) :
    (log.filter fun e => e.level = .trace).map Event.message =
      ws.map fun w => s!"{s.state w.state} wins with {s.input w.input} in {w.steps} steps" := by
  have hwins : ∀ e ∈ ws.map event, e.level = .trace := by
    intro e he
    obtain ⟨w, -, rfl⟩ := List.mem_map.mp he
    rfl
  rw [hlog, Event.filter_trace_eq (by simp [Event.level]) hwins (by simp [Event.level]),
    List.map_map]
  rfl

namespace Reachability

variable {g : ReachabilityGame} {α : Type} [StateSet α] {target : α} {log : Log}
  {t u : Search g.store} {q : Fin g.store.numStates} {a : ℕ} {l l' : Labels g.store}

variable (g target) in
def seeds : List (Fin g.store.numStates) :=
  (List.finRange g.store.numStates).filter (isSeed g target)

theorem mem_seeds {i : Fin g.store.numStates} : i ∈ seeds g target ↔ isSeed g target i = true := by
  simp [seeds]

/-- The states in the queue are the seeds and, behind them, the states found on the way; the latter
are the wins recorded in the log, with what the labels say of them. -/
structure Chronicle (g : ReachabilityGame) {α : Type} [StateSet α] (target : α) (log : Log)
    (ws : List (Win g.store)) (l : Labels g.store) : Prop where
  arrivals : l.arrivals.toList = seeds g target ++ ws.map Win.state
  log : l.log.toList = log.toList ++ .targets (seeds g target).length :: ws.map Win.event
  value : ∀ w ∈ ws, l.valueAt w.state = some w.steps
  choice : ∀ w ∈ ws, l.choiceAt w.state = some w.input
  pos : ∀ w ∈ ws, 0 < w.steps

theorem chronicle_initial : Chronicle g target log [] (initialLabels g target log) where
  arrivals := (List.append_nil _).symm
  log := Array.toList_push
  value := nofun
  choice := nofun
  pos := nofun

theorem Chronicle.counted {ws : List (Win g.store)} (h : Chronicle g target log ws l)
    (i : Fin g.store.numStates) (j : Fin g.store.numInputs) (k w : ℕ) :
    Chronicle g target log ws (l.counted i j k w) :=
  ⟨h.arrivals, h.log, h.value, h.choice, h.pos⟩

/-- A state that is found is recorded, and no record is overtaken by it. -/
theorem Chronicle.found {ws : List (Win g.store)} (h : Chronicle g target log ws l)
    {i : Fin g.store.numStates} (hopen : l.valueAt i = none) (j : Fin g.store.numInputs) {c : ℕ}
    (hc : 0 < c) : Chronicle g target log (ws ++ [⟨i, j, c⟩]) (l.found i j c) := by
  have hne : ∀ w ∈ ws, i ≠ w.state := by
    rintro w hw rfl
    have hvalue := h.value w hw
    rw [hopen] at hvalue
    cases hvalue
  constructor
  · rw [Labels.found_arrivals, h.arrivals, List.map_append, List.append_assoc]
    rfl
  · change (l.log.push (Event.wins (g.store.state i) (g.store.input j) c)).toList = _
    rw [Array.toList_push, h.log, List.map_append, List.append_assoc, List.cons_append]
    rfl
  · intro w hw
    rw [Labels.found_valueAt]
    rcases List.mem_append.mp hw with hw | hw
    · rw [if_neg (hne w hw)]
      exact h.value w hw
    · rw [List.mem_singleton.mp hw, if_pos rfl]
  · intro w hw
    rw [Labels.found_choiceAt]
    rcases List.mem_append.mp hw with hw | hw
    · rw [if_neg (hne w hw)]
      exact h.choice w hw
    · rw [List.mem_singleton.mp hw, if_pos rfl]
  · intro w hw
    rcases List.mem_append.mp hw with hw | hw
    · exact h.pos w hw
    · rw [List.mem_singleton.mp hw]
      exact hc

/-- Wherever the search has got to, its log is the chronicle of the states found. -/
theorem Reached.exists_chronicle (ht : Reached g target log t) :
    ∃ ws, Chronicle g target log ws t.labels := by
  apply ht.keeps (P := fun _ l => ∃ ws, Chronicle g target log ws l)
  · exact ⟨[], chronicle_initial⟩
  · rintro t q a done v l l' - - hr ⟨ws, hws⟩
    generalize v.pre = x at hr
    cases hr with
    | avoided hx => exact ⟨ws, hws⟩
    | @counted i k hi hk hopen => exact ⟨ws, hws.counted i v.input k (a + 1)⟩
    | @found i hi hk hopen =>
      exact ⟨_, (hws.counted i v.input 0 (a + 1)).found hopen v.input a.succ_pos⟩

end Reachability

/-! ### Records of a solution -/

/-- There is one record for each state of positive value, with its witness and its value, and the
records stand in the order of the values. -/
structure Solution.RecordedBy (sol : Solution) {s : Store} (ws : List (Win s)) : Prop where
  nodup : (ws.map Win.state).Nodup
  mem_iff : ∀ i, i ∈ ws.map Win.state ↔ ∃ v, 0 < v ∧ sol.value.get (s.state i) = .ok (some v)
  value : ∀ w ∈ ws, sol.value.get (s.state w.state) = .ok (some w.steps)
  witness : ∀ w ∈ ws, sol.region.witness (s.state w.state) = .ok (some (s.input w.input))
  sorted : ws.Pairwise fun w w' => w.steps ≤ w'.steps

open Reachability in
theorem Reachability.Chronicle.recordedBy {g : ReachabilityGame} {α : Type} [StateSet α]
    {target : α} {log : Log} {H : List (Visit g.store.numStates g.store.numInputs)} {c : ℕ}
    {l : Labels g.store} {ws : List (Win g.store)} (h : Chronicle g target log ws l)
    (hacc : Account g target H c l) : l.solution.RecordedBy ws where
  nodup := by
    have hnodup := hacc.nodup
    rw [h.arrivals] at hnodup
    exact hnodup.of_append_right
  mem_iff i := by
    rw [l.tells.get]
    constructor
    · intro hi
      obtain ⟨w, hw, rfl⟩ := List.mem_map.mp hi
      exact ⟨w.steps, h.pos w hw, by rw [h.value w hw]⟩
    · rintro ⟨v, hv, hi⟩
      rw [Except.ok.injEq] at hi
      have hmem := (hacc.mem_iff i).mpr (hi ▸ Option.some_ne_none v)
      rw [h.arrivals] at hmem
      refine (List.mem_append.mp hmem).resolve_left fun hseed => ?_
      have hzero := (hacc.seed i (mem_seeds.mp hseed)).1
      rw [hi, Option.some.injEq] at hzero
      omega
  value w hw := by rw [l.tells.get, h.value w hw]
  witness w hw := by rw [l.tells.witness, h.choice w hw, Option.map_some]
  sorted := by
    have hsorted := hacc.sorted
    rw [h.arrivals] at hsorted
    have hranks := List.pairwise_map.mp (List.pairwise_append.mp hsorted).2.1
    refine hranks.imp_of_mem fun {w w'} hw hw' hle => ?_
    rwa [Labels.rank_eq (h.value w hw), Labels.rank_eq (h.value w' hw')] at hle

/-! ### Layers -/

/-- The ranks leave no gap. -/
theorem Ranking.exists_val_eq {S I : Type*} {R : S → I → S → Prop} {T A : Set S}
    {val : S → Option ℕ} {c : S → Option I} (h : Ranking R T A val c) {x : S} {v w : ℕ}
    (hx : val x = some v) (hw : w ≤ v) : ∃ y, val y = some w := by
  induction v generalizing x with
  | zero => exact ⟨x, by rw [hx, Nat.le_zero.mp hw]⟩
  | succ v ih =>
    rcases Nat.le_succ_iff.mp hw with hw | rfl
    · obtain ⟨-, -, u, -, -, y, -, hy⟩ := h.forced x v hx
      exact ih hy hw
    · exact ⟨x, hx⟩

namespace Reachability.Labels

variable {s : Store} (l : Labels s)

theorem maxFinite_eq_some_iff {a : ℕ} : l.solution.value.maxFinite = some a ↔
    (∃ i, l.valueAt i = some a) ∧ ∀ i v, l.valueAt i = some v → v ≤ a := by
  have hmem : ∀ v, v ∈ l.value.toList.filterMap id ↔ ∃ i, l.valueAt i = some v := by
    intro v
    rw [List.mem_filterMap]
    constructor
    · rintro ⟨o, ho, rfl⟩
      obtain ⟨k, hk, hget⟩ := Vector.mem_iff_getElem.mp (Vector.mem_toList_iff.mp ho)
      exact ⟨⟨k, hk⟩, hget⟩
    · rintro ⟨i, hi⟩
      exact ⟨some v, Vector.mem_toList_iff.mpr (hi ▸ Vector.getElem_mem i.isLt), rfl⟩
  change (l.value.toList.filterMap id).max? = some a ↔ _
  rw [List.max?_eq_some_iff]
  simp only [hmem]
  exact and_congr_right fun _ => ⟨fun h i v hi => h v ⟨i, hi⟩, fun h v ⟨i, hi⟩ => h i v hi⟩

theorem exists_valueAt_iff
    (hgap : ∀ i v w, l.valueAt i = some v → w ≤ v → ∃ k, l.valueAt k = some w) (v : ℕ) :
    (∃ i, l.valueAt i = some v) ↔ ∃ a, l.solution.value.maxFinite = some a ∧ v ≤ a := by
  constructor
  · rintro ⟨i, hi⟩
    cases hmax : l.solution.value.maxFinite with
    | none =>
      have hnil : l.value.toList.filterMap id = [] := List.max?_eq_none_iff.mp hmax
      have hmem : some v ∈ l.value.toList :=
        Vector.mem_toList_iff.mpr (hi ▸ Vector.getElem_mem i.isLt)
      exact absurd (List.filterMap_eq_nil_iff.mp hnil _ hmem) (Option.some_ne_none v)
    | some a => exact ⟨a, rfl, (l.maxFinite_eq_some_iff.mp hmax).2 i v hi⟩
  · rintro ⟨a, hmax, hv⟩
    obtain ⟨i, hi⟩ := (l.maxFinite_eq_some_iff.mp hmax).1
    exact hgap i a v hi hv

theorem layers_eq_ncard
    (hgap : ∀ i v w, l.valueAt i = some v → w ≤ v → ∃ k, l.valueAt k = some w) :
    l.solution.layers = {v | ∃ i, l.valueAt i = some v}.ncard := by
  simp only [l.exists_valueAt_iff hgap, Solution.layers]
  cases l.solution.value.maxFinite with
  | none => simp
  | some a =>
    have hset : {v | ∃ b, some a = some b ∧ v ≤ b} = (Finset.range (a + 1) : Set ℕ) := by
      ext v
      simp
    rw [hset, Set.ncard_coe_finset, Finset.card_range, Option.elim_some]

end Reachability.Labels

/-! ### The log of a solution -/

namespace Reachability

variable {g : ReachabilityGame} {mem : Memory} {α : Type} [StateSet α] {target : α} {sol : Solution}

theorem length_seeds : (seeds g target).length =
    (g.store.members target \ {i | g.avoid.contains i = true}).ncard := by
  have hnodup : (seeds g target).Nodup := (List.nodup_finRange _).filter _
  refine (ncard_eq_length hnodup fun i => ?_).symm
  simp [mem_seeds, isSeed_eq_true_iff]

theorem solve_log_of_run {u : Search g.store} (hm : g.store.numInputs < reserved - 1)
    (hmem : reserveLabels mem g.store.numStates g.store.numInputs = .ok ())
    (hrun : run g (initial g target (openingLog g)) = .ok u) :
    (g.solve mem target).log.toList = u.labels.log.toList ++
      [.reachabilitySolved u.labels.solution.region.size u.labels.solution.layers] := by
  rw [openingLog] at hrun
  rw [ReachabilityGame.solve, Region.checkAlphabet_eq_ok_iff.mpr hm]
  simp only [hmem, hrun, Array.toList_push]

theorem exists_log_of_solve (hsol : (g.solve mem target).result = .ok sol) :
    ∃ ws : List (Win g.store), sol.RecordedBy ws ∧ (g.solve mem target).log.toList =
      [.solvingReachability g.store.numStates g.store.numInputs g.store.transitionCount,
        .targets (g.store.members target \ {i | g.avoid.contains i = true}).ncard] ++
      ws.map Win.event ++ [.reachabilitySolved sol.region.size sol.layers] := by
  obtain ⟨hm, hmem, u, hrun, rfl⟩ := solve_eq_ok_iff.mp hsol
  obtain ⟨hu, -, -⟩ := Reached.initial.ended hrun
  obtain ⟨ws, hws⟩ := hu.exists_chronicle
  obtain ⟨c, hacc, -⟩ := hu.atHead.account
  refine ⟨ws, hws.recordedBy hacc, ?_⟩
  rw [solve_log_of_run hm hmem hrun, hws.log, length_seeds]
  rfl

/-- On a store that records its relation exactly the finite values leave no gap. -/
theorem layers_of_solve (hs : g.store.Exact) (hsol : (g.solve mem target).result = .ok sol) :
    (∀ v, (∃ i, sol.value.get (g.store.state i) = .ok (some v)) ↔
      ∃ a, sol.value.maxFinite = some a ∧ v ≤ a) ∧
    sol.layers = {v | ∃ i, sol.value.get (g.store.state i) = .ok (some v)}.ncard := by
  obtain ⟨l, c, rfl, hacc⟩ := exists_account_of_solve hs.adequate hsol
  have hgap : ∀ i v w, l.valueAt i = some v → w ≤ v → ∃ k, l.valueAt k = some w :=
    fun i v w hi hw => (hacc.ranking hs).exists_val_eq hi hw
  simp only [l.tells.get, Except.ok.injEq]
  exact ⟨l.exists_valueAt_iff hgap, l.layers_eq_ncard hgap⟩

end Reachability

open Reachability in
/-- The log of a game solved on a built store tells the size of the game, the number of seeds, and
the number of winning states and of layers; in between it traces every state of positive value in
the order of the values, with its witness and its value. The finite values are those up to the
largest one, and there are as many layers as finite values. -/
theorem ReachabilityGame.solve_log_faithful {b : Builder} {mem mem' : Memory} {s : Store}
    (hb : (b.build mem).result = .ok s) (hm : s.numInputs < reserved - 1)
    (hmem : reserveLabels mem' s.numStates s.numInputs = .ok ())
    {α β : Type} [StateSet α] [StateSet β] (target : α) (avoid : β) :
    ∃ sol log layers, ∃ ws : List (Win s),
      ((new s).avoiding avoid).solve mem' target = ⟨log, .ok sol⟩ ∧
      sol.RecordedBy ws ∧
      log.toList = [.solvingReachability s.numStates s.numInputs s.transitionCount,
          .targets (s.members target \ s.members avoid).ncard] ++
        ws.map Win.event ++ [.reachabilitySolved sol.region.size layers] ∧
      (log.toList.filter fun e => e.level = .trace).map Event.message =
        ws.map (fun w => s!"{s.state w.state} wins with {s.input w.input} in {w.steps} steps") ∧
      (∀ v, (∃ i, sol.value.get (s.state i) = .ok (some v)) ↔
        ∃ a, sol.value.maxFinite = some a ∧ v ≤ a) ∧
      layers = {v | ∃ i, sol.value.get (s.state i) = .ok (some v)}.ncard := by
  let game := (new s).avoiding avoid
  have hs : game.store.Exact := Builder.exact_of_build hb
  obtain ⟨sol, hsol⟩ := exists_solve_eq_ok target hs.adequate hm hmem
  obtain ⟨log, hsolve⟩ : ∃ log, game.solve mem' target = ⟨log, .ok sol⟩ :=
    ⟨_, congrArg (Logged.mk _) hsol⟩
  obtain ⟨hgap, hlayers⟩ := layers_of_solve hs hsol
  obtain ⟨ws, hws, hlog⟩ := exists_log_of_solve hsol
  have havoid : {i : Fin s.numStates | game.avoid.contains i = true} = s.members avoid :=
    Set.ext (contains_avoiding s avoid)
  have hlog : log.toList = [.solvingReachability s.numStates s.numInputs s.transitionCount,
      .targets (s.members target \ s.members avoid).ncard] ++
      ws.map Win.event ++ [.reachabilitySolved sol.region.size sol.layers] := by
    rw [hsolve] at hlog
    exact havoid ▸ hlog
  exact ⟨sol, log, sol.layers, ws, hsolve, hws, hlog, Win.traced_messages hlog, hgap, hlayers⟩

/-- On the fork the log says that one state is the target, if state 2 is. -/
theorem ReachabilityGame.solve_fork_log_faithful :
    (Builder.fork.build .ample).result = .ok Builder.forkStore ∧
    Builder.forkStore.numInputs < reserved - 1 ∧
    Reachability.reserveLabels .ample Builder.forkStore.numStates Builder.forkStore.numInputs =
      .ok () ∧
    ∃ sol log, ((new Builder.forkStore).avoiding StateSet.nothing).solve .ample
        (fun x : State => x.id == 2) = ⟨log, .ok sol⟩ ∧
      log[1]? = some (.targets 1) := by
  have hm : Builder.forkStore.numInputs < reserved - 1 := by decide
  have hmem : Reachability.reserveLabels .ample Builder.forkStore.numStates
      Builder.forkStore.numInputs = .ok () := rfl
  obtain ⟨sol, log, layers, ws, hsol, -, hlog, -⟩ := solve_log_faithful
    Builder.build_fork hm hmem (fun x : State => x.id == 2) StateSet.nothing
  refine ⟨Builder.build_fork, hm, hmem, sol, log, hsol, ?_⟩
  have hone : (Builder.forkStore.members (fun x : State => x.id == 2) \
      Builder.forkStore.members StateSet.nothing).ncard = 1 := by
    refine Set.ncard_eq_one.mpr ⟨(2 : Fin 4), Set.ext fun (i : Fin 4) => ?_⟩
    change (i.val == 2) = true ∧ ¬ false = true ↔ i = 2
    revert i
    decide
  rw [← Array.getElem?_toList, hlog, hone]
  rfl

end ControlGames
