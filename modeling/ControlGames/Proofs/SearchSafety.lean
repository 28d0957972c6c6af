import ControlGames.Proofs.ReachAvoidValues
import ControlGames.Proofs.SearchHeads

/-!
# Searches without faults

A search may meet a fault wherever it counts down, counts up or reads a slot. On a store whose
numbers of successors cover its groups it meets none. Every state is expanded once, so no pair is
counted more often than it is listed; and the values never skip a number, so they stay below the
number of states.
-/
namespace ControlGames

namespace Reachability

variable {g : ReachabilityGame} {α : Type} [StateSet α] {target : α} {log : Log}
  {t : Search g.store}

theorem Queue.value_lt {c : ℕ} {l : Labels g.store} (h : Queue c l) {i : Fin g.store.numStates}
    {a : ℕ} (hi : l.valueAt i = some a) : a < g.store.numStates :=
  (h.succ_le_size hi).trans h.size_le

/-- No fault is met on expanding a state: its value leaves room for one more step, and any slot of
its groups that is not skipped holds a state of the store, of whose pair a successor is left to be
counted when the slots before it have been visited. -/
structure Faultless (g : ReachabilityGame) (q : Fin g.store.numStates) (l : Labels g.store) :
    Prop where
  room : ∃ a, l.valueAt q = some a ∧ a + 1 < wordSize
  left : ∀ a done v rest l', l.valueAt q = some a → g.store.visits q = done ++ v :: rest →
    done.foldlM (fun l v => relax g v.input (a + 1) l v.pre) l = .ok l' →
    g.avoid.contains v.pre.id = false →
    ∃ i, v.pre = g.store.state i ∧ 0 < l'.remaining.get i v.input

theorem AtHead.faultless (hs : g.store.Adequate) (h : AtHead g target t)
    {k : ℕ} {hlt : k < t.labels.arrivals.size} (hk : t.fresh? t.next = some ⟨k, hlt⟩) :
    Faultless g t.labels.arrivals[k] t.labels := by
  rw [h.fresh?_eq] at hk
  split at hk
  · next hlt =>
    cases hk
    obtain ⟨q, a, hq, ha, hacc, hnodup⟩ := h.exists_next hlt
    rw [hq]
    refine ⟨⟨a, ha, hacc.toQueue.succ_lt_wordSize ha⟩, ?_⟩
    intro a' done v rest l' ha' hsplit hl' havoid
    rw [ha, Option.some.injEq] at ha'
    subst ha'
    -- The slots before this one lead to an account in which the pair is not yet used up.
    have hpost : ∀ w ∈ done, w.post = q := fun w hw =>
      (Store.mem_visits.mp (hsplit ▸ List.mem_append_left _ hw)).1
    obtain ⟨hacc₁, -⟩ := hacc.foldlM_relax ha hpost hl'
    have hlisted := (Store.mem_visits.mp (hsplit ▸ List.mem_append_right done
      List.mem_cons_self : v ∈ g.store.visits q)).2
    obtain ⟨i, hi⟩ := Store.exists_state_eq (hs.known _ _ _ hlisted)
    rw [hi] at havoid
    exact ⟨i, hi, hacc₁.remaining_pos hs hnodup hsplit hi havoid⟩
  · cases hk

end Reachability

open Reachability in
/-- Every game on a built store, and on any other store whose numbers of successors cover its
groups, has a solution. Its values stay below the number of states, and so do all values on the way
to it, on which no fault is met. -/
theorem ReachabilityGame.solve_faultless {g : ReachabilityGame} {mem : Memory}
    (hs : (∃ b mem', (Builder.build mem' b).result = .ok g.store) ∨ g.store.Adequate)
    (hm : g.store.numInputs < reserved - 1)
    (hmem : reserveLabels mem g.store.numStates g.store.numInputs = .ok ())
    {α : Type} [StateSet α] (target : α) :
    g.store.Adequate ∧
    (∃ sol, (g.solve mem target).result = .ok sol ∧
      ∀ i a, sol.value.get (g.store.state i) = .ok (some a) → a < g.store.numStates) ∧
    ∀ log t, Reached g target log t →
      (∀ i a, t.labels.valueAt i = some a → a < g.store.numStates) ∧
      ∀ k hk, t.fresh? t.next = some ⟨k, hk⟩ →
        Faultless g t.labels.arrivals[k] t.labels ∧ ∃ u, turn g t ⟨k, hk⟩ = .ok u := by
  have hs : g.store.Adequate := by
    rcases hs with ⟨b, mem', hb⟩ | hs
    · exact (Builder.exact_of_build hb).adequate
    · exact hs
  refine ⟨hs, ?_, fun log t ht => ?_⟩
  · obtain ⟨sol, hsol⟩ := exists_solve_eq_ok target hs hm hmem
    obtain ⟨l, c, rfl, hacc⟩ := exists_account_of_solve hs hsol
    refine ⟨_, hsol, fun i a hi => ?_⟩
    rw [l.tells.get, Except.ok.injEq] at hi
    exact hacc.toQueue.value_lt hi
  · have hhead := ht.atHead
    obtain ⟨c, hacc, -⟩ := hhead.account
    refine ⟨fun i a hi => hacc.toQueue.value_lt hi, fun k hlt hk => ⟨hhead.faultless hs hk, ?_⟩⟩
    exact hhead.exists_turn_of_fresh? hs hk

/-- A store filled by hand: the groups of its first two states share a slot, and state 1 has fewer
successors than its number says. -/
def Store.shared : Store where
  numStates := 3
  numInputs := 1
  sizes_le := by decide
  groups := ⟨#v[⟨0, 2⟩, ⟨1, 2⟩, ⟨3, 0⟩]⟩
  successorCounts := ⟨#v[2, 4, 1]⟩
  slots := ([1, 0, 2].filterMap State.ofId?).toArray

theorem Store.adequate_shared : shared.Adequate where
  inside := inside_iff.mpr (by decide)
  known := by decide
  covered := by decide

/-- There the target 1 can be reached without a fault, state 0 to be avoided. -/
theorem ReachabilityGame.solve_shared_faultless :
    Store.shared.Adequate ∧ Store.shared.numInputs < reserved - 1 ∧
    Reachability.reserveLabels .ample Store.shared.numStates Store.shared.numInputs = .ok () ∧
    ∃ sol, (((new Store.shared).avoiding fun x : State => x.id == 0).solve .ample
        fun x : State => x.id == 1).result = .ok sol ∧
      ∀ (i : Fin 3) a, sol.value.get (Store.shared.state i) = .ok (some a) → a < 3 := by
  let game := (new Store.shared).avoiding fun x : State => x.id == 0
  have hm : game.store.numInputs < reserved - 1 := by decide
  have hmem : Reachability.reserveLabels .ample game.store.numStates game.store.numInputs =
      .ok () := rfl
  obtain ⟨-, hsol, -⟩ := solve_faultless (g := game) (.inr Store.adequate_shared) hm hmem
    fun x : State => x.id == 1
  exact ⟨Store.adequate_shared, hm, hmem, hsol⟩

end ControlGames
