import ControlGames.Proofs.SearchRun

/-!
# The search at the head of its loop

The heads of the search are those it gets to from the first one, turn by turn. The search goes on
from each of them to the same end, where no arrival is left to be expanded.
-/
namespace ControlGames.Reachability

variable {g : ReachabilityGame} {α : Type} [StateSet α] {target : α} {log : Log}
  {t u : Search g.store}

theorem run_of_turn {k : Fin t.labels.arrivals.size} (hk : t.fresh? t.next = some k)
    (hu : turn g t k = .ok u) : run g t = run g u := by
  rw [run]
  split
  · next hdone =>
    rw [hk] at hdone
    cases hdone
  · next k' hk' =>
    rw [hk, Option.some.injEq] at hk'
    subst hk'
    split
    · next u' hu' =>
      rw [hu, Except.ok.injEq] at hu'
      rw [hu']
    · next e he =>
      rw [hu] at he
      cases he

theorem run_of_done (hdone : t.fresh? t.next = none) : run g t = .ok t := by
  rw [run]
  split
  · rfl
  · next k hk =>
    rw [hdone] at hk
    cases hk

theorem run_of_fault {e : Interruption} {k : Fin t.labels.arrivals.size}
    (hk : t.fresh? t.next = some k) (he : turn g t k = .error e) : run g t = .error e := by
  rw [run]
  split
  · next hdone =>
    rw [hk] at hdone
    cases hdone
  · next k' hk' =>
    rw [hk, Option.some.injEq] at hk'
    subst hk'
    split
    · next u hu =>
      rw [he] at hu
      cases hu
    · next e' he' =>
      rw [he, Except.error.injEq] at he'
      rw [he']

/-- The search whenever it looks for the next arrival to expand. -/
inductive Reached (g : ReachabilityGame) {α : Type} [StateSet α] (target : α) (log : Log) :
    Search g.store → Prop
  | initial : Reached g target log (Reachability.initial g target log)
  | turn {t u : Search g.store} {k : Fin t.labels.arrivals.size} (ht : Reached g target log t)
      (hk : t.fresh? t.next = some k) (hu : Reachability.turn g t k = .ok u) :
      Reached g target log u

theorem Reached.atHead (ht : Reached g target log t) : AtHead g target t := by
  induction ht with
  | initial => exact atHead_initial g target log
  | turn ht hk hu ih => exact (ih.turned hk hu).1

/-- From every head the search goes on to where it ends from the first one. -/
theorem Reached.run_eq (ht : Reached g target log t) :
    run g (Reachability.initial g target log) = run g t := by
  induction ht with
  | initial => rfl
  | turn ht hk hu ih => rw [ih, run_of_turn hk hu]

/-- Where a search ends that started at a head, no arrival is left and no value has changed. -/
theorem Reached.ended (ht : Reached g target log t) (hu : run g t = .ok u) :
    Reached g target log u ∧ u.fresh? u.next = none ∧
      ∀ i b, t.labels.valueAt i = some b → u.labels.valueAt i = some b := by
  fun_induction Reachability.run g t with
  | case1 t hdone =>
    cases hu
    exact ⟨ht, hdone, fun _ _ => id⟩
  | case2 t k hk v hv ih =>
    obtain ⟨hreached, hend, hkeep⟩ := ih (ht.turn hk hv) hu
    exact ⟨hreached, hend, fun i b hi => hkeep i b ((ht.atHead.turned hk hv).2.2 i b hi)⟩
  | case3 t k hk e he => cases hu

theorem exists_reached_end (target : α) (log : Log) (hs : g.store.Adequate) :
    ∃ t, run g (Reachability.initial g target log) = .ok t ∧ Reached g target log t ∧
      t.fresh? t.next = none := by
  refine exists_run_eq_ok (P := Reached g target log) (fun t k ht hk => ?_) .initial
  obtain ⟨u, hu⟩ := ht.atHead.exists_turn_of_fresh? hs hk
  exact ⟨u, hu, ht.turn hk hu⟩

end ControlGames.Reachability
