import ControlGames.Proofs.SearchHeads

/-!
# Moments of the search

Between two heads of its loop the search expands one state, slot by slot. What every visit to a slot
keeps holds at any moment. This asks nothing of the store: wherever the search gets to without a
fault, its labels account for the visits made so far.
-/
namespace ControlGames.Reachability

variable {g : ReachabilityGame} {α : Type} [StateSet α] {target : α} {log : Log}
  {t u : Search g.store} {q : Fin g.store.numStates} {a : ℕ}
  {done : List (Visit g.store.numStates g.store.numInputs)} {l l' : Labels g.store}

/-- The search takes out state `q` of value `a` at the head `t` and visits the slots `done`, which
gives the labels `l`. -/
structure Expanding (g : ReachabilityGame) {α : Type} [StateSet α] (target : α) (log : Log)
    (t : Search g.store) (q : Fin g.store.numStates) (a : ℕ)
    (done : List (Visit g.store.numStates g.store.numInputs)) (l : Labels g.store) : Prop where
  reached : Reached g target log t
  taken : t.labels.arrivals[t.next]? = some q
  value : t.labels.valueAt q = some a
  first : done <+: g.store.visits q
  labels : done.foldlM (fun l v => relax g v.input (a + 1) l v.pre) t.labels = .ok l

namespace Expanding

variable {v : Visit g.store.numStates g.store.numInputs}

theorem post_eq (h : Expanding g target log t q a done l) : ∀ v ∈ done, v.post = q :=
  fun _ hv => (Store.mem_visits.mp (h.first.subset hv)).1

theorem account (h : Expanding g target log t q a done l) :
    Account g target (t.past.flatMap g.store.visits ++ done) (a + 1) l ∧
      (∀ i b, t.labels.valueAt i = some b → l.valueAt i = some b) ∧
      t.labels.arrivals.toList <+: l.arrivals.toList := by
  obtain ⟨hlt, hget⟩ := Array.getElem?_eq_some_iff.mp h.taken
  obtain ⟨q', a', hq, ha, hacc, -⟩ := h.reached.atHead.exists_next hlt
  obtain rfl : q' = q := hq.symm.trans hget
  obtain rfl : a' = a := Option.some.inj (ha.symm.trans h.value)
  exact hacc.foldlM_relax h.value h.post_eq h.labels

theorem valueAt_eq (h : Expanding g target log t q a done l) : l.valueAt q = some a :=
  h.account.2.1 q a h.value

theorem of_snoc (h : Expanding g target log t q a (done ++ [v]) l') :
    ∃ l, Expanding g target log t q a done l ∧ relax g v.input (a + 1) l v.pre = .ok l' ∧
      Relaxed g v.input (a + 1) l v.pre l' := by
  have hlabels := h.labels
  rw [List.foldlM_append] at hlabels
  obtain ⟨l, hl, hlabels⟩ := bind_eq_ok_iff.mp hlabels
  rw [List.foldlM_cons] at hlabels
  obtain ⟨l₁, hl₁, hlabels⟩ := bind_eq_ok_iff.mp hlabels
  cases hlabels
  have hbefore : Expanding g target log t q a done l :=
    ⟨h.reached, h.taken, h.value, (List.prefix_append _ _).trans h.first, hl⟩
  exact ⟨l, hbefore, hl₁, relaxed_of_relax (hbefore.account.1.below hbefore.valueAt_eq) hl₁⟩

end Expanding

/-- A turn that succeeds visits all slots of the next arrival. -/
theorem Reached.expanding (ht : Reached g target log t) {k : Fin t.labels.arrivals.size}
    (hk : t.fresh? t.next = some k) (hu : Reachability.turn g t k = .ok u) :
    ∃ q a, Expanding g target log t q a (g.store.visits q) u.labels ∧ u.past = t.past ++ [q] := by
  have hhead := ht.atHead
  have hgrow := (hhead.turned hk hu).1
  rw [hhead.fresh?_eq] at hk
  split at hk
  · next hlt =>
    cases hk
    obtain ⟨q, a, hq, ha, -⟩ := hhead.exists_next hlt
    obtain ⟨l, hl, rfl⟩ := turn_eq_ok_iff.mp hu
    rw [hq] at hl
    have hexp : Expanding g target log t q a (g.store.visits q) l :=
      ⟨ht, Array.getElem?_eq_some_iff.mpr ⟨hlt, hq⟩, ha, List.prefix_rfl,
        foldlM_visits_of_expand ha hl⟩
    refine ⟨q, a, hexp, ?_⟩
    have hlen : t.next < t.labels.arrivals.toList.length := by rwa [Array.length_toList]
    exact (take_succ_of_isPrefix hexp.account.2.2 hlen).trans
      (by rw [Array.getElem_toList, hq, Search.past])
  · cases hk

section Keeps

variable {P : List (Visit g.store.numStates g.store.numInputs) → Labels g.store → Prop}
  (hinit : P [] (initialLabels g target log))
  (hstep : ∀ {t q a done v l l'}, Expanding g target log t q a done l →
    Expanding g target log t q a (done ++ [v]) l' → Relaxed g v.input (a + 1) l v.pre l' →
    P (t.past.flatMap g.store.visits ++ done) l →
    P (t.past.flatMap g.store.visits ++ (done ++ [v])) l')

include hstep

theorem Expanding.keeps_of_head (h : Expanding g target log t q a done l)
    (hhead : P (t.past.flatMap g.store.visits) t.labels) :
    P (t.past.flatMap g.store.visits ++ done) l := by
  induction done using List.reverseRecOn generalizing l with
  | nil =>
    cases h.labels
    rwa [List.append_nil]
  | append_singleton done v ih =>
    obtain ⟨l₁, hbefore, -, hr⟩ := h.of_snoc
    exact hstep hbefore h hr (ih hbefore)

include hinit

/-- What every visit keeps holds at every head. -/
theorem Reached.keeps (ht : Reached g target log t) :
    P (t.past.flatMap g.store.visits) t.labels := by
  induction ht with
  | initial => exact hinit
  | turn ht hk hu ih =>
    obtain ⟨q, a, hexp, hpast⟩ := ht.expanding hk hu
    rw [hpast, List.flatMap_append, List.flatMap_singleton]
    exact hexp.keeps_of_head hstep ih

theorem Expanding.keeps (h : Expanding g target log t q a done l) :
    P (t.past.flatMap g.store.visits ++ done) l :=
  h.keeps_of_head hstep (h.reached.keeps hinit hstep)

end Keeps

/-! ### The end of the search -/

/-- The log with which a game is begun. -/
def openingLog (g : ReachabilityGame) : Log :=
  #[.solvingReachability g.store.numStates g.store.numInputs g.store.transitionCount]

theorem Reached.next_le (ht : Reached g target log t) : t.next ≤ t.labels.arrivals.size := by
  induction ht with
  | initial => exact Nat.zero_le _
  | @turn t u k ht hk hu ih =>
    obtain ⟨q, a, hexp, -⟩ := ht.expanding hk hu
    have hsize := hexp.account.2.2.length_le
    rw [Array.length_toList, Array.length_toList] at hsize
    obtain ⟨hlt, -⟩ := Array.getElem?_eq_some_iff.mp hexp.taken
    rw [(ht.atHead.turned hk hu).2.1]
    exact hlt.trans_le hsize

theorem Reached.past_eq (ht : Reached g target log t) (hdone : t.fresh? t.next = none) :
    t.next = t.labels.arrivals.size ∧ t.past = t.labels.arrivals.toList := by
  have hle := ht.atHead.fresh?_eq_none_iff.mp hdone
  refine ⟨ht.next_le.antisymm hle, List.take_of_length_le ?_⟩
  rwa [Array.length_toList]

end ControlGames.Reachability
