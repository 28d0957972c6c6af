import ControlGames.Proofs.SearchInvariants

/-!
# Runs of the search

At the head of its loop the search has expanded the arrivals before the next one, each once, and the
labels account for the visits to them. Every expansion that succeeds leads to the next head,
whatever the store. On a store whose numbers of successors cover its groups every expansion
succeeds, so the search ends with all arrivals expanded.
-/
namespace ControlGames.Reachability

variable {g : ReachabilityGame} {α : Type} [StateSet α] {target : α} {t u : Search g.store}
  {q : Fin g.store.numStates} {a : ℕ} {H done : List (Visit g.store.numStates g.store.numInputs)}
  {l l' : Labels g.store}

def Search.past {s : Store} (t : Search s) : List (Fin s.numStates) :=
  t.labels.arrivals.toList.take t.next

/-- The state of the search whenever it looks for the next arrival to expand. The bound on the
labels leaves room for one more step from there. -/
structure AtHead (g : ReachabilityGame) (target : α) (t : Search g.store) : Prop where
  account : ∃ c, Account g target (t.past.flatMap g.store.visits) c t.labels ∧
    ∀ q a, t.labels.arrivals.toList[t.next]? = some q → t.labels.valueAt q = some a → c ≤ a + 1
  expanded : ∀ i, t.expanded.isMarked i = true ↔ i ∈ t.past

theorem AtHead.nodup (h : AtHead g target t) : t.labels.arrivals.toList.Nodup := by
  obtain ⟨c, hc, -⟩ := h.account
  exact hc.nodup

/-- No arrival is ever skipped. -/
theorem AtHead.fresh?_eq (h : AtHead g target t) : t.fresh? t.next =
    if hk : t.next < t.labels.arrivals.size then some ⟨t.next, hk⟩ else none := by
  rw [Search.fresh?]
  split
  · next hk =>
    have hnew : t.expanded.isMarked t.labels.arrivals[t.next] = false := by
      rw [Bool.eq_false_iff, ne_eq, h.expanded, Search.past, List.mem_take_iff_getElem]
      intro hpast
      rcases hpast with ⟨p, hp, heq⟩
      rw [← Array.getElem_toList, h.nodup.getElem_inj_iff] at heq
      omega
    rw [if_neg (Bool.eq_false_iff.mp hnew)]
  · rfl

theorem AtHead.fresh?_eq_none_iff (h : AtHead g target t) :
    t.fresh? t.next = none ↔ t.labels.arrivals.size ≤ t.next := by
  rw [h.fresh?_eq]
  split
  · next hk => exact ⟨nofun, fun hle => absurd hk (Nat.not_lt.mpr hle)⟩
  · next hk => exact ⟨fun _ => Nat.le_of_not_lt hk, fun _ => rfl⟩

/-! ### Visits that succeed -/

/-- A visit to a slot of a state of value `a` that succeeds is added to the account. It changes no
value that is known, and lets new states in only at the end. -/
theorem Account.visited {v : Visit g.store.numStates g.store.numInputs}
    (h : Account g target (H ++ done) (a + 1) l) (hq : l.valueAt v.post = some a)
    (hok : relax g v.input (a + 1) l v.pre = .ok l') :
    Account g target (H ++ (done ++ [v])) (a + 1) l' ∧
      (∀ i b, l.valueAt i = some b → l'.valueAt i = some b) ∧
      l.arrivals.toList <+: l'.arrivals.toList := by
  have hr := relaxed_of_relax (h.below hq) hok
  have hnext := h.relaxed hq hr
  rw [List.append_assoc] at hnext
  exact ⟨hnext, fun i b hi => hr.valueAt_eq hi, hr.arrivals_isPrefix⟩

theorem Account.foldlM_relax (h : Account g target H (a + 1) l) (hq : l.valueAt q = some a)
    (hpost : ∀ v ∈ done, v.post = q)
    (hok : done.foldlM (fun l v => relax g v.input (a + 1) l v.pre) l = .ok l') :
    Account g target (H ++ done) (a + 1) l' ∧
      (∀ i b, l.valueAt i = some b → l'.valueAt i = some b) ∧
      l.arrivals.toList <+: l'.arrivals.toList := by
  refine foldlM_keeps (fun first l₁ => Account g target (H ++ first) (a + 1) l₁ ∧
      (∀ i b, l.valueAt i = some b → l₁.valueAt i = some b) ∧
      l.arrivals.toList <+: l₁.arrivals.toList) ?_
    ⟨by rwa [List.append_nil], fun _ _ => id, List.prefix_rfl⟩ hok
  rintro first v rest l₁ l₂ rfl ⟨hacc, hkeep, hgrow⟩ hl₂
  have hv : v.post = q := hpost v (List.mem_append_right first List.mem_cons_self)
  obtain ⟨hnext, hkeep', hgrow'⟩ := hacc.visited (hv ▸ hkeep q a hq) hl₂
  exact ⟨hnext, fun i b hi => hkeep' i b (hkeep i b hi), hgrow.trans hgrow'⟩

/-- An expansion that succeeds is made of visits, since all groups of its state lie inside the flat
array. -/
theorem foldlM_visits_of_expand (hq : l.valueAt q = some a) (hok : expand g q l = .ok l') :
    (g.store.visits q).foldlM (fun l v => relax g v.input (a + 1) l v.pre) l = .ok l' := by
  rw [expand_of_valueAt hq] at hok
  split at hok
  · refine Store.foldlM_visits_of_groups (f := fun j => relax g j (a + 1)) ?_ hok
    intro l₁ j l₂ hj
    rw [relaxGroup] at hj
    split at hj
    · next xs hxs =>
      rw [Store.listed_of_groupAt hxs]
      exact hj
    · cases hj
  · cases hok

/-- Expanding one more state adds its visits to the account. -/
theorem Account.expanded {E : List (Fin g.store.numStates)}
    (h : Account g target (E.flatMap g.store.visits) (a + 1) l) (hq : l.valueAt q = some a)
    (hok : expand g q l = .ok l') :
    Account g target ((E ++ [q]).flatMap g.store.visits) (a + 1) l' ∧
      (∀ i b, l.valueAt i = some b → l'.valueAt i = some b) ∧
      l.arrivals.toList <+: l'.arrivals.toList := by
  rw [List.flatMap_append, List.flatMap_singleton]
  exact h.foldlM_relax hq (fun v hv => (Store.mem_visits.mp hv).1) (foldlM_visits_of_expand hq hok)

/-! ### Visits that find a successor left to count -/

/-- Before a slot of a new state is visited, a successor of its pair is left to count. -/
theorem Account.remaining_pos (hs : g.store.Adequate) {E : List (Fin g.store.numStates)}
    {q : Fin g.store.numStates} (hE : (E ++ [q]).Nodup)
    {done rest : List (Visit g.store.numStates g.store.numInputs)}
    {v : Visit g.store.numStates g.store.numInputs} (hsplit : g.store.visits q = done ++ v :: rest)
    {c : ℕ} {l : Labels g.store} (h : Account g target (E.flatMap g.store.visits ++ done) c l)
    {i : Fin g.store.numStates} (hi : v.pre = g.store.state i)
    (havoid : g.avoid.contains i = false) : 0 < l.remaining.get i v.input := by
  have hcount := hs.count_le hE i v.input
  have hone : 0 < Visit.count (v :: rest) i v.input :=
    Visit.count_pos_iff.mpr ⟨v, List.mem_cons_self,
      Visit.hits_eq_true_iff.mpr ⟨rfl, congrArg State.id hi⟩⟩
  have hremaining := h.remaining i v.input havoid
  rw [List.flatMap_append, List.flatMap_singleton, hsplit, ← List.append_assoc,
    Visit.count_append] at hcount
  omega

theorem exists_expand_eq_ok (hs : g.store.Adequate) {E : List (Fin g.store.numStates)}
    (h : Account g target (E.flatMap g.store.visits) (a + 1) l) (hq : l.valueAt q = some a)
    (hE : (E ++ [q]).Nodup) : ∃ l', expand g q l = .ok l' := by
  rw [expand_eq_foldlM hs.inside hq (h.toQueue.succ_lt_wordSize hq)]
  refine (exists_foldlM_eq_ok (fun done l₁ =>
    Account g target (E.flatMap g.store.visits ++ done) (a + 1) l₁ ∧ l₁.valueAt q = some a) ?_
    ⟨by rwa [List.append_nil], hq⟩).imp fun l' hl' => hl'.1
  rintro done v rest l₁ hsplit ⟨hacc, hq₁⟩
  obtain ⟨hpost, hlisted⟩ :=
    Store.mem_visits.mp (hsplit ▸ List.mem_append_right done List.mem_cons_self)
  obtain ⟨l₂, hl₂⟩ := exists_relax_eq_ok (j := v.input) (hacc.below hq₁) (hs.known _ _ _ hlisted)
    fun i hi havoid => hacc.remaining_pos hs hE hsplit hi havoid
  obtain ⟨hnext, hkeep, -⟩ := hacc.visited (hpost ▸ hq₁) hl₂
  exact ⟨l₂, hl₂, hnext, hkeep q a hq₁⟩

/-! ### Heads -/

/-- At the head of the loop the next arrival is new, and no value exceeds its own by more than
one. -/
theorem AtHead.exists_next (h : AtHead g target t) (hk : t.next < t.labels.arrivals.size) :
    ∃ q a, t.labels.arrivals[t.next] = q ∧ t.labels.valueAt q = some a ∧
      Account g target (t.past.flatMap g.store.visits) (a + 1) t.labels ∧
      (t.past ++ [q]).Nodup := by
  obtain ⟨c, hc, hbound⟩ := h.account
  have hlen : t.next < t.labels.arrivals.toList.length := by rwa [Array.length_toList]
  obtain ⟨q, hq⟩ : ∃ q, t.labels.arrivals.toList[t.next] = q := ⟨_, rfl⟩
  have hget : t.labels.arrivals.toList[t.next]? = some q := List.getElem?_eq_some_iff.mpr ⟨hlen, hq⟩
  have hnew : t.past ++ [q] = t.labels.arrivals.toList.take (t.next + 1) := by
    rw [take_succ_of_isPrefix List.prefix_rfl hlen, hq, Search.past]
  obtain ⟨a, ha⟩ := Option.ne_none_iff_exists'.mp
    ((hc.mem_iff q).mp (List.mem_of_getElem? hget))
  rw [Array.getElem_toList] at hq
  exact ⟨q, a, hq, ha, hc.mono (hbound q a hget ha),
    hnew ▸ hc.nodup.sublist (List.take_sublist _ _)⟩

/-- Once the visits to the next arrival have been added to the account, the search is at a head
again. -/
theorem AtHead.expanded_next (h : AtHead g target t) {q : Fin g.store.numStates} {a : ℕ}
    (hq : t.labels.arrivals[t.next]? = some q) {l : Labels g.store}
    (hacc : Account g target ((t.past ++ [q]).flatMap g.store.visits) (a + 1) l)
    (hqa : l.valueAt q = some a) (hgrow : t.labels.arrivals.toList <+: l.arrivals.toList) :
    AtHead g target ⟨l, t.expanded.mark q, t.next + 1⟩ := by
  obtain ⟨hk, hget⟩ := Array.getElem?_eq_some_iff.mp hq
  have hlen : t.next < t.labels.arrivals.toList.length := by rwa [Array.length_toList]
  have hpast : l.arrivals.toList.take (t.next + 1) = t.past ++ [q] := by
    rw [take_succ_of_isPrefix hgrow hlen, Array.getElem_toList, hget, Search.past]
  refine ⟨⟨a + 1, ?_, ?_⟩, ?_⟩
  · rw [Search.past, hpast]
    exact hacc
  · intro q' a' hq' ha'
    obtain ⟨hlt, hget'⟩ := List.getElem?_eq_some_iff.mp hq'
    have hprev (hk' : t.next < l.arrivals.toList.length) : l.arrivals.toList[t.next] = q := by
      rw [← hgrow.getElem hlen, Array.getElem_toList, hget]
    have hle := List.pairwise_iff_getElem.mp hacc.sorted t.next (t.next + 1)
      (Nat.lt_of_succ_lt hlt) hlt t.next.lt_succ_self
    rw [hprev, hget', Labels.rank_eq hqa, Labels.rank_eq ha'] at hle
    omega
  · intro i
    change (t.expanded.mark q).isMarked i = true ↔ i ∈ l.arrivals.toList.take (t.next + 1)
    rw [hpast, List.mem_append, List.mem_singleton, Marks.isMarked_mark, Bool.or_eq_true,
      decide_eq_true_eq, h.expanded, or_comm, eq_comm]

theorem turn_eq_ok_iff {k : ℕ} {hk : k < t.labels.arrivals.size} : turn g t ⟨k, hk⟩ = .ok u ↔
    ∃ l, expand g t.labels.arrivals[k] t.labels = .ok l ∧
      ⟨l, t.expanded.mark t.labels.arrivals[k], k + 1⟩ = u := by
  simp only [turn, Fin.getElem_fin]
  cases expand g t.labels.arrivals[k] t.labels with
  | error e => simp
  | ok l => simp

/-- A turn that succeeds leads from a head to a head. -/
theorem AtHead.turned (h : AtHead g target t) {k : Fin t.labels.arrivals.size}
    (hk : t.fresh? t.next = some k) (hu : turn g t k = .ok u) :
    AtHead g target u ∧ u.next = t.next + 1 ∧
      ∀ i b, t.labels.valueAt i = some b → u.labels.valueAt i = some b := by
  rw [h.fresh?_eq] at hk
  split at hk
  · next hlt =>
    cases hk
    obtain ⟨q, a, hq, ha, hacc, -⟩ := h.exists_next hlt
    obtain ⟨l, hl, rfl⟩ := turn_eq_ok_iff.mp hu
    rw [hq] at hl ⊢
    obtain ⟨hacc', hkeep, hgrow⟩ := hacc.expanded ha hl
    exact ⟨h.expanded_next (Array.getElem?_eq_some_iff.mpr ⟨hlt, hq⟩) hacc' (hkeep q a ha) hgrow,
      rfl, hkeep⟩
  · cases hk

theorem AtHead.exists_turn_of_fresh? (hs : g.store.Adequate) (h : AtHead g target t)
    {k : Fin t.labels.arrivals.size} (hk : t.fresh? t.next = some k) :
    ∃ u, turn g t k = .ok u := by
  rw [h.fresh?_eq] at hk
  split at hk
  · next hlt =>
    cases hk
    obtain ⟨q, a, hq, ha, hacc, hnodup⟩ := h.exists_next hlt
    obtain ⟨l, hl⟩ := exists_expand_eq_ok hs hacc ha hnodup
    exact ⟨_, turn_eq_ok_iff.mpr ⟨l, hq ▸ hl, rfl⟩⟩
  · cases hk

/-! ### Runs -/

/-- If from every head that satisfies an invariant the search gets to another one, it ends. -/
theorem exists_run_eq_ok {P : Search g.store → Prop}
    (hturn : ∀ t k, P t → t.fresh? t.next = some k → ∃ u, turn g t k = .ok u ∧ P u)
    {t : Search g.store} (ht : P t) : ∃ u, run g t = .ok u ∧ P u ∧ u.fresh? u.next = none := by
  fun_induction run g t with
  | case1 t hk => exact ⟨t, rfl, ht, hk⟩
  | case2 t k hk u hu ih =>
    obtain ⟨u', hu', hP⟩ := hturn t k ht hk
    rw [hu, Except.ok.injEq] at hu'
    exact ih (hu' ▸ hP)
  | case3 t k hk e he =>
    obtain ⟨u', hu', -⟩ := hturn t k ht hk
    rw [he] at hu'
    cases hu'

theorem isSeed_eq_true_iff (i : Fin g.store.numStates) :
    isSeed g target i = true ↔ i ∈ g.store.members target ∧ g.avoid.contains i = false := by
  rw [isSeed, Bool.and_eq_true, Bool.not_eq_true', Store.containsId_eq_true_iff]

section Initial

variable (g target) (log : Log)

theorem valueAt_initial (i : Fin g.store.numStates) :
    (initialLabels g target log).valueAt i = if isSeed g target i then some 0 else none :=
  cell_ofFn ..

theorem choiceAt_initial (i : Fin g.store.numStates) :
    (initialLabels g target log).choiceAt i =
      if isSeed g target i then homeChoice g.store i else none :=
  cell_ofFn ..

theorem remaining_initial (i : Fin g.store.numStates) (j : Fin g.store.numInputs) :
    (initialLabels g target log).remaining.get i j = g.store.successorCountAt i j :=
  Table.get_map ..

theorem worst_initial (i : Fin g.store.numStates) (j : Fin g.store.numInputs) :
    (initialLabels g target log).worst.get i j = 0 :=
  Table.get_replicate ..

private theorem rank_initial (i : Fin g.store.numStates) :
    (initialLabels g target log).rank i = 0 := by
  rw [Labels.rank, valueAt_initial]
  split <;> rfl

/-- Before any visit the seeds are the only states found. -/
theorem account_initial : Account g target [] 0 (initialLabels g target log) where
  remaining i j _ := remaining_initial g target log i j
  untouched i j _ := remaining_initial g target log i j
  worst_le i j := (worst_initial g target log i j).le
  lt_worst v hv := absurd hv List.not_mem_nil
  exists_worst i j a h := by
    rw [worst_initial] at h
    cases h
  nodup := (List.nodup_finRange _).filter _
  mem_iff i := by
    change i ∈ (List.finRange _).filter (isSeed g target) ↔ _
    rw [valueAt_initial, List.mem_filter]
    split
    · next h => exact ⟨fun _ => Option.some_ne_none 0, fun _ => ⟨List.mem_finRange i, h⟩⟩
    · next h => exact ⟨fun hi => absurd hi.2 h, fun hi => absurd rfl hi⟩
  sorted := List.pairwise_of_forall fun i k => by rw [rank_initial, rank_initial]
  rank_le p i _ := by
    rw [rank_initial]
    exact Nat.zero_le p
  value_le i a h := by
    rw [valueAt_initial] at h
    split at h
    · exact (Option.some.inj h).ge
    · cases h
  seed i h := by
    rw [valueAt_initial, choiceAt_initial, if_pos h, if_pos h]
    exact ⟨rfl, rfl⟩
  won i a h hi := by
    rw [valueAt_initial, if_neg (Bool.eq_false_iff.mp h)] at hi
    cases hi
  lost i h := by
    rw [valueAt_initial] at h
    rw [choiceAt_initial]
    split at h
    · cases h
    · next hi => exact if_neg hi
  complete i j _ hzero hpos := by
    rw [remaining_initial] at hzero
    omega

theorem atHead_initial : AtHead g target (initial g target log) where
  account := ⟨0, account_initial g target log, fun _ a _ _ => Nat.zero_le (a + 1)⟩
  expanded i := by
    change (Marks.none _).isMarked i = true ↔ i ∈ List.take 0 _
    rw [Marks.isMarked_none]
    exact ⟨nofun, nofun⟩

/-- The search ends, and its last labels account for the visits to all states found. -/
theorem exists_run_initial (hs : g.store.Adequate) :
    ∃ t c, run g (initial g target log) = .ok t ∧
      Account g target (t.labels.arrivals.toList.flatMap g.store.visits) c t.labels := by
  have hturn : ∀ t k, AtHead g target t → t.fresh? t.next = some k →
      ∃ u, turn g t k = .ok u ∧ AtHead g target u := by
    intro t k ht hk
    obtain ⟨u, hu⟩ := ht.exists_turn_of_fresh? hs hk
    exact ⟨u, hu, (ht.turned hk hu).1⟩
  obtain ⟨t, ht, hhead, hdone⟩ := exists_run_eq_ok hturn (atHead_initial g target log)
  obtain ⟨c, hc, -⟩ := hhead.account
  have hpast : t.past = t.labels.arrivals.toList := by
    rw [Search.past, List.take_of_length_le]
    rw [Array.length_toList]
    exact hhead.fresh?_eq_none_iff.mp hdone
  exact ⟨t, c, ht, hpast ▸ hc⟩

end Initial

end ControlGames.Reachability
