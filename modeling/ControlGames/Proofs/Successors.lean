import ControlGames.Proofs.AddedTransitions

/-!
# Successors

The successors of a pair are found by looking for the pair in the groups of all post states, and the
search stops once as many are found as the store has counted. It finds the first of those post
states up to the number that is wanted. A store that has counted right therefore stops at the last
successor and never before, and the successors of a built store are the relation read forwards.
-/
namespace ControlGames

namespace Store

variable {s : Store}

/-- Among the states looked at, the search picks the first `wanted` that the input leads to. -/
theorem findSuccessors_eq (h : s.Inside) (i : Fin s.numStates) (j : Fin s.numInputs)
    (ks : List (Fin s.numStates)) (wanted : ℕ) :
    s.findSuccessors (s.state i) j ks wanted =
      .ok (((ks.filter fun k => s.Leads i j k).take wanted).map s.state) := by
  induction ks generalizing wanted with
  | nil => simp [findSuccessors]
  | cons k ks ih =>
    cases wanted with
    | zero => simp [findSuccessors]
    | succ wanted =>
      rw [findSuccessors, h k j]
      simp only [bind, Except.bind, List.contains_iff_mem]
      by_cases hk : s.Leads i j k
      · have hmem : s.state i ∈ s.listed k j := hk
        rw [if_pos hmem, ih, List.filter_cons, if_pos (decide_eq_true hk)]
        rfl
      · have hmem : s.state i ∉ s.listed k j := hk
        rw [if_neg hmem, ih, List.filter_cons, if_neg (by simpa using hk)]

def posts (s : Store) (i : Fin s.numStates) (j : Fin s.numInputs) : List (Fin s.numStates) :=
  (List.finRange s.numStates).filter fun k => s.Leads i j k

theorem mem_posts {i : Fin s.numStates} {j : Fin s.numInputs} {k : Fin s.numStates} :
    k ∈ s.posts i j ↔ s.Leads i j k := by
  rw [posts, List.mem_filter, decide_eq_true_eq]
  exact and_iff_right (List.mem_finRange k)

theorem pairwise_posts (s : Store) (i : Fin s.numStates) (j : Fin s.numInputs) :
    (s.posts i j).Pairwise (· < ·) :=
  (List.pairwise_lt_finRange _).filter _

theorem Exact.length_posts (h : s.Exact) (i : Fin s.numStates) (j : Fin s.numInputs) :
    (s.posts i j).length = s.successorCountAt i j := by
  have hnodup : (s.posts i j).Nodup := (List.nodup_finRange _).filter _
  have hset : (s.posts i j).toFinset = Finset.univ.filter (s.Leads i j) := by
    ext k
    simp [mem_posts]
  rw [h.counted, ← hset, List.toFinset_card_of_nodup hnodup]

theorem findSuccessors_of_length_le (h : s.Inside) (i : Fin s.numStates) (j : Fin s.numInputs)
    {wanted : ℕ} (hwanted : (s.posts i j).length ≤ wanted) :
    s.findSuccessors (s.state i) j (List.finRange s.numStates) wanted =
      .ok ((s.posts i j).map s.state) := by
  rw [findSuccessors_eq h, ← posts, List.take_of_length_le hwanted]

theorem Exact.successors_state (h : s.Exact) (i : Fin s.numStates) (j : Fin s.numInputs) :
    s.successors (s.state i) (s.input j) = .ok ((s.posts i j).map s.state) := by
  rw [successors, locate_state]
  exact findSuccessors_of_length_le h.inside i j (h.length_posts i j).le

end Store

namespace Builder

variable {b : Builder} {mem : Memory} {s : Store}

theorem state_mem_posts_iff (hb : (b.build mem).result = .ok s) {i : Fin s.numStates}
    {j : Fin s.numInputs} {x : State} :
    x ∈ (s.posts i j).map s.state ↔ (i.val, j.val, x.id) ∈ b.triples := by
  constructor
  · intro hx
    obtain ⟨k, hk, rfl⟩ := List.mem_map.mp hx
    exact (mem_listed_of_build hb k j (s.state i)).mp (Store.mem_posts.mp hk)
  · intro hx
    have hid : x.id < s.numStates := by
      rw [(sizes_of_build hb).1]
      exact (lt_of_mem_triples hx).2.2
    obtain ⟨k, rfl⟩ := Store.exists_state_eq hid
    refine List.mem_map_of_mem (Store.mem_posts.mpr ?_)
    exact (mem_listed_of_build hb k j (s.state i)).mpr hx

/-- The successors of a pair in a built store increase strictly and are just the post states that
its transitions name, as many as the store has counted. They are the states in whose group the pair
is found, and a search that goes on for more finds no others. -/
theorem successors_invert_groups (hb : (b.build mem).result = .ok s) (i : Fin s.numStates)
    (j : Fin s.numInputs) :
    ∃ xs, s.successors (s.state i) (s.input j) = .ok xs ∧
      (xs.Pairwise fun x y => x.id < y.id) ∧
      (∀ x : State, x ∈ xs ↔ (i.val, j.val, x.id) ∈ b.triples) ∧
      s.successorCount (s.state i) (s.input j) = .ok xs.length ∧
      (∀ k : Fin s.numStates, ∃ pres, s.group (s.state k) (s.input j) = .ok pres ∧
        (s.state k ∈ xs ↔ s.state i ∈ pres)) ∧
      ∀ wanted, xs.length ≤ wanted →
        s.findSuccessors (s.state i) j (List.finRange s.numStates) wanted = .ok xs := by
  have hs := exact_of_build hb
  refine ⟨(s.posts i j).map s.state, hs.successors_state i j, ?_, fun x => state_mem_posts_iff hb,
    ?_, fun k => ?_, fun wanted hwanted => ?_⟩
  · rw [List.pairwise_map]
    exact s.pairwise_posts i j
  · rw [Store.successorCount_state, List.length_map, hs.length_posts]
  · refine ⟨s.listed k j, Store.group_state hs.inside k j, ?_⟩
    rw [state_mem_posts_iff hb, mem_listed_of_build hb]
    rfl
  · rw [List.length_map] at hwanted
    exact Store.findSuccessors_of_length_le hs.inside i j hwanted

/-- On the fork the first input leads from state 0 to the states 1 and 2. Two groups hold state 0,
and a search for all four states stops at none of them. -/
theorem successors_invert_groups_fork : (fork.build .ample).result = .ok forkStore ∧
    ∃ xs, forkStore.successors ⟨0, by decide⟩ ⟨0, by decide⟩ = .ok xs ∧
      xs = [⟨1, by decide⟩, ⟨2, by decide⟩] ∧
      forkStore.successorCount ⟨0, by decide⟩ ⟨0, by decide⟩ = .ok 2 ∧
      forkStore.findSuccessors ⟨0, by decide⟩ (0 : Fin 2) (List.finRange 4) 4 = .ok xs := by
  obtain ⟨xs, hxs, -, -, hcount, -, hall⟩ :=
    successors_invert_groups build_fork (0 : Fin 4) (0 : Fin 2)
  have hfound : forkStore.successors ⟨0, by decide⟩ ⟨0, by decide⟩ =
      .ok [⟨1, by decide⟩, ⟨2, by decide⟩] := rfl
  have heq : xs = [⟨1, by decide⟩, ⟨2, by decide⟩] := Except.ok.inj (hxs.symm.trans hfound)
  have hlength : xs.length = 2 := congrArg List.length heq
  exact ⟨build_fork, xs, hxs, heq, hlength ▸ hcount, hall 4 (by omega)⟩

end Builder

end ControlGames
