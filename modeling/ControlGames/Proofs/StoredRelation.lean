import Mathlib.Algebra.BigOperators.Fin
import Mathlib.Algebra.Order.BigOperators.Group.Finset
import ControlGames.StateSet
import ControlGames.Store
import ControlGames.Proofs.FailingFolds

/-!
# The relation of a store

The groups of a store list predecessors. Read forwards they say which states an input leads to. Both
games are solved by visiting, for one state after the other, all slots of its groups; how often the
visits hit a pair of a state and an input is compared with the number of successors that the store
records for the pair.
-/
namespace ControlGames

/-- A slot of the group of `post` and `input`, which holds the predecessor `pre`. -/
structure Visit (n m : ℕ) where
  post : Fin n
  input : Fin m
  pre : State

namespace Visit

variable {n m : ℕ}

def hits (i : Fin n) (j : Fin m) (v : Visit n m) : Bool := decide (v.input = j ∧ v.pre.id = i)

theorem hits_eq_true_iff {i : Fin n} {j : Fin m} {v : Visit n m} :
    v.hits i j = true ↔ v.input = j ∧ v.pre.id = i := decide_eq_true_iff

/-- How many of the visits count for a pair. -/
def count (H : List (Visit n m)) (i : Fin n) (j : Fin m) : ℕ := H.countP (hits i j)

theorem count_append (H K : List (Visit n m)) (i : Fin n) (j : Fin m) :
    count (H ++ K) i j = count H i j + count K i j := List.countP_append

theorem count_pos_iff {H : List (Visit n m)} {i : Fin n} {j : Fin m} :
    0 < count H i j ↔ ∃ v ∈ H, v.hits i j = true := List.countP_pos_iff

end Visit

namespace Store

variable (s : Store)

def listed (k : Fin s.numStates) (j : Fin s.numInputs) : List State :=
  match s.groupAt k j with
  | .ok xs => xs
  | .error _ => []

variable {s} in
theorem listed_of_groupAt {k : Fin s.numStates} {j : Fin s.numInputs} {xs : List State}
    (h : s.groupAt k j = .ok xs) : s.listed k j = xs := by
  rw [listed, h]

/-- Some slot says that input `j` may lead from `i` to `k`. -/
def Leads (i : Fin s.numStates) (j : Fin s.numInputs) (k : Fin s.numStates) : Prop :=
  s.state i ∈ s.listed k j

instance (i : Fin s.numStates) (j : Fin s.numInputs) : DecidablePred (s.Leads i j) :=
  fun k => inferInstanceAs (Decidable (s.state i ∈ s.listed k j))

/-- The states of the store that belong to a set. -/
def members {α : Type} [StateSet α] (set : α) : Set (Fin s.numStates) :=
  {i | StateSet.contains set (s.state i) = true}

/-- Every group lies inside the flat array. -/
def Inside : Prop := ∀ k j, s.groupAt k j = .ok (s.listed k j)

def visits (k : Fin s.numStates) : List (Visit s.numStates s.numInputs) :=
  (List.finRange s.numInputs).flatMap fun j => (s.listed k j).map fun x => ⟨k, j, x⟩

variable {s}

theorem inside_iff : s.Inside ↔ ∀ k j,
    (s.groups.get k j).offset.toNat + (s.groups.get k j).size.toNat ≤ s.slots.size := by
  refine forall_congr' fun k => forall_congr' fun j => ⟨fun h => ?_, fun h => ?_⟩
  · by_contra hout
    rw [groupAt, slice] at h
    simp only [if_neg hout, reduceCtorEq] at h
  · simp only [listed, groupAt, slice, if_pos h]

theorem input_inj {j j' : Fin s.numInputs} : s.input j = s.input j' ↔ j = j' := by
  constructor
  · intro h
    exact Fin.ext (congrArg Input.id h)
  · rintro rfl
    rfl

theorem locate_of_lt {x : State} {u : Input} (hx : x.id < s.numStates) (hu : u.id < s.numInputs) :
    s.locate x u = .ok (⟨x.id, hx⟩, ⟨u.id, hu⟩) := by
  rw [locate, dif_pos hx, dif_pos hu]

theorem locate_of_state_le {x : State} {u : Input} (hx : s.numStates ≤ x.id) :
    s.locate x u = .error (.stateNotInStore x) := by
  rw [locate, dif_neg (Nat.not_lt_of_ge hx)]

theorem locate_of_input_le {x : State} {u : Input} (hx : x.id < s.numStates)
    (hu : s.numInputs ≤ u.id) : s.locate x u = .error (.inputNotInStore u) := by
  rw [locate, dif_pos hx, dif_neg (Nat.not_lt_of_ge hu)]

theorem locate_state (s : Store) (i : Fin s.numStates) (j : Fin s.numInputs) :
    s.locate (s.state i) (s.input j) = .ok (i, j) :=
  locate_of_lt i.isLt j.isLt

theorem successorCount_state (i : Fin s.numStates) (j : Fin s.numInputs) :
    s.successorCount (s.state i) (s.input j) = .ok (s.successorCountAt i j) := by
  rw [successorCount, locate_state]
  rfl

theorem group_state (h : s.Inside) (k : Fin s.numStates) (j : Fin s.numInputs) :
    s.group (s.state k) (s.input j) = .ok (s.listed k j) := by
  rw [group, locate_state]
  exact h k j

theorem containsId_eq_true_iff {α : Type} [StateSet α] {set : α} (i : Fin s.numStates) :
    StateSet.containsId set i = true ↔ i ∈ s.members set := by
  have hid : State.ofId? i = some (s.state i) := State.ofId?_eq_some_iff.mpr rfl
  rw [StateSet.containsId, hid, Option.any_some]
  rfl

theorem exists_state_eq {x : State} (h : x.id < s.numStates) : ∃ i, x = s.state i :=
  ⟨⟨x.id, h⟩, rfl⟩

theorem mem_visits {k : Fin s.numStates} {v : Visit s.numStates s.numInputs} :
    v ∈ s.visits k ↔ v.post = k ∧ v.pre ∈ s.listed k v.input := by
  simp only [visits, List.mem_flatMap, List.mem_finRange, true_and, List.mem_map]
  constructor
  · intro h
    rcases h with ⟨j, x, hx, rfl⟩
    exact ⟨rfl, hx⟩
  · intro h
    rcases h with ⟨rfl, hx⟩
    exact ⟨v.input, v.pre, hx, rfl⟩

theorem pairwise_visits (hs : ∀ k j, (s.listed k j).Pairwise fun x y => x.id < y.id)
    (k : Fin s.numStates) :
    (s.visits k).Pairwise fun v w =>
      v.input < w.input ∨ v.input = w.input ∧ v.pre.id < w.pre.id := by
  rw [visits, List.pairwise_flatMap]
  constructor
  · intro j _
    rw [List.pairwise_map]
    exact (hs k j).imp fun hlt => .inr ⟨rfl, hlt⟩
  · apply (List.pairwise_lt_finRange _).imp
    intro j j' hlt v hv w hw
    obtain ⟨x, -, rfl⟩ := List.mem_map.mp hv
    obtain ⟨y, -, rfl⟩ := List.mem_map.mp hw
    exact .inl hlt

/-- A fold over the groups of a state that succeeds is a fold over the visits to the state. -/
theorem foldlM_visits_of_groups {k : Fin s.numStates} {ε β : Type}
    {f : Fin s.numInputs → β → State → Except ε β} {g : β → Fin s.numInputs → Except ε β}
    (hgroup : ∀ b j b', g b j = .ok b' → (s.listed k j).foldlM (f j) b = .ok b') {b b' : β}
    (h : (List.finRange s.numInputs).foldlM g b = .ok b') :
    (s.visits k).foldlM (fun b v => f v.input b v.pre) b = .ok b' := by
  rw [visits, foldlM_flatMap]
  simp only [List.foldlM_map]
  have hstep : ∀ j ∈ List.finRange s.numInputs, ∀ b₁ b₂ b₁', b₁ = b₂ → g b₁ j = .ok b₁' →
      ∃ b₂', (s.listed k j).foldlM (f j) b₂ = .ok b₂' ∧ b₁' = b₂' := by
    rintro j - b₁ _ b₁' rfl hj
    exact ⟨b₁', hgroup b₁ j b₁' hj, rfl⟩
  obtain ⟨b₂, hb₂, rfl⟩ := exists_foldlM_related (· = ·) hstep rfl h
  exact hb₂

theorem exists_hits_iff {L : List (Fin s.numStates)} {i : Fin s.numStates} {j : Fin s.numInputs}
    {k : Fin s.numStates} :
    (∃ v ∈ L.flatMap s.visits, v.hits i j = true ∧ v.post = k) ↔ k ∈ L ∧ s.Leads i j k := by
  constructor
  · intro h
    rcases h with ⟨v, hv, hhits, rfl⟩
    obtain ⟨q, hq, hvq⟩ := List.mem_flatMap.mp hv
    obtain ⟨rfl, hlisted⟩ := mem_visits.mp hvq
    obtain ⟨rfl, hpre⟩ := Visit.hits_eq_true_iff.mp hhits
    rw [State.ext_id (t := s.state i) hpre] at hlisted
    exact ⟨hq, hlisted⟩
  · intro h
    rcases h with ⟨hk, hleads⟩
    exact ⟨⟨k, j, s.state i⟩, List.mem_flatMap.mpr ⟨k, hk, mem_visits.mpr ⟨rfl, hleads⟩⟩,
      Visit.hits_eq_true_iff.mpr ⟨rfl, rfl⟩, rfl⟩

theorem count_visits (k i : Fin s.numStates) (j : Fin s.numInputs) :
    Visit.count (s.visits k) i j = (s.listed k j).count (s.state i) := by
  have hgroup : ∀ j' : Fin s.numInputs,
      ((s.listed k j').map fun x => (⟨k, j', x⟩ : Visit _ _)).countP (Visit.hits i j) =
        if j' = j then (s.listed k j).count (s.state i) else 0 := by
    intro j'
    rw [List.countP_map]
    split
    · next hj =>
      subst hj
      rw [List.count]
      congr 1
      funext x
      rw [Bool.eq_iff_iff, beq_iff_eq, Function.comp_apply, Visit.hits_eq_true_iff]
      exact ⟨fun h => State.ext_id h.2, fun h => ⟨rfl, congrArg State.id h⟩⟩
    · next hj =>
      rw [List.countP_eq_zero]
      intro x _
      rw [Function.comp_apply, Visit.hits_eq_true_iff]
      exact fun h => hj h.1
  rw [Visit.count, visits, List.countP_flatMap]
  simp only [Function.comp_def, hgroup]
  rw [← Fin.sum_univ_def, Finset.sum_ite_eq' Finset.univ j, if_pos (Finset.mem_univ j)]

theorem count_flatMap_visits (L : List (Fin s.numStates)) (hL : L.Nodup) (i : Fin s.numStates)
    (j : Fin s.numInputs) :
    Visit.count (L.flatMap s.visits) i j =
      ∑ k ∈ L.toFinset, (s.listed k j).count (s.state i) := by
  rw [Visit.count, List.countP_flatMap, List.sum_toFinset _ hL]
  congr 1
  exact List.map_congr_left fun k _ => count_visits k i j

variable (s)

/-- All groups lie inside the flat array and list states of the store, and no pair is listed more
often than its number of successors says. -/
structure Adequate : Prop where
  inside : s.Inside
  known : ∀ k j, ∀ x ∈ s.listed k j, x.id < s.numStates
  covered : ∀ i j, ∑ k, (s.listed k j).count (s.state i) ≤ s.successorCountAt i j

variable {s} in
/-- However many different states are visited, no pair is hit more often than it has successors. -/
theorem Adequate.count_le (h : s.Adequate) {L : List (Fin s.numStates)} (hL : L.Nodup)
    (i : Fin s.numStates) (j : Fin s.numInputs) :
    Visit.count (L.flatMap s.visits) i j ≤ s.successorCountAt i j := by
  rw [count_flatMap_visits L hL]
  exact (Finset.sum_le_sum_of_subset (Finset.subset_univ _)).trans (h.covered i j)

/-- All groups lie inside the flat array and list states of the store without repetition, and the
numbers of successors are those of the relation. -/
structure Exact : Prop where
  inside : s.Inside
  known : ∀ k j, ∀ x ∈ s.listed k j, x.id < s.numStates
  nodup : ∀ k j, (s.listed k j).Nodup
  counted : ∀ i j, s.successorCountAt i j = (Finset.univ.filter (s.Leads i j)).card

variable {s}

theorem Exact.count_listed (h : s.Exact) (k i : Fin s.numStates) (j : Fin s.numInputs) :
    (s.listed k j).count (s.state i) = if s.Leads i j k then 1 else 0 := by
  split
  · next hi => exact List.count_eq_one_of_mem (h.nodup k j) hi
  · next hi => exact List.count_eq_zero.mpr hi

theorem Exact.adequate (h : s.Exact) : s.Adequate where
  inside := h.inside
  known := h.known
  covered i j := by
    simp only [h.count_listed, h.counted, Finset.card_filter, le_refl]

/-- The visits to a list of states hit a pair once for each of its successors in the list. -/
theorem Exact.count_eq_card (h : s.Exact) {L : List (Fin s.numStates)} (hL : L.Nodup)
    (i : Fin s.numStates) (j : Fin s.numInputs) :
    Visit.count (L.flatMap s.visits) i j = (L.toFinset.filter (s.Leads i j)).card := by
  simp only [count_flatMap_visits L hL, h.count_listed, Finset.card_filter]

theorem Exact.count_eq_iff (h : s.Exact) {L : List (Fin s.numStates)} (hL : L.Nodup)
    (i : Fin s.numStates) (j : Fin s.numInputs) :
    Visit.count (L.flatMap s.visits) i j = s.successorCountAt i j ↔ ∀ k, s.Leads i j k → k ∈ L := by
  have hsub : L.toFinset.filter (s.Leads i j) ⊆ Finset.univ.filter (s.Leads i j) :=
    Finset.filter_subset_filter _ (Finset.subset_univ _)
  rw [h.count_eq_card hL, h.counted]
  constructor
  · intro hcard k hk
    have hmem : k ∈ L.toFinset.filter (s.Leads i j) := by
      rw [Finset.eq_of_subset_of_card_le hsub hcard.ge]
      exact Finset.mem_filter.mpr ⟨Finset.mem_univ k, hk⟩
    exact List.mem_toFinset.mp (Finset.mem_filter.mp hmem).1
  · intro hall
    congr 1
    refine hsub.antisymm fun k hk => ?_
    have hleads := (Finset.mem_filter.mp hk).2
    exact Finset.mem_filter.mpr ⟨List.mem_toFinset.mpr (hall k hleads), hleads⟩

theorem Exact.applicable_iff (h : s.Exact) (i : Fin s.numStates) (j : Fin s.numInputs) :
    s.applicable i j = true ↔ ∃ k, s.Leads i j k := by
  rw [applicable, decide_eq_true_iff, h.counted, Finset.card_pos]
  exact ⟨fun ⟨k, hk⟩ => ⟨k, (Finset.mem_filter.mp hk).2⟩,
    fun ⟨k, hk⟩ => ⟨k, Finset.mem_filter.mpr ⟨Finset.mem_univ k, hk⟩⟩⟩

/-! ### Stores of one size -/

/-- The two stores have the same numbers of states and of inputs. -/
structure SameSize (s s' : Store) : Prop where
  numStates : s.numStates = s'.numStates
  numInputs : s.numInputs = s'.numInputs

theorem SameSize.symm {s' : Store} (h : s.SameSize s') : s'.SameSize s :=
  ⟨h.numStates.symm, h.numInputs.symm⟩

end Store

theorem finRange_cast {n n' : ℕ} (hn : n = n') :
    (List.finRange n).map (Fin.cast hn) = List.finRange n' := by
  subst hn
  exact List.map_id _

end ControlGames
