import ControlGames.StateSet
import ControlGames.Proofs.IndexSets

/-!
# Index sets over their histories

An index set starts empty or with the indices that it is made from, and then indices come and go.
Whatever its history, it answers as the mathematical set with the same history does: for every
index, also beyond the capacity, and with the number of members that it has counted.
-/
namespace ControlGames.IndexSet

/-! ### Origins -/

/-- The ways to make an index set. -/
inductive Origin : Type 1
  | empty
  | withCapacity (bits : ℕ)
  | ofList (is : List ℕ)
  | ofPred (bits : ℕ) (p : ℕ → Bool)
  | ofStates {α : Type} [StateSet α] (n : ℕ) (set : α)

namespace Origin

/-- Makes the set, which fails if the states are to be numbered up to the reserved number. -/
def make : Origin → Except Fault IndexSet
  | empty => .ok .empty
  | withCapacity bits => .ok (.withCapacity bits)
  | ofList is => .ok (.ofList is)
  | ofPred bits p => .ok (.ofPred bits p)
  | ofStates n set => IndexSet.ofStates n set

def Numbered : Origin → Prop
  | ofStates n _ => n ≤ reserved
  | _ => True

def indices : Origin → Set ℕ
  | empty | withCapacity _ => ∅
  | ofList is => {i | i ∈ is}
  | ofPred bits p => {i | i < bits ∧ p i = true}
  | ofStates n set => {i | i < n ∧ ∃ x : State, x.id = i ∧ StateSet.contains set x = true}

end Origin

/-! ### Changes -/

inductive Change
  | insert (i : ℕ)
  | remove (i : ℕ)
  | insertMany (is : List ℕ)

namespace Change

def apply (s : IndexSet) : Change → IndexSet
  | insert i => (s.insert i).2
  | remove i => (s.remove i).2
  | insertMany is => s.insertMany is

def applySet (X : Set ℕ) : Change → Set ℕ
  | insert i => Insert.insert i X
  | remove i => X \ {i}
  | insertMany is => X ∪ {i | i ∈ is}

end Change

/-! ### Members and counts -/

theorem members_insertMany (s : IndexSet) (is : List ℕ) :
    (s.insertMany is).members = s.members ∪ {i | i ∈ is} := by
  ext k
  simp [mem_members, contains_insertMany, or_comm]

theorem Counted.insertMany {s : IndexSet} (h : s.Counted) (is : List ℕ) :
    (s.insertMany is).Counted := by
  induction is generalizing s with
  | nil => exact h
  | cons i is ih => exact ih (h.insert i)

theorem counted_ofPred (bits : ℕ) (p : ℕ → Bool) : (ofPred bits p).Counted := by
  rw [ofPred_eq_insertMany]
  exact (counted_withCapacity bits).insertMany _

theorem Counted.isEmpty_iff {s : IndexSet} (h : s.Counted) : s.isEmpty = true ↔ s.members = ∅ := by
  rw [isEmpty, beq_iff_eq, h, Set.ncard_eq_zero s.finite_members]

theorem insert_fst (s : IndexSet) (i : ℕ) : (s.insert i).1 = !s.contains i := by
  unfold insert
  split
  · next hi => simp [hi]
  · next hi => simp [hi]

theorem remove_fst (s : IndexSet) (i : ℕ) : (s.remove i).1 = s.contains i := by
  unfold remove
  split
  · next hi => simp [hi]
  · next hi => simp [hi]

theorem Counted.count_remove {s : IndexSet} (h : s.Counted) {i : ℕ} (hi : s.contains i = true) :
    (s.remove i).2.count + 1 = s.count := by
  rw [h.remove i, h, members_remove]
  exact Set.ncard_sdiff_singleton_add_one (mem_members.mpr hi) s.finite_members

/-! ### Histories -/

theorem Origin.exists_make_eq_ok {o : Origin} (h : o.Numbered) :
    ∃ s, o.make = .ok s ∧ s.Counted ∧ s.members = o.indices := by
  cases o with
  | empty => exact ⟨_, rfl, counted_withCapacity 0, members_withCapacity 0⟩
  | withCapacity bits => exact ⟨_, rfl, counted_withCapacity bits, members_withCapacity bits⟩
  | ofList is =>
    refine ⟨_, rfl, (counted_withCapacity 0).insertMany is, ?_⟩
    ext i
    simp [mem_members, contains_ofList, indices]
  | ofPred bits p =>
    refine ⟨_, rfl, counted_ofPred bits p, ?_⟩
    ext i
    simp [mem_members, contains_ofPred, indices]
  | ofStates n set =>
    refine ⟨_, if_neg (Nat.not_lt.mpr h), counted_ofPred n _, ?_⟩
    ext i
    simp [mem_members, StateSet.indices, contains_ofPred, indices, StateSet.containsId,
      Option.any_eq_true, State.ofId?_eq_some_iff]

/-- A change keeps the count right and changes the members as it changes a mathematical set. -/
theorem Counted.apply {s : IndexSet} (h : s.Counted) (c : Change) :
    (c.apply s).Counted ∧ (c.apply s).members = c.applySet s.members := by
  cases c with
  | insert i => exact ⟨h.insert i, members_insert s i⟩
  | remove i => exact ⟨h.remove i, members_remove s i⟩
  | insertMany is => exact ⟨h.insertMany is, members_insertMany s is⟩

theorem Counted.foldl_apply {s : IndexSet} (h : s.Counted) (changes : List Change) :
    (changes.foldl Change.apply s).Counted ∧
      (changes.foldl Change.apply s).members = changes.foldl Change.applySet s.members := by
  induction changes generalizing s with
  | nil => exact ⟨h, rfl⟩
  | cons c changes ih =>
    obtain ⟨hcounted, hmembers⟩ := h.apply c
    rw [List.foldl_cons, List.foldl_cons, ← hmembers]
    exact ih hcounted

/-- The index set answers as the mathematical set does. Its count never runs out: a member that is
taken out has been counted. -/
structure Mirrors (s : IndexSet) (X : Set ℕ) : Prop where
  contains : ∀ i, s.contains i = true ↔ i ∈ X
  finite : X.Finite
  count : s.count = X.ncard
  isEmpty : s.isEmpty = true ↔ X = ∅
  insert : ∀ i, (s.insert i).1 = true ↔ i ∉ X
  remove : ∀ i, (s.remove i).1 = true ↔ i ∈ X
  count_remove : ∀ i, (s.remove i).1 = true → (s.remove i).2.count + 1 = s.count

theorem Counted.mirrors {s : IndexSet} (h : s.Counted) : s.Mirrors s.members where
  contains _ := Iff.rfl
  finite := s.finite_members
  count := h
  isEmpty := h.isEmpty_iff
  insert i := by simp [insert_fst, mem_members]
  remove i := by simp [remove_fst, mem_members]
  count_remove i hi := h.count_remove (remove_fst s i ▸ hi)

/-- However an index set is made, if only its states have numbers, after any sequence of changes it
answers as the mathematical set after the same changes does. -/
theorem mirrors_foldl {o : Origin} (h : o.Numbered) : ∃ s, o.make = .ok s ∧
    ∀ changes : List Change,
      (changes.foldl Change.apply s).Mirrors (changes.foldl Change.applySet o.indices) := by
  obtain ⟨s, hs, hcounted, hmembers⟩ := Origin.exists_make_eq_ok h
  refine ⟨s, hs, fun changes => ?_⟩
  obtain ⟨hcounted, hfold⟩ := hcounted.foldl_apply changes
  rw [← hmembers, ← hfold]
  exact hcounted.mirrors

/-- The numbers from 60 to 69 lie on both sides of the border between two words. One of them is
taken out and comes back, and one beyond the capacity is added. -/
theorem mirrors_foldl_of_range :
    let o := Origin.ofStates 100 (⟨60, 70⟩ : IdRange)
    let changes : List Change := [.remove 63, .insert 1000, .insertMany [64, 63]]
    o.Numbered ∧ ∃ s, o.make = .ok s ∧
      (changes.foldl Change.apply s).contains 63 = true ∧
      (changes.foldl Change.apply s).contains 1000 = true ∧
      ((changes.foldl Change.apply s).remove 5000).1 = false := by
  intro o changes
  have hnumbered : o.Numbered := by
    change 100 ≤ reserved
    decide
  obtain ⟨s, hs, hmirrors⟩ := mirrors_foldl hnumbered
  have h := hmirrors changes
  refine ⟨hnumbered, s, hs, (h.contains 63).mpr ?_, (h.contains 1000).mpr ?_, ?_⟩
  · simp [changes, Change.applySet]
  · simp [changes, Change.applySet]
  · rw [Bool.eq_false_iff, ne_eq, h.remove]
    simp [changes, o, Change.applySet, Origin.indices]

end ControlGames.IndexSet
