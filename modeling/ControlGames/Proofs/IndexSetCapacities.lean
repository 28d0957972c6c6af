import ControlGames.Proofs.IndexSetHistories

/-!
# Capacities of index sets

An index set grows by as many words as an index that is inserted asks for, and it never shrinks. So
its capacity is that with which it was made, or that of the largest index that it has ever been
given. Two sets are equal if neither their members nor their capacities differ.
-/
namespace ControlGames.IndexSet

def wordsFor (is : List ℕ) : ℕ := is.max?.elim 0 (· / 64 + 1)

theorem wordsFor_le_iff {is : List ℕ} {k : ℕ} : wordsFor is ≤ k ↔ ∀ i ∈ is, i / 64 + 1 ≤ k := by
  unfold wordsFor
  cases hmax : is.max? with
  | none =>
    rw [List.max?_eq_none_iff] at hmax
    simp [hmax]
  | some a =>
    obtain ⟨hmem, hle⟩ := List.max?_eq_some_iff.mp hmax
    rw [Option.elim_some]
    constructor
    · intro ha i hi
      have hia := hle i hi
      omega
    · exact fun hall => hall a hmem

theorem wordsFor_append (is js : List ℕ) :
    wordsFor (is ++ js) = max (wordsFor is) (wordsFor js) := by
  refine eq_of_forall_ge_iff fun k => ?_
  simp only [max_le_iff, wordsFor_le_iff, List.mem_append, or_imp, forall_and]

/-! ### Words over a history -/

namespace Origin

def words : Origin → ℕ
  | empty | ofList _ => 0
  | withCapacity bits | ofPred bits _ => (bits + 63) / 64
  | ofStates n _ => (n + 63) / 64

def inserted : Origin → List ℕ
  | empty | withCapacity _ => []
  | ofList is => is
  | ofPred bits p => (List.range bits).filter p
  | ofStates n set => (List.range n).filter (StateSet.containsId set)

end Origin

def Change.inserted : Change → List ℕ
  | insert i => [i]
  | remove _ => []
  | insertMany is => is

theorem size_words_withCapacity (bits : ℕ) : (withCapacity bits).words.size = (bits + 63) / 64 :=
  Array.size_replicate

theorem size_words_insertMany (s : IndexSet) (is : List ℕ) :
    (s.insertMany is).words.size = max s.words.size (wordsFor is) := by
  induction is generalizing s with
  | nil => exact (max_eq_left (Nat.zero_le _)).symm
  | cons i is ih =>
    have hcons : wordsFor (i :: is) = max (i / 64 + 1) (wordsFor is) := wordsFor_append [i] is
    have hmany : (s.insert i).2.insertMany is = s.insertMany (i :: is) := rfl
    rw [← hmany, ih, size_words_insert, hcons, max_assoc]

theorem size_words_ofPred (bits : ℕ) (p : ℕ → Bool) : (ofPred bits p).words.size =
    max ((bits + 63) / 64) (wordsFor ((List.range bits).filter p)) := by
  rw [ofPred_eq_insertMany, size_words_insertMany, size_words_withCapacity]

theorem Origin.size_words_make {o : Origin} {s : IndexSet} (h : o.make = .ok s) :
    s.words.size = max o.words (wordsFor o.inserted) := by
  cases o with
  | empty =>
    cases h
    rfl
  | withCapacity bits =>
    cases h
    rw [size_words_withCapacity]
    exact (max_eq_left (Nat.zero_le _)).symm
  | ofList is =>
    cases h
    exact size_words_insertMany .empty is
  | ofPred bits p =>
    cases h
    exact size_words_ofPred bits p
  | ofStates n set =>
    rw [make, IndexSet.ofStates] at h
    split at h
    · cases h
    · cases h
      exact size_words_ofPred n _

theorem size_words_apply (s : IndexSet) (c : Change) :
    (c.apply s).words.size = max s.words.size (wordsFor c.inserted) := by
  cases c with
  | insert i => exact size_words_insert s i
  | remove i =>
    rw [Change.apply, size_words_remove]
    exact (max_eq_left (Nat.zero_le _)).symm
  | insertMany is => exact size_words_insertMany s is

/-- After a sequence of changes a set has the words it had before, or those for the largest index
inserted since. -/
theorem size_words_foldl_apply (s : IndexSet) (changes : List Change) :
    (changes.foldl Change.apply s).words.size =
      max s.words.size (wordsFor (changes.flatMap Change.inserted)) := by
  induction changes generalizing s with
  | nil => exact (max_eq_left (Nat.zero_le _)).symm
  | cons c changes ih =>
    rw [List.foldl_cons, ih, size_words_apply, List.flatMap_cons, wordsFor_append, max_assoc]

/-! ### Equality over histories -/

theorem Counted.eq_iff {s t : IndexSet} (hs : s.Counted) (ht : t.Counted) :
    s = t ↔ s.members = t.members ∧ s.capacity = t.capacity := by
  constructor
  · rintro rfl
    exact ⟨rfl, rfl⟩
  · rintro ⟨hmembers, hcapacity⟩
    unfold capacity at hcapacity
    have hfits : s.Fits (64 * s.words.size) := ⟨hs, by omega⟩
    exact hfits.eq_of_members_eq ⟨ht, by omega⟩ hmembers

theorem capacity_ofList (is : List ℕ) : (ofList is).capacity = 64 * wordsFor is := by
  rw [capacity, ofList, size_words_insertMany]
  exact congrArg _ (max_eq_right (Nat.zero_le _))

theorem members_ofList_toList (s : IndexSet) : (ofList s.toList).members = s.members := by
  ext i
  rw [mem_members, contains_ofList, decide_eq_true_eq, mem_toList, mem_members]

/-- However two index sets are made and changed, they are equal just if they have the same members
and the same capacity. The capacity is that of the words with which a set is made, or of those for
the largest index ever inserted, and it never shrinks. So a set is equal to the one that is made
anew from its members just if it has no more words than its largest member asks for. -/
theorem eq_foldl_iff {o o' : Origin} (h : o.Numbered) (h' : o'.Numbered) :
    ∃ s s', o.make = .ok s ∧ o'.make = .ok s' ∧ ∀ changes changes' : List Change,
      let t := changes.foldl Change.apply s
      let t' := changes'.foldl Change.apply s'
      (t = t' ↔ t.members = t'.members ∧ t.capacity = t'.capacity) ∧
      t.capacity = 64 * max o.words (wordsFor (o.inserted ++ changes.flatMap Change.inserted)) ∧
      (∀ more : List Change, t.capacity ≤ (more.foldl Change.apply t).capacity) ∧
      (t = ofList t.toList ↔ t.capacity = 64 * wordsFor t.toList) := by
  obtain ⟨s, hs, hcounted, -⟩ := Origin.exists_make_eq_ok h
  obtain ⟨s', hs', hcounted', -⟩ := Origin.exists_make_eq_ok h'
  refine ⟨s, s', hs, hs', fun changes changes' => ?_⟩
  intro t t'
  have ht : t.Counted := (hcounted.foldl_apply changes).1
  have ht' : t'.Counted := (hcounted'.foldl_apply changes').1
  refine ⟨ht.eq_iff ht', ?_, fun more => ?_, ?_⟩
  · rw [capacity, size_words_foldl_apply, Origin.size_words_make hs, wordsFor_append, max_assoc]
  · rw [capacity, capacity, size_words_foldl_apply t more]
    exact Nat.mul_le_mul_left 64 (le_max_left _ _)
  · have hlist : (ofList t.toList).Counted := (counted_withCapacity 0).insertMany t.toList
    rw [ht.eq_iff hlist, members_ofList_toList, capacity_ofList]
    exact and_iff_right rfl

/-- Once 1000 has been inserted its words stay, although it is taken out again. So the set is not
equal to the one made of its only member. -/
theorem eq_foldl_iff_of_removed :
    (Origin.withCapacity 100).Numbered ∧ (Origin.ofList [5]).Numbered ∧
    ∃ s s', (Origin.withCapacity 100).make = .ok s ∧ (Origin.ofList [5]).make = .ok s' ∧
      let t := [Change.insert 5, .insert 1000, .remove 1000].foldl Change.apply s
      t.capacity = 1024 ∧ t.members = s'.members ∧ t ≠ s' ∧ t ≠ ofList t.toList := by
  let changes : List Change := [.insert 5, .insert 1000, .remove 1000]
  have h : (Origin.withCapacity 100).Numbered := trivial
  have h' : (Origin.ofList [5]).Numbered := trivial
  obtain ⟨s, s', hs, hs', hall⟩ := eq_foldl_iff h h'
  obtain ⟨heq, hcapacity, -, hanew⟩ := hall changes []
  cases hs
  cases hs'
  have hmem : ∀ i, (changes.foldl Change.apply (withCapacity 100)).contains i = true ↔ i = 5 := by
    intro i
    have hi : (changes.foldl Change.apply (withCapacity 100)).contains i = true ↔
        1000 ≠ i ∧ (1000 = i ∨ 5 = i) := by
      simp [changes, Change.apply, contains_insert, contains_remove]
    rw [hi]
    omega
  have hcapacity : (changes.foldl Change.apply (withCapacity 100)).capacity = 1024 := hcapacity
  refine ⟨h, h', _, _, rfl, rfl, hcapacity, ?_, fun h => ?_, fun h => ?_⟩
  · ext i
    rw [mem_members, hmem, mem_members, contains_ofList]
    simp
  · have hsame := (heq.mp h).2
    rw [hcapacity] at hsame
    exact absurd hsame (by decide)
  · have hwords : wordsFor (changes.foldl Change.apply (withCapacity 100)).toList ≤ 1 := by
      refine wordsFor_le_iff.mpr fun i hi => ?_
      rw [(hmem i).mp (mem_toList.mp hi)]
    have hsame := hanew.mp h
    rw [hcapacity] at hsame
    omega

end ControlGames.IndexSet
