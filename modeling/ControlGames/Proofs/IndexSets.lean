import Mathlib.Data.Set.Card
import ControlGames.IndexSet.Membership

/-!
# Equal index sets

An index set counts its members as they come and go. Two sets of the same capacity that have the
same members are therefore equal, word by word and in their counts.
-/
namespace ControlGames

theorem ncard_eq_length {α : Type} {X : Set α} {xs : List α} (hxs : xs.Nodup)
    (hX : ∀ x, x ∈ X ↔ x ∈ xs) : X.ncard = xs.length := by
  classical
  have hset : X = (xs.toFinset : Set α) := by
    ext x
    rw [hX, SetLike.mem_coe, List.mem_toFinset]
  rw [hset, Set.ncard_coe_finset, List.toFinset_card_of_nodup hxs]

namespace IndexSet

variable {s t : IndexSet}

def members (s : IndexSet) : Set ℕ := {i | s.contains i = true}

theorem mem_members {i : ℕ} : i ∈ s.members ↔ s.contains i = true := Iff.rfl

theorem finite_members (s : IndexSet) : s.members.Finite :=
  (Set.finite_lt_nat s.capacity).subset fun _ hi => lt_capacity_of_contains hi

theorem members_withCapacity (bits : ℕ) : (withCapacity bits).members = ∅ := by
  ext i
  rw [mem_members, contains_withCapacity]
  exact ⟨nofun, nofun⟩

theorem members_insert (s : IndexSet) (i : ℕ) :
    (s.insert i).2.members = Insert.insert i s.members := by
  ext k
  rw [mem_members, contains_insert, Bool.or_eq_true, decide_eq_true_eq, Set.mem_insert_iff,
    mem_members, eq_comm]

theorem members_remove (s : IndexSet) (i : ℕ) : (s.remove i).2.members = s.members \ {i} := by
  ext k
  rw [mem_members, contains_remove, Bool.and_eq_true, Bool.not_eq_true', decide_eq_false_iff_not,
    Set.mem_sdiff, Set.mem_singleton_iff, mem_members, and_comm, eq_comm (a := i)]

/-! ### Counts -/

def Counted (s : IndexSet) : Prop := s.count = s.members.ncard

theorem counted_withCapacity (bits : ℕ) : (withCapacity bits).Counted := by
  rw [Counted, members_withCapacity, Set.ncard_empty]
  rfl

theorem Counted.insert (h : s.Counted) (i : ℕ) : (s.insert i).2.Counted := by
  rw [Counted, members_insert]
  by_cases hi : s.contains i = true
  · rw [Set.insert_eq_of_mem (mem_members.mpr hi), IndexSet.insert, if_pos hi]
    exact h
  · rw [Set.ncard_insert_of_notMem (mem_members.not.mpr hi) s.finite_members, ← h,
      IndexSet.insert, if_neg hi]

theorem Counted.remove (h : s.Counted) (i : ℕ) : (s.remove i).2.Counted := by
  rw [Counted, members_remove]
  by_cases hi : s.contains i = true
  · rw [Set.ncard_sdiff_singleton_of_mem (mem_members.mpr hi), ← h, IndexSet.remove, if_pos hi]
  · rw [Set.sdiff_singleton_eq_self (mem_members.not.mpr hi), IndexSet.remove, if_neg hi]
    exact h

/-! ### Capacities -/

/-- An insertion makes room for its index and for no more. -/
theorem size_words_insert (s : IndexSet) (i : ℕ) :
    (s.insert i).2.words.size = max s.words.size (i / 64 + 1) := by
  unfold insert
  split
  · next hi =>
    have hlt : i < 64 * s.words.size := lt_capacity_of_contains hi
    change s.words.size = _
    omega
  · rw [Array.size_modify, size_grown]

theorem size_words_remove (s : IndexSet) (i : ℕ) : (s.remove i).2.words.size = s.words.size := by
  unfold remove
  split
  · exact Array.size_modify
  · rfl

/-- The set has the words that the indices below `bits` take, and the right count. -/
structure Fits (s : IndexSet) (bits : ℕ) : Prop where
  counted : s.Counted
  size_words : s.words.size = (bits + 63) / 64

variable {bits : ℕ}

theorem fits_withCapacity (bits : ℕ) : (withCapacity bits).Fits bits :=
  ⟨counted_withCapacity bits, Array.size_replicate⟩

theorem Fits.insert (h : s.Fits bits) {i : ℕ} (hi : i < bits) : (s.insert i).2.Fits bits := by
  refine ⟨h.counted.insert i, ?_⟩
  rw [size_words_insert, h.size_words]
  omega

theorem Fits.remove (h : s.Fits bits) (i : ℕ) : (s.remove i).2.Fits bits :=
  ⟨h.counted.remove i, (size_words_remove s i).trans h.size_words⟩

theorem Fits.insertMany (h : s.Fits bits) {is : List ℕ} (his : ∀ i ∈ is, i < bits) :
    (s.insertMany is).Fits bits := by
  induction is generalizing s with
  | nil => exact h
  | cons i is ih =>
    exact ih (h.insert (his i List.mem_cons_self)) fun k hk => his k (List.mem_cons_of_mem i hk)

/-! ### Equality -/

theorem getLsbD_words {k b : ℕ} (hk : k < s.words.size) (hb : b < 64) :
    s.words[k].toBitVec.getLsbD b = s.contains (64 * k + b) := by
  have hword : (64 * k + b) / 64 = k := by omega
  have hbit : (64 * k + b) % 64 = b := by omega
  rw [contains_eq_any, hword, hbit, Array.getElem?_eq_getElem hk, Option.any_some]

theorem Fits.eq_of_members_eq (hs : s.Fits bits) (ht : t.Fits bits) (h : s.members = t.members) :
    s = t := by
  have hcontains : ∀ i, s.contains i = t.contains i := fun i =>
    Bool.eq_iff_iff.mpr (Set.ext_iff.mp h i)
  have hwords : s.words = t.words := by
    refine Array.ext (hs.size_words.trans ht.size_words.symm) fun k hk hk' => ?_
    rw [← UInt64.toBitVec_inj]
    refine BitVec.eq_of_getLsbD_eq fun b hb => ?_
    rw [getLsbD_words hk hb, getLsbD_words hk' hb, hcontains]
  have hcount : s.count = t.count := by rw [hs.counted, ht.counted, h]
  cases s
  cases t
  simp only [IndexSet.mk.injEq]
  exact ⟨hwords, hcount⟩

end IndexSet

end ControlGames
