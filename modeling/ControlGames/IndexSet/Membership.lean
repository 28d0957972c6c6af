import ControlGames.IndexSet

/-! # Membership in index sets

Every operation on an index set acts on the set of its members: `insert` and `remove` change the
membership of one index only, and `ofPred` and `insertMany` follow from `insert`. -/
namespace ControlGames

namespace IndexSet

theorem toBitVec_mask (i : Nat) : (mask i).toBitVec = BitVec.twoPow 64 (i % 64) := by
  have hi : i % 64 < 2 ^ 64 := Nat.lt_trans (Nat.mod_lt i (by decide : 64 > 0)) (by decide)
  have h64 : i % 64 % 64 = i % 64 := Nat.mod_mod i 64
  simp only [mask, UInt64.toBitVec_shiftLeft, BitVec.twoPow, BitVec.shiftLeft_eq']
  congr 1
  simp only [UInt64.toBitVec_ofNat', BitVec.toNat_umod, BitVec.toNat_ofNat, Nat.mod_eq_of_lt hi]
  exact h64

/-- Testing a word with the mask of an index reads one bit of it. -/
theorem and_mask_ne_zero (w : UInt64) (i : Nat) :
    (w &&& mask i != 0) = w.toBitVec.getLsbD (i % 64) := by
  have hi : i % 64 < 64 := Nat.mod_lt i (by decide)
  rw [Bool.eq_iff_iff, bne_iff_ne, ne_eq, ← UInt64.toBitVec_inj, UInt64.toBitVec_and,
    toBitVec_mask, BitVec.and_twoPow]
  split
  · next hb =>
    simp only [hb, iff_true]
    intro h0
    have := congrArg (BitVec.getLsbD · (i % 64)) h0
    simp [hi] at this
  · next hb => simp [hb]

theorem contains_eq_any (s : IndexSet) (i : Nat) :
    s.contains i = s.words[i / 64]?.any fun w => w.toBitVec.getLsbD (i % 64) := by
  unfold contains
  split
  · next w hw => rw [hw, Option.any_some, and_mask_ne_zero]
  · next hw => rw [hw, Option.any_none]

@[simp] theorem contains_empty (i : Nat) : empty.contains i = false := by
  simp [contains_eq_any, empty]

@[simp] theorem contains_withCapacity (bits i : Nat) : (withCapacity bits).contains i = false := by
  simp only [contains_eq_any, withCapacity, Array.getElem?_replicate]
  split <;> simp

theorem getElem?_grown (words : Array UInt64) (k j : Nat) :
    (grown words k)[j]? = if j < words.size then words[j]? else if j < k then some 0 else none := by
  unfold grown
  split
  · next hk =>
    split
    · rfl
    · next hj => rw [if_neg (by omega), Array.getElem?_eq_none (by omega)]
  · next hk =>
    rw [Array.getElem?_append]
    split
    · rfl
    · next hj =>
      rw [Array.getElem?_replicate]
      congr 1
      simp only [eq_iff_iff]
      omega

theorem same_place {i j : Nat} (hd : i / 64 = j / 64) (hm : i % 64 = j % 64) : i = j := by
  rw [← Nat.div_add_mod i 64, ← Nat.div_add_mod j 64, hd, hm]

theorem getLsbD_mask (i k : Nat) :
    (mask i).toBitVec.getLsbD k = decide (i % 64 = k) := by
  have hi : i % 64 < 64 := Nat.mod_lt i (by decide)
  simp [toBitVec_mask, hi]

theorem decide_eq_of_word {i j : Nat} (hw : i / 64 = j / 64) :
    decide (i % 64 = j % 64) = decide (i = j) := by
  rw [decide_eq_decide]
  exact ⟨same_place hw, fun h => h ▸ rfl⟩

theorem contains_grown (words : Array UInt64) (c c' k j : Nat) :
    (⟨grown words k, c⟩ : IndexSet).contains j = (⟨words, c'⟩ : IndexSet).contains j := by
  rw [contains_eq_any, contains_eq_any, getElem?_grown]
  split
  · rfl
  · next hj =>
    rw [Array.getElem?_eq_none (Nat.le_of_not_lt hj)]
    split <;> simp

theorem contains_modify_or {words : Array UInt64} {i : Nat} (hi : i / 64 < words.size)
    (c c' j : Nat) :
    (⟨words.modify (i / 64) (· ||| mask i), c⟩ : IndexSet).contains j =
      (decide (i = j) || (⟨words, c'⟩ : IndexSet).contains j) := by
  simp only [contains_eq_any, Array.getElem?_modify]
  by_cases hw : i / 64 = j / 64
  · rw [if_pos hw, Array.getElem?_eq_getElem (hw ▸ hi), Option.map_some, Option.any_some,
      Option.any_some, UInt64.toBitVec_or, BitVec.getLsbD_or, getLsbD_mask,
      decide_eq_of_word hw, Bool.or_comm]
  · have hij : i ≠ j := fun h => hw (h ▸ rfl)
    rw [if_neg hw, decide_eq_false hij, Bool.false_or]

theorem size_grown (words : Array UInt64) (k : Nat) : (grown words k).size = max words.size k := by
  unfold grown
  split
  · omega
  · simp only [Array.size_append, Array.size_replicate]
    omega

theorem contains_insert (s : IndexSet) (i j : Nat) :
    (s.insert i).2.contains j = (decide (i = j) || s.contains j) := by
  unfold insert
  split
  · next hi =>
    by_cases hij : i = j
    · simp [← hij, hi]
    · simp [hij]
  · have hsize : i / 64 < (grown s.words (i / 64 + 1)).size := by
      rw [size_grown]
      omega
    rw [contains_modify_or hsize _ s.count, contains_grown _ _ s.count]

theorem contains_remove (s : IndexSet) (i j : Nat) :
    (s.remove i).2.contains j = (!decide (i = j) && s.contains j) := by
  have hj : j % 64 < 64 := Nat.mod_lt j (by decide)
  unfold remove
  split
  · simp only [contains_eq_any, Array.getElem?_modify]
    by_cases hw : i / 64 = j / 64
    · rw [if_pos hw, Option.any_map]
      cases s.words[j / 64]? with
      | none => simp
      | some w =>
        simp only [Option.any_some, UInt64.toBitVec_and, UInt64.toBitVec_not,
          BitVec.getLsbD_and, BitVec.getLsbD_not, getLsbD_mask, decide_eq_of_word hw, hj,
          decide_true, Bool.true_and, Bool.and_comm]
    · have hij : i ≠ j := fun h => hw (h ▸ rfl)
      simp [hw, hij]
  · next hi =>
    by_cases hij : i = j
    · simp [← hij, hi]
    · simp [hij]

theorem contains_insertMany (s : IndexSet) (is : List Nat) (j : Nat) :
    (s.insertMany is).contains j = (decide (j ∈ is) || s.contains j) := by
  induction is generalizing s with
  | nil => simp [insertMany]
  | cons i is ih =>
    have h : s.insertMany (i :: is) = (s.insert i).2.insertMany is := rfl
    rw [h, ih, contains_insert]
    by_cases hij : i = j
    · simp [hij]
    · simp [hij, Ne.symm hij]

theorem contains_ofList (is : List Nat) (j : Nat) : (ofList is).contains j = decide (j ∈ is) := by
  simp [ofList, contains_insertMany]

theorem ofPred_eq_insertMany (bits : Nat) (p : Nat → Bool) :
    ofPred bits p = (withCapacity bits).insertMany ((List.range bits).filter p) := by
  have hfold : ∀ (n : Nat) (s : IndexSet),
      n.fold (fun i _ s => if p i then (s.insert i).2 else s) s =
        s.insertMany ((List.range n).filter p) := by
    intro n s
    induction n with
    | zero => rfl
    | succ n ih =>
      rw [Nat.fold_succ, ih, List.range_succ, List.filter_append, insertMany, insertMany,
        List.foldl_append]
      cases hp : p n with
      | true => simp [hp]
      | false => simp [hp]
  exact hfold bits _

theorem contains_ofPred (bits : Nat) (p : Nat → Bool) (j : Nat) :
    (ofPred bits p).contains j = (decide (j < bits) && p j) := by
  rw [ofPred_eq_insertMany, contains_insertMany, contains_withCapacity, Bool.or_false]
  simp [List.mem_filter]

theorem lt_capacity_of_contains {s : IndexSet} {i : Nat} (h : s.contains i = true) :
    i < s.capacity := by
  rw [contains_eq_any] at h
  have hi : i / 64 < s.words.size := by
    apply Decidable.byContradiction
    intro hn
    rw [Array.getElem?_eq_none (Nat.le_of_not_lt hn)] at h
    cases h
  unfold capacity
  omega

theorem mem_wordMembers {s : IndexSet} {k i : Nat} :
    i ∈ s.wordMembers k ↔ i / 64 = k ∧ s.contains i = true := by
  have hrow : i ∈ ((List.range 64).map (64 * k + ·)).filter s.contains ↔
      i / 64 = k ∧ s.contains i = true := by
    rw [List.mem_filter, List.mem_map]
    constructor
    · rintro ⟨⟨j, hj, rfl⟩, hc⟩
      have := List.mem_range.mp hj
      exact ⟨by omega, hc⟩
    · rintro ⟨rfl, hc⟩
      exact ⟨⟨i % 64, List.mem_range.mpr (Nat.mod_lt i (by decide)), Nat.div_add_mod i 64⟩, hc⟩
  unfold wordMembers
  split
  · next hw =>
    constructor
    · intro h
      cases h
    · rintro ⟨rfl, hc⟩
      rw [contains_eq_any] at hc
      cases hi : s.words[i / 64]? with
      | none =>
        rw [hi] at hc
        cases hc
      | some w =>
        rw [hi, Option.getD_some] at hw
        rw [hi, hw] at hc
        simp at hc
  · exact hrow

theorem mem_toList {s : IndexSet} {i : Nat} : i ∈ s.toList ↔ s.contains i = true := by
  rw [toList, List.mem_flatMap]
  constructor
  · rintro ⟨k, _, h⟩
    exact (mem_wordMembers.mp h).2
  · intro h
    have hi := lt_capacity_of_contains h
    unfold capacity at hi
    exact ⟨i / 64, List.mem_range.mpr (by omega), mem_wordMembers.mpr ⟨rfl, h⟩⟩

end IndexSet

end ControlGames
