import ControlGames.Signed
import ControlGames.Proofs.IndexSetHistories

/-!
# Enumerating an index set

A cursor clears the lowest bit of the word at hand with every index that it returns, and passes over
words without bits. So what it has not returned yet is a list that gives up its first entry with
every call, and at the start this list holds the members in increasing order.
-/
namespace ControlGames.IndexSet

/-! ### Bits of a word -/

section Words

variable {w : UInt64} {b : ℕ}

def wordBits (w : UInt64) : List ℕ := (List.range 64).filter w.toBitVec.getLsbD

theorem mem_wordBits : b ∈ wordBits w ↔ w.toBitVec.getLsbD b = true := by
  rw [wordBits, List.mem_filter, List.mem_range, and_iff_right_iff_imp]
  exact BitVec.lt_of_getLsbD

theorem pairwise_wordBits (w : UInt64) : (wordBits w).Pairwise (· < ·) :=
  List.pairwise_lt_range.filter _

theorem wordBits_zero : wordBits 0 = [] := by
  simp [wordBits]

theorem getLsbD_lowestBit (hw : w ≠ 0) : w.toBitVec.getLsbD (lowestBit w) = true := by
  apply BitVec.getLsbD_true_ctz_of_ne_zero
  intro h
  exact hw (UInt64.toBitVec_inj.mp h)

theorem lowestBit_le (h : w.toBitVec.getLsbD b = true) : lowestBit w ≤ b := by
  by_contra hlt
  rw [BitVec.getLsbD_false_of_lt_ctz (Nat.lt_of_not_le hlt)] at h
  cases h

/-- Subtracting one turns the lowest bit off and those below it on. So the bits that stay are those
above the lowest one. -/
theorem getLsbD_and_sub_one : (w &&& (w - 1)).toBitVec.getLsbD b = true ↔
    w.toBitVec.getLsbD b = true ∧ ∃ b' < b, w.toBitVec.getLsbD b' = true := by
  have hsub : w.toBitVec - 1#64 = ~~~ (-w.toBitVec) := by
    rw [BitVec.not_neg]
  have hone : (1 : UInt64).toBitVec = 1#64 := rfl
  rw [UInt64.toBitVec_and, UInt64.toBitVec_sub, hone, hsub, BitVec.getLsbD_and, BitVec.getLsbD_not,
    BitVec.getLsbD_neg]
  by_cases hb : w.toBitVec.getLsbD b = true
  · have hlt := BitVec.lt_of_getLsbD hb
    simp only [hb, hlt, decide_true, Bool.true_and, Bool.true_xor, Bool.not_not,
      decide_eq_true_eq, true_and]
  · simp [hb]

/-- Clearing the lowest bit takes the first entry away. -/
theorem wordBits_eq_cons (hw : w ≠ 0) : wordBits w = lowestBit w :: wordBits (w &&& (w - 1)) := by
  have hlow := getLsbD_lowestBit hw
  have habove : ∀ b, b ∈ wordBits (w &&& (w - 1)) ↔
      w.toBitVec.getLsbD b = true ∧ lowestBit w < b := by
    intro b
    rw [mem_wordBits, getLsbD_and_sub_one]
    refine and_congr_right' ⟨?_, fun hlt => ⟨lowestBit w, hlt, hlow⟩⟩
    rintro ⟨b', hlt, hb'⟩
    exact (lowestBit_le hb').trans_lt hlt
  refine (pairwise_wordBits w).eq_of_mem_iff ?_ fun b => ?_
  · exact List.pairwise_cons.mpr ⟨fun b hb => ((habove b).mp hb).2, pairwise_wordBits _⟩
  · rw [List.mem_cons, habove, mem_wordBits]
    constructor
    · intro hb
      rcases (lowestBit_le hb).eq_or_lt with heq | hlt
      · exact .inl heq.symm
      · exact .inr ⟨hb, hlt⟩
    · rintro (rfl | ⟨hb, -⟩)
      · exact hlow
      · exact hb

end Words

/-! ### Members word by word -/

theorem wordMembers_eq {s : IndexSet} {k : ℕ} (hk : k < s.words.size) :
    s.wordMembers k = (wordBits s.words[k]).map (64 * k + ·) := by
  have hget : s.words[k]?.getD 0 = s.words[k] := by
    rw [Array.getElem?_eq_getElem hk, Option.getD_some]
  rw [wordMembers, hget]
  split
  · next hzero => rw [hzero, wordBits_zero, List.map_nil]
  · rw [List.filter_map, wordBits]
    congr 1
    refine List.filter_congr fun b hb => ?_
    rw [Function.comp_apply, getLsbD_words hk (List.mem_range.mp hb)]

theorem pairwise_toList (s : IndexSet) : s.toList.Pairwise (· < ·) := by
  rw [toList, List.pairwise_flatMap]
  constructor
  · intro k hk
    rw [wordMembers_eq (List.mem_range.mp hk), List.pairwise_map]
    exact (pairwise_wordBits _).imp fun hlt => Nat.add_lt_add_left hlt _
  · refine List.pairwise_lt_range.imp fun {k k'} hlt => ?_
    intro i hi i' hi'
    obtain ⟨rfl, -⟩ := mem_wordMembers.mp hi
    obtain ⟨rfl, -⟩ := mem_wordMembers.mp hi'
    omega

theorem Counted.length_toList {s : IndexSet} (h : s.Counted) : s.toList.length = s.count := by
  rw [h]
  exact (ncard_eq_length s.pairwise_toList.nodup fun i => mem_toList.symm).symm

/-! ### Cursors -/

namespace Cursor

/-- The members that a cursor has not returned. -/
def left (c : Cursor) : List ℕ :=
  (wordBits c.rest).map (64 * c.word + ·) ++
    (List.range' (c.word + 1) (c.set.words.size - (c.word + 1))).flatMap c.set.wordMembers

theorem left_cursor (s : IndexSet) : s.cursor.left = s.toList := by
  rw [left, toList, List.range_eq_range']
  change (wordBits (s.words[0]?.getD 0)).map (64 * 0 + ·) ++
    (List.range' 1 (s.words.size - 1)).flatMap s.wordMembers = _
  rcases Nat.eq_zero_or_pos s.words.size with hzero | hpos
  · simp [hzero, wordBits_zero]
  · have hsize : s.words.size = s.words.size - 1 + 1 := by omega
    rw [hsize, List.range'_succ, List.flatMap_cons, wordMembers_eq hpos,
      Array.getElem?_eq_getElem hpos, Option.getD_some]
    simp

theorem left_of_rest_eq_zero {c : Cursor} (hrest : c.rest = 0)
    (hword : c.word + 1 < c.set.words.size) :
    c.left = left ⟨c.set, c.word + 1, c.set.words[c.word + 1]⟩ := by
  have hsize : c.set.words.size - (c.word + 1) = c.set.words.size - (c.word + 1 + 1) + 1 := by omega
  rw [left, left, hrest, wordBits_zero, hsize, List.range'_succ, List.flatMap_cons,
    wordMembers_eq hword]
  rfl

/-- A call returns the first of the members left, if there is any, and leaves the others. -/
theorem next_eq (c : Cursor) : c.next.1 = c.left.head? ∧ c.next.2.left = c.left.tail := by
  fun_induction next c with
  | case1 c hrest =>
    rw [left, wordBits_eq_cons hrest]
    exact ⟨rfl, rfl⟩
  | case2 c hrest hword ih =>
    rwa [left_of_rest_eq_zero (not_not.mp hrest) hword]
  | case3 c hrest hword =>
    have hnone : ∀ k, c.word + 1 ≤ k → c.set.words.size - k = 0 := by omega
    simp [left, not_not.mp hrest, wordBits_zero, hnone]

theorem set_next (c : Cursor) : c.next.2.set = c.set := by
  fun_induction next c with
  | case1 c hrest => rfl
  | case2 c hrest hword ih => exact ih
  | case3 c hrest hword => rfl

theorem word_next_le (c : Cursor) : c.next.2.word ≤ max c.set.words.size (c.word + 1) := by
  fun_induction next c with
  | case1 c hrest =>
    dsimp only
    omega
  | case2 c hrest hword ih =>
    dsimp only at ih
    omega
  | case3 c hrest hword => exact le_max_right _ _

/-- Successive calls return the members left one by one, and nothing from then on. -/
theorem take_eq (c : Cursor) (n : ℕ) : c.take n = (List.range n).map (c.left[·]?) := by
  induction n generalizing c with
  | zero => rfl
  | succ n ih =>
    obtain ⟨hresult, hleft⟩ := c.next_eq
    rw [take, ih, hresult, hleft, List.range_succ_eq_map, List.map_cons, List.map_map,
      List.head?_eq_getElem?]
    congr 2
    funext k
    exact List.getElem?_tail

def after (c : Cursor) : ℕ → Cursor
  | 0 => c
  | n + 1 => (c.after n).next.2

theorem set_after (c : Cursor) (n : ℕ) : (c.after n).set = c.set := by
  induction n with
  | zero => rfl
  | succ n ih => exact (set_next _).trans ih

theorem word_after_le (c : Cursor) (n : ℕ) :
    (c.after n).word ≤ max c.set.words.size c.word + n := by
  induction n with
  | zero => exact le_max_right _ _
  | succ n ih =>
    have hle := (c.after n).word_next_le
    rw [set_after] at hle
    rw [after]
    omega

end Cursor

/-! ### Sets with a history -/

theorem map_getElem?_range_add {α : Type*} (xs : List α) (n : ℕ) :
    (List.range (xs.length + n)).map (xs[·]?) = xs.map some ++ List.replicate n none := by
  refine List.ext_getElem? fun k => ?_
  rw [List.getElem?_map, List.getElem?_append, List.length_map, List.getElem?_map,
    List.getElem?_replicate]
  by_cases hk : k < xs.length
  · rw [if_pos hk, List.getElem?_range (by omega), Option.map_some, List.getElem?_eq_getElem hk,
      Option.map_some]
  · rw [if_neg hk]
    by_cases hk' : k < xs.length + n
    · rw [List.getElem?_range hk', if_pos (by omega), Option.map_some,
        List.getElem?_eq_none (Nat.le_of_not_lt hk)]
    · rw [if_neg (by omega), List.getElem?_eq_none (by simpa using hk'), Option.map_none]

/-- However an index set is made and changed, its cursor returns its members in increasing order,
as many as have been counted, and nothing from then on. If all indices fit 64-bit words, so does the
number of the word that a cursor is at, for as long as it is called fewer than `2 ^ 63` times. -/
theorem take_cursor_foldl {o : Origin} (h : o.Numbered) : ∃ s, o.make = .ok s ∧
    ∀ changes : List Change, let t := changes.foldl Change.apply s
      t.toList.Pairwise (· < ·) ∧ (∀ i, i ∈ t.toList ↔ t.contains i = true) ∧
      t.toList.length = t.count ∧
      (∀ n, t.cursor.take n = (List.range n).map (t.toList[·]?)) ∧
      (∀ n, t.cursor.take (t.count + n) = t.toList.map some ++ List.replicate n none) ∧
      (t.capacity ≤ longWordSize → ∀ n < 2 ^ 63, (t.cursor.after n).word < longWordSize) := by
  obtain ⟨s, hs, hcounted, -⟩ := Origin.exists_make_eq_ok h
  refine ⟨s, hs, fun changes => ?_⟩
  intro t
  have hcounted : t.Counted := (hcounted.foldl_apply changes).1
  have htake : ∀ n, t.cursor.take n = (List.range n).map (t.toList[·]?) := by
    intro n
    rw [Cursor.take_eq, Cursor.left_cursor]
  refine ⟨t.pairwise_toList, fun i => mem_toList, hcounted.length_toList, htake, fun n => ?_, ?_⟩
  · rw [htake, ← hcounted.length_toList, map_getElem?_range_add]
  · intro hcap n hn
    have hword : (t.cursor.after n).word ≤ max t.words.size 0 + n := t.cursor.word_after_le n
    have hcap : 64 * t.words.size ≤ longWordSize := hcap
    unfold longWordSize at hcap ⊢
    omega

/-- The members 3, 130 and 300 of this set lie in words with gaps between them. -/
theorem take_cursor_foldl_of_gaps : (Origin.ofList [130, 3]).Numbered ∧
    ∃ s, (Origin.ofList [130, 3]).make = .ok s ∧
      ([Change.insert 64, .remove 64, .insertMany [300, 3]].foldl Change.apply s).cursor.take 5 =
        [some 3, some 130, some 300, none, none] := by
  let changes : List Change := [.insert 64, .remove 64, .insertMany [300, 3]]
  have hnumbered : (Origin.ofList [130, 3]).Numbered := trivial
  obtain ⟨s, hs, hall⟩ := take_cursor_foldl hnumbered
  obtain ⟨hsorted, hmem, -, htake, -⟩ := hall changes
  cases hs
  have hlist : (changes.foldl Change.apply (ofList [130, 3])).toList = [3, 130, 300] := by
    refine hsorted.eq_of_mem_iff (by decide) fun i => ?_
    have hi : (changes.foldl Change.apply (ofList [130, 3])).contains i = true ↔
        (i = 300 ∨ i = 3) ∨ 64 ≠ i ∧ (64 = i ∨ i = 130 ∨ i = 3) := by
      simp [changes, Change.apply, contains_insert, contains_remove, contains_insertMany,
        contains_ofList]
    rw [hmem, hi]
    simp only [List.mem_cons, List.not_mem_nil, or_false]
    omega
  refine ⟨hnumbered, _, rfl, ?_⟩
  rw [htake, hlist]
  rfl

end ControlGames.IndexSet
