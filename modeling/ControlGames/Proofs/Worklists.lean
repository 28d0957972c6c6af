import Mathlib.Data.List.Nodup
import ControlGames.Worklist

/-!
# Entries of worklists

A worklist keeps its entries twice, as marks and as arrivals. Both tell the same entries as long as
only unmarked ones are let in, and a worklist made from a predicate holds just its members.
-/
namespace ControlGames.Worklist

variable {n : ℕ} {w : Worklist n} {i : Fin n}

/-- The marks and the arrivals tell the same entries, each of which has arrived once. -/
structure Faithful (w : Worklist n) : Prop where
  nodup : w.arrivals.toList.Nodup
  isMarked_iff : ∀ i, w.entered.isMarked i = true ↔ i ∈ w.arrivals.toList

theorem faithful_empty : (empty : Worklist n).Faithful where
  nodup := List.nodup_nil
  isMarked_iff i := by
    change (Marks.none n).isMarked i = true ↔ i ∈ []
    rw [Marks.isMarked_none]
    exact ⟨nofun, nofun⟩

@[simp] theorem arrivals_enter (h : w.entered.isMarked i = false) :
    (w.enter i h).arrivals.toList = w.arrivals.toList ++ [i] := Array.toList_push

theorem Faithful.enter (hw : w.Faithful) (h : w.entered.isMarked i = false) :
    (w.enter i h).Faithful where
  nodup := by
    rw [arrivals_enter]
    apply List.Nodup.append hw.nodup (List.nodup_singleton i)
    rw [List.disjoint_singleton, ← hw.isMarked_iff, h]
    exact Bool.false_ne_true
  isMarked_iff k := by
    change (w.entered.mark i).isMarked k = true ↔ _
    rw [arrivals_enter, Marks.isMarked_mark, Bool.or_eq_true, decide_eq_true_eq, hw.isMarked_iff,
      List.mem_append, List.mem_singleton, or_comm, eq_comm]

section Entering

variable (p : Fin n → Bool) (i : Fin n)

theorem Faithful.enter_if (hw : w.Faithful) :
    (if h : p i ∧ w.entered.isMarked i = false then w.enter i h.2 else w).Faithful := by
  split
  · next h => exact hw.enter h.2
  · exact hw

theorem Faithful.mem_enter_if (hw : w.Faithful) (k : Fin n) :
    k ∈ (if h : p i ∧ w.entered.isMarked i = false then w.enter i h.2 else w).arrivals.toList ↔
      k ∈ w.arrivals.toList ∨ k = i ∧ p k = true := by
  split
  · next h =>
    rw [arrivals_enter, List.mem_append, List.mem_singleton]
    apply or_congr_right
    exact ⟨fun hk => ⟨hk, hk ▸ h.1⟩, And.left⟩
  · next h =>
    refine ⟨Or.inl, ?_⟩
    rintro (hk | ⟨rfl, hp⟩)
    · exact hk
    · rw [← hw.isMarked_iff]
      by_contra hmark
      exact h ⟨hp, Bool.eq_false_iff.mpr hmark⟩

theorem Faithful.foldl_enter_if (hw : w.Faithful) {L : List (Fin n)} {u : Worklist n}
    (hu : L.foldl (fun w i => if h : p i ∧ w.entered.isMarked i = false then w.enter i h.2 else w)
      w = u) :
    u.Faithful ∧ ∀ k, k ∈ u.arrivals.toList ↔ k ∈ w.arrivals.toList ∨ k ∈ L ∧ p k = true := by
  induction L generalizing w with
  | nil =>
    subst hu
    exact ⟨hw, fun k => by simp⟩
  | cons i L ih =>
    obtain ⟨hfaithful, hmem⟩ := ih (hw.enter_if p i) hu
    refine ⟨hfaithful, fun k => ?_⟩
    rw [hmem, hw.mem_enter_if, List.mem_cons, or_and_right, or_assoc]

theorem faithful_ofPred : (ofPred p).Faithful :=
  (faithful_empty.foldl_enter_if p rfl).1

theorem mem_ofPred (k : Fin n) : k ∈ (ofPred p).arrivals.toList ↔ p k = true := by
  have h := (faithful_empty.foldl_enter_if p (u := ofPred p) rfl).2 k
  have hempty : k ∉ (empty : Worklist n).arrivals.toList := List.not_mem_nil
  rwa [or_iff_right hempty, and_iff_right (List.mem_finRange k)] at h

end Entering

end ControlGames.Worklist
