import ControlGames.Counting
import ControlGames.Proofs.CanonicalStores
import ControlGames.Proofs.RecordedRelations

/-!
# Transitions added by their numbers

A scenario counts through its states and its inputs and adds transitions by their numbers. If all of
them are in range, it gets a builder of just these transitions and, if they fit, a store.
-/
namespace ControlGames

/-- Ample memory grants every array of less than 16 tera elements. -/
theorem Memory.reserve_ample (what : Backing) {count : ℕ} (h : count < 0x100000000000) :
    ample.reserve what count = .ok () := by
  have hbytes : count * what.elementBytes ≤ count * 8 := by
    refine Nat.mul_le_mul_left _ ?_
    cases what <;> decide
  have hgrants : ample.grants what (count * what.elementBytes) = true := by
    refine decide_eq_true ?_
    omega
  have hmax : count * what.elementBytes ≤ maxBytes := by
    unfold maxBytes
    omega
  rw [reserve, if_neg hmax.not_gt, if_pos (Or.inr hgrants)]

/-- Counting through groups that are folded one by one folds all entries of the groups. -/
theorem foldCount_eq_foldlM_flatMap {α β : Type} {step : α → ℕ → Except Failure α}
    {f : α → β → Except Failure α} {group : ℕ → List β} {k count : ℕ}
    (hstep : ∀ a, ∀ i < k + count, step a i = (group i).foldlM f a) (a : α) :
    foldCount step k count a = ((List.range' k count).flatMap group).foldlM f a := by
  rw [foldCount_eq_foldlM, foldlM_flatMap]
  refine foldlM_congr (fun i hi a => ?_) a
  exact hstep a i (List.mem_range'_1.mp hi).2

namespace Builder

variable {b : Builder} {ts : List Triple}

theorem exists_addIds_eq_ok {t : Triple} (ht : Acceptable b.numStates b.numInputs t) :
    ∃ b', b.addIds t = .ok b' ∧ b.Extends b' [t] := by
  obtain ⟨e, he⟩ := Edge.exists_ofIds_eq_ok_iff.mpr ht
  refine ⟨b.push e, ?_, ?_⟩
  · rw [addIds, he]
  · rw [← Edge.triple_of_ofIds he]
    exact extends_push e

theorem exists_foldlM_addIds_eq_ok (hts : ∀ t ∈ ts, Acceptable b.numStates b.numInputs t) :
    ∃ b', ts.foldlM addIds b = .ok b' ∧ b.Extends b' ts := by
  induction ts generalizing b with
  | nil => exact ⟨b, rfl, .refl b⟩
  | cons t ts ih =>
    obtain ⟨b₁, hadd, hext⟩ := exists_addIds_eq_ok (hts t List.mem_cons_self)
    have hts' : ∀ t' ∈ ts, Acceptable b₁.numStates b₁.numInputs t' := by
      intro t' ht'
      rw [hext.numStates, hext.numInputs]
      exact hts t' (List.mem_cons_of_mem t ht')
    obtain ⟨b', hfold, hext'⟩ := ih hts'
    refine ⟨b', ?_, hext.trans hext'⟩
    rw [List.foldlM_cons, hadd]
    exact hfold

/-- Transitions in range that fit give a store of just these transitions. -/
theorem exists_build_foldlM_addIds {n m : ℕ} {mem : Memory} (hn : n ≤ reserved) (hm : m ≤ reserved)
    (hts : InRange n m ts) (hcount : ts.toFinset.card ≤ maxTransitions)
    (htables : Store.reserveTables mem (n * m) = .ok ())
    (hslots : mem.reserve .predecessorArray ts.toFinset.card = .ok ())
    (hcounts : mem.reserve .builderCounts (n * m) = .ok ()) :
    ∃ b s, ts.foldlM addIds (new n m) = .ok b ∧ (b.build mem).result = .ok s ∧ b.triples = ts ∧
      s.numStates = n ∧ s.numInputs = m := by
  have hacceptable : ∀ t ∈ ts, Acceptable n m t := by
    intro t ht
    obtain ⟨hpre, hinput, hpost⟩ := hts t ht
    exact ⟨hts t ht, hpre.trans_le hn, hinput.trans_le hm, hpost.trans_le hn⟩
  obtain ⟨b, hb, rfl, rfl, htriples⟩ := exists_foldlM_addIds_eq_ok (b := new n m) hacceptable
  have htriples : b.triples = ts := htriples
  rw [← htriples] at hcount hslots
  obtain ⟨s, hs⟩ := exists_build_eq_ok ⟨hn, hm⟩ hcount htables hslots hcounts
  exact ⟨b, s, hb, hs, htriples, sizes_of_build hs⟩

end Builder

end ControlGames
