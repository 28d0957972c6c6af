import ControlGames.Invariance
import ControlGames.IndexSet.Membership
import ControlGames.Proofs.FailingFolds
import ControlGames.Proofs.Regions
import ControlGames.Proofs.StoredRelation
import ControlGames.Proofs.VectorCells
import ControlGames.Proofs.Worklists

/-!
# One step of the peeling

Peeling off a losing state visits all slots of its groups, and each visit prunes one bit of the
matrix. It finds the bit off already, or it takes the bit off and leaves other inputs to the state,
or it takes off the last one and the state enters the worklist.
-/
namespace ControlGames.Invariance

variable {s : Store}

namespace Peeling

def holds (p : Peeling s) (i : Fin s.numStates) (j : Fin s.numInputs) : Bool :=
  p.valid.contains (Region.bit s.numInputs i j)

def countAt (p : Peeling s) (i : Fin s.numStates) : ℕ := cell p.validCount i

def dropped (p : Peeling s) (i : Fin s.numStates) (j : Fin s.numInputs) (c : ℕ) : Peeling s :=
  { p with
    valid := (p.valid.remove (Region.bit s.numInputs i j)).2
    validCount := setCell p.validCount i c
    invalidated := p.invalidated + 1 }

def lost (p : Peeling s) (i : Fin s.numStates) (j : Fin s.numInputs) (c : ℕ)
    (k : Fin s.numStates) (h : p.losing.entered.isMarked i = false) : Peeling s :=
  { p.dropped i j c with
    losing := p.losing.enter i h
    log := p.log.push (.losesLast (s.state i) (s.input j) (s.state k)) }

variable (p : Peeling s) (i i' k : Fin s.numStates) (j j' : Fin s.numInputs) (c : ℕ)
  (h : p.losing.entered.isMarked i = false)

@[simp] theorem dropped_holds :
    (p.dropped i j c).holds i' j' = (!decide (i = i' ∧ j = j') && p.holds i' j') := by
  simp only [holds, dropped, IndexSet.contains_remove, Region.bit_inj, Fin.ext_iff]

@[simp] theorem dropped_countAt :
    (p.dropped i j c).countAt i' = if i = i' then c else p.countAt i' := cell_setCell ..

@[simp] theorem dropped_losing : (p.dropped i j c).losing = p.losing := rfl

@[simp] theorem lost_countAt : (p.lost i j c k h).countAt = (p.dropped i j c).countAt := rfl

@[simp] theorem lost_losing : (p.lost i j c k h).losing = p.losing.enter i h := rfl

end Peeling

variable {k : Fin s.numStates} {j : Fin s.numInputs} {p p' : Peeling s}

/-- What a visit does to the peeling. -/
inductive Pruned (k : Fin s.numStates) (j : Fin s.numInputs) (p : Peeling s) :
    State → Peeling s → Prop
  | kept {x : State} (hx : p.valid.contains (Region.bit s.numInputs x.id j) = false) :
      Pruned k j p x p
  | dropped {i : Fin s.numStates} {c : ℕ} (hi : p.holds i j = true) (hc : p.countAt i = c + 1)
      (hopen : c = 0 → p.losing.entered.isMarked i = true) :
      Pruned k j p (s.state i) (p.dropped i j c)
  | lost {i : Fin s.numStates} (hi : p.holds i j = true) (hc : p.countAt i = 1)
      (hnew : p.losing.entered.isMarked i = false) :
      Pruned k j p (s.state i) (p.lost i j 0 k hnew)

/-- Pruning a pair of the store in terms of the peelings it leads to. -/
theorem prune_state_eq (i : Fin s.numStates) :
    prune k j p (s.state i) =
      if p.holds i j then
        match p.countAt i with
        | 0 => .error ⟨.subtractOverflow, p.log⟩
        | c + 1 =>
          if h : c = 0 ∧ p.losing.entered.isMarked i = false then
            .ok (p.lost i j c k h.2)
          else .ok (p.dropped i j c)
      else .ok p := by
  have hlt : (s.state i).id < s.numStates := i.isLt
  simp only [prune, dif_pos hlt]
  rfl

/-- A visit succeeds if only states of the store have bits, and a state with bits has a count. -/
theorem exists_prune_eq_ok {x : State}
    (hlt : p.valid.contains (Region.bit s.numInputs x.id j) = true → x.id < s.numStates)
    (hpos : ∀ i, p.holds i j = true → p.countAt i ≠ 0) :
    ∃ p', prune k j p x = .ok p' ∧ Pruned k j p x p' := by
  by_cases hx : p.valid.contains (Region.bit s.numInputs x.id j) = true
  · obtain ⟨i, rfl⟩ := Store.exists_state_eq (hlt hx)
    obtain ⟨c, hc⟩ := Nat.exists_eq_add_one_of_ne_zero (hpos i hx)
    have hi : p.holds i j = true := hx
    rw [prune_state_eq, if_pos hi, hc]
    dsimp only
    split
    · next h =>
      obtain ⟨rfl, hnew⟩ := h
      exact ⟨_, rfl, .lost hi hc hnew⟩
    · next h =>
      refine ⟨_, rfl, .dropped hi hc fun hzero => ?_⟩
      by_contra hmark
      exact h ⟨hzero, Bool.eq_false_iff.mpr hmark⟩
  · refine ⟨p, ?_, .kept (Bool.eq_false_iff.mpr hx)⟩
    simp only [prune, if_neg hx]

/-- A state that has been peeled off was pruned for one slot of its groups after the other. -/
theorem foldlM_visits_of_peel (hok : peel k p = .ok p') :
    (s.visits k).foldlM (fun p v => prune k v.input p v.pre) p = .ok p' := by
  refine Store.foldlM_visits_of_groups (f := prune k) ?_ hok
  intro p₁ j p₂ hj
  rw [pruneGroup] at hj
  split at hj
  · next xs hxs =>
    rw [Store.listed_of_groupAt hxs]
    exact hj
  · cases hj

theorem peel_eq_foldlM (hin : s.Inside) (k : Fin s.numStates) (p : Peeling s) :
    peel k p = (s.visits k).foldlM (fun p v => prune k v.input p v.pre) p := by
  have hgroup : ∀ (p : Peeling s) (j : Fin s.numInputs),
      pruneGroup k p j = (s.listed k j).foldlM (prune k j) p := by
    intro p j
    rw [pruneGroup, hin k j]
  rw [peel, Store.visits, foldlM_flatMap]
  congr 1
  funext p j
  rw [hgroup, List.foldlM_map]

end ControlGames.Invariance
