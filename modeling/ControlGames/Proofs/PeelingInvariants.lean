import ControlGames.Proofs.IndexSets
import ControlGames.Proofs.LosingStates
import ControlGames.Proofs.PeelingStep

/-!
# Invariants of the peeling

A bit of the matrix is on if the input is valid at first and no visit so far has hit the pair; the
number kept for a state counts its bits; and the worklist holds the states without bits, all of them
losing. Each part is kept by a visit to a slot of a losing state.
-/
namespace ControlGames.Invariance

variable {s : Store} {α : Type} [StateSet α] {safe : α}
  {H : List (Visit s.numStates s.numInputs)} {p p' : Peeling s}

/-- The bits after the visits `H`, and their number in each row. -/
structure Matrix (s : Store) {α : Type} [StateSet α] (safe : α)
    (H : List (Visit s.numStates s.numInputs)) (p : Peeling s) : Prop where
  fits : p.valid.Fits (s.numStates * s.numInputs)
  inside : ∀ b, p.valid.contains b = true →
    ∃ (i : Fin s.numStates) (j : Fin s.numInputs), b = Region.bit s.numInputs i j
  holds_iff : ∀ i j, p.holds i j = true ↔
    isValidFirst s safe i j = true ∧ ∀ v ∈ H, v.hits i j = false
  countAt_eq : ∀ i, p.countAt i = (List.finRange s.numInputs).countP (p.holds i)

/-- The states without bits have entered the worklist once, and they are losing as well as those
visited before. -/
structure Losers (s : Store) {α : Type} [StateSet α] (safe : α)
    (H : List (Visit s.numStates s.numInputs)) (p : Peeling s) : Prop where
  faithful : p.losing.Faithful
  mem_iff : ∀ i, i ∈ p.losing.arrivals.toList ↔ p.countAt i = 0
  losing : ∀ i ∈ p.losing.arrivals.toList, Losing s safe i
  visited : ∀ v ∈ H, v.pre ∈ s.listed v.post v.input ∧ Losing s safe v.post

/-- How far the peeling has come after the visits `H`. -/
structure Progress (s : Store) {α : Type} [StateSet α] (safe : α)
    (H : List (Visit s.numStates s.numInputs)) (p : Peeling s) : Prop
    extends Matrix s safe H p, Losers s safe H p

theorem Matrix.lt_numStates (h : Matrix s safe H p) {a : ℕ} {j : Fin s.numInputs}
    (hbit : p.valid.contains (Region.bit s.numInputs a j) = true) : a < s.numStates := by
  obtain ⟨i, j', hij⟩ := h.inside _ hbit
  rw [(Region.bit_inj.mp hij).1]
  exact i.isLt

theorem Matrix.countAt_eq_zero_iff (h : Matrix s safe H p) (i : Fin s.numStates) :
    p.countAt i = 0 ↔ ∀ j, p.holds i j = false := by
  rw [h.countAt_eq, List.countP_eq_zero]
  constructor
  · intro hall j
    exact Bool.eq_false_iff.mpr (hall j (List.mem_finRange j))
  · intro hall j _
    exact Bool.eq_false_iff.mp (hall j)

theorem Matrix.exists_pruned (h : Matrix s safe H p) (k : Fin s.numStates) (j : Fin s.numInputs)
    (x : State) : ∃ p', prune k j p x = .ok p' ∧ Pruned k j p x p' := by
  refine exists_prune_eq_ok h.lt_numStates fun i hi hzero => ?_
  rw [(h.countAt_eq_zero_iff i).mp hzero] at hi
  cases hi

/-- A state without bits has been hit from a losing successor under every input. -/
theorem Matrix.losing_of_countAt_eq_zero (h : Matrix s safe H p)
    (hH : ∀ v ∈ H, v.pre ∈ s.listed v.post v.input ∧ Losing s safe v.post) {i : Fin s.numStates}
    (hi : p.countAt i = 0) : Losing s safe i := by
  rw [losing_iff]
  intro j hj
  have hoff := (h.countAt_eq_zero_iff i).mp hi j
  rw [Bool.eq_false_iff, ne_eq, h.holds_iff, and_iff_right hj] at hoff
  push Not at hoff
  obtain ⟨v, hv, hhits⟩ := hoff
  rw [Bool.ne_false_iff, Visit.hits_eq_true_iff] at hhits
  obtain ⟨rfl, hpre⟩ := hhits
  obtain ⟨hlisted, hlosing⟩ := hH v hv
  rw [State.ext_id (t := s.state i) hpre] at hlisted
  exact ⟨v.post, hlisted, hlosing⟩

private theorem forall_mem_snoc {β : Type} {q : β → Prop} {xs : List β} {y : β} :
    (∀ x ∈ xs ++ [y], q x) ↔ (∀ x ∈ xs, q x) ∧ q y := by
  simp only [List.mem_append, List.mem_singleton, or_imp, forall_and, forall_eq]

private theorem countP_erase_add_one {β : Type} [DecidableEq β] {xs : List β} (hxs : xs.Nodup)
    {y : β} (hy : y ∈ xs) {q : β → Bool} (hq : q y = true) :
    xs.countP (fun x => !decide (y = x) && q x) + 1 = xs.countP q := by
  have hpos : 0 < xs.countP q := List.countP_pos_iff.mpr ⟨y, hy, hq⟩
  have herase : (xs.erase y).countP q = xs.countP fun x => !decide (y = x) && q x := by
    rw [hxs.erase_eq_filter, List.countP_filter]
    congr 1
    funext x
    rw [Bool.and_comm, bne, Bool.beq_comm, beq_eq_decide]
  rw [← herase, List.countP_erase, if_pos ⟨hy, hq⟩]
  omega

variable {k : Fin s.numStates} {j : Fin s.numInputs} {x : State}

theorem Matrix.kept (h : Matrix s safe H p)
    (hx : p.valid.contains (Region.bit s.numInputs x.id j) = false) :
    Matrix s safe (H ++ [⟨k, j, x⟩]) p where
  fits := h.fits
  inside := h.inside
  holds_iff i j' := by
    rw [forall_mem_snoc, ← and_assoc, ← h.holds_iff, iff_self_and]
    intro hi
    rw [Bool.eq_false_iff, ne_eq, Visit.hits_eq_true_iff]
    intro hhits
    rcases hhits with ⟨rfl, hid⟩
    change x.id = i at hid
    rw [hid] at hx
    exact Bool.eq_false_iff.mp hx hi
  countAt_eq := h.countAt_eq

theorem Matrix.dropped (h : Matrix s safe H p) {i : Fin s.numStates} {c : ℕ}
    (hi : p.holds i j = true) (hc : p.countAt i = c + 1) :
    Matrix s safe (H ++ [⟨k, j, s.state i⟩]) (p.dropped i j c) where
  fits := h.fits.remove _
  inside b hb := by
    change (p.valid.remove _).2.contains b = true at hb
    rw [IndexSet.contains_remove, Bool.and_eq_true] at hb
    exact h.inside b hb.2
  holds_iff i' j' := by
    rw [forall_mem_snoc, Peeling.dropped_holds, Bool.and_eq_true, h.holds_iff, Bool.not_eq_true',
      decide_eq_false_iff_not, and_comm, and_assoc]
    apply and_congr_right'
    apply and_congr_right'
    rw [Bool.eq_false_iff, ne_eq, Visit.hits_eq_true_iff, and_comm]
    exact not_congr (and_congr_right' Fin.ext_iff)
  countAt_eq i' := by
    rw [Peeling.dropped_countAt]
    split
    · next hii =>
      subst hii
      have hcount := countP_erase_add_one (List.nodup_finRange s.numInputs) (List.mem_finRange j) hi
      rw [← h.countAt_eq, hc, Nat.add_right_cancel_iff] at hcount
      rw [← hcount]
      congr 1
      funext j'
      simp only [Peeling.dropped_holds, true_and]
    · next hii =>
      rw [h.countAt_eq]
      congr 1
      funext j'
      simp only [Peeling.dropped_holds, hii, false_and, decide_false, Bool.not_false, Bool.true_and]

theorem Matrix.pruned (h : Matrix s safe H p) (hr : Pruned k j p x p') :
    Matrix s safe (H ++ [⟨k, j, x⟩]) p' := by
  cases hr with
  | kept hx => exact h.kept hx
  | dropped hi hc hopen => exact h.dropped hi hc
  | lost hi hc hnew =>
    obtain ⟨hfits, hinside, hholds, hcount⟩ := h.dropped (k := k) hi hc
    exact ⟨hfits, hinside, hholds, hcount⟩

theorem Losers.pruned (h : Losers s safe H p) (hM : Matrix s safe (H ++ [⟨k, j, x⟩]) p')
    (hx : x ∈ s.listed k j) (hk : Losing s safe k) (hr : Pruned k j p x p') :
    Losers s safe (H ++ [⟨k, j, x⟩]) p' := by
  have hvisited : ∀ v ∈ H ++ [⟨k, j, x⟩],
      v.pre ∈ s.listed v.post v.input ∧ Losing s safe v.post :=
    forall_mem_snoc.mpr ⟨h.visited, hx, hk⟩
  cases hr with
  | kept hoff => exact ⟨h.faithful, h.mem_iff, h.losing, hvisited⟩
  | @dropped i c hi hc hopen =>
    refine ⟨h.faithful, fun i' => ?_, h.losing, hvisited⟩
    rw [Peeling.dropped_countAt, Peeling.dropped_losing, h.mem_iff]
    split
    · next hii =>
      subst hii
      -- the worklist is told of a state as soon as it has no bits left
      have hout : ¬ p.losing.entered.isMarked i = true := by
        rw [h.faithful.isMarked_iff, h.mem_iff, hc]
        exact Nat.succ_ne_zero c
      constructor
      · intro hzero
        omega
      · exact fun hzero => absurd (hopen hzero) hout
    · rfl
  | @lost i hi hc hnew =>
    have hmem : ∀ i', i' ∈ (p.losing.enter i hnew).arrivals.toList ↔
        (p.lost i j 0 k hnew).countAt i' = 0 := by
      intro i'
      rw [Worklist.arrivals_enter, List.mem_append, List.mem_singleton, h.mem_iff,
        Peeling.lost_countAt, Peeling.dropped_countAt]
      split
      · next hii => exact ⟨fun _ => rfl, fun _ => Or.inr hii.symm⟩
      · next hii => exact or_iff_left fun hii' => hii hii'.symm
    refine ⟨h.faithful.enter hnew, hmem, fun i' hi' => ?_, hvisited⟩
    exact hM.losing_of_countAt_eq_zero hvisited ((hmem i').mp hi')

/-- A visit to a slot of a losing state keeps the progress. -/
theorem Progress.pruned (h : Progress s safe H p) (hx : x ∈ s.listed k j) (hk : Losing s safe k)
    (hr : Pruned k j p x p') : Progress s safe (H ++ [⟨k, j, x⟩]) p' where
  toMatrix := h.toMatrix.pruned hr
  toLosers := h.toLosers.pruned (h.toMatrix.pruned hr) hx hk hr

end ControlGames.Invariance
