import ControlGames.Proofs.PeelingHeads

/-!
# Regions of stores filled by hand

The peeling asks a store for no more than the pairs that have successors and the states of its own
that a group lists. Stores that agree in this have the same region, however often and in whatever
order their slots list the states, and whatever they list besides.
-/
namespace ControlGames

/-- Two stores of one size that have successors for the same pairs and list the same of their states
in every group. -/
structure Store.Alike (s s' : Store) : Prop extends s.SameSize s' where
  successors : ∀ i j, s.successorCountAt i j = 0 ↔
    s'.successorCountAt (i.cast numStates) (j.cast numInputs) = 0
  listed : ∀ k j i, s.state i ∈ s.listed k j ↔
    s.state i ∈ s'.listed (k.cast numStates) (j.cast numInputs)

namespace Invariance

variable {s s' : Store} {α β : Type} [StateSet α] [StateSet β] {safe : α} {safe' : β}

/-- Two games of one size in which the same inputs are valid at first and may then lead to the same
states. -/
structure SameMoves (s : Store) {α : Type} [StateSet α] (safe : α) (s' : Store) {β : Type}
    [StateSet β] (safe' : β) : Prop extends s.SameSize s' where
  valid : ∀ i j, isValidFirst s safe i j =
    isValidFirst s' safe' (i.cast numStates) (j.cast numInputs)
  leads : ∀ i j k, isValidFirst s safe i j = true →
    (s.Leads i j k ↔ s'.Leads (i.cast numStates) (j.cast numInputs) (k.cast numStates))

/-! ### Bits that stay on -/

section Bits

variable {p : Peeling s} {p' : Peeling s'}
  (hp : Progress s safe (p.losing.arrivals.toList.flatMap s.visits) p)
  (hp' : Progress s' safe' (p'.losing.arrivals.toList.flatMap s'.visits) p')

include hp hp'

/-- If the permitted inputs of one game are permitted in another one of the same size, the bits that
stay on in the first stay on in the second. -/
theorem Progress.members_subset (h : s.SameSize s') (hsub : ∀ i j, Permitted s safe i j →
      Permitted s' safe' (i.cast h.numStates) (j.cast h.numInputs)) :
    p.valid.members ⊆ p'.valid.members := by
  intro b hb
  obtain ⟨i, j, rfl⟩ := hp.inside b hb
  have hbit : Region.bit s.numInputs i j = Region.bit s'.numInputs i j :=
    congrArg (fun m => Region.bit m i.val j.val) h.numInputs
  have hpermitted := hsub i j ((hp.holds_iff_permitted i j).mp hb)
  rw [hbit]
  exact (hp'.holds_iff_permitted _ _).mpr hpermitted

theorem Progress.valid_eq (h : s.SameSize s') (hiff : ∀ i j, Permitted s safe i j ↔
      Permitted s' safe' (i.cast h.numStates) (j.cast h.numInputs)) : p.valid = p'.valid := by
  have hfits := hp'.fits
  rw [← h.numStates, ← h.numInputs] at hfits
  refine hp.fits.eq_of_members_eq hfits (Set.Subset.antisymm ?_ ?_)
  · exact hp.members_subset hp' h fun i j => (hiff i j).mp
  · exact hp'.members_subset hp h.symm fun i j => (hiff (i.cast _) (j.cast _)).mpr

end Bits

/-! ### Games of the same moves -/

namespace SameMoves

theorem symm (h : SameMoves s safe s' safe') : SameMoves s' safe' s safe where
  toSameSize := h.toSameSize.symm
  valid i j := (h.valid (i.cast h.numStates.symm) (j.cast h.numInputs.symm)).symm
  leads i j k hj := (h.leads (i.cast h.numStates.symm) (j.cast h.numInputs.symm)
    (k.cast h.numStates.symm) ((h.valid _ _).trans hj)).symm

theorem losing (h : SameMoves s safe s' safe') {i : Fin s.numStates} (hi : Losing s safe i) :
    Losing s' safe' (i.cast h.numStates) := by
  induction hi with
  | intro i next hleads hlosing ih =>
    rw [losing_iff]
    intro j hj
    have hvalid : isValidFirst s safe i (j.cast h.numInputs.symm) = true := (h.valid _ _).trans hj
    exact ⟨_, (h.leads i _ _ hvalid).mp (hleads _ hvalid), ih _ hvalid⟩

theorem losing_iff (h : SameMoves s safe s' safe') (i : Fin s.numStates) :
    Losing s safe i ↔ Losing s' safe' (i.cast h.numStates) :=
  ⟨h.losing, h.symm.losing⟩

theorem permitted (h : SameMoves s safe s' safe') {i : Fin s.numStates} {j : Fin s.numInputs}
    (hj : Permitted s safe i j) : Permitted s' safe' (i.cast h.numStates) (j.cast h.numInputs) := by
  obtain ⟨hvalid, hstay⟩ := hj
  refine ⟨(h.valid i j).symm.trans hvalid, fun k hk => ?_⟩
  have hleads := (h.leads i j (k.cast h.numStates.symm) hvalid).mpr hk
  exact (h.losing_iff _).not.mp (hstay _ hleads)

theorem permitted_iff (h : SameMoves s safe s' safe') (i : Fin s.numStates) (j : Fin s.numInputs) :
    Permitted s safe i j ↔ Permitted s' safe' (i.cast h.numStates) (j.cast h.numInputs) :=
  ⟨h.permitted, h.symm.permitted⟩

theorem solveInvariance_eq (h : SameMoves s safe s' safe') (hin : s.Inside) (hin' : s'.Inside)
    (mem : Memory) :
    (s.solveInvariance mem safe).result = (s'.solveInvariance mem safe').result := by
  obtain ⟨p, hp, hprog⟩ := exists_run_eq_ok hin 0 (progress_initial s safe _)
  obtain ⟨p', hp', hprog'⟩ := exists_run_eq_ok hin' 0 (progress_initial s' safe' _)
  have hregion : Region.ofMatrix s.sizes_le p.valid = .ofMatrix s'.sizes_le p'.valid := by
    rw [hprog.valid_eq hprog' h.toSameSize h.permitted_iff,
      Region.ofMatrix_congr _ h.numStates h.numInputs]
  rw [solveInvariance_result_of_run hp, solveInvariance_result_of_run hp', hregion, h.numStates,
    h.numInputs]

end SameMoves

end Invariance

open Invariance in
/-- Such stores pose the same game for every safe set. -/
theorem Store.Alike.sameMoves {s s' : Store} (h : s.Alike s') {α : Type} [StateSet α] (safe : α) :
    SameMoves s safe s' safe where
  toSameSize := h.toSameSize
  valid i j := by
    have happlicable : s.applicable i j =
        s'.applicable (i.cast h.numStates) (j.cast h.numInputs) := by
      rw [Bool.eq_iff_iff, Store.applicable, Store.applicable, decide_eq_true_iff,
        decide_eq_true_iff, Nat.pos_iff_ne_zero, Nat.pos_iff_ne_zero]
      exact not_congr (h.successors i j)
    rw [isValidFirst, happlicable]
    rfl
  leads i j k _ := h.listed k j i

open Invariance in
/-- Every invariance game on a store whose groups lie inside the flat array has a region, whatever
else the store holds. One state is taken out of the worklist for each state outside the region. Any
other such store that has successors for the same pairs and lists the same states of its own in
every group has the same region. -/
theorem Store.solveInvariance_robust {s : Store} {mem : Memory} (hin : s.Inside)
    (hm : s.numInputs < reserved - 1)
    (hmem : reservePeeling mem s.numStates s.numInputs = .ok ()) {α : Type} [StateSet α]
    (safe : α) :
    ∃ r, (s.solveInvariance mem safe).result = .ok r ∧
      (∃ p, run (initial s safe #[.solvingInvariance s.numStates s.numInputs s.transitionCount]) 0 =
          .ok p ∧ r = .ofMatrix s.sizes_le p.valid ∧
        Reached s safe #[.solvingInvariance s.numStates s.numInputs s.transitionCount]
          p.losing.arrivals.size p ∧
        p.losing.arrivals.size + r.size = s.numStates) ∧
      ∀ s' mem', s'.Inside → s.Alike s' →
        reservePeeling mem' s'.numStates s'.numInputs = .ok () →
        (s'.solveInvariance mem' safe).result = .ok r := by
  have hinitial : Reached s safe #[.solvingInvariance s.numStates s.numInputs s.transitionCount] 0
      (initial s safe _) := .initial
  obtain ⟨p, hp, hreached⟩ := hinitial.exists_run_eq_ok hin
  have hr : (s.solveInvariance mem safe).result = .ok (.ofMatrix s.sizes_le p.valid) :=
    solveInvariance_eq_ok_iff.mpr ⟨hm, hmem, p, hp, rfl⟩
  have hsize := hreached.afterVisits_end.progress.size_add_size
  refine ⟨_, hr, ⟨p, hp, rfl, hreached, hsize⟩, fun s' mem' hin' halike hmem' => ?_⟩
  rw [← halike.numStates, ← halike.numInputs] at hmem'
  rw [← (halike.sameMoves safe).solveInvariance_eq hin hin' mem']
  exact solveInvariance_eq_ok_iff.mpr ⟨hm, hmem', p, hp, rfl⟩

/-- A store filled by hand: the group of state 3 lists state 2 twice and a state that does not
exist, state 0 leads nowhere although it has successors, and groups share slots. -/
def Store.scrambled : Store where
  numStates := 4
  numInputs := 1
  sizes_le := by decide
  groups := ⟨#v[⟨4, 0⟩, ⟨2, 1⟩, ⟨3, 1⟩, ⟨0, 3⟩]⟩
  successorCounts := ⟨#v[5, 1, 1, 0]⟩
  slots := ([2, 2, 7, 1].filterMap State.ofId?).toArray

def Store.unscrambled : Store where
  numStates := 4
  numInputs := 1
  sizes_le := scrambled.sizes_le
  groups := ⟨#v[⟨0, 0⟩, ⟨0, 0⟩, ⟨0, 1⟩, ⟨1, 1⟩]⟩
  successorCounts := ⟨#v[1, 1, 1, 0]⟩
  slots := ([1, 2].filterMap State.ofId?).toArray

/-- Both stores have the same region. -/
theorem Store.solveInvariance_scrambled_robust :
    scrambled.Inside ∧ unscrambled.Inside ∧ scrambled.Alike unscrambled ∧
    scrambled.numInputs < reserved - 1 ∧
    Invariance.reservePeeling .ample scrambled.numStates scrambled.numInputs = .ok () ∧
    ∃ r, (scrambled.solveInvariance .ample StateSet.everything).result = .ok r ∧
      (unscrambled.solveInvariance .ample StateSet.everything).result = .ok r := by
  have hin : scrambled.Inside := inside_iff.mpr (by decide)
  have hin' : unscrambled.Inside := inside_iff.mpr (by decide)
  have halike : scrambled.Alike unscrambled := ⟨⟨rfl, rfl⟩, by decide, by decide⟩
  have hm : scrambled.numInputs < reserved - 1 := by decide
  have hmem : Invariance.reservePeeling .ample scrambled.numStates scrambled.numInputs =
      .ok () := rfl
  obtain ⟨r, hr, -, hsame⟩ := solveInvariance_robust hin hm hmem StateSet.everything
  exact ⟨hin, hin', halike, hm, hmem, r, hr, hsame unscrambled .ample hin' halike rfl⟩

end ControlGames
