import Mathlib.Data.List.ProdSigma
import Mathlib.Data.Prod.Lex
import ControlGames.Proofs.AddedTransitions

/-!
# Groups as a tiling of the slots

In a built store the groups follow one another without gap or overlap, in row-major order, and
together they are the whole flat array. For the slots are in the order of the transitions, so that a
group starts behind as many slots as there are transitions that come before it and is as long as it
has transitions of its own. As all transitions fit, these numbers fit into 32 bits.
-/
namespace ControlGames

namespace Group

theorem size_pos_iff {g : Group} : 0 < g.size ↔ 0 < g.size.toNat := by
  rw [UInt32.lt_iff_toNat_lt, UInt32.toNat_zero]

/-- The slot is one of the group. -/
def Covers (g : Group) (t : ℕ) : Prop :=
  g.offset.toNat ≤ t ∧ t < g.offset.toNat + g.size.toNat

theorem Covers.size_pos {g : Group} {t : ℕ} (h : g.Covers t) : 0 < g.size := by
  rw [size_pos_iff]
  unfold Covers at h
  omega

/-- The groups follow one another without gap or overlap from slot `start` to slot `stop`. -/
def Tile : ℕ → List Group → ℕ → Prop
  | start, [], stop => start = stop
  | start, g :: gs, stop => g.offset.toNat = start ∧ Tile (start + g.size.toNat) gs stop

variable {start stop : ℕ} {gs : List Group}

theorem Tile.le_offset (h : Tile start gs stop) {g : Group} (hg : g ∈ gs) :
    start ≤ g.offset.toNat := by
  induction gs generalizing start with
  | nil => cases hg
  | cons g' gs ih =>
    obtain ⟨hoffset, hrest⟩ := h
    rcases List.mem_cons.mp hg with rfl | hg
    · omega
    · have hle := ih hrest hg
      omega

theorem Tile.pairwise (h : Tile start gs stop) :
    gs.Pairwise fun g g' => g.offset.toNat + g.size.toNat ≤ g'.offset.toNat := by
  induction gs generalizing start with
  | nil => exact .nil
  | cons g gs ih =>
    obtain ⟨hoffset, hrest⟩ := h
    refine List.pairwise_cons.mpr ⟨fun g' hg' => ?_, ih hrest⟩
    rw [hoffset]
    exact hrest.le_offset hg'

theorem Tile.exists_covers (h : Tile start gs stop) {t : ℕ} (hstart : start ≤ t)
    (hstop : t < stop) : ∃ g ∈ gs, g.Covers t := by
  induction gs generalizing start with
  | nil =>
    have heq : start = stop := h
    omega
  | cons g gs ih =>
    obtain ⟨hoffset, hrest⟩ := h
    by_cases ht : t < start + g.size.toNat
    · refine ⟨g, List.mem_cons_self, ?_⟩
      unfold Covers
      omega
    · obtain ⟨g', hg', hcovers⟩ := ih hrest (by omega)
      exact ⟨g', List.mem_cons_of_mem g hg', hcovers⟩

end Group

/-! ### Counting transitions cell by cell -/

namespace Edge

variable {n m : ℕ}

def cell (e : Edge n m) : Fin n × Fin m := (e.post, e.input)

theorem enters_eq (c : Fin n × Fin m) (e : Edge n m) :
    e.enters c.1 c.2 = decide (e.cell = c) := by
  simp [enters, cell, Prod.ext_iff]

theorem before_eq (c : Fin n × Fin m) (e : Edge n m) :
    e.before c.1 c.2 = decide (toLex e.cell < toLex c) := by
  simp [before, cell, Prod.Lex.toLex_lt_toLex]

end Edge

def rowMajor (n m : ℕ) : List (Fin n × Fin m) := List.finRange n ×ˢ List.finRange m

theorem mem_rowMajor {n m : ℕ} (c : Fin n × Fin m) : c ∈ rowMajor n m :=
  List.mem_product.mpr ⟨List.mem_finRange _, List.mem_finRange _⟩

theorem pairwise_rowMajor (n m : ℕ) :
    (rowMajor n m).Pairwise fun c d => toLex c < toLex d := by
  change ((List.finRange n).flatMap fun k => (List.finRange m).map (Prod.mk k)).Pairwise _
  rw [List.pairwise_flatMap]
  constructor
  · intro k _
    rw [List.pairwise_map]
    refine (List.pairwise_lt_finRange m).imp fun hjj' => ?_
    exact Prod.Lex.toLex_lt_toLex.mpr (Or.inr ⟨rfl, hjj'⟩)
  · refine (List.pairwise_lt_finRange n).imp fun {k k'} hkk' => ?_
    intro c hc d hd
    obtain ⟨j, -, rfl⟩ := List.mem_map.mp hc
    obtain ⟨j', -, rfl⟩ := List.mem_map.mp hd
    exact Prod.Lex.toLex_lt_toLex.mpr (Or.inl hkk')

namespace Edge

variable {n m : ℕ}

/-- Outside of fewer cells there are also the transitions of the cell left out. -/
theorem countP_notMem {c : Fin n × Fin m} {cs : List (Fin n × Fin m)} (hc : c ∉ cs)
    (es : List (Edge n m)) :
    es.countP (fun e => decide (e.cell ∉ cs)) =
      es.countP (fun e => decide (e.cell ∉ c :: cs)) + es.countP (enters c.1 c.2) := by
  induction es with
  | nil => rfl
  | cons e es ih =>
    rw [List.countP_cons, List.countP_cons, List.countP_cons, ih, enters_eq]
    by_cases he : e.cell = c
    · simp [he, hc]
      omega
    · simp [he]
      omega

/-- If all other cells come earlier, the transitions before the first of some increasing cells are
those outside of them. -/
theorem countP_before_eq {c : Fin n × Fin m} {cs : List (Fin n × Fin m)} {es : List (Edge n m)}
    (hcs : (c :: cs).Pairwise fun c d => toLex c < toLex d)
    (hes : ∀ e ∈ es, e.cell ∉ c :: cs → toLex e.cell < toLex c) :
    es.countP (before c.1 c.2) = es.countP fun e => decide (e.cell ∉ c :: cs) := by
  refine List.countP_congr fun e he => ?_
  rw [before_eq, decide_eq_true_eq, decide_eq_true_eq]
  constructor
  · intro hlt hmem
    rcases List.mem_cons.mp hmem with heq | hmem
    · exact lt_irrefl _ (heq ▸ hlt)
    · exact lt_asymm hlt ((List.pairwise_cons.mp hcs).1 e.cell hmem)
  · exact hes e he

end Edge

/-- The groups of increasing cells tile the slots behind the transitions of all other cells, if
these come earlier. -/
theorem Layout.Holds.tile {n m : ℕ} {hn : n ≤ reserved} {es : List (Edge n m)} {l : Layout n m}
    (hl : Holds hn es l) {cs : List (Fin n × Fin m)}
    (hcs : cs.Pairwise fun c d => toLex c < toLex d)
    (hes : ∀ e ∈ es, e.cell ∉ cs → ∀ c ∈ cs, toLex e.cell < toLex c) :
    Group.Tile (es.countP fun e => decide (e.cell ∉ cs))
      ((cs.map fun c => l.groups.get c.1 c.2).filter (0 < ·.size)) es.length := by
  induction cs with
  | nil => simp [Group.Tile]
  | cons c cs ih =>
    obtain ⟨hfirst, hcs'⟩ := List.pairwise_cons.mp hcs
    have hc : c ∉ cs := fun hmem => lt_irrefl _ (hfirst c hmem)
    have hes' : ∀ e ∈ es, e.cell ∉ cs → ∀ d ∈ cs, toLex e.cell < toLex d := by
      intro e he hout d hd
      by_cases heq : e.cell = c
      · exact heq ▸ hfirst d hd
      · exact hes e he (by simp [heq, hout]) d (List.mem_cons_of_mem c hd)
    have htile := ih hcs' hes'
    have hsize := hl.size c.1 c.2
    rw [Edge.countP_notMem hc] at htile
    rw [List.map_cons, List.filter_cons]
    rcases Nat.eq_zero_or_pos (es.countP (Edge.enters c.1 c.2)) with hzero | hpos
    · have hnone : ¬ 0 < (l.groups.get c.1 c.2).size := by
        rw [Group.size_pos_iff]
        omega
      rw [if_neg (by simpa using hnone)]
      rwa [hzero, Nat.add_zero] at htile
    · have hsome : 0 < (l.groups.get c.1 c.2).size := by
        rw [Group.size_pos_iff]
        omega
      rw [if_pos (decide_eq_true hsome)]
      refine ⟨?_, hsize ▸ htile⟩
      rw [hl.offset c.1 c.2 hpos]
      exact Edge.countP_before_eq hcs fun e he hout => hes e he hout c List.mem_cons_self

namespace Store

def occupied (s : Store) : List Group :=
  ((rowMajor s.numStates s.numInputs).map fun c => s.groups.get c.1 c.2).filter (0 < ·.size)

/-- If the groups tile the flat array, each slot is one of exactly one group. -/
theorem existsUnique_covers {s : Store} {stop t : ℕ} (h : Group.Tile 0 s.occupied stop)
    (ht : t < stop) :
    ∃! c : Fin s.numStates × Fin s.numInputs, (s.groups.get c.1 c.2).Covers t := by
  let apart (c d : Fin s.numStates × Fin s.numInputs) : Prop :=
    ¬ ((s.groups.get c.1 c.2).Covers t ∧ (s.groups.get d.1 d.2).Covers t)
  have hsymm : Std.Symm apart := ⟨fun c d hcd hdc => hcd hdc.symm⟩
  have hapart : (rowMajor s.numStates s.numInputs).Pairwise apart := by
    have hpairs := h.pairwise
    rw [occupied, List.pairwise_filter, List.pairwise_map] at hpairs
    refine hpairs.imp fun {c d} hcd hboth => ?_
    have hends := hcd (decide_eq_true hboth.1.size_pos) (decide_eq_true hboth.2.size_pos)
    obtain ⟨⟨-, hlt⟩, hle, -⟩ := hboth
    omega
  obtain ⟨g, hg, hcovers⟩ := h.exists_covers (Nat.zero_le t) ht
  obtain ⟨c, -, rfl⟩ := List.mem_map.mp (List.mem_filter.mp hg).1
  refine ⟨c, hcovers, fun d hd => ?_⟩
  by_contra hne
  exact hapart.forall (mem_rowMajor d) (mem_rowMajor c) hne ⟨hd, hcovers⟩

end Store

namespace Builder

def sharing (b : Builder) (k j : ℕ) : Finset Triple :=
  b.triples.toFinset.filter fun t => (t.2.2, t.2.1) = (k, j)

/-- The distinct transitions whose post state and input come before `k` and `j`. -/
def preceding (b : Builder) (k j : ℕ) : Finset Triple :=
  b.triples.toFinset.filter fun t => toLex (t.2.2, t.2.1) < toLex (k, j)

theorem card_sharing (b : Builder) (k : Fin b.numStates) (j : Fin b.numInputs) :
    (b.sharing k j).card = (Edge.sorted b.edges).countP (Edge.enters k j) := by
  rw [sharing, card_filter_triples]
  congr 1
  funext e
  simp [Edge.enters, Edge.triple, Fin.ext_iff]

theorem card_preceding (b : Builder) (k : Fin b.numStates) (j : Fin b.numInputs) :
    (b.preceding k j).card = (Edge.sorted b.edges).countP (Edge.before k j) := by
  rw [preceding, card_filter_triples]
  congr 1
  funext e
  simp [Edge.before, Edge.triple, Prod.Lex.toLex_lt_toLex, Fin.ext_iff]

theorem card_preceding_add_card_sharing_le (b : Builder) (k j : ℕ) :
    (b.preceding k j).card + (b.sharing k j).card ≤ b.triples.toFinset.card := by
  have hdisjoint : Disjoint (b.preceding k j) (b.sharing k j) := by
    refine Finset.disjoint_filter.mpr fun t _ hlt heq => ?_
    rw [heq] at hlt
    exact lt_irrefl _ hlt
  rw [← Finset.card_union_of_disjoint hdisjoint]
  refine Finset.card_le_card (Finset.union_subset ?_ ?_)
  · exact Finset.filter_subset _ _
  · exact Finset.filter_subset _ _

variable {b : Builder} {mem : Memory} {s : Store}

theorem transitionCount_le_of_build (hb : (b.build mem).result = .ok s) :
    s.transitionCount ≤ maxTransitions := by
  obtain ⟨-, hlen, -⟩ := store_eq_ok (store_of_build hb)
  rw [transitionCount_of_build hb, ← length_sorted_edges]
  exact hlen

theorem tile_occupied_of_build (hb : (b.build mem).result = .ok s) :
    Group.Tile 0 s.occupied s.transitionCount := by
  obtain ⟨h, hlen, rfl⟩ := store_eq_ok (store_of_build hb)
  have hl := Layout.holds_ofSorted h.1 (Edge.ordered_sorted b.edges) (Nat.lt_succ_of_le hlen)
  have htile := hl.tile (pairwise_rowMajor b.numStates b.numInputs)
    fun e _ hout => absurd (mem_rowMajor e.cell) hout
  have hnone : (Edge.sorted b.edges).countP
      (fun e => decide (e.cell ∉ rowMajor b.numStates b.numInputs)) = 0 := by
    simp [mem_rowMajor]
  rw [hnone, ← hl.slots_size] at htile
  exact htile

theorem group_of_build (hb : (b.build mem).result = .ok s) (k : Fin s.numStates)
    (j : Fin s.numInputs) :
    (s.groups.get k j).size.toNat = (b.sharing k j).card ∧
      ((b.sharing k j).Nonempty →
        (s.groups.get k j).offset.toNat = (b.preceding k j).card) ∧
      (b.sharing k j = ∅ → s.groups.get k j = ⟨0, 0⟩) := by
  obtain ⟨h, hlen, rfl⟩ := store_eq_ok (store_of_build hb)
  have hl := Layout.holds_ofSorted h.1 (Edge.ordered_sorted b.edges) (Nat.lt_succ_of_le hlen)
  have hsharing := b.card_sharing k j
  refine ⟨(hl.size k j).trans hsharing.symm, fun hsome => ?_, fun hnone => ?_⟩
  · rw [← Finset.card_pos, hsharing] at hsome
    exact (hl.offset k j hsome).trans (b.card_preceding k j).symm
  · rw [← Finset.card_eq_zero, hsharing] at hnone
    exact hl.unused k j hnone

/-- In every built store the groups that are not empty, taken row by row, fill the slots from the
first to the last, each where the one before it ends, and each slot is one of exactly one group. A
group is as long as it has distinct transitions, and unless it has none it starts at the number of
distinct transitions that come before it, both exactly, for they stay within the maximum of 32 bits.
-/
theorem groups_tile_slots (hb : (b.build mem).result = .ok s) :
    Group.Tile 0 s.occupied s.transitionCount ∧
      (∀ t < s.transitionCount,
        ∃! c : Fin s.numStates × Fin s.numInputs, (s.groups.get c.1 c.2).Covers t) ∧
      (∀ (k : Fin s.numStates) (j : Fin s.numInputs),
        (s.groups.get k j).size.toNat = (b.sharing k j).card ∧
        ((b.sharing k j).Nonempty →
          (s.groups.get k j).offset.toNat = (b.preceding k j).card) ∧
        (b.sharing k j = ∅ → s.groups.get k j = ⟨0, 0⟩) ∧
        (b.preceding k j).card + (b.sharing k j).card ≤ s.transitionCount) ∧
      s.transitionCount = b.triples.toFinset.card ∧ s.transitionCount ≤ maxTransitions := by
  have htile := tile_occupied_of_build hb
  refine ⟨htile, fun t ht => Store.existsUnique_covers htile ht, fun k j => ?_,
    transitionCount_of_build hb, transitionCount_le_of_build hb⟩
  obtain ⟨hsize, hoffset, hunused⟩ := group_of_build hb k j
  refine ⟨hsize, hoffset, hunused, ?_⟩
  rw [transitionCount_of_build hb]
  exact b.card_preceding_add_card_sharing_le k j

/-- The five transitions of the fork lie in three groups. The last of them starts behind the three
transitions to the states 1 and 2. -/
theorem groups_tile_slots_fork : (fork.build .ample).result = .ok forkStore ∧
    forkStore.occupied = [⟨0, 1⟩, ⟨1, 2⟩, ⟨3, 2⟩] ∧ Group.Tile 0 forkStore.occupied 5 ∧
    (∃! c : Fin 4 × Fin 2, (forkStore.groups.get c.1 c.2).Covers 2) ∧
    (forkStore.groups.get (3 : Fin 4) (1 : Fin 2)).offset.toNat = (fork.preceding 3 1).card := by
  obtain ⟨htile, hcovers, hgroups, -, -⟩ := groups_tile_slots build_fork
  obtain ⟨-, hoffset, -, -⟩ := hgroups (3 : Fin 4) (1 : Fin 2)
  have hsome : (fork.sharing 3 1).Nonempty := ⟨(0, 1, 3), by decide +kernel⟩
  exact ⟨build_fork, by decide +kernel, htile, hcovers 2 (by decide), hoffset hsome⟩

end Builder

end ControlGames
