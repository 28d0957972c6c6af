import Mathlib.Data.List.Nodup
import Mathlib.Order.Compare
import Mathlib.Order.Fin.Basic
import ControlGames.Builder
import ControlGames.Proofs.FailingFolds
import ControlGames.Proofs.StoredRelation

/-!
# The layout of sorted transitions

Transitions sorted by post state, input and pre state come group by group. Laying them out one by
one fills the flat array in that order, so that the group of a post state and an input starts behind
all transitions that come before it and holds the pre states of its own. A built store is therefore
exact, and its relation is that of the transitions added.
-/
namespace ControlGames

namespace Edge

variable {n m : ℕ}

/-- The transition belongs to the pair of pre state `i` and input `j`. -/
def leaves (i : Fin n) (j : Fin m) (e : Edge n m) : Bool := decide (e.pre = i ∧ e.input = j)

/-- The transition belongs to the group of post state `k` and input `j`. -/
def enters (k : Fin n) (j : Fin m) (e : Edge n m) : Bool := decide (e.post = k ∧ e.input = j)

def before (k : Fin n) (j : Fin m) (e : Edge n m) : Bool :=
  decide (e.post < k ∨ e.post = k ∧ e.input < j)

abbrev Ordered (es : List (Edge n m)) : Prop := es.Pairwise fun a b => order a b = .lt

theorem order_eq_lt_iff {a b : Edge n m} :
    order a b = .lt ↔ a.post < b.post ∨
      a.post = b.post ∧ (a.input < b.input ∨ a.input = b.input ∧ a.pre < b.pre) := by
  simp only [order, compareLex, compareOn, Ordering.then_eq_lt, compare_lt_iff_lt,
    Std.compare_eq_iff_eq]

instance : Std.Irrefl fun a b : Edge n m => order a b = .lt where
  irrefl a h := by
    have hself : order a a = .eq := Std.ReflCmp.compare_self
    rw [hself] at h
    cases h

theorem Ordered.nodup {es : List (Edge n m)} (h : Ordered es) : es.Nodup := List.Pairwise.nodup h

theorem ordered_sorted (es : Array (Edge n m)) : Ordered (sorted es) :=
  Std.TreeSet.ordered_toList

theorem mem_sorted {es : Array (Edge n m)} {e : Edge n m} : e ∈ sorted es ↔ e ∈ es := by
  have hlist : Std.TreeSet.ofArray es order = Std.TreeSet.ofList es.toList order := by
    simp only [Std.TreeSet.ofArray, Std.TreeSet.ofList, Std.TreeMap.unitOfArray,
      Std.TreeMap.unitOfList, Std.DTreeMap.Const.unitOfArray, Std.DTreeMap.Const.unitOfList,
      Std.DTreeMap.Internal.Impl.Const.unitOfArray, Std.DTreeMap.Internal.Impl.Const.unitOfList,
      Std.DTreeMap.Internal.Impl.Const.insertManyIfNewUnit, Array.forIn_toList]
  rw [sorted, Std.TreeSet.mem_toList, hlist, Std.TreeSet.mem_ofList, List.contains_iff_mem,
    Array.mem_toList_iff]

/-- Behind a transition of a group, or behind one that comes after it, nothing comes before it. -/
theorem before_eq_false_of_order {a b : Edge n m} (h : order a b = .lt) {k : Fin n} {j : Fin m}
    (ha : a.before k j = false) : b.before k j = false := by
  rw [order_eq_lt_iff] at h
  simp only [before, decide_eq_false_iff_not] at ha ⊢
  omega

theorem enters_eq_false_of_order {a b : Edge n m} (h : order a b = .lt) {k : Fin n} {j : Fin m}
    (hb : a.before k j = false) (he : a.enters k j = false) : b.enters k j = false := by
  rw [order_eq_lt_iff] at h
  simp only [before, enters, decide_eq_false_iff_not] at hb he ⊢
  omega

/-- The transitions of a group stand next to each other, behind all that come before them. -/
theorem take_drop_eq_filter {es : List (Edge n m)} (h : Ordered es) (k : Fin n) (j : Fin m) :
    (es.drop (es.countP (before k j))).take (es.countP (enters k j)) = es.filter (enters k j) := by
  induction es with
  | nil => rfl
  | cons e es ih =>
    obtain ⟨hhead, htail⟩ := List.pairwise_cons.mp h
    have ih := ih htail
    cases hb : e.before k j with
    | true =>
      have he : e.enters k j = false := by
        simp only [before, enters, decide_eq_true_eq, decide_eq_false_iff_not] at hb ⊢
        omega
      rw [List.countP_cons_of_pos hb, List.countP_cons_of_neg (Bool.eq_false_iff.mp he),
        List.filter_cons_of_neg (Bool.eq_false_iff.mp he), List.drop_succ_cons]
      exact ih
    | false =>
      have hnone : es.countP (before k j) = 0 := by
        rw [List.countP_eq_zero]
        intro a ha
        exact Bool.eq_false_iff.mp (before_eq_false_of_order (hhead a ha) hb)
      rw [hnone, List.drop_zero] at ih
      rw [List.countP_cons_of_neg (Bool.eq_false_iff.mp hb), hnone, List.drop_zero]
      cases he : e.enters k j with
      | true =>
        rw [List.countP_cons_of_pos he, List.filter_cons_of_pos he, List.take_succ_cons, ih]
      | false =>
        have hempty : es.filter (enters k j) = [] := by
          rw [List.filter_eq_nil_iff]
          intro a ha
          exact Bool.eq_false_iff.mp (enters_eq_false_of_order (hhead a ha) hb he)
        rw [List.countP_cons_of_neg (Bool.eq_false_iff.mp he),
          List.filter_cons_of_neg (Bool.eq_false_iff.mp he), hempty, List.countP_eq_length_filter,
          hempty, List.length_nil, List.take_zero]

def posts (es : List (Edge n m)) (i : Fin n) (j : Fin m) : Finset (Fin n) :=
  ((es.filter (leaves i j)).map post).toFinset

theorem mem_posts {es : List (Edge n m)} {i k : Fin n} {j : Fin m} :
    k ∈ posts es i j ↔ ⟨i, j, k⟩ ∈ es := by
  rw [posts, List.mem_toFinset, List.mem_map]
  constructor
  · intro h
    rcases h with ⟨e, he, rfl⟩
    obtain ⟨hmem, hij⟩ := List.mem_filter.mp he
    obtain ⟨rfl, rfl⟩ := of_decide_eq_true hij
    exact hmem
  · intro hk
    exact ⟨⟨i, j, k⟩, List.mem_filter.mpr ⟨hk, decide_eq_true ⟨rfl, rfl⟩⟩, rfl⟩

theorem card_posts {es : List (Edge n m)} (h : es.Nodup) (i : Fin n) (j : Fin m) :
    (posts es i j).card = es.countP (leaves i j) := by
  have hnodup : ((es.filter (leaves i j)).map post).Nodup := by
    refine List.Nodup.map_on (fun a ha b hb hab => ?_) (h.filter _)
    obtain ⟨hap, hau⟩ := of_decide_eq_true (List.mem_filter.mp ha).2
    obtain ⟨hbp, hbu⟩ := of_decide_eq_true (List.mem_filter.mp hb).2
    cases a
    cases b
    simp_all only
  rw [posts, List.toFinset_card_of_nodup hnodup, List.length_map, List.countP_eq_length_filter]

/-- Behind transitions that all come earlier, a transition starts a new group if its group is still
empty, and then all of them come before the group. -/
theorem countP_before_eq_length {es : List (Edge n m)} {e : Edge n m}
    (h : ∀ a ∈ es, order a e = .lt) (hnew : es.countP (enters e.post e.input) = 0) :
    es.countP (before e.post e.input) = es.length := by
  rw [List.countP_eq_length]
  intro a ha
  have hlt := order_eq_lt_iff.mp (h a ha)
  have hne := List.countP_eq_zero.mp hnew a ha
  simp only [enters, before, decide_eq_true_eq] at hne ⊢
  omega

/-- A transition does not come before a group that has been started before it. -/
theorem before_eq_false_of_countP_pos {es : List (Edge n m)} {e : Edge n m}
    (h : ∀ a ∈ es, order a e = .lt) {k : Fin n} {j : Fin m} (hpos : 0 < es.countP (enters k j)) :
    e.before k j = false := by
  obtain ⟨a, ha, hak⟩ := List.countP_pos_iff.mp hpos
  have hlt := order_eq_lt_iff.mp (h a ha)
  simp only [enters, before, decide_eq_true_eq, decide_eq_false_iff_not] at hak ⊢
  omega

end Edge

namespace Layout

variable {n m : ℕ}

/-- What the arrays hold once the transitions of a list have been laid out. -/
structure Holds (hn : n ≤ reserved) (es : List (Edge n m)) (l : Layout n m) : Prop where
  slots : l.slots.toList = es.map fun e => ⟨e.pre, Nat.lt_of_lt_of_le e.pre.isLt hn⟩
  successors : ∀ i j, (l.successorCounts.get i j).toNat = es.countP (Edge.leaves i j)
  size : ∀ k j, (l.groups.get k j).size.toNat = es.countP (Edge.enters k j)
  offset : ∀ k j, 0 < es.countP (Edge.enters k j) →
    (l.groups.get k j).offset.toNat = es.countP (Edge.before k j)
  unused : ∀ k j, es.countP (Edge.enters k j) = 0 → l.groups.get k j = ⟨0, 0⟩

theorem holds_empty (hn : n ≤ reserved) : Holds hn ([] : List (Edge n m)) empty where
  slots := rfl
  successors i j := by simp [empty]
  size k j := by simp [empty]
  offset k j h := absurd h (by simp)
  unused k j _ := by simp [empty]

theorem Holds.slots_size {hn : n ≤ reserved} {es : List (Edge n m)} {l : Layout n m}
    (h : Holds hn es l) : l.slots.size = es.length := by
  rw [← Array.length_toList, h.slots, List.length_map]

private theorem toNat_add_one {a : UInt32} {k : ℕ} (h : a.toNat + 1 ≤ k) (hk : k < wordSize) :
    (a + 1).toNat = a.toNat + 1 := by
  rw [UInt32.toNat_add, UInt32.toNat_one, Nat.mod_eq_of_lt]
  unfold wordSize at hk
  omega

private theorem holds_group {hn : n ≤ reserved} {es : List (Edge n m)} {e : Edge n m}
    {l : Layout n m} (h : Holds hn es l) (hlast : ∀ a ∈ es, Edge.order a e = .lt)
    (hlen : (es ++ [e]).length < wordSize) :
    let g := ((l.place hn e).groups.get e.post e.input)
    g.size.toNat = es.countP (Edge.enters e.post e.input) + 1 ∧
      g.offset.toNat = es.countP (Edge.before e.post e.input) := by
  have hsize := h.size e.post e.input
  rw [List.length_append, List.length_singleton] at hlen
  simp only [place, Table.get_modify, and_self, if_true]
  split
  · next hzero =>
    rw [hzero, UInt32.toNat_zero] at hsize
    refine ⟨by rw [← hsize, UInt32.toNat_one], ?_⟩
    rw [Edge.countP_before_eq_length hlast hsize.symm, h.slots_size, UInt32.toNat_ofNat',
      Nat.mod_eq_of_lt]
    unfold wordSize at hlen
    omega
  · next hzero =>
    have hle : es.countP (Edge.enters e.post e.input) ≤ es.length := List.countP_le_length
    have hpos : 0 < es.countP (Edge.enters e.post e.input) := by
      rw [← hsize]
      exact Nat.pos_of_ne_zero fun h0 => hzero (UInt32.toNat_inj.mp h0)
    exact ⟨by rw [toNat_add_one (by omega) hlen, hsize], h.offset _ _ hpos⟩

/-- Laying out one more transition, which comes after all others. -/
theorem Holds.place {hn : n ≤ reserved} {es : List (Edge n m)} {e : Edge n m} {l : Layout n m}
    (h : Holds hn es l) (hlast : ∀ a ∈ es, Edge.order a e = .lt)
    (hlen : (es ++ [e]).length < wordSize) : Holds hn (es ++ [e]) (l.place hn e) := by
  have hgroup := holds_group h hlast hlen
  have hother : ∀ k j, ¬ (e.post = k ∧ e.input = j) →
      (l.place hn e).groups.get k j = l.groups.get k j ∧ e.enters k j = false := by
    intro k j hkj
    exact ⟨by rw [Layout.place, Table.get_modify, if_neg hkj], decide_eq_false hkj⟩
  have hbefore : e.before e.post e.input = false := by
    simp only [Edge.before, decide_eq_false_iff_not]
    omega
  constructor
  · rw [List.map_append, ← h.slots]
    exact Array.toList_push
  · intro i j
    have hle : es.countP (Edge.leaves i j) ≤ es.length := List.countP_le_length
    rw [List.length_append, List.length_singleton] at hlen
    rw [List.countP_append, List.countP_singleton, Layout.place, Table.get_modify]
    by_cases hij : e.pre = i ∧ e.input = j
    · rw [if_pos hij, toNat_add_one (by rw [h.successors]; omega) hlen, h.successors,
        Edge.leaves, if_pos (decide_eq_true hij)]
    · rw [if_neg hij, h.successors, Edge.leaves, decide_eq_false hij]
      rfl
  · intro k j
    rw [List.countP_append, List.countP_singleton]
    by_cases hkj : e.post = k ∧ e.input = j
    · obtain ⟨rfl, rfl⟩ := hkj
      rw [hgroup.1, Edge.enters, if_pos (decide_eq_true ⟨rfl, rfl⟩)]
    · rw [(hother k j hkj).1, (hother k j hkj).2, h.size]
      rfl
  · intro k j hpos
    rw [List.countP_append, List.countP_singleton] at hpos ⊢
    by_cases hkj : e.post = k ∧ e.input = j
    · obtain ⟨rfl, rfl⟩ := hkj
      rw [hgroup.2, hbefore]
      rfl
    · rw [(hother k j hkj).2] at hpos
      rw [(hother k j hkj).1, h.offset k j hpos, Edge.before_eq_false_of_countP_pos hlast hpos]
      rfl
  · intro k j hzero
    rw [List.countP_append, List.countP_singleton] at hzero
    by_cases hkj : e.post = k ∧ e.input = j
    · rw [Edge.enters, if_pos (decide_eq_true hkj)] at hzero
      omega
    · rw [(hother k j hkj).1, h.unused k j (by omega)]

theorem holds_ofSorted (hn : n ≤ reserved) {es : List (Edge n m)} (h : Edge.Ordered es)
    (hlen : es.length < wordSize) : Holds hn es (ofSorted hn es) := by
  induction es using List.reverseRecOn with
  | nil => exact holds_empty hn
  | append_singleton es e ih =>
    obtain ⟨hes, -, hlast⟩ := List.pairwise_append.mp h
    rw [ofSorted, List.foldl_append]
    rw [List.length_append] at hlen
    refine Holds.place (ih hes (by omega)) (fun a ha => hlast a ha e (List.mem_singleton_self e)) ?_
    rw [List.length_append]
    exact hlen

end Layout

namespace Store

variable {n m : ℕ} {h : n ≤ reserved ∧ m ≤ reserved} {es : List (Edge n m)} {l : Layout n m}

theorem groupAt_ofLayout (hl : Layout.Holds h.1 es l) (hes : Edge.Ordered es) (k : Fin n)
    (j : Fin m) :
    (ofLayout h l).groupAt k j = .ok ((es.filter (Edge.enters k j)).map fun e =>
      ⟨e.pre, Nat.lt_of_lt_of_le e.pre.isLt h.1⟩) := by
  have hrun := Edge.take_drop_eq_filter hes k j
  have hsize := hl.size k j
  change (ofLayout h l).slice (l.groups.get k j) = _
  rcases Nat.eq_zero_or_pos (es.countP (Edge.enters k j)) with hzero | hpos
  · rw [hl.unused k j hzero, ← hrun, hzero, List.take_zero]
    simp [slice, ofLayout]
  · have hbound : es.countP (Edge.before k j) + es.countP (Edge.enters k j) ≤ es.length := by
      have hlen := congrArg List.length hrun
      rw [List.length_take, List.length_drop, ← List.countP_eq_length_filter] at hlen
      omega
    have hslots : l.slots.size = es.length := hl.slots_size
    simp only [slice, ofLayout, hsize, hl.offset k j hpos, hslots, hbound, if_true]
    rw [Array.toList_extract, List.extract_eq_take_drop, hl.slots, Nat.add_sub_cancel_left,
      ← List.map_drop, ← List.map_take, hrun]

theorem listed_ofLayout (hl : Layout.Holds h.1 es l) (hes : Edge.Ordered es) (k : Fin n)
    (j : Fin m) :
    (ofLayout h l).listed k j = (es.filter (Edge.enters k j)).map fun e =>
      ⟨e.pre, Nat.lt_of_lt_of_le e.pre.isLt h.1⟩ := by
  exact listed_of_groupAt (groupAt_ofLayout hl hes k j)

theorem leads_ofLayout (hl : Layout.Holds h.1 es l) (hes : Edge.Ordered es) (i : Fin n) (j : Fin m)
    (k : Fin n) : (ofLayout h l).Leads i j k ↔ ⟨i, j, k⟩ ∈ es := by
  change (ofLayout h l).state i ∈ (ofLayout h l).listed k j ↔ _
  rw [listed_ofLayout hl hes k j, List.mem_map]
  constructor
  · intro hslot
    rcases hslot with ⟨e, he, hi⟩
    obtain ⟨hmem, hkj⟩ := List.mem_filter.mp he
    obtain ⟨rfl, rfl⟩ := of_decide_eq_true hkj
    have hpre : e.pre = i := Fin.ext (congrArg State.id hi)
    exact hpre ▸ hmem
  · intro hmem
    exact ⟨_, List.mem_filter.mpr ⟨hmem, decide_eq_true ⟨rfl, rfl⟩⟩, rfl⟩

theorem pairwise_listed_ofLayout (hl : Layout.Holds h.1 es l) (hes : Edge.Ordered es) (k : Fin n)
    (j : Fin m) : ((ofLayout h l).listed k j).Pairwise fun x y => x.id < y.id := by
  rw [listed_ofLayout hl hes, List.pairwise_map]
  refine List.Pairwise.imp_of_mem (fun {a b} ha hb hab => ?_) (hes.filter (Edge.enters k j))
  have ha := of_decide_eq_true (List.mem_filter.mp ha).2
  have hb := of_decide_eq_true (List.mem_filter.mp hb).2
  have hlt := Edge.order_eq_lt_iff.mp hab
  change a.pre.val < b.pre.val
  omega

theorem nodup_listed_ofLayout (hl : Layout.Holds h.1 es l) (hes : Edge.Ordered es) (k : Fin n)
    (j : Fin m) : ((ofLayout h l).listed k j).Nodup := by
  refine List.Pairwise.imp (fun {x y} hxy => ?_) (pairwise_listed_ofLayout hl hes k j)
  rintro rfl
  exact Nat.lt_irrefl _ hxy

theorem exact_ofLayout (hl : Layout.Holds h.1 es l) (hes : Edge.Ordered es) :
    (ofLayout h l).Exact where
  inside k j :=
    (groupAt_ofLayout hl hes k j).trans (congrArg Except.ok (listed_ofLayout hl hes k j).symm)
  known := by
    intro (k : Fin n) (j : Fin m) x hx
    rw [listed_ofLayout hl hes k j, List.mem_map] at hx
    obtain ⟨e, -, rfl⟩ := hx
    exact e.pre.isLt
  nodup := nodup_listed_ofLayout hl hes
  counted i j := by
    have hposts : Finset.univ.filter ((ofLayout h l).Leads i j) = Edge.posts es i j := by
      refine Finset.ext fun k => ?_
      rw [Finset.mem_filter, leads_ofLayout hl hes i j k]
      exact (and_iff_right (Finset.mem_univ k)).trans Edge.mem_posts.symm
    have hcard := Edge.card_posts hes.nodup i j
    rw [hposts]
    exact (hl.successors i j).trans hcard.symm

end Store

namespace Builder

/-- A transition from `i` to `k` under `j` has been added. -/
def Leads (b : Builder) {n m : ℕ} (i : Fin n) (j : Fin m) (k : Fin n) : Prop :=
  ∃ e ∈ b.edges, e.pre.val = i.val ∧ e.input.val = j.val ∧ e.post.val = k.val

instance (b : Builder) {n m : ℕ} (i : Fin n) (j : Fin m) : DecidablePred (b.Leads (n := n) i j) :=
  fun k => inferInstanceAs
    (Decidable (∃ e ∈ b.edges, e.pre.val = i.val ∧ e.input.val = j.val ∧ e.post.val = k.val))

variable {b : Builder} {mem : Memory} {s : Store}

theorem store_eq_ok (hb : b.store mem = .ok s) :
    ∃ h : b.numStates ≤ reserved ∧ b.numInputs ≤ reserved,
      (Edge.sorted b.edges).length ≤ maxTransitions ∧
      s = .ofLayout h (.ofSorted h.1 (Edge.sorted b.edges)) := by
  simp only [store] at hb
  split at hb
  · next h =>
    obtain ⟨_, -, hb⟩ := bind_eq_ok_iff.mp hb
    obtain ⟨_, hslots, hb⟩ := bind_eq_ok_iff.mp hb
    obtain ⟨_, -, hb⟩ := bind_eq_ok_iff.mp hb
    refine ⟨h, ?_, (Except.ok.inj hb).symm⟩
    simp only [Store.reserveSlots] at hslots
    split at hslots
    · cases hslots
    · omega
  · cases hb

theorem store_of_build (hb : (b.build mem).result = .ok s) : b.store mem = .ok s := by
  simp only [build] at hb
  split at hb
  · next hs =>
    cases hb
    exact hs
  · cases hb

/-- A built store records the relation of the transitions added, without repetition and with the
right numbers of successors. -/
theorem exact_of_build (hb : (b.build mem).result = .ok s) : s.Exact := by
  obtain ⟨h, hlen, rfl⟩ := store_eq_ok (store_of_build hb)
  have hes := Edge.ordered_sorted b.edges
  exact Store.exact_ofLayout (Layout.holds_ofSorted h.1 hes (Nat.lt_succ_of_le hlen)) hes

theorem leads_of_build (hb : (b.build mem).result = .ok s) : s.Leads = b.Leads := by
  obtain ⟨h, hlen, rfl⟩ := store_eq_ok (store_of_build hb)
  have hes := Edge.ordered_sorted b.edges
  have hl := Layout.holds_ofSorted h.1 hes (Nat.lt_succ_of_le hlen)
  funext (i : Fin b.numStates) (j : Fin b.numInputs) (k : Fin b.numStates)
  rw [Store.leads_ofLayout hl hes i j k, Edge.mem_sorted, eq_iff_iff]
  constructor
  · intro hmem
    exact ⟨_, hmem, rfl, rfl, rfl⟩
  · intro hadded
    rcases hadded with ⟨e, he, hi, hj, hk⟩
    obtain ⟨rfl, rfl, rfl⟩ : e.pre = i ∧ e.input = j ∧ e.post = k :=
      ⟨Fin.ext hi, Fin.ext hj, Fin.ext hk⟩
    exact he

theorem sizes_of_build (hb : (b.build mem).result = .ok s) :
    s.numStates = b.numStates ∧ s.numInputs = b.numInputs := by
  obtain ⟨h, -, rfl⟩ := store_eq_ok (store_of_build hb)
  exact ⟨rfl, rfl⟩

/-- A fork: under the first input state 0 leads to state 2, directly or past state 1, and under the
second one to state 3, which it leads back to for ever. -/
def fork : Builder := ⟨4, 2, #[⟨0, 0, 1⟩, ⟨0, 0, 2⟩, ⟨1, 0, 2⟩, ⟨0, 1, 3⟩, ⟨3, 1, 3⟩]⟩

def forkStore : Store :=
  .ofLayout (n := 4) (m := 2) (by decide) (.ofSorted (by decide) (Edge.sorted fork.edges))

theorem build_fork : (fork.build .ample).result = .ok forkStore := rfl

end Builder

end ControlGames
