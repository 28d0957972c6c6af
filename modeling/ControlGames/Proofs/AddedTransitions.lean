import Mathlib.Data.Set.Card
import ControlGames.Proofs.SortedLayout

/-!
# Stores of the transitions added

Transitions are added one by one or several at a time. Whatever the calls, the store built in the
end records each triple once: under its post state and input in the group of predecessors, which
increases strictly, and under its pre state and input in the number of successors.
-/
namespace ControlGames

/-- A transition by the numbers of its pre state, its input and its post state. -/
abbrev Triple : Type := ℕ × ℕ × ℕ

theorem State.id_of_ofId {id : ℕ} {s : State} (h : orFail (State.ofId id) = .ok s) : s.id = id := by
  unfold State.ofId at h
  split at h
  · next hs =>
    cases h
    exact State.ofId?_eq_some_iff.mp hs
  · cases h

theorem Input.id_of_ofId {id : ℕ} {u : Input} (h : orFail (Input.ofId id) = .ok u) : u.id = id := by
  unfold Input.ofId at h
  split at h
  · next hu =>
    cases h
    exact Input.ofId?_eq_some_iff.mp hu
  · cases h

theorem Store.ncard_posts {s : Store} {R : List Triple} {i : Fin s.numStates}
    {j : Fin s.numInputs} (hleads : ∀ k, s.Leads i j k ↔ (i.val, j.val, k.val) ∈ R)
    (hlt : ∀ q, (i.val, j.val, q) ∈ R → q < s.numStates) :
    {q | (i.val, j.val, q) ∈ R}.ncard = (Finset.univ.filter (s.Leads i j)).card := by
  have himage : {q | (i.val, j.val, q) ∈ R} =
      Fin.val '' {k : Fin s.numStates | s.Leads i j k} := by
    ext q
    constructor
    · intro hq
      exact ⟨⟨q, hlt q hq⟩, (hleads _).mpr hq, rfl⟩
    · rintro ⟨k, hk, rfl⟩
      exact (hleads k).mp hk
  have hfinset : {k : Fin s.numStates | s.Leads i j k} = Finset.univ.filter (s.Leads i j) :=
    (Finset.coe_filter_univ _).symm
  rw [himage, Set.ncard_image_of_injective _ Fin.val_injective, hfinset, Set.ncard_coe_finset]

namespace Edge

variable {n m : ℕ} {e : Edge n m}

def triple (e : Edge n m) : Triple := (e.pre, e.input, e.post)

theorem triple_injective : Function.Injective (triple : Edge n m → Triple) := by
  rintro ⟨p, u, q⟩ ⟨p', u', q'⟩ h
  simp only [triple, Prod.mk.injEq, Fin.val_inj] at h
  obtain ⟨rfl, rfl, rfl⟩ := h
  rfl

theorem triple_of_within {pre post : State} {u : Input} (h : within n m pre u post = .ok e) :
    e.triple = (pre.id, u.id, post.id) := by
  simp only [within] at h
  split at h
  · split at h
    · split at h <;> cases h
      rfl
    · cases h
  · cases h

theorem triple_of_ofIds {t : Triple} (h : ofIds n m t = .ok e) : e.triple = t := by
  obtain ⟨pre, hpre, h⟩ := bind_eq_ok_iff.mp h
  obtain ⟨u, hu, h⟩ := bind_eq_ok_iff.mp h
  obtain ⟨post, hpost, h⟩ := bind_eq_ok_iff.mp h
  split at h
  · next hwithin =>
    cases h
    rw [triple_of_within hwithin, State.id_of_ofId hpre, Input.id_of_ofId hu,
      State.id_of_ofId hpost]
  · cases h

end Edge

/-- A call that adds transitions to a builder. -/
inductive Addition
  | single (pre : State) (u : Input) (post : State)
  | several (ts : List Triple)

namespace Addition

def triples : Addition → List Triple
  | single pre u post => [(pre.id, u.id, post.id)]
  | several ts => ts

/-- Makes a call, which fails if one of its transitions cannot be added. -/
def perform (b : Builder) : Addition → Except Failure Builder
  | single pre u post => (b.add pre u post).mapError .refusal
  | several ts =>
    match b.addAll ts with
    | (.ok (), b') => .ok b'
    | (.error f, _) => .error f

end Addition

namespace Builder

def triples (b : Builder) : List Triple := b.edges.toList.map Edge.triple

@[simp] theorem triples_push (b : Builder) (e : Edge b.numStates b.numInputs) :
    (b.push e).triples = b.triples ++ [e.triple] := by
  rw [triples, push, Array.toList_push, List.map_append]
  rfl

/-- The second builder has the sizes of the first one and some more transitions. -/
structure Extends (b b' : Builder) (ts : List Triple) : Prop where
  numStates : b'.numStates = b.numStates
  numInputs : b'.numInputs = b.numInputs
  triples : b'.triples = b.triples ++ ts

variable {b b' b'' : Builder} {ts ts' : List Triple}

theorem Extends.refl (b : Builder) : b.Extends b [] := ⟨rfl, rfl, (List.append_nil _).symm⟩

theorem Extends.trans (h : b.Extends b' ts) (h' : b'.Extends b'' ts') :
    b.Extends b'' (ts ++ ts') where
  numStates := h'.numStates.trans h.numStates
  numInputs := h'.numInputs.trans h.numInputs
  triples := by rw [h'.triples, h.triples, List.append_assoc]

theorem extends_push (e : Edge b.numStates b.numInputs) : b.Extends (b.push e) [e.triple] :=
  ⟨rfl, rfl, triples_push b e⟩

theorem extends_of_add {pre post : State} {u : Input} (h : b.add pre u post = .ok b') :
    b.Extends b' [(pre.id, u.id, post.id)] := by
  rw [add] at h
  cases hwithin : Edge.within b.numStates b.numInputs pre u post with
  | error r =>
    rw [hwithin] at h
    cases h
  | ok e =>
    rw [hwithin] at h
    cases h
    rw [← Edge.triple_of_within hwithin]
    exact extends_push e

theorem extends_of_addAll (h : b.addAll ts = (.ok (), b')) : b.Extends b' ts := by
  induction ts generalizing b with
  | nil =>
    cases h
    exact .refl _
  | cons t ts ih =>
    rw [addAll] at h
    split at h
    · next e he =>
      rw [← Edge.triple_of_ofIds he]
      exact (extends_push e).trans (ih h)
    · cases h

theorem exists_addAll_eq_ok_iff : (∃ b', b.addAll ts = (.ok (), b')) ↔
    ∀ t ∈ ts, ∃ e, Edge.ofIds b.numStates b.numInputs t = .ok e := by
  induction ts generalizing b with
  | nil => exact ⟨fun _ => nofun, fun _ => ⟨b, rfl⟩⟩
  | cons t ts ih =>
    rw [List.forall_mem_cons, addAll]
    cases he : Edge.ofIds b.numStates b.numInputs t with
    | error f => simp
    | ok e => exact ih.trans (iff_and_self.mpr fun _ => ⟨e, rfl⟩)

theorem extends_of_perform {a : Addition} (h : a.perform b = .ok b') : b.Extends b' a.triples := by
  cases a with
  | single pre u post =>
    rw [Addition.perform] at h
    cases hadd : b.add pre u post with
    | error r =>
      rw [hadd] at h
      cases h
    | ok b₁ =>
      rw [hadd] at h
      cases h
      exact extends_of_add hadd
  | several ts =>
    rw [Addition.perform] at h
    split at h
    · next hall =>
      cases h
      exact extends_of_addAll hall
    · cases h

theorem extends_of_foldlM {calls : List Addition} (h : calls.foldlM Addition.perform b = .ok b') :
    b.Extends b' (calls.flatMap Addition.triples) := by
  induction calls generalizing b with
  | nil =>
    cases h
    exact .refl _
  | cons a calls ih =>
    obtain ⟨b₁, ha, h⟩ := bind_eq_ok_iff.mp ((List.foldlM_cons ..).symm.trans h)
    exact (extends_of_perform ha).trans (ih h)

theorem lt_of_mem_triples {t : Triple} (ht : t ∈ b.triples) :
    t.1 < b.numStates ∧ t.2.1 < b.numInputs ∧ t.2.2 < b.numStates := by
  obtain ⟨e, -, rfl⟩ := List.mem_map.mp ht
  exact ⟨e.pre.isLt, e.input.isLt, e.post.isLt⟩

/-! ### Building -/

theorem leads_iff_mem_triples {n m : ℕ} {i k : Fin n} {j : Fin m} :
    b.Leads i j k ↔ (i.val, j.val, k.val) ∈ b.triples := by
  simp only [Leads, triples, List.mem_map, Array.mem_toList_iff, Edge.triple, Prod.mk.injEq]

theorem nodup_sorted_triples (b : Builder) : ((Edge.sorted b.edges).map Edge.triple).Nodup :=
  (Edge.ordered_sorted b.edges).nodup.map Edge.triple_injective

theorem toFinset_sorted_triples (b : Builder) :
    ((Edge.sorted b.edges).map Edge.triple).toFinset = b.triples.toFinset := by
  ext t
  simp only [triples, List.mem_toFinset, List.mem_map, Edge.mem_sorted, Array.mem_toList_iff]

theorem length_sorted_edges : (Edge.sorted b.edges).length = b.triples.toFinset.card := by
  rw [← b.toFinset_sorted_triples, List.toFinset_card_of_nodup b.nodup_sorted_triples,
    List.length_map]

theorem card_filter_triples (b : Builder) (p : Triple → Prop) [DecidablePred p] :
    (b.triples.toFinset.filter p).card =
      (Edge.sorted b.edges).countP fun e => decide (p e.triple) := by
  have hfilter := List.toFinset_filter ((Edge.sorted b.edges).map Edge.triple) fun t => decide (p t)
  simp only [decide_eq_true_eq, b.toFinset_sorted_triples] at hfilter
  rw [← hfilter, List.toFinset_card_of_nodup (b.nodup_sorted_triples.filter _),
    ← List.countP_eq_length_filter, List.countP_map]
  rfl

variable {mem : Memory} {s : Store}

/-- If its sizes fit and memory lasts, a builder gives a store. -/
theorem exists_build_eq_ok (hsizes : b.numStates ≤ reserved ∧ b.numInputs ≤ reserved)
    (hcount : b.triples.toFinset.card ≤ maxTransitions)
    (htables : Store.reserveTables mem (b.numStates * b.numInputs) = .ok ())
    (hslots : mem.reserve .predecessorArray b.triples.toFinset.card = .ok ())
    (hcounts : mem.reserve .builderCounts (b.numStates * b.numInputs) = .ok ()) :
    ∃ s, (b.build mem).result = .ok s := by
  have hstore : b.store mem =
      .ok (.ofLayout hsizes (.ofSorted hsizes.1 (Edge.sorted b.edges))) := by
    have hreserve : Store.reserveSlots mem b.triples.toFinset.card = .ok () := by
      rw [Store.reserveSlots, if_neg (Nat.not_lt.mpr hcount), hslots]
    rw [store, dif_pos hsizes]
    simp only [htables, length_sorted_edges, hreserve, hcounts]
    rfl
  exact ⟨_, by rw [build, hstore]⟩

theorem transitionCount_of_build (hb : (b.build mem).result = .ok s) :
    s.transitionCount = b.triples.toFinset.card := by
  obtain ⟨h, hlen, rfl⟩ := store_eq_ok (store_of_build hb)
  have hl := Layout.holds_ofSorted h.1 (Edge.ordered_sorted b.edges) (Nat.lt_succ_of_le hlen)
  rw [← length_sorted_edges]
  exact hl.slots_size

theorem pairwise_listed_of_build (hb : (b.build mem).result = .ok s) (k : Fin s.numStates)
    (j : Fin s.numInputs) : (s.listed k j).Pairwise fun x y => x.id < y.id := by
  obtain ⟨h, hlen, rfl⟩ := store_eq_ok (store_of_build hb)
  have hes := Edge.ordered_sorted b.edges
  exact Store.pairwise_listed_ofLayout (Layout.holds_ofSorted h.1 hes (Nat.lt_succ_of_le hlen)) hes
    k j

theorem mem_listed_of_build (hb : (b.build mem).result = .ok s) (k : Fin s.numStates)
    (j : Fin s.numInputs) (x : State) :
    x ∈ s.listed k j ↔ (x.id, j.val, k.val) ∈ b.triples := by
  have hs := exact_of_build hb
  constructor
  · intro hx
    obtain ⟨i, rfl⟩ := Store.exists_state_eq (hs.known k j x hx)
    have hleads : s.Leads i j k := hx
    rw [leads_of_build hb, leads_iff_mem_triples] at hleads
    exact hleads
  · intro hx
    have hid : x.id < s.numStates := by
      rw [(sizes_of_build hb).1]
      exact (lt_of_mem_triples hx).1
    obtain ⟨i, rfl⟩ := Store.exists_state_eq hid
    have hleads : b.Leads i j k := leads_iff_mem_triples.mpr hx
    rw [← leads_of_build hb] at hleads
    exact hleads

theorem successorCountAt_of_build (hb : (b.build mem).result = .ok s) (i : Fin s.numStates)
    (j : Fin s.numInputs) :
    s.successorCountAt i j = {q | (i.val, j.val, q) ∈ b.triples}.ncard := by
  rw [(exact_of_build hb).counted]
  refine (Store.ncard_posts (fun k => ?_) fun q hq => ?_).symm
  · rw [leads_of_build hb, leads_iff_mem_triples]
  · rw [(sizes_of_build hb).1]
    exact (lt_of_mem_triples hq).2.2

/-- Every sequence of successful calls on a new builder ends with a builder of the same sizes whose
store, if the sizes and the distinct transitions fit and memory lasts, records just the transitions
of the calls: one slot for each of them, the predecessors of each group in increasing order, and for
each pair the number of its successors. -/
theorem build_records_added {n m : ℕ} (hn : n ≤ reserved) (hm : m ≤ reserved)
    {calls : List Addition} (hcalls : calls.foldlM Addition.perform (new n m) = .ok b)
    (hcount : (calls.flatMap Addition.triples).toFinset.card ≤ maxTransitions)
    (htables : Store.reserveTables mem (n * m) = .ok ())
    (hslots : mem.reserve .predecessorArray (calls.flatMap Addition.triples).toFinset.card =
      .ok ())
    (hcounts : mem.reserve .builderCounts (n * m) = .ok ()) :
    ∃ s, (b.build mem).result = .ok s ∧ s.numStates = n ∧ s.numInputs = m ∧
      s.transitionCount = (calls.flatMap Addition.triples).toFinset.card ∧
      (∀ (k : Fin s.numStates) (j : Fin s.numInputs), ∃ xs,
        s.group (s.state k) (s.input j) = .ok xs ∧ (xs.Pairwise fun x y => x.id < y.id) ∧
        ∀ x : State, x ∈ xs ↔ (x.id, j.val, k.val) ∈ calls.flatMap Addition.triples) ∧
      ∀ (i : Fin s.numStates) (j : Fin s.numInputs),
        s.successorCount (s.state i) (s.input j) =
          .ok {q | (i.val, j.val, q) ∈ calls.flatMap Addition.triples}.ncard := by
  obtain ⟨rfl, rfl, htriples⟩ := extends_of_foldlM hcalls
  have htriples : b.triples = calls.flatMap Addition.triples := htriples
  rw [← htriples] at hcount hslots ⊢
  obtain ⟨s, hb⟩ := exists_build_eq_ok ⟨hn, hm⟩ hcount htables hslots hcounts
  obtain ⟨hstates, hinputs⟩ := sizes_of_build hb
  refine ⟨s, hb, hstates, hinputs, transitionCount_of_build hb, fun k j => ?_, fun i j => ?_⟩
  · exact ⟨s.listed k j, Store.group_state (exact_of_build hb).inside k j,
      pairwise_listed_of_build hb k j, mem_listed_of_build hb k j⟩
  · rw [Store.successorCount_state, successorCountAt_of_build hb]

/-- A transition that is added twice gets one slot and counts as one successor. -/
theorem build_records_repeated : ∃ b s,
    [Addition.several [(0, 0, 1), (1, 0, 1)],
      .single ⟨0, by decide⟩ ⟨0, by decide⟩ ⟨1, by decide⟩].foldlM Addition.perform (new 2 1) =
        .ok b ∧
    (b.build .ample).result = .ok s ∧ s.transitionCount = 2 ∧
    s.successorCount ⟨0, by decide⟩ ⟨0, by decide⟩ = .ok 1 := by
  let calls : List Addition := [.several [(0, 0, 1), (1, 0, 1)],
    .single ⟨0, by decide⟩ ⟨0, by decide⟩ ⟨1, by decide⟩]
  have hcalls : calls.foldlM Addition.perform (new 2 1) =
      .ok ⟨2, 1, #[⟨0, 0, 1⟩, ⟨1, 0, 1⟩, ⟨0, 0, 1⟩]⟩ := rfl
  have hcard : (calls.flatMap Addition.triples).toFinset.card = 2 := rfl
  have htables : Store.reserveTables .ample (2 * 1) = .ok () := rfl
  have hslots : Memory.ample.reserve .predecessorArray 2 = .ok () := rfl
  obtain ⟨s, hb, hstates, hinputs, hcount, -, hsuccessors⟩ :=
    build_records_added (by decide) (by decide) hcalls (by rw [hcard]; decide) htables
      (by rw [hcard]; exact hslots) rfl
  have hposts : {q | (0, 0, q) ∈ calls.flatMap Addition.triples} = {1} := by
    ext q
    simp [calls, Addition.triples]
  refine ⟨_, s, hcalls, hb, hcount.trans hcard, ?_⟩
  have hfirst := hsuccessors ⟨0, by omega⟩ ⟨0, by omega⟩
  rw [hposts, Set.ncard_singleton] at hfirst
  exact hfirst

end Builder

end ControlGames
