import Mathlib.Data.List.Destutter
import Mathlib.Data.List.Sort
import ControlGames.Proofs.AddedTransitions

/-!
# Canonical stores

Which store a builder gives depends on its sizes and on the set of transitions that it has accepted,
and on nothing else: not on the order in which they came, not on their repetitions, not on the calls
that failed in between. For it is laid out from a list of the transitions that increases strictly,
and there is only one such list.
-/
namespace ControlGames

/-! ### Sorting -/

namespace Edge

variable {n m : ℕ}

instance : Std.Antisymm fun a b : Edge n m => (order a b).isLE where
  antisymm _ _ hab hba := Std.LawfulEqCmp.eq_of_compare (Std.OrientedCmp.isLE_antisymm hab hba)

instance : Std.Antisymm fun a b : Edge n m => order a b = .lt where
  antisymm _ _ hab hba := antisymm (r := fun a b : Edge n m => (order a b).isLE)
    (Ordering.isLE_of_eq_lt hab) (Ordering.isLE_of_eq_lt hba)

theorem Ordered.eq_of_mem_iff {es es' : List (Edge n m)} (h : Ordered es) (h' : Ordered es')
    (hmem : ∀ e, e ∈ es ↔ e ∈ es') : es = es' :=
  List.Pairwise.eq_of_mem_iff h h' hmem

theorem sorted_congr {es es' : Array (Edge n m)} (h : ∀ e, e ∈ es ↔ e ∈ es') :
    sorted es = sorted es' := by
  refine (ordered_sorted es).eq_of_mem_iff (ordered_sorted es') fun e => ?_
  rw [mem_sorted, mem_sorted, h]

/-- However the transitions are sorted, equal ones stand next to each other. Dropping all but the
first of them leaves the distinct transitions in the order of storage. -/
theorem sorted_eq_destutter {es : Array (Edge n m)} {l : List (Edge n m)} (hperm : l.Perm es.toList)
    (hsort : l.Pairwise fun a b => (order a b).isLE) : sorted es = l.destutter (· ≠ ·) := by
  rw [hsort.destutter_eq_dedup]
  refine (ordered_sorted es).eq_of_mem_iff ?_ fun e => ?_
  · have hle := hsort.sublist (List.dedup_sublist l)
    refine (hle.and (List.nodup_dedup l)).imp fun {a b} hab => ?_
    cases hcmp : order a b with
    | lt => rfl
    | eq => exact absurd (Std.LawfulEqCmp.eq_of_compare hcmp) hab.2
    | gt =>
      rw [hcmp] at hab
      cases hab.1
  · rw [mem_sorted, List.mem_dedup, hperm.mem_iff, Array.mem_toList_iff]

end Edge

namespace Builder

/-- Builders of one size that hold the same transitions give the same store or the same refusal. -/
theorem build_congr {b b' : Builder} (hn : b.numStates = b'.numStates)
    (hm : b.numInputs = b'.numInputs) (h : ∀ t, t ∈ b.triples ↔ t ∈ b'.triples) (mem : Memory) :
    b.build mem = b'.build mem := by
  obtain ⟨n, m, es⟩ := b
  obtain ⟨n', m', es'⟩ := b'
  obtain rfl : n = n' := hn
  obtain rfl : m = m' := hm
  have hmem : ∀ e, e ∈ es ↔ e ∈ es' := by
    intro e
    simpa only [triples, List.mem_map_of_injective Edge.triple_injective, Array.mem_toList_iff]
      using h e.triple
  have hsorted := Edge.sorted_congr hmem
  have hstore : store mem ⟨n, m, es⟩ = store mem ⟨n, m, es'⟩ := by
    simp only [store, hsorted]
  rw [build, build, hstore]

theorem mem_triples_iff_of_build {b : Builder} {mem : Memory} {s : Store}
    (hb : (b.build mem).result = .ok s) {t : Triple} :
    t ∈ b.triples ↔ ∃ i j k, s.Leads i j k ∧ (i.val, j.val, k.val) = t := by
  obtain ⟨hn, hm⟩ := sizes_of_build hb
  rw [leads_of_build hb]
  constructor
  · intro ht
    obtain ⟨e, -, rfl⟩ := List.mem_map.mp ht
    exact ⟨e.pre.cast hn.symm, e.input.cast hm.symm, e.post.cast hn.symm,
      leads_iff_mem_triples.mpr ht, rfl⟩
  · rintro ⟨i, j, k, hleads, rfl⟩
    exact leads_iff_mem_triples.mp hleads

end Builder

/-! ### Accepted transitions -/

/-- The parts of the transition are in range, and none carries the reserved number. -/
def Acceptable (n m : ℕ) (t : Triple) : Prop :=
  (t.1 < n ∧ t.2.1 < m ∧ t.2.2 < n) ∧ t.1 < reserved ∧ t.2.1 < reserved ∧ t.2.2 < reserved

instance (n m : ℕ) : DecidablePred (Acceptable n m) := fun _ => inferInstanceAs (Decidable (_ ∧ _))

theorem State.ofId_eq_ok {id : ℕ} (h : id < reserved) : State.ofId id = .ok ⟨id, h⟩ := by
  rw [State.ofId, State.ofId?, dif_pos h]

theorem Input.ofId_eq_ok {id : ℕ} (h : id < reserved) : Input.ofId id = .ok ⟨id, h⟩ := by
  rw [Input.ofId, Input.ofId?, dif_pos h]

namespace Edge

variable {n m : ℕ}

theorem ofIds_of_lt {p u q : ℕ} (hp : p < reserved) (hu : u < reserved) (hq : q < reserved) :
    ofIds n m (p, u, q) = (within n m ⟨p, hp⟩ ⟨u, hu⟩ ⟨q, hq⟩).mapError .refusal := by
  simp only [ofIds, State.ofId_eq_ok hp, State.ofId_eq_ok hq, Input.ofId_eq_ok hu, orFail, bind,
    Except.bind]
  cases within n m ⟨p, hp⟩ ⟨u, hu⟩ ⟨q, hq⟩ <;> rfl

theorem exists_ofIds_eq_ok_iff {t : Triple} : (∃ e, ofIds n m t = .ok e) ↔ Acceptable n m t := by
  obtain ⟨p, u, q⟩ := t
  constructor
  · rintro ⟨e, he⟩
    have htriple := triple_of_ofIds he
    obtain ⟨pre, hpre, he⟩ := bind_eq_ok_iff.mp he
    obtain ⟨v, hv, he⟩ := bind_eq_ok_iff.mp he
    obtain ⟨post, hpost, -⟩ := bind_eq_ok_iff.mp he
    obtain rfl := State.id_of_ofId hpre
    obtain rfl := Input.id_of_ofId hv
    obtain rfl := State.id_of_ofId hpost
    refine ⟨?_, pre.id_lt, v.id_lt, post.id_lt⟩
    rw [← htriple]
    exact ⟨e.pre.isLt, e.input.isLt, e.post.isLt⟩
  · rintro ⟨⟨hp, hu, hq⟩, hp', hu', hq'⟩
    refine ⟨⟨⟨p, hp⟩, ⟨u, hu⟩, ⟨q, hq⟩⟩, ?_⟩
    rw [ofIds_of_lt hp' hu' hq', within, dif_pos hp, dif_pos hq, dif_pos hu]
    rfl

end Edge

namespace Addition

/-- What a call answers, and the builder that it leaves. -/
def attempt (b : Builder) : Addition → Except Failure Unit × Builder
  | single pre u post =>
    match b.add pre u post with
    | .ok b' => (.ok (), b')
    | .error r => (.error r, b)
  | several ts => b.addAll ts

theorem perform_eq_ok_iff {a : Addition} {b b' : Builder} :
    a.perform b = .ok b' ↔ a.attempt b = (.ok (), b') := by
  cases a with
  | single pre u post =>
    rw [perform, attempt]
    cases b.add pre u post with
    | ok b₁ => simp [Except.mapError]
    | error r => simp [Except.mapError]
  | several ts =>
    rw [perform, attempt]
    split
    · next hall => simp [hall]
    · next hall => simp [hall]

/-- The transitions that a call adds: those before the first one that is not acceptable. -/
def accepted (n m : ℕ) (a : Addition) : List Triple :=
  a.triples.takeWhile fun t => Acceptable n m t

theorem attempt_single (b : Builder) (pre : State) (u : Input) (post : State) :
    (single pre u post).attempt b = b.addAll [(pre.id, u.id, post.id)] := by
  rw [attempt, Builder.add, Builder.addAll,
    Edge.ofIds_of_lt pre.id_lt u.id_lt post.id_lt]
  cases Edge.within b.numStates b.numInputs pre u post with
  | ok e => rfl
  | error r => rfl

end Addition

namespace Builder

variable {b : Builder}

/-- The builder that a sequence of calls leaves, some of which may fail. -/
def after (calls : List Addition) (b : Builder) : Builder :=
  calls.foldl (fun b a => (a.attempt b).2) b

theorem extends_addAll (ts : List Triple) :
    b.Extends (b.addAll ts).2 (ts.takeWhile fun t => Acceptable b.numStates b.numInputs t) := by
  induction ts generalizing b with
  | nil => exact .refl b
  | cons t ts ih =>
    rw [addAll, List.takeWhile_cons]
    by_cases ht : Acceptable b.numStates b.numInputs t
    · obtain ⟨e, he⟩ := Edge.exists_ofIds_eq_ok_iff.mpr ht
      rw [if_pos (decide_eq_true ht), he, ← Edge.triple_of_ofIds he]
      exact (extends_push e).trans ih
    · rw [if_neg (Bool.eq_false_iff.mp (decide_eq_false ht))]
      cases he : Edge.ofIds b.numStates b.numInputs t with
      | ok e => exact absurd (Edge.exists_ofIds_eq_ok_iff.mp ⟨e, he⟩) ht
      | error f => exact .refl b

theorem extends_attempt (a : Addition) :
    b.Extends (a.attempt b).2 (a.accepted b.numStates b.numInputs) := by
  cases a with
  | single pre u post =>
    rw [Addition.attempt_single]
    exact extends_addAll [(pre.id, u.id, post.id)]
  | several ts => exact extends_addAll ts

theorem extends_after (calls : List Addition) :
    b.Extends (b.after calls) (calls.flatMap (Addition.accepted b.numStates b.numInputs)) := by
  induction calls generalizing b with
  | nil => exact .refl b
  | cons a calls ih =>
    have hfirst : b.Extends (a.attempt b).2 (a.accepted b.numStates b.numInputs) :=
      extends_attempt a
    have hrest := ih (b := (a.attempt b).2)
    rw [hfirst.numStates, hfirst.numInputs] at hrest
    exact hfirst.trans hrest

theorem after_of_foldlM {calls : List Addition} {b b' : Builder}
    (h : calls.foldlM Addition.perform b = .ok b') : b.after calls = b' := by
  induction calls generalizing b with
  | nil => exact Except.ok.inj h
  | cons a calls ih =>
    obtain ⟨b₁, ha, h⟩ := bind_eq_ok_iff.mp ((List.foldlM_cons ..).symm.trans h)
    rw [after, List.foldl_cons, Addition.perform_eq_ok_iff.mp ha]
    exact ih h

/-- A built store is laid out from any sorted arrangement of the transitions without repetitions. -/
theorem exists_eq_ofLayout_destutter {b : Builder} {mem : Memory} {s : Store}
    (hb : (b.build mem).result = .ok s) {l : List (Edge b.numStates b.numInputs)}
    (hperm : l.Perm b.edges.toList) (hsort : l.Pairwise fun a b => (Edge.order a b).isLE) :
    ∃ h, s = .ofLayout h (.ofSorted h.1 (l.destutter (· ≠ ·))) := by
  obtain ⟨h, -, hs⟩ := store_eq_ok (store_of_build hb)
  rw [Edge.sorted_eq_destutter hperm hsort] at hs
  exact ⟨h, hs⟩

/-- Two sequences of calls on new builders of one size lead to the same result of building, be it a
refusal or a store, if the same set of transitions is accepted from both. They lead to the same
store only if this is so. Where all calls of a sequence succeed, this is the builder that they lead
to. However the transitions are sorted for building, repetitions stand next to each other, and the
store is laid out from what is left when they are dropped. -/
theorem build_canonical {n m : ℕ} (calls calls' : List Addition) (mem : Memory) :
    ((∀ t, t ∈ calls.flatMap (Addition.accepted n m) ↔
        t ∈ calls'.flatMap (Addition.accepted n m)) →
      ((new n m).after calls).build mem = ((new n m).after calls').build mem) ∧
    (∀ s, (((new n m).after calls).build mem).result = .ok s →
      (((new n m).after calls').build mem).result = .ok s →
      ∀ t, t ∈ calls.flatMap (Addition.accepted n m) ↔
        t ∈ calls'.flatMap (Addition.accepted n m)) ∧
    (∀ b, calls.foldlM Addition.perform (new n m) = .ok b → (new n m).after calls = b) ∧
    ∀ l, List.Perm l ((new n m).after calls).edges.toList →
      l.Pairwise (fun a b => (Edge.order a b).isLE) →
      Edge.sorted ((new n m).after calls).edges = l.destutter (· ≠ ·) ∧
      ∀ s, (((new n m).after calls).build mem).result = .ok s →
        ∃ h, s = .ofLayout h (.ofSorted h.1 (l.destutter (· ≠ ·))) := by
  have hleft : (new n m).Extends ((new n m).after calls) (calls.flatMap (Addition.accepted n m)) :=
    extends_after calls
  have hright : (new n m).Extends ((new n m).after calls')
      (calls'.flatMap (Addition.accepted n m)) := extends_after calls'
  have htriples : ((new n m).after calls).triples = calls.flatMap (Addition.accepted n m) :=
    hleft.triples
  have htriples' : ((new n m).after calls').triples = calls'.flatMap (Addition.accepted n m) :=
    hright.triples
  rw [← htriples, ← htriples']
  refine ⟨fun h => ?_, fun s hb hb' t => ?_, fun b => after_of_foldlM, fun l hperm hsort => ?_⟩
  · exact build_congr (hleft.numStates.trans hright.numStates.symm)
      (hleft.numInputs.trans hright.numInputs.symm) h mem
  · rw [mem_triples_iff_of_build hb, mem_triples_iff_of_build hb']
  · refine ⟨Edge.sorted_eq_destutter hperm hsort, fun s hb => ?_⟩
    exact exists_eq_ofLayout_destutter hb hperm hsort

/-- Two transitions added in either order, once with a repetition and once with a call that fails at
a third one. -/
theorem build_canonical_of_failing_call :
    let calls : List Addition := [.several [(0, 0, 1), (1, 0, 1), (0, 0, 1)]]
    let calls' : List Addition := [.several [(1, 0, 1), (2, 0, 1), (0, 0, 0)],
      .single ⟨0, by decide⟩ ⟨0, by decide⟩ ⟨1, by decide⟩]
    (∀ t, t ∈ calls.flatMap (Addition.accepted 2 1) ↔
      t ∈ calls'.flatMap (Addition.accepted 2 1)) ∧
    ((new 2 1).after calls).build .ample = ((new 2 1).after calls').build .ample := by
  intro calls calls'
  have haccepted : calls.flatMap (Addition.accepted 2 1) = [(0, 0, 1), (1, 0, 1), (0, 0, 1)] := rfl
  have haccepted' : calls'.flatMap (Addition.accepted 2 1) = [(1, 0, 1), (0, 0, 1)] := rfl
  have hsame : ∀ t, t ∈ calls.flatMap (Addition.accepted 2 1) ↔
      t ∈ calls'.flatMap (Addition.accepted 2 1) := by
    intro t
    rw [haccepted, haccepted']
    simp only [List.mem_cons, List.not_mem_nil]
    tauto
  exact ⟨hsame, (build_canonical calls calls' .ample).1 hsame⟩

end Builder

end ControlGames
