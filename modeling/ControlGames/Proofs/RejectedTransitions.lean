import ControlGames.Proofs.CanonicalStores

/-!
# Rejected transitions

A list of transitions is added up to the first that cannot be added. The builder keeps those before
it, and why the call fails is decided by that transition alone: a reserved number is a fault, found
in the pre state, the input or the post state in this order, and a number out of range is refused,
the pre state before the post state and both before the input.
-/
namespace ControlGames

/-- A transition as it is handed over, three 32-bit words. -/
structure EdgeWords where
  pre : UInt32
  input : UInt32
  post : UInt32

def EdgeWords.triple (w : EdgeWords) : Triple := (w.pre.toNat, w.input.toNat, w.post.toNat)

/-- What is wrong with a transition among `n` states under `m` inputs. Whatever is not the reserved
number is the number of a state or of an input. -/
inductive Rejected (n m : ℕ) : Triple → Failure → Prop
  | preReserved {u q : ℕ} : Rejected n m (reserved, u, q) Fault.reservedState
  | inputReserved (x : State) {q : ℕ} : Rejected n m (x.id, reserved, q) Fault.reservedInput
  | postReserved (x : State) (v : Input) :
      Rejected n m (x.id, v.id, reserved) Fault.reservedState
  | preOut (x : State) (v : Input) (y : State) (hx : n ≤ x.id) :
      Rejected n m (x.id, v.id, y.id) (Refusal.stateOutOfRange x n)
  | postOut (x : State) (v : Input) (y : State) (hx : x.id < n) (hy : n ≤ y.id) :
      Rejected n m (x.id, v.id, y.id) (Refusal.stateOutOfRange y n)
  | inputOut (x : State) (v : Input) (y : State) (hx : x.id < n) (hy : y.id < n)
      (hv : m ≤ v.id) : Rejected n m (x.id, v.id, y.id) (Refusal.inputOutOfRange v m)

theorem State.ofId_reserved : State.ofId reserved = .error .reservedState := by
  rw [ofId, ofId?, dif_neg (Nat.lt_irrefl _)]

theorem Input.ofId_reserved : Input.ofId reserved = .error .reservedInput := by
  rw [ofId, ofId?, dif_neg (Nat.lt_irrefl _)]

theorem toNat_eq_reserved_or_lt (w : UInt32) : w.toNat = reserved ∨ w.toNat < reserved := by
  have hlt := w.toNat_lt
  unfold reserved wordSize
  omega

namespace Rejected

variable {n m : ℕ} {t : Triple} {f f' : Failure}

theorem ofIds_eq (h : Rejected n m t f) : Edge.ofIds n m t = .error f := by
  cases h with
  | preReserved =>
    simp only [Edge.ofIds, State.ofId_reserved, orFail, bind, Except.bind]
  | inputReserved x =>
    simp only [Edge.ofIds, State.ofId_eq_ok x.id_lt, Input.ofId_reserved, orFail, bind, Except.bind]
  | postReserved x v =>
    simp only [Edge.ofIds, State.ofId_eq_ok x.id_lt, Input.ofId_eq_ok v.id_lt, State.ofId_reserved,
      orFail, bind, Except.bind]
  | preOut x v y hx =>
    rw [Edge.ofIds_of_lt x.id_lt v.id_lt y.id_lt, Edge.within, dif_neg (Nat.not_lt.mpr hx)]
    rfl
  | postOut x v y hx hy =>
    rw [Edge.ofIds_of_lt x.id_lt v.id_lt y.id_lt, Edge.within, dif_pos hx,
      dif_neg (Nat.not_lt.mpr hy)]
    rfl
  | inputOut x v y hx hy hv =>
    rw [Edge.ofIds_of_lt x.id_lt v.id_lt y.id_lt, Edge.within, dif_pos hx, dif_pos hy,
      dif_neg (Nat.not_lt.mpr hv)]
    rfl

theorem unique (h : Rejected n m t f) (h' : Rejected n m t f') : f = f' :=
  Except.error.inj (h.ofIds_eq.symm.trans h'.ofIds_eq)

theorem exists_of_ids (x : State) (v : Input) (y : State)
    (h : ¬ Acceptable n m (x.id, v.id, y.id)) :
    ∃ r : Refusal, Rejected n m (x.id, v.id, y.id) r := by
  by_cases hx : x.id < n
  · by_cases hy : y.id < n
    · by_cases hv : v.id < m
      · exact absurd ⟨⟨hx, hv, hy⟩, x.id_lt, v.id_lt, y.id_lt⟩ h
      · exact ⟨_, .inputOut x v y hx hy (by omega)⟩
    · exact ⟨_, .postOut x v y hx (by omega)⟩
  · exact ⟨_, .preOut x v y (by omega)⟩

theorem exists_of_words {w : EdgeWords} (h : ¬ Acceptable n m w.triple) :
    ∃ f, Rejected n m w.triple f := by
  unfold EdgeWords.triple at h ⊢
  rcases toNat_eq_reserved_or_lt w.pre with hp | hp
  · rw [hp]
    exact ⟨_, .preReserved⟩
  rcases toNat_eq_reserved_or_lt w.input with hu | hu
  · rw [hu]
    exact ⟨_, .inputReserved ⟨_, hp⟩⟩
  rcases toNat_eq_reserved_or_lt w.post with hq | hq
  · rw [hq]
    exact ⟨_, .postReserved ⟨_, hp⟩ ⟨_, hu⟩⟩
  · obtain ⟨r, hr⟩ := exists_of_ids ⟨_, hp⟩ ⟨_, hu⟩ ⟨_, hq⟩ h
    exact ⟨r, hr⟩

/-- If whatever is not acceptable is rejected, the checks answer with the reason. -/
theorem iff_ofIds (hbad : ¬ Acceptable n m t → ∃ f', Rejected n m t f') :
    Rejected n m t f ↔ Edge.ofIds n m t = .error f := by
  refine ⟨ofIds_eq, fun hids => ?_⟩
  have hout : ¬ Acceptable n m t := by
    intro hin
    obtain ⟨e, he⟩ := Edge.exists_ofIds_eq_ok_iff.mpr hin
    rw [hids] at he
    cases he
  obtain ⟨f', hf'⟩ := hbad hout
  obtain rfl : f' = f := Except.error.inj (hf'.ofIds_eq.symm.trans hids)
  exact hf'

end Rejected

namespace Builder

variable {b b' : Builder} {ts : List Triple}

theorem addAll_append (h : b.addAll ts = (.ok (), b')) (ts' : List Triple) :
    b.addAll (ts ++ ts') = b'.addAll ts' := by
  induction ts generalizing b with
  | nil =>
    cases h
    rfl
  | cons t ts ih =>
    rw [addAll] at h
    rw [List.cons_append, addAll]
    split at h
    · exact ih h
    · cases h

theorem exists_addAll_of_acceptable
    (hts : ∀ t ∈ ts, Acceptable b.numStates b.numInputs t) :
    ∃ b', b.addAll ts = (.ok (), b') ∧ b.Extends b' ts := by
  obtain ⟨b', hadd⟩ := exists_addAll_eq_ok_iff.mpr fun t ht =>
    Edge.exists_ofIds_eq_ok_iff.mpr (hts t ht)
  exact ⟨b', hadd, extends_of_addAll hadd⟩

theorem addAll_of_rejected {t : Triple} {f : Failure} (h : b.addAll ts = (.ok (), b'))
    (ht : Rejected b.numStates b.numInputs t f) (ts' : List Triple) :
    b.addAll (ts ++ t :: ts') = (.error f, b') := by
  have hext := extends_of_addAll h
  rw [← hext.numStates, ← hext.numInputs] at ht
  rw [addAll_append h, addAll, ht.ofIds_eq]

theorem add_eq_error_iff {pre post : State} {u : Input} {r : Refusal} :
    b.add pre u post = .error r ↔
      Rejected b.numStates b.numInputs (pre.id, u.id, post.id) r := by
  have hbad : ¬ Acceptable b.numStates b.numInputs (pre.id, u.id, post.id) →
      ∃ f, Rejected b.numStates b.numInputs (pre.id, u.id, post.id) f := by
    intro hout
    obtain ⟨r', hr'⟩ := Rejected.exists_of_ids pre u post hout
    exact ⟨r', hr'⟩
  rw [Rejected.iff_ofIds hbad, Edge.ofIds_of_lt pre.id_lt u.id_lt post.id_lt, add]
  cases Edge.within b.numStates b.numInputs pre u post with
  | ok e => simp [Except.map, Except.mapError]
  | error r' => simp [Except.map, Except.mapError]

/-- A call that adds transitions adds all of them in order if each is acceptable. Otherwise it keeps
those before the first that is not, and fails for the reason that this one alone gives. To add one
transition of states and an input is to add a list of one, with nothing to be found but the
refusals, and leaves the builder as it is if it is refused. -/
theorem addAll_keeps_before_rejected (b : Builder) (ws : List EdgeWords) :
    ((∀ w ∈ ws, Acceptable b.numStates b.numInputs w.triple) →
      ∃ b', b.addAll (ws.map EdgeWords.triple) = (.ok (), b') ∧
        b.Extends b' (ws.map EdgeWords.triple)) ∧
    (∀ (k : ℕ) (hk : k < ws.length),
      (∀ w ∈ ws.take k, Acceptable b.numStates b.numInputs w.triple) →
      ¬ Acceptable b.numStates b.numInputs ws[k].triple →
      ∃ f b', b.addAll (ws.map EdgeWords.triple) = (.error f, b') ∧
        b.Extends b' ((ws.take k).map EdgeWords.triple) ∧
        ∀ f', Rejected b.numStates b.numInputs ws[k].triple f' ↔ f' = f) ∧
    ∀ (pre : State) (u : Input) (post : State),
      (Addition.single pre u post).attempt b = b.addAll [(pre.id, u.id, post.id)] ∧
      (∀ b', b.add pre u post = .ok b' → b.Extends b' [(pre.id, u.id, post.id)]) ∧
      ∀ r : Refusal, (b.add pre u post = .error r ↔
          Rejected b.numStates b.numInputs (pre.id, u.id, post.id) r) ∧
        (b.add pre u post = .error r →
          (Addition.single pre u post).attempt b = (.error r, b)) := by
  refine ⟨fun hws => ?_, fun k hk hgood hbad => ?_, fun pre u post => ⟨?_, fun b' => ?_,
    fun r => ⟨add_eq_error_iff, fun hadd => ?_⟩⟩⟩
  · exact exists_addAll_of_acceptable (List.forall_mem_map.mpr hws)
  · obtain ⟨b', hadd, hext⟩ := exists_addAll_of_acceptable (List.forall_mem_map.mpr hgood)
    obtain ⟨f, hf⟩ := Rejected.exists_of_words hbad
    have hsplit : ws.map EdgeWords.triple = (ws.take k).map EdgeWords.triple ++
        ws[k].triple :: (ws.drop (k + 1)).map EdgeWords.triple := by
      rw [← List.map_cons, ← List.map_append, List.getElem_cons_drop, List.take_append_drop]
    refine ⟨f, b', ?_, hext, fun f' => ⟨fun hf' => hf'.unique hf, fun hf' => hf' ▸ hf⟩⟩
    rw [hsplit]
    exact addAll_of_rejected hadd hf _
  · exact Addition.attempt_single b pre u post
  · exact extends_of_add
  · rw [Addition.attempt, hadd]

/-- Of four transitions the third has the reserved number for an input. Its pre state is out of
range as well, but the first two are kept and the call ends with the fault. -/
theorem addAll_keeps_before_reserved_input :
    (∀ t ∈ [(0, 0, 1), (1, 0, 1)], Acceptable 2 1 t) ∧ ¬ Acceptable 2 1 (2, reserved, 0) ∧
    ∃ b', (new 2 1).addAll [(0, 0, 1), (1, 0, 1), (2, reserved, 0), (0, 0, 0)] =
        (.error Fault.reservedInput, b') ∧
      (new 2 1).Extends b' [(0, 0, 1), (1, 0, 1)] := by
  let ws : List EdgeWords := [⟨0, 0, 1⟩, ⟨1, 0, 1⟩, ⟨2, 0xffffffff, 0⟩, ⟨0, 0, 0⟩]
  have hgood : ∀ w ∈ ws.take 2, Acceptable 2 1 w.triple := by decide
  have hbad : ¬ Acceptable 2 1 ws[2].triple := by decide
  obtain ⟨f, b', hadd, hext, hf⟩ :=
    (addAll_keeps_before_rejected (new 2 1) ws).2.1 2 (by decide) hgood hbad
  have hreserved : Rejected 2 1 ws[2].triple Fault.reservedInput := .inputReserved ⟨2, by decide⟩
  obtain rfl := (hf Fault.reservedInput).mp hreserved
  exact ⟨by decide, hbad, b', hadd, hext⟩

end Builder

end ControlGames
