import ControlGames.Proofs.StoredRelation

/-!
# Stores and their arrays

A store is what sound arrays look like from outside: a cell is the entry at its place in row-major
order, and entries behind the last pair do not show. Queries of the arrays answer as those of the
store, and a call that writes one cell of the arrays writes this cell of the store and no other.
-/
namespace ControlGames

/-! ### Tables in arrays -/

namespace Table

variable {rows cols : ℕ} {α β γ : Type}

theorem ofArray_toArray (t : Table rows cols α) (h : rows * cols ≤ t.cells.toArray.size) :
    ofArray t.cells.toArray h = t := by
  obtain ⟨cells⟩ := t
  exact congrArg Table.mk (Vector.ext fun k hk => Vector.getElem_ofFn hk)

theorem ofArray_replicate (x : α) (h : rows * cols ≤ (Array.replicate (rows * cols) x).size) :
    ofArray (Array.replicate (rows * cols) x) h = replicate x := by
  refine congrArg Table.mk (Vector.ext fun k hk => ?_)
  simp only [Fin.getElem_fin, Vector.getElem_ofFn, Array.getElem_replicate,
    Vector.getElem_replicate]

theorem zipWith_replicate (f : α → β → γ) (x : α) (y : β) :
    zipWith f (replicate x : Table rows cols α) (replicate y) = replicate (f x y) := by
  refine congrArg Table.mk (Vector.ext fun k hk => ?_)
  simp only [replicate, Vector.getElem_zipWith, Vector.getElem_replicate]

theorem get_zipWith (f : α → β → γ) (t : Table rows cols α) (t' : Table rows cols β) (i : Fin rows)
    (j : Fin cols) : (zipWith f t t').get i j = f (t.get i j) (t'.get i j) :=
  Vector.getElem_zipWith _

theorem zipWith_set (f : α → β → γ) (t : Table rows cols α) (t' : Table rows cols β) (i : Fin rows)
    (j : Fin cols) (x : α) (y : β) :
    zipWith f (t.set i j x) (t'.set i j y) = (zipWith f t t').set i j (f x y) := by
  refine congrArg Table.mk (Vector.ext fun k hk => ?_)
  simp only [zipWith, set, Vector.getElem_zipWith, Vector.getElem_set]
  split
  · rfl
  · rfl

theorem zipWith_map (f : α → β) (g : α → γ) (mk : β → γ → α) (hmk : ∀ x, mk (f x) (g x) = x)
    (t : Table rows cols α) : zipWith mk (t.map f) (t.map g) = t := by
  obtain ⟨cells⟩ := t
  refine congrArg Table.mk (Vector.ext fun k hk => ?_)
  simp only [map, Vector.getElem_zipWith, Vector.getElem_map, hmk]

end Table

namespace RawStore

variable {rows cols : ℕ} {α : Type} {xs : Array α}

theorem read_place (h : rows * cols ≤ xs.size) (i : Fin rows) (j : Fin cols) :
    read xs (Table.place i j) = .ok ((Table.ofArray xs h).get i j) := by
  have hk : (Table.place i j : ℕ) < xs.size := (Table.place i j).isLt.trans_le h
  rw [read, dif_pos hk, Table.get, Table.ofArray, Fin.getElem_fin, Vector.getElem_ofFn]
  rfl

/-- An entry that has a place can be written, and then this cell of the table changes. -/
theorem exists_write_place (h : rows * cols ≤ xs.size) (i : Fin rows) (j : Fin cols) (x : α) :
    ∃ ys, write xs (Table.place i j) x = .ok ys ∧
      ∀ h' : rows * cols ≤ ys.size, Table.ofArray ys h' = (Table.ofArray xs h).set i j x := by
  have hk : (Table.place i j : ℕ) < xs.size := (Table.place i j).isLt.trans_le h
  refine ⟨xs.set (Table.place i j) x hk, by rw [write, dif_pos hk], fun h' => ?_⟩
  refine congrArg Table.mk (Vector.ext fun k hk => ?_)
  simp only [Table.ofArray, Fin.getElem_fin, Vector.getElem_ofFn, Vector.getElem_set,
    Array.getElem_set]

end RawStore

namespace Store

variable {a : RawStore}

/-! ### The view -/

theorem ofRaw_raw (s : Store) : ofRaw s.raw s.sound_raw = s := by
  obtain ⟨n, m, hsizes, groups, counts, slots⟩ := s
  have hgroups := groups.zipWith_map Group.offset Group.size Group.mk fun _ => rfl
  simp only [ofRaw, raw, Table.ofArray_toArray, hgroups]

theorem table_eq_of_rows_eq_zero {cols : ℕ} {α : Type} (t t' : Table 0 cols α) : t = t' := by
  obtain ⟨cells⟩ := t
  obtain ⟨cells'⟩ := t'
  exact congrArg Table.mk (Vector.ext fun k hk => absurd hk (by simp))

/-- Arrays without pairs and without slots show nothing, whatever the tables hold. -/
theorem ofRaw_eq_empty (h : a.Sound) (hn : a.numStates = 0) (hm : a.numInputs = 0)
    (hslots : a.slots = #[]) : ofRaw a h = empty := by
  cases a
  cases hn
  cases hm
  cases hslots
  simp only [ofRaw, empty, blank, Store.mk.injEq, heq_eq_eq, true_and, and_true]
  exact ⟨table_eq_of_rows_eq_zero _ _, table_eq_of_rows_eq_zero _ _⟩

/-! ### Queries -/

/-- Either both find the cell, at its place in the arrays, or both fail in the same way. -/
theorem locate_cases (h : a.Sound) (x : State) (u : Input) :
    (∃ (i : Fin a.numStates) (j : Fin a.numInputs),
      a.locate x u = .ok (Table.place i j : ℕ) ∧ (ofRaw a h).locate x u = .ok (i, j)) ∨
    ∃ f, a.locate x u = .error f ∧ (ofRaw a h).locate x u = .error f := by
  by_cases hx : x.id < a.numStates
  · by_cases hu : u.id < a.numInputs
    · refine .inl ⟨⟨x.id, hx⟩, ⟨u.id, hu⟩, ?_, locate_of_lt (s := ofRaw a h) hx hu⟩
      rw [RawStore.locate, if_pos hx, if_pos hu, Table.place]
    · refine .inr ⟨_, ?_, locate_of_input_le (s := ofRaw a h) hx (Nat.le_of_not_lt hu)⟩
      rw [RawStore.locate, if_pos hx, if_neg hu]
  · refine .inr ⟨_, ?_, locate_of_state_le (s := ofRaw a h) (Nat.le_of_not_lt hx)⟩
    rw [RawStore.locate, if_neg hx]

section Cells

variable (h : a.Sound) (i : Fin a.numStates) (j : Fin a.numInputs)

theorem read_offsets :
    RawStore.read a.offsets (Table.place i j) = .ok ((ofRaw a h).groups.get i j).offset := by
  refine (RawStore.read_place h.offsets i j).trans (congrArg Except.ok ?_)
  exact congrArg Group.offset (Table.get_zipWith Group.mk _ _ i j).symm

theorem read_groupSizes :
    RawStore.read a.groupSizes (Table.place i j) = .ok ((ofRaw a h).groups.get i j).size := by
  refine (RawStore.read_place h.groupSizes i j).trans (congrArg Except.ok ?_)
  exact congrArg Group.size (Table.get_zipWith Group.mk _ _ i j).symm

theorem read_successorCounts : RawStore.read a.successorCounts (Table.place i j) =
    .ok ((ofRaw a h).successorCounts.get i j) := RawStore.read_place h.successorCounts i j

end Cells

theorem group_raw (h : a.Sound) (post : State) (u : Input) :
    a.group post u = (ofRaw a h).group post u := by
  obtain ⟨i, j, hraw, hlocate⟩ | ⟨f, hraw, hlocate⟩ := locate_cases h post u
  · rw [RawStore.group, Store.group, hraw, hlocate]
    simp only [bind, Except.bind]
    rw [read_offsets h, read_groupSizes h]
    rfl
  · rw [RawStore.group, Store.group, hraw, hlocate]
    rfl

theorem predecessors_raw (h : a.Sound) (post : State) (u : Input) :
    a.predecessors post u = (ofRaw a h).predecessors post u := by
  rw [RawStore.predecessors, Store.predecessors, group_raw h]
  rfl

theorem successorCount_raw (h : a.Sound) (pre : State) (u : Input) :
    a.successorCount pre u = (ofRaw a h).successorCount pre u := by
  obtain ⟨i, j, hraw, hlocate⟩ | ⟨f, hraw, hlocate⟩ := locate_cases h pre u
  · rw [RawStore.successorCount, Store.successorCount, hraw, hlocate]
    simp only [bind, Except.bind]
    rw [read_successorCounts h]
    rfl
  · rw [RawStore.successorCount, Store.successorCount, hraw, hlocate]
    rfl

/-! ### Calls -/

/-- What a call makes of sound arrays, seen as a store. -/
def filled (f : Filling Unit) (hf : f.KeepsSound) (h : a.Sound) : Filled :=
  ((f.on a).1, ofRaw (f.on a).2 (hf h))

theorem filled_of_on {f : Filling Unit} {hf : f.KeepsSound} {h : a.Sound} {b : RawStore}
    {r : Except Failure Unit} (hon : f.on a = (r, b)) (hb : b.Sound) :
    filled f hf h = (r, ofRaw b hb) := by
  simp only [filled, hon]

section Setters

open Filling RawStore

variable {h : a.Sound} {s : Store} (hs : ofRaw a h = s) (x : State) (u : Input)

include hs

theorem filled_setLayout (g : Group) :
    filled (RawStore.setLayout x u g) (keepsSound_setLayout x u g) h =
      match s.locate x u with
      | .ok (i, j) => (.ok (), { s with groups := s.groups.set i j g })
      | .error f => (.error f, s) := by
  subst hs
  obtain ⟨i, j, hraw, hlocate⟩ | ⟨f, hraw, hlocate⟩ := locate_cases h x u
  · obtain ⟨offsets, hoffsets, htable⟩ := exists_write_place h.offsets i j g.offset
    obtain ⟨groupSizes, hsizes, htable'⟩ := exists_write_place h.groupSizes i j g.size
    have hon : (RawStore.setLayout x u g).on a = (.ok (), { a with offsets, groupSizes }) := by
      rw [RawStore.setLayout, on_get_bind, hraw, on_ok_bind, on_get_bind, hoffsets, on_ok_bind,
        on_modify_bind, on_get_bind, hsizes, on_ok_bind, on_modify]
    have hb : RawStore.Sound { a with offsets, groupSizes } :=
      { h with
        offsets := size_write hoffsets ▸ h.offsets
        groupSizes := size_write hsizes ▸ h.groupSizes }
    have hgroups : (ofRaw _ hb).groups = (ofRaw a h).groups.set i j g := by
      have htables := congrArg₂ (Table.zipWith Group.mk) (htable hb.offsets) (htable' hb.groupSizes)
      exact htables.trans (Table.zipWith_set Group.mk _ _ i j g.offset g.size)
    rw [filled_of_on hon hb, hlocate]
    exact congrArg (fun groups => (Except.ok (), { ofRaw a h with groups })) hgroups
  · have hon : (RawStore.setLayout x u g).on a = (.error f, a) := by
      rw [RawStore.setLayout, on_get_bind, hraw, on_error_bind]
      rfl
    rw [filled_of_on hon h, hlocate]

theorem filled_setSuccessorCount (count : UInt32) :
    filled (RawStore.setSuccessorCount x u count) (keepsSound_setSuccessorCount x u count) h =
      match s.locate x u with
      | .ok (i, j) => (.ok (), { s with successorCounts := s.successorCounts.set i j count })
      | .error f => (.error f, s) := by
  subst hs
  obtain ⟨i, j, hraw, hlocate⟩ | ⟨f, hraw, hlocate⟩ := locate_cases h x u
  · obtain ⟨successorCounts, hcounts, htable⟩ := exists_write_place h.successorCounts i j count
    have hon : (RawStore.setSuccessorCount x u count).on a =
        (.ok (), { a with successorCounts }) := by
      rw [RawStore.setSuccessorCount, on_get_bind, hraw, on_ok_bind, on_get_bind, hcounts,
        on_ok_bind, on_modify]
    have hb : RawStore.Sound { a with successorCounts } :=
      { h with successorCounts := size_write hcounts ▸ h.successorCounts }
    rw [filled_of_on hon hb, hlocate]
    exact congrArg (fun successorCounts => (Except.ok (), { ofRaw a h with successorCounts }))
      (htable hb.successorCounts)
  · have hon : (RawStore.setSuccessorCount x u count).on a = (.error f, a) := by
      rw [RawStore.setSuccessorCount, on_get_bind, hraw, on_error_bind]
      rfl
    rw [filled_of_on hon h, hlocate]

theorem filled_setPredecessor (slot : ℕ) :
    filled (RawStore.setPredecessor slot x) (keepsSound_setPredecessor slot x) h =
      if hslot : slot < s.slots.size then (.ok (), { s with slots := s.slots.set slot x })
      else (.error Fault.indexOutOfBounds, s) := by
  subst hs
  by_cases hslot : slot < a.slots.size
  · have hon : (RawStore.setPredecessor slot x).on a =
        (.ok (), { a with slots := a.slots.set slot x }) := by
      rw [RawStore.setPredecessor, on_get_bind, write, dif_pos hslot, on_ok_bind, on_modify]
    rw [filled_of_on hon { h with }, dif_pos (show slot < (ofRaw a h).slots.size from hslot)]
    rfl
  · have hon : (RawStore.setPredecessor slot x).on a = (.error Fault.indexOutOfBounds, a) := by
      rw [RawStore.setPredecessor, on_get_bind, write, dif_neg hslot, on_error_bind]
      rfl
    rw [filled_of_on hon h, dif_neg (show ¬ slot < (ofRaw a h).slots.size from hslot)]

end Setters

section Equations

variable (s : Store) (x : State) (u : Input)

theorem setLayout_eq (g : Group) : s.setLayout x u g =
    match s.locate x u with
    | .ok (i, j) => (.ok (), { s with groups := s.groups.set i j g })
    | .error f => (.error f, s) := filled_setLayout s.ofRaw_raw x u g

theorem setSuccessorCount_eq (count : UInt32) : s.setSuccessorCount x u count =
    match s.locate x u with
    | .ok (i, j) => (.ok (), { s with successorCounts := s.successorCounts.set i j count })
    | .error f => (.error f, s) := filled_setSuccessorCount s.ofRaw_raw x u count

theorem setPredecessor_eq (slot : ℕ) : s.setPredecessor slot x =
    if h : slot < s.slots.size then (.ok (), { s with slots := s.slots.set slot x })
    else (.error Fault.indexOutOfBounds, s) := filled_setPredecessor s.ofRaw_raw x slot

end Equations

end Store

end ControlGames
