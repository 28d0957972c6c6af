import Mathlib.Data.List.Induction
import ControlGames.Proofs.Allocations

/-!
# Stores over their histories

A store is filled by hand through calls that may fail, refused or with a fault, in any order.
Whatever the calls, their arrays stay sound, the store has the size of the last allocation that came
through, and each of its cells holds what was last written to just this cell since then, or zero.
-/
namespace ControlGames.Store

/-! ### Calls -/

namespace Call

/-- The size that an allocation asks for, if it has room in the range of numbers. -/
def request? : Call → Option (ℕ × ℕ)
  | allocate n m => if n ≤ reserved ∧ m ≤ reserved then some (n, m) else none
  | _ => none

def allocates (mem : Memory) (c : Call) : Bool :=
  c.request?.any fun size => (reserveTables mem (size.1 * size.2)).isOk

/-- The size that the store has after the call, unless it keeps the one it had. An allocation that
memory runs out for leaves the store empty. -/
def newSize? (mem : Memory) (c : Call) : Option (ℕ × ℕ) :=
  c.request?.map fun size => if c.allocates mem then size else (0, 0)

def group? (post u : ℕ) : Call → Option Group
  | setLayout x v g => if x.id = post ∧ v.id = u then some g else none
  | _ => none

def count? (pre u : ℕ) : Call → Option UInt32
  | setSuccessorCount x v k => if x.id = pre ∧ v.id = u then some k else none
  | _ => none

end Call

/-! ### Histories -/

/-- The store that a sequence of calls leaves. Each call meets a memory of its own, and fails or
succeeds. -/
def after (calls : List (Memory × Call)) : Store :=
  calls.foldl (fun s c => (perform c.1 c.2 s).2) empty

theorem after_snoc (calls : List (Memory × Call)) (c : Memory × Call) :
    after (calls ++ [c]) = (perform c.1 c.2 (after calls)).2 := by
  rw [after, List.foldl_append]
  rfl

def lastSize (calls : List (Memory × Call)) : ℕ × ℕ :=
  (calls.reverse.findSome? fun c => c.2.newSize? c.1).getD (0, 0)

theorem lastSize_snoc (calls : List (Memory × Call)) (c : Memory × Call) :
    lastSize (calls ++ [c]) = (c.2.newSize? c.1).getD (lastSize calls) := by
  rw [lastSize, List.reverse_append, List.reverse_singleton, List.singleton_append,
    List.findSome?_cons]
  cases c.2.newSize? c.1 with
  | none => rfl
  | some size => rfl

section LastWritten

variable {α : Type} (written? : Call → Option α) (zero : α)

/-- What has last been written since the last allocation that succeeded. -/
def lastWritten (calls : List (Memory × Call)) : α :=
  ((calls.reverse.takeWhile fun c => !c.2.allocates c.1).findSome? fun c => written? c.2).getD zero

theorem lastWritten_snoc (calls : List (Memory × Call)) (c : Memory × Call) :
    lastWritten written? zero (calls ++ [c]) =
      if c.2.allocates c.1 then zero
      else (written? c.2).getD (lastWritten written? zero calls) := by
  rw [lastWritten, List.reverse_append, List.reverse_singleton, List.singleton_append,
    List.takeWhile_cons]
  cases c.2.allocates c.1 with
  | true => rfl
  | false =>
    simp only [Bool.not_false, if_true, List.findSome?_cons]
    cases written? c.2 with
    | none => rfl
    | some a => rfl

end LastWritten

/-- The store has the size that the calls have left and holds what they have written last. -/
structure Recalls (s : Store) (calls : List (Memory × Call)) : Prop where
  size : (s.numStates, s.numInputs) = lastSize calls
  group : ∀ i j, s.groups.get i j = lastWritten (Call.group? i j) ⟨0, 0⟩ calls
  count : ∀ i j, s.successorCounts.get i j = lastWritten (Call.count? i j) 0 calls

theorem recalls_empty : empty.Recalls [] where
  size := rfl
  group i := i.elim0
  count i := i.elim0

/-- Writing to the cell that is located changes this cell only. -/
theorem get_set_of_locate {s : Store} {α : Type} {x : State} {u : Input} {i : Fin s.numStates}
    {j : Fin s.numInputs} (h : s.locate x u = .ok (i, j)) (t : Table s.numStates s.numInputs α)
    (a : α) (k : Fin s.numStates) (l : Fin s.numInputs) :
    (t.set i j a).get k l = (if x.id = k ∧ u.id = l then some a else none).getD (t.get k l) := by
  unfold locate at h
  split at h
  · split at h
    · cases h
      simp only [Table.get_set, Fin.ext_iff]
      split
      · rfl
      · rfl
    · cases h
  · cases h

theorem get_of_locate {s : Store} {α : Type} {x : State} {u : Input} {f : Fault}
    (h : s.locate x u = .error f) (t : Table s.numStates s.numInputs α) (a : α)
    (k : Fin s.numStates) (l : Fin s.numInputs) :
    t.get k l = (if x.id = k ∧ u.id = l then some a else none).getD (t.get k l) := by
  have hout : ¬ (x.id = k ∧ u.id = l) := by
    intro hcell
    rw [locate_of_lt (hcell.1 ▸ k.isLt) (hcell.2 ▸ l.isLt)] at h
    cases h
  rw [if_neg hout]
  rfl

namespace Recalls

variable {s : Store} {calls : List (Memory × Call)}

/-- A call that asks for no size keeps the size, and it changes the cells that it writes. -/
theorem update (h : s.Recalls calls) {c : Memory × Call} (hc : c.2.request? = none)
    {groups : Table s.numStates s.numInputs Group} {counts : Table s.numStates s.numInputs UInt32}
    (hgroup : ∀ i j, groups.get i j = (c.2.group? i j).getD (s.groups.get i j))
    (hcount : ∀ i j, counts.get i j = (c.2.count? i j).getD (s.successorCounts.get i j))
    (slots : Array State) :
    Recalls ⟨s.numStates, s.numInputs, s.sizes_le, groups, counts, slots⟩ (calls ++ [c]) := by
  have hallocates : c.2.allocates c.1 = false := by simp [Call.allocates, hc]
  constructor
  · rw [lastSize_snoc, Call.newSize?, hc]
    exact h.size
  · intro i j
    rw [lastWritten_snoc, hallocates, ← h.group]
    exact hgroup i j
  · intro i j
    rw [lastWritten_snoc, hallocates, ← h.count]
    exact hcount i j

theorem allocate (h : s.Recalls calls) (mem : Memory) (n m : ℕ) :
    (s.allocate mem n m).2.Recalls (calls ++ [(mem, .allocate n m)]) := by
  rw [allocate_eq]
  split
  · next hfits =>
    have hrequest : (Call.allocate n m).request? = some (n, m) := if_pos hfits
    split
    · next hmem =>
      have hallocates : (Call.allocate n m).allocates mem = true := by
        simp [Call.allocates, hrequest, hmem, Except.isOk, Except.toBool]
      constructor
      · simp [lastSize_snoc, Call.newSize?, hrequest, hallocates, blank]
      · intro i j
        rw [lastWritten_snoc, hallocates]
        exact Table.get_replicate _ i j
      · intro i j
        rw [lastWritten_snoc, hallocates]
        exact Table.get_replicate _ i j
    · next r hmem =>
      have hallocates : (Call.allocate n m).allocates mem = false := by
        simp [Call.allocates, hrequest, hmem, Except.isOk, Except.toBool]
      refine ⟨?_, fun i => i.elim0, fun i => i.elim0⟩
      simp [lastSize_snoc, Call.newSize?, hrequest, hallocates, empty, blank]
  · next hfits =>
    have hrequest : (Call.allocate n m).request? = none := if_neg hfits
    exact h.update hrequest (fun _ _ => rfl) (fun _ _ => rfl) s.slots

theorem perform (h : s.Recalls calls) (c : Memory × Call) :
    (perform c.1 c.2 s).2.Recalls (calls ++ [c]) := by
  obtain ⟨mem, c⟩ := c
  cases c with
  | allocate n m => exact h.allocate mem n m
  | allocateTransitions total =>
    rw [Store.perform, allocateTransitions_eq]
    split
    · exact h.update rfl (fun _ _ => rfl) (fun _ _ => rfl) _
    · exact h.update rfl (fun _ _ => rfl) (fun _ _ => rfl) _
  | setLayout post u g =>
    rw [Store.perform, setLayout_eq]
    split
    · next i j hlocate =>
      exact h.update rfl (get_set_of_locate hlocate s.groups g) (fun _ _ => rfl) _
    · next f hlocate => exact h.update rfl (get_of_locate hlocate s.groups g) (fun _ _ => rfl) _
  | setPredecessor slot pre =>
    rw [Store.perform, setPredecessor_eq]
    split
    · exact h.update rfl (fun _ _ => rfl) (fun _ _ => rfl) _
    · exact h.update rfl (fun _ _ => rfl) (fun _ _ => rfl) _
  | setSuccessorCount pre u k =>
    rw [Store.perform, setSuccessorCount_eq]
    split
    · next i j hlocate =>
      exact h.update rfl (fun _ _ => rfl) (get_set_of_locate hlocate s.successorCounts k) _
    · next f hlocate =>
      exact h.update rfl (fun _ _ => rfl) (get_of_locate hlocate s.successorCounts k) _

end Recalls

theorem recalls_after (calls : List (Memory × Call)) : (after calls).Recalls calls := by
  induction calls using List.reverseRecOn with
  | nil => exact recalls_empty
  | append_singleton calls c ih =>
    rw [after_snoc]
    exact ih.perform c

/-! ### The arrays of a history -/

/-- The arrays that the calls leave. They keep what a failed allocation has left behind. -/
def arraysAfter (calls : List (Memory × Call)) : RawStore :=
  calls.foldl (fun a c => ((RawStore.perform c.1 c.2).on a).2) RawStore.empty

theorem arraysAfter_snoc (calls : List (Memory × Call)) (c : Memory × Call) :
    arraysAfter (calls ++ [c]) = ((RawStore.perform c.1 c.2).on (arraysAfter calls)).2 := by
  rw [arraysAfter, List.foldl_append]
  rfl

/-- The arrays are sound after every call, and the store is what they show. -/
theorem exists_ofRaw_arraysAfter (calls : List (Memory × Call)) :
    ∃ h, ofRaw (arraysAfter calls) h = after calls := by
  induction calls using List.reverseRecOn with
  | nil => exact ⟨RawStore.sound_empty, ofRaw_eq_empty _ rfl rfl rfl⟩
  | append_singleton calls c ih =>
    obtain ⟨h, hview⟩ := ih
    rw [arraysAfter_snoc, after_snoc, ← hview, ← filled_perform c.1 c.2 h]
    exact ⟨RawStore.keepsSound_perform c.1 c.2 h, rfl⟩

/-- Whatever calls have been made, and however they went, the arrays that they leave are sound, and
the store is what these arrays show. It has the size that the calls have left it, both numbers are
in range, and the tables have a place for every pair. The cells of a pair hold what has last been
written for just this pair since the last allocation that succeeded, or zero. They can be read,
where only the slots of the group may be out of range, and they can be written. -/
theorem after_keeps_last_written (calls : List (Memory × Call)) :
    let s := after calls
    (∃ h : (arraysAfter calls).Sound, ofRaw (arraysAfter calls) h = s) ∧
    (s.numStates, s.numInputs) = lastSize calls ∧
    s.numStates ≤ reserved ∧ s.numInputs ≤ reserved ∧
    s.numStates * s.numInputs ≤ s.groups.cells.toArray.size ∧
    s.numStates * s.numInputs ≤ s.successorCounts.cells.toArray.size ∧
    ∀ (i : Fin s.numStates) (j : Fin s.numInputs),
      s.groups.get i j = lastWritten (Call.group? i j) ⟨0, 0⟩ calls ∧
      s.group (s.state i) (s.input j) =
        s.slice (lastWritten (Call.group? i j) ⟨0, 0⟩ calls) ∧
      s.successorCount (s.state i) (s.input j) =
        .ok (lastWritten (Call.count? i j) 0 calls).toNat ∧
      (∀ g, (s.setLayout (s.state i) (s.input j) g).1 = .ok ()) ∧
      ∀ k, (s.setSuccessorCount (s.state i) (s.input j) k).1 = .ok () := by
  intro s
  have h : s.Recalls calls := recalls_after calls
  refine ⟨exists_ofRaw_arraysAfter calls, h.size, s.sizes_le.1, s.sizes_le.2, ?_, ?_, fun i j => ?_⟩
  · rw [Vector.size_toArray]
  · rw [Vector.size_toArray]
  · have hlocate := s.locate_state i j
    refine ⟨h.group i j, ?_, ?_, fun g => ?_, fun k => ?_⟩
    · rw [group, hlocate, ← h.group]
      rfl
    · rw [successorCount_state, successorCountAt, h.count]
    · rw [setLayout_eq, hlocate]
    · rw [setSuccessorCount_eq, hlocate]

end ControlGames.Store
