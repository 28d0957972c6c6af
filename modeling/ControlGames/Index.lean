/-! # Abstract states and inputs

A finite abstraction numbers its states and its inputs from zero. Both are 32-bit numbers, and the
largest one is reserved, so no state and no input ever carries it. -/
namespace ControlGames

abbrev wordSize : Nat := 0x100000000

/-- The largest 32-bit number, which names no state and no input. -/
abbrev reserved : Nat := wordSize - 1

structure State where
  id : Nat
  id_lt : id < reserved
deriving DecidableEq, Hashable

structure Input where
  id : Nat
  id_lt : id < reserved
deriving DecidableEq, Hashable

theorem State.ext_id {s t : State} (h : s.id = t.id) : s = t := by
  cases s; cases t; simpa using h

theorem Input.ext_id {u v : Input} (h : u.id = v.id) : u = v := by
  cases u; cases v; simpa using h

namespace State

def ofId? (id : Nat) : Option State :=
  if h : id < reserved then some ⟨id, h⟩ else none

def zero : State := ⟨0, by decide⟩

instance : Inhabited State := ⟨zero⟩

instance : Ord State := ⟨compareOn State.id⟩

instance : ToString State := ⟨fun s => "s" ++ toString s.id⟩

theorem ofId?_eq_some_iff {id : Nat} {s : State} : ofId? id = some s ↔ s.id = id := by
  unfold ofId?
  split
  · rw [Option.some.injEq]
    exact ⟨fun h => h ▸ rfl, fun h => ext_id h.symm⟩
  · exact ⟨nofun, fun h => absurd (h ▸ s.id_lt) ‹_›⟩

end State

namespace Input

def ofId? (id : Nat) : Option Input :=
  if h : id < reserved then some ⟨id, h⟩ else none

instance : Inhabited Input := ⟨⟨0, by decide⟩⟩

instance : Ord Input := ⟨compareOn Input.id⟩

instance : ToString Input := ⟨fun u => "u" ++ toString u.id⟩

theorem ofId?_eq_some_iff {id : Nat} {u : Input} : ofId? id = some u ↔ u.id = id := by
  unfold ofId?
  split
  · rw [Option.some.injEq]
    exact ⟨fun h => h ▸ rfl, fun h => ext_id h.symm⟩
  · exact ⟨nofun, fun h => absurd (h ▸ u.id_lt) ‹_›⟩

end Input

instance : Std.TransOrd State := inferInstanceAs (Std.TransCmp (compareOn State.id))

instance : Std.LawfulEqOrd State where
  eq_of_compare h := State.ext_id (Nat.compare_eq_eq.mp h)

end ControlGames
