import ControlGames.Failure

/-! # Memory

Whether an array can be had is up to the machine. A memory answers for each kind of array and each
size in bytes; what no address can reach is refused whatever the memory says. -/
namespace ControlGames

structure Memory where
  grants : Backing → Nat → Bool

namespace Memory

/-- The largest size of one array in bytes, the largest signed 64-bit number. -/
abbrev maxBytes : Nat := 0x7fffffffffffffff

/-- A machine with addresses of 47 bits and no other limit. -/
def ample : Memory := ⟨fun _ bytes => bytes < 0x800000000000⟩

/-- A machine that grants whatever can be addressed. -/
def unlimited : Memory := ⟨fun _ _ => true⟩

/-- Asks for an array of `count` elements. An empty array takes no memory. -/
def reserve (mem : Memory) (what : Backing) (count : Nat) : Except Refusal Unit :=
  let bytes := count * what.elementBytes
  if maxBytes < bytes then .error (.allocation what .capacity)
  else if bytes = 0 ∨ mem.grants what bytes then .ok ()
  else .error (.allocation what .exhausted)

def fill {α : Type} (mem : Memory) (what : Backing) (count : Nat) (x : α) :
    Except Refusal (Array α) := do
  mem.reserve what count
  return Array.replicate count x

theorem eq_replicate_of_fill {α : Type} {mem : Memory} {what : Backing} {count : Nat} {x : α}
    {xs : Array α} (h : mem.fill what count x = .ok xs) : xs = Array.replicate count x := by
  rw [fill] at h
  cases hreserve : mem.reserve what count with
  | ok _ =>
    rw [hreserve] at h
    exact (Except.ok.inj h).symm
  | error _ =>
    rw [hreserve] at h
    cases h

end Memory

end ControlGames
