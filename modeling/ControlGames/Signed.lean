import ControlGames.Failure

/-! # Signed words

A 64-bit word stands for a number below `longWordSize`, or for a signed number when its first bit is
read as a sign. Arithmetic on signed words stops where its result has no word. -/
namespace ControlGames

abbrev longWordSize : Nat := 0x10000000000000000

/-- Signed words reach from `-signedBound` to `signedBound - 1`. -/
abbrev signedBound : Int := 0x8000000000000000

def signed (k : Nat) : Int := Int.bmod k longWordSize

def signedSub (a b : Int) : Except Fault Int :=
  if -signedBound ≤ a - b ∧ a - b < signedBound then .ok (a - b) else .error .subtractOverflow

def lastPlace (count : Nat) : Except Fault Int := signedSub (signed count) 1

/-- The place nearest to `k` among those up to `last`, if there are any. -/
def nearestPlace (last k : Int) : Except Fault Nat :=
  if last < 0 then .error (.emptyRange 0 last) else .ok (min (max k 0) last).toNat

theorem signed_of_lt {k : Nat} (h : (k : Int) < signedBound) : signed k = k := by
  unfold signed longWordSize
  unfold signedBound at h
  apply Int.bmod_eq_of_le_mul_two <;> omega

theorem signedSub_eq_ok_iff {a b c : Int} :
    signedSub a b = .ok c ↔ c = a - b ∧ -signedBound ≤ c ∧ c < signedBound := by
  unfold signedSub
  split
  · rw [Except.ok.injEq]
    exact ⟨fun h => ⟨h.symm, h ▸ ‹_›⟩, fun h => h.1.symm⟩
  · exact ⟨nofun, fun h => absurd (h.1 ▸ h.2) ‹_›⟩

theorem lastPlace_succ {k : Nat} (h : (k + 1 : Int) < signedBound) :
    lastPlace (k + 1) = .ok k := by
  unfold lastPlace
  rw [signed_of_lt (by omega), signedSub_eq_ok_iff]
  unfold signedBound at h ⊢
  omega

theorem nearestPlace_natCast (last : Nat) (k : Int) :
    nearestPlace last k = .ok (min k.toNat last) := by
  unfold nearestPlace
  rw [if_neg (by omega), Except.ok.injEq]
  omega

end ControlGames
