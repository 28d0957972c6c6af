/-! # Sets of indices as bit vectors

An index set keeps one bit per index in 64-bit words and counts its members. It grows by whole words
to hold an inserted index and never shrinks, so two sets are equal when they have the same members
and the same capacity. -/
namespace ControlGames

structure IndexSet where
  words : Array UInt64
  count : Nat
deriving DecidableEq

namespace IndexSet

def empty : IndexSet := ⟨#[], 0⟩

instance : Inhabited IndexSet := ⟨empty⟩

def withCapacity (bits : Nat) : IndexSet := ⟨Array.replicate ((bits + 63) / 64) 0, 0⟩

def capacity (s : IndexSet) : Nat := 64 * s.words.size

def isEmpty (s : IndexSet) : Bool := s.count == 0

def mask (i : Nat) : UInt64 := 1 <<< UInt64.ofNat (i % 64)

def contains (s : IndexSet) (i : Nat) : Bool :=
  match s.words[i / 64]? with
  | some w => w &&& mask i != 0
  | none => false

/-- Pads with empty words to at least `k` words. -/
def grown (words : Array UInt64) (k : Nat) : Array UInt64 :=
  if k ≤ words.size then words else words ++ Array.replicate (k - words.size) 0

/-- Adds an index, and tells whether it is new. -/
def insert (s : IndexSet) (i : Nat) : Bool × IndexSet :=
  if s.contains i then (false, s)
  else (true, ⟨(grown s.words (i / 64 + 1)).modify (i / 64) (· ||| mask i), s.count + 1⟩)

def remove (s : IndexSet) (i : Nat) : Bool × IndexSet :=
  if s.contains i then (true, ⟨s.words.modify (i / 64) (· &&& ~~~ mask i), s.count - 1⟩)
  else (false, s)

def insertMany (s : IndexSet) (is : List Nat) : IndexSet :=
  is.foldl (fun s i => (s.insert i).2) s

def ofList (is : List Nat) : IndexSet := empty.insertMany is

def ofPred (bits : Nat) (p : Nat → Bool) : IndexSet :=
  bits.fold (fun i _ s => if p i then (s.insert i).2 else s) (withCapacity bits)

def wordMembers (s : IndexSet) (k : Nat) : List Nat :=
  if s.words[k]?.getD 0 = 0 then []
  else ((List.range 64).map (64 * k + ·)).filter s.contains

def toList (s : IndexSet) : List Nat := (List.range s.words.size).flatMap s.wordMembers

def lowestBit (w : UInt64) : Nat := w.toBitVec.ctz.toNat

/-- A place in the enumeration of a set: the number of a word, and those bits of it whose indices
have not been returned. -/
structure Cursor where
  set : IndexSet
  word : Nat
  rest : UInt64

def cursor (s : IndexSet) : Cursor := ⟨s, 0, s.words[0]?.getD 0⟩

/-- Returns the lowest bit left and clears it. If none is left, the cursor moves to the next word
that has one. Behind the last word it moves on by one with every call. -/
def Cursor.next (c : Cursor) : Option Nat × Cursor :=
  if c.rest ≠ 0 then
    (some (64 * c.word + lowestBit c.rest), { c with rest := c.rest &&& (c.rest - 1) })
  else if h : c.word + 1 < c.set.words.size then
    next ⟨c.set, c.word + 1, c.set.words[c.word + 1]⟩
  else (none, { c with word := c.word + 1 })
termination_by c.set.words.size - c.word

def Cursor.take : Nat → Cursor → List (Option Nat)
  | 0, _ => []
  | n + 1, c => c.next.1 :: take n c.next.2

end IndexSet

end ControlGames
