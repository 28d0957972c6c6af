import ControlGames.Builder
import ControlGames.Counting
import ControlGames.Dot
import ControlGames.Reachability
import ControlGames.Scenario.Report
import ControlGames.Signed

/-! # A robot on a slippery grid

Every cell of a grid is a state, numbered row by row from the bottom left. The robot stays or moves
to a neighbour, and stops at the border; on a slippery floor a move may also overshoot by one cell.
It has to reach the top right cell and to avoid a wall that stands in the middle column and leaves
the top quarter free. -/
namespace ControlGames

namespace Scenario

structure Grid where
  width : Nat
  height : Nat
deriving DecidableEq

def Grid.standard : Grid := ⟨12, 8⟩

structure Move where
  dx : Int
  dy : Int
  mark : Char
deriving DecidableEq

def moves : List Move :=
  [⟨0, 0, 'o'⟩, ⟨0, 1, '^'⟩, ⟨1, 0, '>'⟩, ⟨0, -1, 'v'⟩, ⟨-1, 0, '<'⟩]

def Move.isStay (v : Move) : Bool := v.dx == 0 && v.dy == 0

def Move.stepCounts (slip : Bool) (v : Move) : List Int :=
  if slip && !v.isStay then [1, 2] else [1]

namespace Grid

variable (g : Grid)

def cellId (x y : Nat) : Nat := y * g.width + x

def isWall (x y : Nat) : Bool := x == g.width / 2 && y < g.height * 3 / 4

def walls (s : State) : Bool := g.isWall (s.id % g.width) (s.id / g.width)

/-- The cell at a place, or the one on the border if the place lies outside. -/
def nearest (x y : Int) : Except Fault (Nat × Nat) := do
  let x' ← nearestPlace (← lastPlace g.width) x
  let y' ← nearestPlace (← lastPlace g.height) y
  return (x', y')

def landing (x y : Nat) (v : Move) (steps : Int) : Except Fault Nat := do
  let (x', y') ← g.nearest (x + steps * v.dx) (y + steps * v.dy)
  return g.cellId x' y'

/-- Adds where `steps` steps of move number `j` lead from cell number `k`. Numbers of cells are cut
to 32 bits. -/
def addSteps (k j : Nat) (v : Move) (b : Builder) (steps : Int) : Except Failure Builder := do
  let post ← orFail (g.landing (k % g.width) (k / g.width) v steps)
  b.addIds (k % wordSize, j, post % wordSize)

def addMove (slip : Bool) (k : Nat) (b : Builder) : Move × Nat → Except Failure Builder
  | (v, j) => (v.stepCounts slip).foldlM (g.addSteps k j v) b

def addCell (slip : Bool) (b : Builder) (k : Nat) : Except Failure Builder :=
  moves.zipIdx.foldlM (g.addMove slip k) b

/-- Builds the game cell by cell. The number of cells has to fit a 64-bit word. -/
def build (mem : Memory) (slip : Bool) : Except Failure Store := do
  let cells := g.width * g.height
  if longWordSize ≤ cells then throw (.fault .multiplyOverflow)
  let b ← foldCount (g.addCell slip) 0 cells (Builder.new cells moves.length)
  (b.build mem).result

/-- The goal is the last cell, which an empty grid lacks. -/
def goal : Except Fault State :=
  if g.width = 0 ∨ g.height = 0 then .error .subtractOverflow
  else State.ofId (g.cellId (g.width - 1) (g.height - 1))

def mark (r : Region) (x y : Nat) : Except Fault Char := do
  let w ← r.witness (← State.ofId (g.cellId x y))
  return if g.isWall x y then '#' else (w.bind fun u => moves[u.id]?).elim '.' Move.mark

def stepsText (f : ValueFunction) (x y : Nat) : Except Fault String := do
  match ← f.get (← State.ofId (g.cellId x y)) with
  | some v => return "".pushn ' ' (3 - (toString v).length) ++ toString v
  | none => return "  -"

def rows (line : Nat → Except Fault String) : Except Fault (List String) :=
  (List.range g.height).reverse.mapM fun y => return "  " ++ (← line y)

def markRows (r : Region) : Except Fault (List String) :=
  g.rows fun y => return String.ofList (← (List.range g.width).mapM fun x => g.mark r x y)

def stepsRows (f : ValueFunction) : Except Fault (List String) :=
  g.rows fun y => return String.join (← (List.range g.width).mapM fun x => g.stepsText f x y)

/-- Synthesizes a controller and reports its map and its step counts; draws the game on demand. -/
def reporting (mem : Memory) (slip draw : Bool) : Reporting (Option String) := do
  let store ← orEnd (g.build mem slip)
  say s!"tf = {store.describe}"
  let goal ← orEnd (orFail g.goal)
  let game := (ReachabilityGame.new store).avoiding g.walls
  let sol ← orEnd (game.solve mem [goal]).result
  note s!"Winning states: {sol.region.size} of {store.numStates}"
  say "Controller (o = stay, # = wall, . = losing):"
  (← orEnd (orFail (g.markRows sol.region))).forM say
  say "Steps to goal:"
  (← orEnd (orFail (g.stepsRows sol.value))).forM say
  if draw then some <$> orEnd (orFail (store.dot Dot.defaultStyle (some sol.region)))
  else return none

def report (mem : Memory) (slip draw : Bool) : Report := (g.reporting mem slip draw).run

end Grid

end Scenario

end ControlGames
