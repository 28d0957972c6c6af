import ControlGames.Builder
import ControlGames.Counting
import ControlGames.Invariance
import ControlGames.Scenario.Report
import ControlGames.Signed

/-! # A water tank with uncertain demand

The level of a tank is a state and the setting of its pump an input. In each step the level rises by
the rate of the pump and falls by a demand that the environment picks from a range; an empty tank
stays empty and a full one full. The controller has to keep the level inside a band for ever. -/
namespace ControlGames

namespace Scenario

structure Tank where
  levels : Nat
  rates : Nat
  demandMin : Nat
  demandMax : Nat
  low : Nat
  high : Nat
deriving DecidableEq

def Tank.standard : Tank := ⟨40, 5, 1, 3, 5, 30⟩

namespace Tank

variable (t : Tank)

def next (top : Int) (level rate demand : Nat) : Except Fault Nat := do
  nearestPlace top (← signedSub (level + rate) (signed demand))

/-- Adds the step that a demand leads to. Numbers of levels and rates are cut to 32 bits. -/
def addStep (top : Int) (level rate : Nat) (b : Builder) (demand : Nat) :
    Except Failure Builder := do
  let post ← orFail (next top level rate demand)
  b.addIds (level % wordSize, rate % wordSize, post % wordSize)

def addSteps (top : Int) (b : Builder) (k : Nat) : Except Failure Builder :=
  let demands := t.demandMax + 1 - t.demandMin
  foldCount (addStep top (k / t.rates) (k % t.rates)) t.demandMin demands b

def build (mem : Memory) : Except Failure Store := do
  let top ← orFail (lastPlace t.levels)
  let b ← foldCount (t.addSteps top) 0 (t.levels * t.rates) (Builder.new t.levels t.rates)
  (b.build mem).result

/-- The band of safe levels. Its ends are 32-bit words, and the upper one has to leave room for the
level above it. -/
def band : Except Fault IdRange :=
  let hi := t.high % wordSize + 1
  if hi < wordSize then .ok ⟨t.low % wordSize, hi⟩ else .error .addOverflow

def levelLine (r : Region) (s : State) : Except Fault String := do
  let level := toString s.id
  let rates := (← r.inputs s).map fun u => toString u.id
  let text := if rates.isEmpty then "-" else " ".intercalate rates
  return "  " ++ "".pushn ' ' (3 - level.length) ++ level ++ ": " ++ text

def check : Reporting Unit := do
  if t.demandMax < t.demandMin then
    throw (.badParameter "demand_min must not exceed demand_max")
  if t.levels = 0 then
    throw (.badParameter "need at least one level")

/-- Synthesizes all safe controllers at once and reports which rates they may use. -/
def reporting (mem : Memory) : Reporting (Option String) := do
  t.check
  let store ← orEnd (t.build mem)
  say s!"tf = {store.describe}"
  let band ← orEnd (orFail t.band)
  let region ← orEnd (store.solveInvariance mem band).result
  note s!"Winning levels: {region.size} of {store.numStates}"
  note s!"Admissible memoryless controllers: {region.countControllers}"
  say "Valid pump rates per level:"
  (← orEnd (orFail (store.states.reverse.mapM (levelLine region)))).forM say
  return none

def report (mem : Memory) : Report := (t.reporting mem).run

end Tank

end Scenario

end ControlGames
