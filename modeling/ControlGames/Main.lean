import ControlGames.Scenario.Grid
import ControlGames.Scenario.Tank

/-! # The command line

Runs one of the two scenarios with parameters from the command line and prints its report. -/
namespace ControlGames

namespace CommandLine

open Scenario

structure GridRun where
  grid : Grid
  slip : Bool
  file : Option String

/-- Reads a parameter, which has to fit a 64-bit word. -/
def readNumber (text : String) : Option Nat := text.toNat?.filter (· < longWordSize)

def readGrid : GridRun → List String → Option GridRun
  | run, [] => some run
  | run, "--slip" :: rest => readGrid { run with slip := true } rest
  | run, "--width" :: text :: rest => do
    readGrid { run with grid := { run.grid with width := ← readNumber text } } rest
  | run, "--height" :: text :: rest => do
    readGrid { run with grid := { run.grid with height := ← readNumber text } } rest
  | run, "--dot" :: path :: rest => readGrid { run with file := some path } rest
  | _, _ => none

def readTank : Tank → List String → Option Tank
  | tank, [] => some tank
  | tank, option :: text :: rest => do
    let value ← readNumber text
    match option with
    | "--levels" => readTank { tank with levels := value } rest
    | "--rates" => readTank { tank with rates := value } rest
    | "--demand-min" => readTank { tank with demandMin := value } rest
    | "--demand-max" => readTank { tank with demandMax := value } rest
    | "--low" => readTank { tank with low := value } rest
    | "--high" => readTank { tank with high := value } rest
    | _ => none
  | _, _ => none

def printLine : Line → IO Unit
  | .plain text => IO.println text
  | .note text => IO.println s!"[INFO] {text}"

/-- Prints a report, writes the drawing to its file, and returns the exit code. -/
def print (r : Report) (file : Option String) : IO UInt32 := do
  r.lines.forM printLine
  if let (some dot, some path) := (r.dot, file) then
    IO.FS.writeFile path dot
    printLine (.note s!"Wrote {path}")
  if let some cause := r.ended then
    IO.eprintln s!"Error: {cause.message}"
  return r.exitCode.toUInt32

def usage : List String :=
  ["usage: grid [--width INT] [--height INT] [--slip] [--dot FILE]",
    "       tank [--levels INT] [--rates INT] [--demand-min INT] [--demand-max INT]",
    "            [--low INT] [--high INT]"]

def run (args : List String) : IO UInt32 :=
  let misuse : IO UInt32 := do
    usage.forM IO.eprintln
    return 2
  match args with
  | "grid" :: rest =>
    match readGrid ⟨.standard, false, none⟩ rest with
    | some g => print (g.grid.report .ample g.slip g.file.isSome) g.file
    | none => misuse
  | "tank" :: rest =>
    match readTank .standard rest with
    | some t => print (t.report .ample) none
    | none => misuse
  | _ => misuse

end CommandLine

end ControlGames

def main (args : List String) : IO UInt32 := ControlGames.CommandLine.run args
