import ControlGames.Failure

/-! # Reports

A scenario builds a game, solves it and reports on the controller line by line. What has been
reported before a failure stays reported. -/
namespace ControlGames

namespace Scenario

/-- Some lines are plain output, some are notes on progress. The note that the drawing has been
written comes from whoever writes it. -/
inductive Line
  | plain (text : String)
  | note (text : String)
deriving DecidableEq

/-- A scenario ends early because its parameters make no sense, or with a failure. -/
inductive Cause
  | badParameter (text : String)
  | failure (f : Failure)
deriving DecidableEq

structure Report where
  lines : Array Line
  ended : Option Cause
  dot : Option String

def Cause.message : Cause → String
  | badParameter text => text
  | failure f => f.message

/-- A fault ends the process abnormally; bad parameters and refusals are ordinary errors. -/
def Cause.exitCode : Cause → UInt8
  | failure (.fault _) => 101
  | _ => 1

def Report.exitCode (r : Report) : UInt8 := r.ended.elim 0 Cause.exitCode

abbrev Reporting := ExceptT Cause (StateM (Array Line))

def say (text : String) : Reporting Unit := modify (·.push (.plain text))

def note (text : String) : Reporting Unit := modify (·.push (.note text))

def orEnd {α : Type} : Except Failure α → Reporting α
  | .ok a => pure a
  | .error f => throw (.failure f)

def Reporting.run (r : Reporting (Option String)) : Report :=
  match Id.run (StateT.run (ExceptT.run r) #[]) with
  | (.ok dot, lines) => ⟨lines, none, dot⟩
  | (.error c, lines) => ⟨lines, some c, none⟩

end Scenario

end ControlGames
