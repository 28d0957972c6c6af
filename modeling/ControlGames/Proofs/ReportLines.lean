import Mathlib.Data.Nat.Notation
import ControlGames.Scenario.Report

/-!
# Lines of reports

A reporting computation goes on from the lines reported before it. What it reports is put together
from what its parts report, up to the first part that fails.
-/
namespace ControlGames.Scenario

namespace Reporting

variable {α β : Type} {r : Reporting α} {f : α → Reporting β} {a : α} {b : β} {ls ls' : List Line}

/-- How a computation ends after some lines have been reported, and all lines reported by then. -/
def outcome (r : Reporting α) (lines : Array Line) : Except Cause α × Array Line :=
  Id.run (StateT.run (ExceptT.run r) lines)

/-- The computation succeeds with `a` and reports the lines `ls`. -/
def Yields (r : Reporting α) (a : α) (ls : List Line) : Prop :=
  ∀ lines, outcome r lines = (.ok a, lines ++ ls.toArray)

/-- However it ends, the computation reports the lines `ls`. -/
def Prints (r : Reporting α) (ls : List Line) : Prop :=
  ∀ lines, (outcome r lines).2 = lines ++ ls.toArray

theorem append_no_lines (lines : Array Line) : lines ++ ([] : List Line).toArray = lines :=
  Array.append_empty

theorem append_append_lines (lines : Array Line) (ls ls' : List Line) :
    lines ++ ls.toArray ++ ls'.toArray = lines ++ (ls ++ ls').toArray := by
  rw [Array.append_assoc, List.append_toArray ls]

theorem outcome_bind_of_ok {lines lines' : Array Line} (h : outcome r lines = (.ok a, lines')) :
    outcome (r >>= f) lines = outcome (f a) lines' := by
  have hrun : StateT.run (ExceptT.run r) lines = (.ok a, lines') := h
  simp only [outcome, ExceptT.run_bind, StateT.run_bind, hrun]
  rfl

theorem yields_pure (a : α) : Yields (pure a) a [] := fun lines =>
  congrArg (Prod.mk _) (append_no_lines lines).symm

theorem yields_say (text : String) : Yields (say text) () [.plain text] := fun _ => rfl

theorem yields_note (text : String) : Yields (note text) () [.note text] := fun _ => rfl

theorem yields_orEnd {x : Except Failure α} (h : x = .ok a) : Yields (orEnd x) a [] := by
  subst h
  exact yields_pure a

theorem yields_orFail {x : Except Fault α} (h : x = .ok a) : Yields (orEnd (orFail x)) a [] := by
  subst h
  exact yields_pure a

theorem Yields.bind (h : Yields r a ls) (h' : Yields (f a) b ls') :
    Yields (r >>= f) b (ls ++ ls') := by
  intro lines
  rw [outcome_bind_of_ok (h lines), h' _, append_append_lines]

theorem yields_forM_say (texts : List String) :
    Yields (texts.forM say) () (texts.map .plain) := by
  induction texts with
  | nil => exact yields_pure ()
  | cons text texts ih => exact (yields_say text).bind ih

theorem Yields.bind_prints (h : Yields r a ls) (h' : Prints (f a) ls') :
    Prints (r >>= f) (ls ++ ls') := by
  intro lines
  rw [outcome_bind_of_ok (h lines), h' _, append_append_lines]

theorem Yields.prints (h : Yields r a ls) : Prints r ls := fun lines =>
  congrArg Prod.snd (h lines)

theorem prints_orEnd (x : Except Failure α) : Prints (orEnd x) [] := by
  cases x with
  | ok a => exact (yields_orEnd rfl).prints
  | error e => exact fun lines => (append_no_lines lines).symm

theorem Prints.map (g : α → β) (h : Prints r ls) : Prints (g <$> r) ls := by
  intro lines
  rw [← h lines]
  simp only [outcome, ExceptT.run_map, StateT.run_map]
  rfl

theorem Prints.lines_run {r : Reporting (Option String)} (h : Prints r ls) :
    r.run.lines = ls.toArray := by
  have hlines : (outcome r #[]).2 = ls.toArray := (h #[]).trans Array.empty_append
  rw [Reporting.run]
  split
  · next hend =>
    rw [← hlines, outcome, hend]
  · next hend =>
    rw [← hlines, outcome, hend]

end Reporting

end ControlGames.Scenario
