import Mathlib.Data.List.Basic

/-!
# Texts of lines and numbers

A text of lines can be cut into its lines again if none of them holds a line feed. A number that is
written in a line ends before the first character that is not a digit.
-/
namespace ControlGames

/-! ### Lines -/

@[simp] theorem toString_text (text : String) : toString text = text := rfl

def textOf (lines : List String) : String := String.join (lines.map (· ++ "\n"))

theorem toList_textOf_cons (line : String) (lines : List String) :
    (textOf (line :: lines)).toList = line.toList ++ '\n' :: (textOf lines).toList := by
  rw [textOf, List.map_cons, String.join_cons, String.toList_append, String.toList_append,
    List.append_assoc]
  rfl

theorem splitOn_textOf {lines : List String} (h : ∀ line ∈ lines, '\n' ∉ line.toList) :
    (textOf lines).toList.splitOn '\n' = lines.map String.toList ++ [[]] := by
  induction lines with
  | nil => rfl
  | cons line lines ih =>
    obtain ⟨hline, hlines⟩ := List.forall_mem_cons.mp h
    rw [toList_textOf_cons, List.splitOn_append_cons_self_of_not_mem hline, ih hlines]
    rfl

/-- Lines without line feeds can be read off their text. -/
theorem textOf_injective {lines lines' : List String} (h : ∀ line ∈ lines, '\n' ∉ line.toList)
    (h' : ∀ line ∈ lines', '\n' ∉ line.toList) (heq : textOf lines = textOf lines') :
    lines = lines' := by
  have hsplit := splitOn_textOf h
  rw [heq, splitOn_textOf h'] at hsplit
  have hinjective : Function.Injective String.toList := fun _ _ => String.toList_injective
  exact (List.map_injective_iff.mpr hinjective (List.append_cancel_right hsplit)).symm

/-! ### Numbers -/

theorem notMem_digits {c : Char} (hc : c.isDigit = false) (n : ℕ) : c ∉ Nat.toDigits 10 n := by
  intro hmem
  have hdigit := Nat.isDigit_of_mem_toDigits (by decide) (by decide) hmem
  rw [hc] at hdigit
  cases hdigit

/-- A number ends before the first character that is not a digit. -/
theorem digits_append_inj {c : Char} (hc : c.isDigit = false) {n n' : ℕ} {rest rest' : List Char}
    (h : Nat.toDigits 10 n ++ c :: rest = Nat.toDigits 10 n' ++ c :: rest') :
    n = n' ∧ rest = rest' := by
  have hidx : ∀ (n : ℕ) (rest : List Char),
      (Nat.toDigits 10 n ++ c :: rest).idxOf c = (Nat.toDigits 10 n).length := by
    intro n rest
    rw [List.idxOf_append_of_notMem (notMem_digits hc n), List.idxOf_cons_self, Nat.add_zero]
  have hlength := congrArg (List.idxOf c) h
  rw [hidx, hidx] at hlength
  obtain ⟨hdigits, hrest⟩ := List.append_inj h hlength
  have hvalue := congrArg (Nat.ofDigitChars 10 · 0) hdigits
  simp only [Nat.ofDigitChars_ten_toDigits] at hvalue
  exact ⟨hvalue, (List.cons.inj hrest).2⟩

end ControlGames
