import Mathlib.Tactic
import ModeStack.Text.Properties

/-!
# Numbers in decimal

`Nat.toDigits 10` writes a number as it is read again: it consists of digits, the first of which is
a zero for the number zero only. A run of digits is read up to where it ends.
-/

namespace ModeStack.Text

variable {n : Nat} {c d : Char} {cs ds : List Char}

theorem isAsciiDigit_eq_isDigit : isAsciiDigit c = c.isDigit := by
  simp [Char.isDigit, isAsciiDigit, Char.le_def]

theorem isAsciiDigit_of_mem_toDigits : ∀ d ∈ Nat.toDigits 10 n, isAsciiDigit d = true := by
  intro d hd
  rw [isAsciiDigit_eq_isDigit]
  exact Nat.isDigit_of_mem_toDigits (by decide) (by decide) hd

/-- Only zero is written with a zero in front. -/
theorem eq_zero_of_head?_toDigits (h : (Nat.toDigits 10 n).head? = some '0') : n = 0 := by
  induction n using Nat.strong_induction_on with
  | _ n ih =>
    rw [Nat.toDigits_eq_if (by decide)] at h
    split_ifs at h with hlt
    · interval_cases n
      · rfl
      all_goals cases h
    · rw [List.head?_append_of_ne_nil _ Nat.toDigits_ne_nil] at h
      have hzero := ih (n / 10) (by omega) h
      omega

/-! ## Where a run of characters ends -/

section Run

variable {p : Char → Bool} (hds : ∀ d ∈ ds, p d = true) (hcs : ∀ c ∈ cs.head?, p c = false)

include hds hcs

theorem takeWhile_append_of_head? : (ds ++ cs).takeWhile p = ds := by
  rw [List.takeWhile_append_of_pos hds]
  cases cs with
  | nil => exact List.append_nil ds
  | cons c cs => simp [hcs c rfl]

theorem dropWhile_append_of_head? : (ds ++ cs).dropWhile p = cs := by
  rw [List.dropWhile_append_of_pos hds]
  cases cs with
  | nil => rfl
  | cons c cs => simp [hcs c rfl]

end Run

end ModeStack.Text
