import Mathlib.Order.Bounds.Basic
import ModeStack.Scan.Step

/-!
# What delimiters do to a scan

Entering and leaving a mode both emit the pending text of the innermost mode up to a position and
move the cursor (`enter_eq`, `leave_eq`); only the two places depend on the flags of the mode. What
holds of emitting text so holds of entering and leaving. What a mode starts when it ends is pushed
(`startNext_eq`).
-/

namespace ModeStack.Scan

open ModeStack.Regex (Span)

variable {scan : Scan} {s : State} {flags : Grammar.Flags} {span : Span}

/-- Up to where text is emitted before a mode opens. A structural mode lets all of it pend. -/
def enterUpto (flags : Grammar.Flags) (span : Span) : Nat :=
  if flags.skip then 0 else if flags.excludeBegin then span.stop else span.start

/-- Where the text of a mode that opens is read from. -/
def enterCursor (flags : Grammar.Flags) (span : Span) : Nat :=
  if flags.skip then span.stop
  else if flags.excludeBegin then span.stop
  else if flags.returnBegin then span.start
  else span.stop

/-- Up to where text is emitted in a mode that ends. A structural mode lets all of it pend. -/
def leaveUpto (flags : Grammar.Flags) (span : Span) : Nat :=
  if flags.skip then 0
  else if flags.returnEnd then span.start
  else if flags.excludeEnd then span.start
  else span.stop

/-- Where the text is read from behind a mode that ends. -/
def leaveCursor (flags : Grammar.Flags) (span : Span) : Nat :=
  if flags.skip then span.stop else if flags.returnEnd then span.start else span.stop

theorem flush_zero (scan : Scan) (s : State) : scan.flush s 0 = s :=
  if_pos (Nat.zero_le s.flushed)

/-- **Entering a mode** emits text, moves the cursor, and scores the mode if it is not structural. -/
theorem enter_eq (scan : Scan) (s : State) (mode : Grammar.Mode) (span : Span) :
    scan.enter s mode span =
      { scan.flush s (enterUpto mode.flags span) with
        cursor := enterCursor mode.flags span
        score := if mode.flags.skip then s.score
          else (scan.flush s (enterUpto mode.flags span)).score.addMode mode.relevance } := by
  unfold enter enterUpto enterCursor
  dsimp only
  split_ifs
  · rw [flush_zero]
  · rfl
  · rfl
  · rfl

/-- **Leaving a mode** emits text and moves the cursor. -/
theorem leave_eq (scan : Scan) (s : State) (span : Span) :
    scan.leave s span =
      { scan.flush s (leaveUpto (scan.top s).flags span) with
        cursor := leaveCursor (scan.top s).flags span } := by
  unfold leave leaveUpto leaveCursor
  dsimp only
  split_ifs
  · rw [flush_zero]
  · rfl
  · rfl
  · rfl

/-- Starting the next mode pushes it, if there is one, and may score it. -/
theorem startNext_eq (scan : Scan) (s : State) (ended : Nat) : ∃ score,
    scan.startNext s ended =
      { s with stack := (scan.grammar.mode ended).starts.toList ++ s.stack, score := score } := by
  unfold startNext
  cases (scan.grammar.mode ended).starts with
  | none => exact ⟨s.score, rfl⟩
  | some next => exact ⟨_, rfl⟩

/-! ## The two places -/

/-- A mode that is not structural begins behind all that comes before it. -/
theorem start_le_enterUpto (hskip : flags.skip = false) (hspan : span.start ≤ span.stop) :
    span.start ≤ enterUpto flags span := by
  unfold enterUpto
  simp only [hskip, Bool.false_eq_true, if_false]
  split_ifs
  · exact hspan
  · exact le_rfl

theorem start_le_leaveUpto (hskip : flags.skip = false) (hspan : span.start ≤ span.stop) :
    span.start ≤ leaveUpto flags span := by
  unfold leaveUpto
  simp only [hskip, Bool.false_eq_true, if_false]
  split_ifs
  · exact le_rfl
  · exact le_rfl
  · exact hspan

section

variable (hspan : span.start ≤ span.stop)

include hspan

/-- Text is emitted up to the cursor at most. -/
theorem enterUpto_le (flags : Grammar.Flags) : enterUpto flags span ≤ enterCursor flags span := by
  unfold enterUpto enterCursor
  split_ifs <;> omega

theorem leaveUpto_le (flags : Grammar.Flags) : leaveUpto flags span ≤ leaveCursor flags span := by
  unfold leaveUpto leaveCursor
  split_ifs <;> omega

/-- The cursor goes to one of the ends of the delimiter. -/
theorem enterCursor_mem (flags : Grammar.Flags) :
    span.start ≤ enterCursor flags span ∧ enterCursor flags span ≤ span.stop := by
  unfold enterCursor
  split_ifs <;> omega

theorem leaveCursor_mem (flags : Grammar.Flags) :
    span.start ≤ leaveCursor flags span ∧ leaveCursor flags span ≤ span.stop := by
  unfold leaveCursor
  split_ifs <;> omega

end

theorem enterCursor_of_not_returnBegin (h : flags.returnBegin = false) :
    enterCursor flags span = span.stop := by
  unfold enterCursor
  simp only [h, Bool.false_eq_true, if_false, ite_self]

theorem leaveCursor_of_not_returnEnd (h : flags.returnEnd = false) :
    leaveCursor flags span = span.stop := by
  unfold leaveCursor
  simp only [h, Bool.false_eq_true, if_false, ite_self]

end ModeStack.Scan
