import ModeStack.Proofs.Scan.Delimiters

/-!
# A step taken apart

`step_cases` says which part of a step runs: nothing matches, an empty end is suppressed, or a
match is acted on. `act_cases` says all that acting on a match can come to, and `countStall_cases`
what counting does afterwards. `flush_eq` says which fields of the state emitting text can change;
the fields that a part leaves alone are known to `simp`.
-/

namespace ModeStack.Scan

open ModeStack.Regex (Span)

variable (scan : Scan) (s : State)

/-- The match that the next step finds. -/
def found? : Option Rule.Found :=
  (scan.top s).rules.find scan.text s.cursor s.resume

/-- The state in which a match is acted on. -/
def State.noting (found : Rule.Found) : State :=
  { s with resume := none, last := some ⟨isOpening found.rule, found.span.start⟩ }

section

variable {scan s} {found : Rule.Found}

theorem step_of_none (h : scan.found? s = none) :
    scan.step s = scan.close { s with resume := none } := by
  unfold found? at h
  simp only [step, h]

theorem step_of_vacuous (h : scan.found? s = some found) (hv : isVacuousEnd s found = true) :
    scan.step s = scan.passChar { s with resume := none } found.span.start := by
  unfold found? at h
  simp only [step, h]
  exact if_pos hv

theorem step_of_found (h : scan.found? s = some found) (hv : isVacuousEnd s found = false) :
    scan.step s = scan.countStall (scan.act (s.noting found) found) s.cursor := by
  have hopen : ¬isVacuousEnd s found = true := by simp [hv]
  unfold found? at h
  simp only [step, h]
  exact if_neg hopen

end

/-- **A step taken apart.** -/
theorem step_cases :
    (scan.found? s = none ∧ scan.step s = scan.close { s with resume := none }) ∨
    (∃ found, scan.found? s = some found ∧ isVacuousEnd s found = true ∧
      scan.step s = scan.passChar { s with resume := none } found.span.start) ∨
    (∃ found, scan.found? s = some found ∧ isVacuousEnd s found = false ∧
      scan.step s = scan.countStall (scan.act (s.noting found) found) s.cursor) := by
  cases h : scan.found? s with
  | none => exact .inl ⟨rfl, step_of_none h⟩
  | some found =>
    cases hv : isVacuousEnd s found with
    | true => exact .inr (.inl ⟨found, rfl, hv, step_of_vacuous h hv⟩)
    | false => exact .inr (.inr ⟨found, rfl, hv, step_of_found h hv⟩)

/-! ## What emitting text leaves alone -/

/-- Emitting text changes the queue, the score and the emitted position only. -/
theorem flush_eq (upto : Nat) : ∃ queue score, scan.flush s upto =
    { s with queue := queue, score := score, flushed := max s.flushed upto } := by
  unfold flush
  split_ifs with hdone
  · exact ⟨s.queue, s.score, by rw [max_eq_left hdone]⟩
  · rw [max_eq_right (not_le.1 hdone).le]
    dsimp only
    cases (scan.top s).keywords with
    | none => exact ⟨_, s.score, rfl⟩
    | some table => exact ⟨_, _, rfl⟩

section

variable (upto : Nat)

@[simp] theorem flush_stack : (scan.flush s upto).stack = s.stack := by
  obtain ⟨_, _, h⟩ := flush_eq scan s upto
  rw [h]

@[simp] theorem flush_flushed : (scan.flush s upto).flushed = max s.flushed upto := by
  obtain ⟨_, _, h⟩ := flush_eq scan s upto
  rw [h]

@[simp] theorem flush_resume : (scan.flush s upto).resume = s.resume := by
  obtain ⟨_, _, h⟩ := flush_eq scan s upto
  rw [h]

@[simp] theorem flush_last : (scan.flush s upto).last = s.last := by
  obtain ⟨_, _, h⟩ := flush_eq scan s upto
  rw [h]

@[simp] theorem flush_stalled : (scan.flush s upto).stalled = s.stalled := by
  obtain ⟨_, _, h⟩ := flush_eq scan s upto
  rw [h]

@[simp] theorem flush_closed : (scan.flush s upto).closed = s.closed := by
  obtain ⟨_, _, h⟩ := flush_eq scan s upto
  rw [h]

@[simp] theorem flush_illegal : (scan.flush s upto).illegal = s.illegal := by
  obtain ⟨_, _, h⟩ := flush_eq scan s upto
  rw [h]

end

/-! ## What opening and closing leave alone -/

section

variable (mode : Grammar.Mode) (span : Span) (ended : Nat)

@[simp] theorem close_stack : (scan.close s).stack = s.stack := flush_stack scan s _

@[simp] theorem enter_stack : (scan.enter s mode span).stack = s.stack := by
  rw [enter_eq]
  exact flush_stack scan s _

@[simp] theorem enter_flushed :
    (scan.enter s mode span).flushed = max s.flushed (enterUpto mode.flags span) := by
  rw [enter_eq]
  exact flush_flushed scan s _

@[simp] theorem enter_resume : (scan.enter s mode span).resume = s.resume := by
  rw [enter_eq]
  exact flush_resume scan s _

@[simp] theorem enter_last : (scan.enter s mode span).last = s.last := by
  rw [enter_eq]
  exact flush_last scan s _

@[simp] theorem enter_closed : (scan.enter s mode span).closed = s.closed := by
  rw [enter_eq]
  exact flush_closed scan s _

@[simp] theorem leave_flushed :
    (scan.leave s span).flushed = max s.flushed (leaveUpto (scan.top s).flags span) := by
  rw [leave_eq]
  exact flush_flushed scan s _

@[simp] theorem leave_resume : (scan.leave s span).resume = s.resume := by
  rw [leave_eq]
  exact flush_resume scan s _

@[simp] theorem leave_last : (scan.leave s span).last = s.last := by
  rw [leave_eq]
  exact flush_last scan s _

@[simp] theorem leave_closed : (scan.leave s span).closed = s.closed := by
  rw [leave_eq]
  exact flush_closed scan s _

@[simp] theorem startNext_stack : (scan.startNext s ended).stack =
    (scan.grammar.mode ended).starts.toList ++ s.stack := by
  obtain ⟨_, h⟩ := startNext_eq scan s ended
  rw [h]

@[simp] theorem startNext_queue : (scan.startNext s ended).queue = s.queue := by
  obtain ⟨_, h⟩ := startNext_eq scan s ended
  rw [h]

@[simp] theorem startNext_flushed : (scan.startNext s ended).flushed = s.flushed := by
  obtain ⟨_, h⟩ := startNext_eq scan s ended
  rw [h]

@[simp] theorem startNext_resume : (scan.startNext s ended).resume = s.resume := by
  obtain ⟨_, h⟩ := startNext_eq scan s ended
  rw [h]

@[simp] theorem startNext_last : (scan.startNext s ended).last = s.last := by
  obtain ⟨_, h⟩ := startNext_eq scan s ended
  rw [h]

@[simp] theorem startNext_closed : (scan.startNext s ended).closed = s.closed := by
  obtain ⟨_, h⟩ := startNext_eq scan s ended
  rw [h]

end

/-! ## Acting on a match -/

/-- Passing a character moves the cursor behind it, or ends the scan at the end of the text. -/
theorem passChar_cases (pos : Nat) :
    (pos < scan.text.size ∧ scan.passChar s pos = { s with cursor := pos + 1 }) ∨
    (scan.text.size ≤ pos ∧ scan.passChar s pos = scan.close s) := by
  unfold passChar Text.next?
  split_ifs with hlt
  · exact .inl ⟨hlt, rfl⟩
  · exact .inr ⟨not_lt.1 hlt, rfl⟩

@[simp] theorem passChar_stack (pos : Nat) : (scan.passChar s pos).stack = s.stack := by
  rcases passChar_cases scan s pos with ⟨-, h⟩ | ⟨-, h⟩
  · rw [h]
  · rw [h, close_stack]

@[simp] theorem passChar_resume (pos : Nat) : (scan.passChar s pos).resume = s.resume := by
  rcases passChar_cases scan s pos with ⟨-, h⟩ | ⟨-, h⟩
  · rw [h]
  · rw [h]
    exact flush_resume scan s _

/-- Leaving a lexeme pending moves the cursor behind its start, or ends the scan. -/
theorem passLexeme_cases (span : Span) :
    (∃ pos, span.start < pos ∧ pos ≤ max span.stop scan.text.size ∧
      scan.passLexeme s span = { s with cursor := pos }) ∨
    scan.passLexeme s span = scan.close s := by
  unfold passLexeme
  split_ifs with hempty
  · rcases passChar_cases scan s span.start with ⟨hlt, h⟩ | ⟨-, h⟩
    · exact .inl ⟨_, Nat.lt_succ_self _, (Nat.succ_le_of_lt hlt).trans (le_max_right _ _), h⟩
    · exact .inr h
  · exact .inl ⟨span.stop, not_le.1 hempty, le_max_left _ _, rfl⟩

@[simp] theorem passLexeme_stack (span : Span) : (scan.passLexeme s span).stack = s.stack := by
  rcases passLexeme_cases scan s span with ⟨_, -, -, h⟩ | h
  · rw [h]
  · rw [h, close_stack]

/-- A rejected match leads to the later rules; if there are none, its character is passed, or the
scan ends with the text. -/
theorem reject_cases (index : Nat) (span : Span) :
    (index + 1 < (scan.top s).rules.size ∧ scan.reject s index span =
      { s with cursor := span.start, resume := some (index + 1) }) ∨
    ((scan.top s).rules.size ≤ index + 1 ∧ span.start < scan.text.size ∧
      scan.reject s index span = { s with cursor := span.start + 1 }) ∨
    ((scan.top s).rules.size ≤ index + 1 ∧ scan.text.size ≤ span.start ∧
      scan.reject s index span = scan.close s) := by
  unfold reject
  split_ifs with hsize
  · exact .inr ((passChar_cases scan s span.start).imp (.intro hsize) (.intro hsize))
  · exact .inl ⟨not_le.1 hsize, rfl⟩

@[simp] theorem reject_stack (index : Nat) (span : Span) :
    (scan.reject s index span).stack = s.stack := by
  rcases reject_cases scan s index span with ⟨-, h⟩ | ⟨-, -, h⟩ | ⟨-, -, h⟩
  · rw [h]
  · rw [h]
  · rw [h, close_stack]

variable (found : Rule.Found)

/-- **Acting on a match, taken apart.** The mode of the rule opens; later rules are tried; the match
is passed; the scan ends; an illegal lexeme counts; or a mode ends. -/
theorem act_cases :
    (∃ child, found.rule = .opening child ∧ scan.act s found =
      { scan.enter s (scan.grammar.mode child) found.span with stack := child :: s.stack }) ∨
    (∃ child, found.rule = .opening child ∧ found.index + 1 < (scan.top s).rules.size ∧
      scan.act s found =
        { s with cursor := found.span.start, resume := some (found.index + 1) }) ∨
    (∃ pos, found.span.start < pos ∧ pos ≤ max found.span.stop scan.text.size ∧
      scan.act s found = { s with cursor := pos }) ∨
    scan.act s found = scan.close s ∨
    (found.rule = .illegal ∧ scan.ignoreIllegals = false ∧
      scan.act s found = scan.abandon { s with illegal := true }) ∨
    (∃ ended below, found.rule = .ending ∧
      ending? scan.grammar scan.text found.span.start s.stack = some (ended, below) ∧
      scan.act s found = scan.startNext { scan.leave s found.span with stack := below } ended) := by
  unfold act
  cases found.rule with
  | opening child =>
    simp only [openMode]
    split_ifs
    · exact .inl ⟨child, rfl, by rw [enter_stack]⟩
    · rcases reject_cases scan s found.index found.span with
        ⟨hsize, h⟩ | ⟨-, hlt, h⟩ | ⟨-, -, h⟩
      · exact .inr (.inl ⟨child, rfl, hsize, h⟩)
      · have hle := (Nat.succ_le_of_lt hlt).trans (le_max_right found.span.stop scan.text.size)
        exact .inr (.inr (.inl ⟨_, Nat.lt_succ_self _, hle, h⟩))
      · exact .inr (.inr (.inr (.inl h)))
  | illegal =>
    simp only [illegalLexeme]
    split_ifs with hignore
    · rcases passLexeme_cases scan s found.span with h | h
      · exact .inr (.inr (.inl h))
      · exact .inr (.inr (.inr (.inl h)))
    · exact .inr (.inr (.inr (.inr (.inl ⟨trivial, Bool.eq_false_of_not_eq_true hignore, rfl⟩))))
  | ending =>
    simp only [closeModes]
    cases hending : ending? scan.grammar scan.text found.span.start s.stack with
    | none =>
      rcases passLexeme_cases scan s found.span with h | h
      · exact .inr (.inr (.inl h))
      · exact .inr (.inr (.inr (.inl h)))
    | some outer =>
      exact .inr (.inr (.inr (.inr (.inr ⟨outer.1, outer.2, trivial, rfl, rfl⟩))))

/-- **What acting on a match does to the stack**: nothing, or it opens the mode of the rule, or it
closes the modes that end and opens the one that the outermost of them starts. -/
theorem act_stack_cases :
    (scan.act s found).stack = s.stack ∨
    (∃ child, found.rule = .opening child ∧ scan.act s found =
      { scan.enter s (scan.grammar.mode child) found.span with stack := child :: s.stack }) ∨
    (∃ ended below, found.rule = .ending ∧
      ending? scan.grammar scan.text found.span.start s.stack = some (ended, below) ∧
      scan.act s found = scan.startNext { scan.leave s found.span with stack := below } ended) := by
  rcases act_cases scan s found with hopens | ⟨child, -, -, h⟩ | ⟨pos, -, -, h⟩ | h | ⟨-, -, h⟩ |
    hends
  · exact .inr (.inl hopens)
  · exact .inl (by rw [h])
  · exact .inl (by rw [h])
  · exact .inl (by rw [h, close_stack])
  · exact .inl (by rw [h]; rfl)
  · exact .inr (.inr hends)

/-- **What acting on a match does to the place to resume at**: nothing, or the match is rejected
and there are rules after its own. -/
theorem act_resume_cases :
    (scan.act s found).resume = s.resume ∨
    ((scan.act s found).stack = s.stack ∧
      (scan.act s found).resume = some (found.index + 1) ∧
      found.index + 1 < (scan.top s).rules.size) := by
  rcases act_cases scan s found with ⟨child, -, h⟩ | ⟨child, -, hsize, h⟩ | ⟨pos, -, -, h⟩ | h |
    ⟨-, -, h⟩ | ⟨ended, below, -, -, h⟩
  · exact .inl (by rw [h]; exact enter_resume scan s _ _)
  · exact .inr (by rw [h]; exact ⟨rfl, rfl, hsize⟩)
  · exact .inl (by rw [h])
  · exact .inl (by rw [h]; exact flush_resume scan s _)
  · exact .inl (by rw [h]; rfl)
  · exact .inl (by rw [h, startNext_resume]; exact leave_resume scan s _)

/-- Acting on a match leaves alone what is known of the last match. -/
theorem act_last : (scan.act s found).last = s.last := by
  rcases act_cases scan s found with ⟨child, -, h⟩ | ⟨child, -, -, h⟩ | ⟨pos, -, -, h⟩ | h |
    ⟨-, -, h⟩ | ⟨ended, below, -, -, h⟩
  · rw [h]
    exact enter_last scan s _ _
  · rw [h]
  · rw [h]
  · rw [h]
    exact flush_last scan s _
  · rw [h]
    rfl
  · rw [h, startNext_last]
    exact leave_last scan s _

/-! ## Counting -/

/-- **Counting, taken apart.** -/
theorem countStall_cases (before : Nat) :
    ((s.closed = true ∨ before < s.cursor) ∧
      scan.countStall s before = { s with stalled := 0 }) ∨
    (s.closed = false ∧ s.cursor ≤ before ∧ s.stalled < maxStalled ∧
      scan.countStall s before = { s with stalled := s.stalled + 1 }) ∨
    (s.closed = false ∧ s.cursor ≤ before ∧ maxStalled ≤ s.stalled ∧
      scan.countStall s before = scan.abandon { s with stalled := s.stalled + 1 }) := by
  unfold countStall
  by_cases hstill : s.closed = false ∧ s.cursor ≤ before
  · obtain ⟨hopen, hle⟩ := hstill
    simp only [hopen, hle, Bool.not_false, decide_true, Bool.and_self, if_true]
    split_ifs with hmax
    · exact .inr (.inr ⟨trivial, trivial, Nat.le_of_lt_succ hmax, rfl⟩)
    · exact .inr (.inl ⟨trivial, trivial, Nat.lt_of_succ_le (not_lt.1 hmax), rfl⟩)
  · have hmoved : s.closed = true ∨ before < s.cursor := by
      by_cases hopen : s.closed = false
      · exact .inr (not_le.1 fun hle => hstill ⟨hopen, hle⟩)
      · exact .inl (Bool.eq_true_of_not_eq_false hopen)
    refine .inl ⟨hmoved, if_neg fun hcount => hstill ?_⟩
    rw [Bool.and_eq_true, Bool.not_eq_true', decide_eq_true_eq] at hcount
    exact hcount

/-- Counting abandons the scan, or changes the counter only. -/
theorem countStall_eq_or (before : Nat) :
    (∃ stalled, scan.countStall s before = { s with stalled := stalled }) ∨
    (maxStalled ≤ s.stalled ∧
      scan.countStall s before = scan.abandon { s with stalled := s.stalled + 1 }) := by
  rcases countStall_cases scan s before with ⟨-, h⟩ | ⟨-, -, -, h⟩ | ⟨-, -, hmax, h⟩
  · exact .inl ⟨_, h⟩
  · exact .inl ⟨_, h⟩
  · exact .inr ⟨hmax, h⟩

@[simp] theorem countStall_stack (before : Nat) : (scan.countStall s before).stack = s.stack := by
  rcases countStall_eq_or scan s before with ⟨_, h⟩ | ⟨-, h⟩
  · rw [h]
  · rw [h]
    rfl

@[simp] theorem countStall_resume (before : Nat) :
    (scan.countStall s before).resume = s.resume := by
  rcases countStall_eq_or scan s before with ⟨_, h⟩ | ⟨-, h⟩
  · rw [h]
  · rw [h]
    rfl

end ModeStack.Scan
