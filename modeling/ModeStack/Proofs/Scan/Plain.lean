import ModeStack.Proofs.Scan.Frame

/-!
# Plain modes

A mode without flags, conditions, words and a successor (`Mode.IsPlain`) takes its delimiters into
its text and does nothing else. What a step does that opens or ends one is written out here
(`step_of_opening`, `step_of_ending`), except for the score.
-/

namespace ModeStack

/-- A mode that only labels its text. -/
structure Grammar.Mode.IsPlain (mode : Grammar.Mode) : Prop where
  guard : mode.guard = .always
  keywords : mode.keywords = none
  flags : mode.flags = {}
  starts : mode.starts = none

namespace Scan

open ModeStack.Regex (Span)

variable {scan : Scan} {s : State}

/-! ## Emitting text -/

theorem flush_of_le {upto : Nat} (h : upto ≤ s.flushed) : scan.flush s upto = s := if_pos h

/-- A mode without words emits its text in one token. -/
theorem flush_of_wordless (h : (scan.top s).keywords = none) (upto : Nat) :
    scan.flush s upto = { s with
      flushed := max s.flushed upto
      queue := s.queue ++ tokensFor (scan.scopeOf s.stack) s.flushed upto } := by
  unfold flush tokensFor
  split_ifs with hdone hlt hlt
  · exact absurd hlt hdone.not_gt
  · rw [max_eq_left hdone, List.append_nil]
  · rw [max_eq_right hlt.le]
    simp only [h]
  · exact absurd (not_le.1 hdone) hlt

/-- Text of a labelled mode has its label. -/
theorem scopeOf_cons_some {index : Nat} {stack : List Nat} {scope : String}
    (hscope : (scan.grammar.mode index).scope = some scope)
    (hflags : (scan.grammar.mode index).flags = {}) :
    scan.scopeOf (index :: stack) = some scope := by
  simp [scopeOf, hscope, hflags]

/-- Text of a mode without a label has that of the mode around. -/
theorem scopeOf_cons_none {index : Nat} {stack : List Nat}
    (hscope : (scan.grammar.mode index).scope = none) :
    scan.scopeOf (index :: stack) = scan.scopeOf stack := by
  simp [scopeOf, hscope]

/-! ## Opening and ending -/

theorem countStall_of_gt {pos : Nat} (hlt : pos < s.cursor) :
    scan.countStall s pos = { s with stalled := 0 } := by
  simp [countStall, Nat.not_le.2 hlt]

theorem countStall_of_le {pos : Nat} (hopen : s.closed = false) (hle : s.cursor ≤ pos)
    (hstalled : s.stalled < maxStalled) :
    scan.countStall s pos = { s with stalled := s.stalled + 1 } := by
  simp [countStall, hopen, hle, Nat.not_lt.2 (Nat.succ_le_of_lt hstalled)]

/-- A plain mode emits what precedes it, and takes its delimiter. -/
theorem openMode_of_isPlain {child : Nat} (h : (scan.grammar.mode child).IsPlain) (index : Nat)
    (span : Span) : ∃ score, scan.openMode s child index span =
      { scan.flush s span.start with
        cursor := span.stop
        stack := child :: s.stack
        score := score } := by
  have hallows : (scan.grammar.mode child).guard.allows scan.text span.start = true := by
    rw [h.guard]
    rfl
  refine ⟨(scan.flush s span.start).score.addMode (scan.grammar.mode child).relevance, ?_⟩
  simp only [openMode, if_pos hallows, enter_eq, h.flags, flush_stack]
  rfl

/-- A plain mode ends where its closing pattern matches. -/
theorem ending?_of_isPlain {g : Grammar} {t : Text} {pos mode parent : Nat} {below : List Nat}
    (h : (g.mode mode).IsPlain)
    (hcloses : ((g.mode mode).closing.any fun p => (p.matchAt t pos).isSome) = true) :
    ending? g t pos (mode :: parent :: below) = some (mode, parent :: below) := by
  cases below with
  | nil => simp only [ending?, hcloses, if_true, outermost]
  | cons _ _ => simp [ending?, hcloses, outermost, h.flags]

/-- It emits its text with the delimiter. -/
theorem closeModes_of_isPlain {mode parent : Nat} {below : List Nat} {span : Span}
    (hstack : s.stack = mode :: parent :: below) (h : (scan.grammar.mode mode).IsPlain)
    (hcloses : ((scan.grammar.mode mode).closing.any fun p =>
      (p.matchAt scan.text span.start).isSome) = true) :
    scan.closeModes s span = { s with
      cursor := span.stop
      stack := parent :: below
      flushed := max s.flushed span.stop
      queue := s.queue ++ tokensFor (scan.scopeOf s.stack) s.flushed span.stop } := by
  have hends : ending? scan.grammar scan.text span.start (mode :: parent :: below) =
      some (mode, parent :: below) := ending?_of_isPlain h hcloses
  have htop : scan.top s = scan.grammar.mode mode := by
    rw [top, hstack]
    rfl
  have hflags : (scan.top s).flags = {} := by rw [htop, h.flags]
  have hwords : (scan.top s).keywords = none := by rw [htop, h.keywords]
  simp only [closeModes, hstack, hends, startNext, h.starts, leave_eq, hflags]
  rw [flush_of_wordless hwords, hstack]
  rfl

/-- **A step that opens a plain mode.** -/
theorem step_of_opening {child index : Nat} {span : Span}
    (hfound : scan.found? s = some ⟨.opening child, index, span⟩)
    (hchild : (scan.grammar.mode child).IsPlain) (hlt : s.cursor < span.stop) : ∃ score,
    scan.step s = { scan.flush (s.noting ⟨.opening child, index, span⟩) span.start with
      cursor := span.stop
      stack := child :: s.stack
      stalled := 0
      score := score } := by
  have hvacuous : isVacuousEnd s ⟨.opening child, index, span⟩ = false := by simp [isVacuousEnd]
  obtain ⟨score, hact⟩ := openMode_of_isPlain (s := s.noting ⟨.opening child, index, span⟩) hchild
    index span
  refine ⟨score, ?_⟩
  rw [step_of_found hfound hvacuous]
  simp only [act, hact]
  exact countStall_of_gt hlt

section Ending

variable {mode parent index : Nat} {below : List Nat} {span : Span}
  (hstack : s.stack = mode :: parent :: below)
  (hfound : scan.found? s = some ⟨.ending, index, span⟩)
  (hmode : (scan.grammar.mode mode).IsPlain)
  (hcloses : ((scan.grammar.mode mode).closing.any fun p =>
    (p.matchAt scan.text span.start).isSome) = true)

include hstack hfound hmode hcloses

/-- **A step that ends a plain mode** with a delimiter of some width. -/
theorem step_of_ending (hwide : span.start < span.stop) (hlt : s.cursor < span.stop) :
    scan.step s = { s with
      stack := parent :: below
      cursor := span.stop
      flushed := max s.flushed span.stop
      resume := none
      last := some ⟨false, span.start⟩
      stalled := 0
      queue := s.queue ++ tokensFor (scan.scopeOf s.stack) s.flushed span.stop } := by
  have hvacuous : isVacuousEnd s ⟨.ending, index, span⟩ = false := by
    simp [isVacuousEnd, Nat.not_le.2 hwide]
  rw [step_of_found hfound hvacuous]
  simp only [act, closeModes_of_isPlain (s := s.noting ⟨.ending, index, span⟩) hstack hmode hcloses]
  exact countStall_of_gt hlt

/-- **A step that ends a plain mode where the cursor is**, with an empty delimiter, if the last match
was elsewhere. -/
theorem step_of_empty_ending (hopen : s.closed = false) (hstop : span.stop = s.cursor)
    (hlast : s.last ≠ some ⟨true, span.start⟩) (hstalled : s.stalled < maxStalled) :
    scan.step s = { s with
      stack := parent :: below
      cursor := span.stop
      flushed := max s.flushed span.stop
      resume := none
      last := some ⟨false, span.start⟩
      stalled := s.stalled + 1
      queue := s.queue ++ tokensFor (scan.scopeOf s.stack) s.flushed span.stop } := by
  have hvacuous : isVacuousEnd s ⟨.ending, index, span⟩ = false := by
    simp [isVacuousEnd, hlast]
  rw [step_of_found hfound hvacuous]
  simp only [act, closeModes_of_isPlain (s := s.noting ⟨.ending, index, span⟩) hstack hmode hcloses]
  exact countStall_of_le hopen hstop.le hstalled

end Ending

/-- A scan ends where nothing is found and all text has been emitted. -/
theorem step_of_emitted (hfound : scan.found? s = none) (hflushed : scan.text.size ≤ s.flushed) :
    scan.step s = { s with cursor := scan.text.size, resume := none, closed := true } := by
  have hnone : scan.flush { s with resume := none } scan.text.size = { s with resume := none } :=
    flush_of_le hflushed
  rw [step_of_none hfound, close, hnone]

/-- What is found in a mode is what its rules find. -/
theorem found?_eq {mode : Nat} {below : List Nat} (hstack : s.stack = mode :: below)
    (hresume : s.resume = none) :
    scan.found? s = (scan.grammar.mode mode).rules.search 0 scan.text s.cursor := by
  rw [found?, top, hstack, hresume]
  rfl

end Scan

end ModeStack
