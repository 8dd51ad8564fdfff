import ModeStack.Proofs.Scan.Stream

/-!
# Positions lie inside the text

Whatever the patterns of a grammar are, the cursor and the position up to which tokens have been
emitted lie inside the text, and a scan is over only when both are at its end
(`bounded_of_reachable`). That what has been emitted lies before the cursor needs searches that go
onward (`sound_of_reachable`).
-/

namespace ModeStack.Scan

open ModeStack.Regex (Span)

variable {scan : Scan} {s : State}

/-- The positions of a state lie inside the text, and at its end if the scan is over. -/
structure Bounded (scan : Scan) (s : State) : Prop where
  flushed_le : s.flushed ≤ scan.text.size
  cursor_le : s.cursor ≤ scan.text.size
  ended : s.closed = true → Ended scan s

/-- Only the place of the scan matters. -/
theorem Bounded.congr {u : State} (h : Bounded scan s) (heq : u.place = s.place) :
    Bounded scan u := by
  have hended (hc : s.closed = true) : Ended scan u := (h.ended hc).congr heq
  simp only [State.place, Place.mk.injEq] at heq
  obtain ⟨-, hf, hc, hcl⟩ := heq
  exact ⟨hf ▸ h.flushed_le, hc ▸ h.cursor_le, fun hclosed => hended (hcl ▸ hclosed)⟩

theorem bounded_start : Bounded scan scan.start :=
  ⟨Nat.zero_le _, Nat.zero_le _, fun h => by simp [start] at h⟩

/-- An open scan may have its positions anywhere inside the text. -/
theorem bounded_of_open (hopen : s.closed = false) (hflushed : s.flushed ≤ scan.text.size)
    (hcursor : s.cursor ≤ scan.text.size) : Bounded scan s :=
  ⟨hflushed, hcursor, fun h => by simp [hopen] at h⟩

theorem bounded_abandon : Bounded scan (scan.abandon s) :=
  ⟨le_rfl, le_rfl, fun _ => abandon_ended⟩

section

variable (hs : Bounded scan s) (hopen : s.closed = false)

include hs hopen

theorem bounded_cursor {cursor : Nat} (hcursor : cursor ≤ scan.text.size) :
    Bounded scan { s with cursor := cursor } :=
  bounded_of_open hopen hs.flushed_le hcursor

theorem bounded_flush {upto cursor : Nat} (hupto : upto ≤ scan.text.size)
    (hcursor : cursor ≤ scan.text.size) :
    Bounded scan { scan.flush s upto with cursor := cursor } := by
  refine bounded_of_open ((flush_closed scan s upto).trans hopen) ?_ hcursor
  show (scan.flush s upto).flushed ≤ scan.text.size
  rw [flush_flushed]
  exact max_le hs.flushed_le hupto

omit hopen in
theorem bounded_close : Bounded scan (scan.close s) :=
  have hended := close_ended hs.flushed_le
  ⟨hended.flushed.le, hended.cursor.le, fun _ => hended⟩

theorem bounded_passChar (pos : Nat) : Bounded scan (scan.passChar s pos) := by
  rcases passChar_cases scan s pos with ⟨hlt, h⟩ | ⟨-, h⟩
  · rw [h]
    exact bounded_cursor hs hopen hlt
  · rw [h]
    exact bounded_close hs

variable {span : Span} (hspan : span.Within 0 scan.text.size)

include hspan

theorem bounded_enter (mode : Grammar.Mode) : Bounded scan (scan.enter s mode span) := by
  have hcursor := (enterCursor_mem hspan.start_le mode.flags).2.trans hspan.stop_le
  have hupto := (enterUpto_le hspan.start_le mode.flags).trans hcursor
  rw [enter_eq]
  exact (bounded_flush hs hopen hupto hcursor).congr rfl

theorem bounded_leave : Bounded scan (scan.leave s span) := by
  have hcursor := (leaveCursor_mem hspan.start_le (scan.top s).flags).2.trans hspan.stop_le
  have hupto := (leaveUpto_le hspan.start_le (scan.top s).flags).trans hcursor
  rw [leave_eq]
  exact bounded_flush hs hopen hupto hcursor

end

/-- Acting on a match keeps the positions inside the text. -/
theorem bounded_act (hs : Bounded scan s) (hopen : s.closed = false) {found : Rule.Found}
    (hspan : found.span.Within 0 scan.text.size) : Bounded scan (scan.act s found) := by
  have hstop := hspan.stop_le
  rcases act_cases scan s found with ⟨child, -, h⟩ | ⟨child, -, -, h⟩ | ⟨pos, -, hle, h⟩ | h |
    ⟨-, -, h⟩ | ⟨ended, below, -, -, h⟩
  · rw [h]
    exact (bounded_enter hs hopen hspan _).congr rfl
  · rw [h]
    exact bounded_of_open hopen hs.flushed_le (hspan.start_le.trans hstop)
  · rw [h]
    exact bounded_cursor hs hopen (hle.trans (max_le hstop le_rfl))
  · rw [h]
    exact bounded_close hs
  · rw [h]
    exact bounded_abandon
  · rw [h]
    obtain ⟨_, hstarts⟩ := startNext_eq scan { scan.leave s found.span with stack := below } ended
    rw [hstarts]
    exact (bounded_leave hs hopen hspan).congr rfl

theorem bounded_countStall (hs : Bounded scan s) (before : Nat) :
    Bounded scan (scan.countStall s before) := by
  rcases countStall_eq_or scan s before with ⟨_, h⟩ | ⟨-, h⟩
  · rw [h]
    exact hs.congr rfl
  · rw [h]
    exact bounded_abandon

/-- A step keeps the positions inside the text. -/
theorem bounded_step (hs : Bounded scan s) (hopen : s.closed = false) :
    Bounded scan (scan.step s) := by
  have hs' : Bounded scan { s with resume := none } := hs.congr rfl
  rcases step_cases scan s with ⟨-, h⟩ | ⟨found, -, -, h⟩ | ⟨found, hfound, -, h⟩
  · rw [h]
    exact bounded_close hs'
  · rw [h]
    exact bounded_passChar hs' hopen _
  · have hnoting : Bounded scan (s.noting found) := hs.congr rfl
    rw [h]
    exact bounded_countStall (bounded_act hnoting hopen (Rule.RuleSet.find_within hfound)) _

/-- **The positions of every reachable state lie inside the text.** -/
theorem bounded_of_reachable (h : Reachable scan s) : Bounded scan s := by
  induction h with
  | start => exact bounded_start
  | step _ hopen ih => exact bounded_step ih hopen
  | take _ _ ih => exact ⟨ih.flushed_le, ih.cursor_le,
      fun hc => ⟨hc, (ih.ended hc).flushed, (ih.ended hc).cursor⟩⟩

end ModeStack.Scan
