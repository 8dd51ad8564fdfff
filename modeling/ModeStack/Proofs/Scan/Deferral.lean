import ModeStack.Proofs.Scan.Bounds

/-!
# Text and the mode it was read in

The text of a structural mode belongs to the nearest mode around it that is not structural only.
When that mode changes in a step, because modes open or close, the text before the match should
have been emitted: what is still pending will be emitted in another mode than the one in which it
was read.

`emitted_of_nearest_ne` says when it has been. It always has if the innermost mode was not itself
structural, or if a mode opens. But a structural mode that ends emits nothing, although it may end
its parents with it, or start another mode; what was pending then is moved into the mode that is
uncovered or started. `leaking_defers` is such a step.
-/

namespace ModeStack.Scan

open ModeStack.Regex (Span)

variable {scan : Scan} {s : State}

/-- The nearest open mode that is not structural only, and the number of modes below it. -/
def nearest (g : Grammar) : (stack : List Nat) → Option (Nat × Nat)
  | [] => none
  | index :: below =>
    if (g.mode index).flags.skip then nearest g below else some (index, below.length)

/-- The match is the end of a structural mode, with text pending before it. -/
structure Defers (scan : Scan) (s : State) (found : Rule.Found) : Prop where
  skip : (scan.top s).flags.skip = true
  ending : found.rule = .ending
  pending : s.flushed < found.span.start

/-- Opening a structural mode leaves the nearest mode as it is. -/
theorem nearest_cons_skip {g : Grammar} {index : Nat} (h : (g.mode index).flags.skip = true)
    (stack : List Nat) : nearest g (index :: stack) = nearest g stack :=
  if_pos h

/-- Opening any other mode emits what comes before it. -/
theorem start_le_enter_flushed {mode : Grammar.Mode} {span : Span}
    (hskip : mode.flags.skip = false) (hspan : span.start ≤ span.stop) :
    span.start ≤ (scan.enter s mode span).flushed := by
  rw [enter_flushed]
  exact (start_le_enterUpto hskip hspan).trans (le_max_right _ _)

/-- Ending a mode that is not structural emits what comes before its end. -/
theorem start_le_leave_flushed {span : Span} (hskip : (scan.top s).flags.skip = false)
    (hspan : span.start ≤ span.stop) : span.start ≤ (scan.leave s span).flushed := by
  rw [leave_flushed]
  exact (start_le_leaveUpto hskip hspan).trans (le_max_right _ _)

/-- Ending a structural mode emits nothing. -/
theorem leave_flushed_of_skip {span : Span} (hskip : (scan.top s).flags.skip = true) :
    (scan.leave s span).flushed = s.flushed := by
  rw [leave_flushed, leaveUpto, if_pos hskip]
  exact max_eq_left (Nat.zero_le _)

/-- Acting on a match that changes the nearest mode emits what comes before the match, or else the
innermost mode is structural and ends, and nothing is emitted. -/
theorem act_flushed_of_nearest_ne {found : Rule.Found} (hspan : found.span.start ≤ found.span.stop)
    (hne : nearest scan.grammar (scan.act s found).stack ≠ nearest scan.grammar s.stack) :
    (¬((scan.top s).flags.skip = true ∧ found.rule = .ending) ∧
      found.span.start ≤ (scan.act s found).flushed) ∨
    (((scan.top s).flags.skip = true ∧ found.rule = .ending) ∧
      (scan.act s found).flushed = s.flushed) := by
  rcases act_stack_cases scan s found with
    h | ⟨child, hrule, h⟩ | ⟨ended, below, hrule, -, h⟩
  · rw [h] at hne
    exact absurd rfl hne
  · rw [h] at hne ⊢
    refine .inl ⟨by simp [hrule], start_le_enter_flushed ?_ hspan⟩
    rw [Bool.eq_false_iff]
    exact fun hskip => hne (nearest_cons_skip hskip s.stack)
  · rw [h, startNext_flushed]
    cases hskip : (scan.top s).flags.skip with
    | false => exact .inl ⟨by simp, start_le_leave_flushed hskip hspan⟩
    | true => exact .inr ⟨⟨rfl, hrule⟩, leave_flushed_of_skip hskip⟩

theorem countStall_flushed (before : Nat) :
    (scan.countStall s before).flushed = s.flushed ∨ Ended scan (scan.countStall s before) := by
  rcases countStall_eq_or scan s before with ⟨_, h⟩ | ⟨-, h⟩
  · exact .inl (by rw [h])
  · exact .inr (by rw [h]; exact abandon_ended)

/-- **What is emitted when the nearest mode changes.** If a step changes the nearest mode that is
not structural only, all that precedes the match has been emitted afterwards, unless the match is
the end of a structural mode with text pending; then it has been only if the scan is over, given
up for standing still. -/
theorem emitted_of_nearest_ne (hs : Reachable scan s) (hopen : s.closed = false)
    (hne : nearest scan.grammar (scan.step s).stack ≠ nearest scan.grammar s.stack) :
    ∃ found, scan.found? s = some found ∧
      (found.span.start ≤ (scan.step s).flushed ↔
        ¬Defers scan s found ∨ (scan.step s).closed = true) := by
  have hbounded := bounded_step (bounded_of_reachable hs) hopen
  rcases step_cases scan s with ⟨-, h⟩ | ⟨found, -, -, h⟩ | ⟨found, hfound, -, h⟩
  · rw [h, close_stack] at hne
    exact absurd rfl hne
  · rw [h, passChar_stack] at hne
    exact absurd rfl hne
  · have hspan := Rule.RuleSet.find_within hfound
    refine ⟨found, hfound, ?_⟩
    by_cases hc : (scan.step s).closed = true
    · have hall : found.span.start ≤ (scan.step s).flushed := by
        rw [(hbounded.ended hc).flushed]
        exact hspan.start_le.trans hspan.stop_le
      exact iff_of_true hall (.inr hc)
    · -- The count of standing steps has not ended the scan, so what the match did stands.
      have hflushed : (scan.step s).flushed = (scan.act (s.noting found) found).flushed := by
        rw [h] at hc ⊢
        exact (countStall_flushed _).resolve_right fun hended => hc hended.closed
      have hne' : nearest scan.grammar (scan.act (s.noting found) found).stack ≠
          nearest scan.grammar (s.noting found).stack := by
        rw [h, countStall_stack] at hne
        exact hne
      rw [or_iff_left hc, hflushed]
      rcases act_flushed_of_nearest_ne hspan.start_le hne' with ⟨hnot, hle⟩ | ⟨hyes, heq⟩
      · exact iff_of_true hle fun hdefers => hnot ⟨hdefers.skip, hdefers.ending⟩
      · rw [heq]
        refine ⟨fun hle hdefers => absurd hle (not_le.2 hdefers.pending), fun hnot => ?_⟩
        exact not_lt.1 fun hlt => hnot ⟨hyes.1, hyes.2, hlt⟩

/-! ## A structural mode that ends its parent -/

/-- Parentheses, and angle brackets in them that are structural only and end with the
parentheses. -/
def leaking : Grammar.Draft where
  name := "leaking"
  definitions := #[
    { opening := some "<", closing := some ">", flags := { skip := true, endsWithParent := true } },
    { scope := some "p", opening := some "\\(", closing := some "(?=\\))", contains := [.mode 0] },
    { contains := [.mode 1] }]
  root := some 2

/-- A scan of parentheses that close before the angle brackets in them do. -/
def leakingScan (g : Grammar) : Scan where
  grammar := g
  text := #['(', 'a', '<', 'b', ')']

/-- The state in which both are open. -/
def leakingState (g : Grammar) : State :=
  (leakingScan g).step^[2] (leakingScan g).start

/-- The third step ends both at position 4, where nothing has been emitted. -/
theorem leaking_builds : ∃ g, leaking.build = .ok g ∧
    (∀ m < 2, ((leakingScan g).step^[m] (leakingScan g).start).closed = false) ∧
    (leakingState g).closed = false ∧
    nearest g ((leakingScan g).step (leakingState g)).stack ≠ nearest g (leakingState g).stack ∧
    ((leakingScan g).found? (leakingState g)).map (·.span.start) = some 4 ∧
    ((leakingScan g).step (leakingState g)).flushed = 0 :=
  leaking.exists_built _ (by decide +kernel)

/-- The text before the end of a structural mode is left pending where its parent ends. -/
theorem leaking_defers : ∃ g, leaking.build = .ok g ∧
    ∃ s found, Reachable (leakingScan g) s ∧ s.closed = false ∧
      nearest g ((leakingScan g).step s).stack ≠ nearest g s.stack ∧
      (leakingScan g).found? s = some found ∧
      ((leakingScan g).step s).flushed < found.span.start := by
  obtain ⟨g, hbuild, hopen, hopen', hne, hfound, hflushed⟩ := leaking_builds
  obtain ⟨found, hfound, hstart⟩ := Option.map_eq_some_iff.1 hfound
  exact ⟨g, hbuild, leakingState g, found, reachable_iterate _ 2 hopen, hopen', hne, hfound,
    by omega⟩

/-- The general statement of that step. -/
theorem leaking_emitted_iff : ∃ g, leaking.build = .ok g ∧
    ∃ found, (leakingScan g).found? (leakingState g) = some found ∧
      (found.span.start ≤ ((leakingScan g).step (leakingState g)).flushed ↔
        ¬Defers (leakingScan g) (leakingState g) found ∨
          ((leakingScan g).step (leakingState g)).closed = true) := by
  obtain ⟨g, hbuild, hopen, hopen', hne, -⟩ := leaking_builds
  exact ⟨g, hbuild, emitted_of_nearest_ne (reachable_iterate _ 2 hopen) hopen' hne⟩

end ModeStack.Scan
