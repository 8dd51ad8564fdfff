import ModeStack.Proofs.Scan.Frame
import ModeStack.Proofs.Scan.Tiling

/-!
# What a step does to the place of a scan

The place of a scan is its cursor and the position up to which tokens have been emitted. Every
part of a step moves the cursor onward, or leaves it, and adds tokens to the queue that tile the
text from the old emitted position to the new one (`Advances`). Every part but the last leaves
the counter of standing steps alone too (`Moves`).

`step_spec` says all that a step can do to the place: it ends the scan because nothing matches,
it passes the character at an end that is suppressed, or it acts on a match and counts whether
the cursor has moved.
-/

namespace ModeStack.Scan

open ModeStack.Regex (Span)

/-- What the place of a scan is made of. -/
structure Place where
  queue : List Token
  flushed : Nat
  cursor : Nat
  closed : Bool

/-- The place of a scan in a state. -/
def State.place (s : State) : Place := ⟨s.queue, s.flushed, s.cursor, s.closed⟩

/-- What has been emitted lies before the cursor, and the cursor inside the text. -/
structure Placed (scan : Scan) (s : State) : Prop where
  flushed_le : s.flushed ≤ s.cursor
  cursor_le : s.cursor ≤ scan.text.size

/-- The scan is over and all of the text has been emitted. -/
structure Ended (scan : Scan) (s : State) : Prop where
  closed : s.closed = true
  flushed : s.flushed = scan.text.size
  cursor : s.cursor = scan.text.size

/-- The second state is further on than the first: the tokens emitted in between tile the text
in between, and the scan is over only if all of the text has been emitted. -/
structure Advances (scan : Scan) (s s' : State) : Prop where
  emits : ∃ new, s'.queue = s.queue ++ new ∧ Tiles s.flushed s'.flushed (spansOf new)
  placed : Placed scan s'
  cursor_le : s.cursor ≤ s'.cursor
  closes : s'.closed = s.closed ∨ Ended scan s'

/-- The second state is further on, and no step has been counted in between. -/
structure Moves (scan : Scan) (s s' : State) : Prop extends Advances scan s s' where
  stalled_eq : s'.stalled = s.stalled

variable {scan : Scan} {s s' s'' u u' : State}

theorem Placed.congr (h : Placed scan s) (heq : u.place = s.place) : Placed scan u := by
  simp only [State.place, Place.mk.injEq] at heq
  obtain ⟨-, hf, hc, -⟩ := heq
  exact ⟨by rw [hf, hc]; exact h.flushed_le, by rw [hc]; exact h.cursor_le⟩

theorem Ended.congr (h : Ended scan s) (heq : u.place = s.place) : Ended scan u := by
  simp only [State.place, Place.mk.injEq] at heq
  obtain ⟨-, hf, hc, hcl⟩ := heq
  exact ⟨hcl.trans h.closed, hf.trans h.flushed, hc.trans h.cursor⟩

/-- Only the places of the two states matter. -/
theorem Advances.congr (h : Advances scan s s') (heq : u.place = s.place)
    (heq' : u'.place = s'.place) : Advances scan u u' := by
  have hplaced := h.placed.congr heq'
  have hended (he : Ended scan s') : Ended scan u' := he.congr heq'
  simp only [State.place, Place.mk.injEq] at heq heq'
  obtain ⟨hq, hf, hc, hcl⟩ := heq
  obtain ⟨hq', hf', hc', hcl'⟩ := heq'
  refine ⟨?_, hplaced, by rw [hc, hc']; exact h.cursor_le, ?_⟩
  · rw [hq, hq', hf, hf']
    exact h.emits
  · rw [hcl, hcl']
    exact h.closes.imp_right hended

theorem Moves.congr (h : Moves scan s s') (heq : u.place = s.place)
    (heq' : u'.place = s'.place) (hst : s.stalled = u.stalled) (hst' : s'.stalled = u'.stalled) :
    Moves scan u u' :=
  ⟨h.toAdvances.congr heq heq', by rw [← hst, ← hst']; exact h.stalled_eq⟩

theorem Advances.trans (h : Advances scan s s') (h' : Advances scan s' s'') :
    Advances scan s s'' := by
  obtain ⟨new, hq, htiles⟩ := h.emits
  obtain ⟨new', hq', htiles'⟩ := h'.emits
  refine ⟨⟨new ++ new', by rw [hq', hq, List.append_assoc], ?_⟩, h'.placed,
    h.cursor_le.trans h'.cursor_le, ?_⟩
  · rw [spansOf_append]
    exact htiles.append htiles'
  · rcases h'.closes with hc' | hended
    · rcases h.closes with hc | hended
      · exact .inl (hc'.trans hc)
      · -- The text had been emitted to its end, so there it still stands.
        refine .inr ⟨hc'.trans hended.closed, ?_, ?_⟩
        · have hle := htiles'.le
          have hp := h'.placed
          have := hp.flushed_le.trans hp.cursor_le
          rw [hended.flushed] at hle
          omega
        · have hle := h'.cursor_le
          have := h'.placed.cursor_le
          rw [hended.cursor] at hle
          omega
    · exact .inr hended

theorem Moves.trans (h : Moves scan s s') (h' : Moves scan s' s'') : Moves scan s s'' :=
  ⟨h.toAdvances.trans h'.toAdvances, h'.stalled_eq.trans h.stalled_eq⟩

/-! ## Emitting -/

/-- Emitting up to a position adds tokens that tile the text up to it. -/
theorem flush_tiles (hg : scan.grammar.SearchesOnward) {upto : Nat} (hle : upto ≤ scan.text.size) :
    ∃ new, (scan.flush s upto).queue = s.queue ++ new ∧
      Tiles s.flushed (max s.flushed upto) (spansOf new) := by
  unfold flush
  split_ifs with hdone
  · exact ⟨[], by simp, (max_eq_left hdone).symm⟩
  · have hlt : s.flushed < upto := not_le.1 hdone
    rw [max_eq_right hlt.le]
    dsimp only
    cases (scan.top s).keywords with
    | none => exact ⟨_, rfl, rfl, hlt, rfl⟩
    | some table =>
      have hcut := split_tiles ⟨table, (scan.top s).wordPattern, scan.scopeOf s.stack⟩
        (hg.words _) scan.text ⟨s.flushed, upto⟩ hlt.le hle
      exact ⟨_, rfl, hcut⟩

/-- Emitting up to a position and moving the cursor there or further. -/
theorem moves_flush (hg : scan.grammar.SearchesOnward) (hs : Placed scan s) {upto cursor : Nat}
    (hupto : upto ≤ cursor) (hle : s.cursor ≤ cursor) (hsize : cursor ≤ scan.text.size) :
    Moves scan s { scan.flush s upto with cursor := cursor } := by
  obtain ⟨new, hq, htiles⟩ := flush_tiles (s := s) hg (hupto.trans hsize)
  have hf := flush_flushed scan s upto
  refine ⟨⟨⟨new, hq, ?_⟩, ⟨?_, hsize⟩, hle, .inl (flush_closed scan s upto)⟩,
    flush_stalled scan s upto⟩
  · exact hf ▸ htiles
  · exact hf.trans_le (max_le (hs.flushed_le.trans hle) hupto)

theorem moves_cursor (hs : Placed scan s) {cursor : Nat} (hle : s.cursor ≤ cursor)
    (hsize : cursor ≤ scan.text.size) : Moves scan s { s with cursor := cursor } :=
  ⟨⟨⟨[], by simp, rfl⟩, ⟨hs.flushed_le.trans hle, hsize⟩, hle, .inl rfl⟩, rfl⟩

theorem close_ended (hle : s.flushed ≤ scan.text.size) : Ended scan (scan.close s) :=
  ⟨rfl, (flush_flushed scan s _).trans (max_eq_right hle), rfl⟩

theorem moves_close (hg : scan.grammar.SearchesOnward) (hs : Placed scan s) :
    Moves scan s (scan.close s) := by
  have h := moves_flush hg hs (le_refl scan.text.size) hs.cursor_le le_rfl
  have hplaced : Placed scan (scan.close s) := ⟨h.placed.flushed_le, h.placed.cursor_le⟩
  have hended := close_ended (hs.flushed_le.trans hs.cursor_le)
  exact ⟨⟨h.emits, hplaced, h.cursor_le, .inr hended⟩, h.stalled_eq⟩

theorem abandon_ended : Ended scan (scan.abandon s) := ⟨rfl, rfl, rfl⟩

theorem moves_abandon (hs : Placed scan s) : Moves scan s (scan.abandon s) := by
  refine ⟨⟨⟨_, rfl, ?_⟩, ⟨le_rfl, le_rfl⟩, hs.cursor_le, .inr abandon_ended⟩, rfl⟩
  exact tokensFor_tiles none (hs.flushed_le.trans hs.cursor_le)

/-! ## Acting on a match -/

/-- Passing a character moves the cursor past it, or ends the scan. -/
theorem moves_passChar (hg : scan.grammar.SearchesOnward) (hs : Placed scan s) {pos : Nat}
    (hle : s.cursor ≤ pos) : Moves scan s (scan.passChar s pos) ∧
      (pos < (scan.passChar s pos).cursor ∨ Ended scan (scan.passChar s pos)) := by
  rcases passChar_cases scan s pos with ⟨hlt, h⟩ | ⟨-, h⟩
  · rw [h]
    exact ⟨moves_cursor hs (Nat.le_succ_of_le hle) hlt, .inl (Nat.lt_succ_self pos)⟩
  · rw [h]
    exact ⟨moves_close hg hs, .inr (close_ended (hs.flushed_le.trans hs.cursor_le))⟩

section Act

variable (hg : scan.grammar.SearchesOnward) (hs : Placed scan s)

include hg hs

theorem moves_enter (mode : Grammar.Mode) {span : Span}
    (hspan : span.Within s.cursor scan.text.size) : Moves scan s (scan.enter s mode span) := by
  obtain ⟨hstart, hstop, hsize⟩ := hspan
  obtain ⟨hge, hle⟩ := enterCursor_mem hstop mode.flags
  have h := moves_flush hg hs (enterUpto_le hstop mode.flags) (hstart.trans hge) (hle.trans hsize)
  rw [enter_eq]
  exact h.congr rfl rfl rfl rfl

theorem moves_leave {span : Span} (hspan : span.Within s.cursor scan.text.size) :
    Moves scan s (scan.leave s span) := by
  obtain ⟨hstart, hstop, hsize⟩ := hspan
  obtain ⟨hge, hle⟩ := leaveCursor_mem hstop (scan.top s).flags
  rw [leave_eq]
  exact moves_flush hg hs (leaveUpto_le hstop _) (hstart.trans hge) (hle.trans hsize)

/-- **Acting on a match moves onward.** -/
theorem moves_act {found : Rule.Found} (hspan : found.span.Within s.cursor scan.text.size) :
    Moves scan s (scan.act s found) := by
  rcases act_cases scan s found with ⟨child, -, h⟩ | ⟨child, -, -, h⟩ | ⟨pos, hlt, hle, h⟩ | h |
    ⟨-, -, h⟩ | ⟨ended, below, -, -, h⟩
  · rw [h]
    exact (moves_enter hg hs _ hspan).congr rfl rfl rfl rfl
  · rw [h]
    have hsize := hspan.start_le.trans hspan.stop_le
    exact (moves_cursor hs hspan.le_start hsize).congr rfl rfl rfl rfl
  · rw [h]
    exact moves_cursor hs (hspan.le_start.trans hlt.le) (hle.trans (max_le hspan.stop_le le_rfl))
  · rw [h]
    exact moves_close hg hs
  · rw [h]
    have habandon := moves_abandon (s := { s with illegal := true }) ⟨hs.flushed_le, hs.cursor_le⟩
    exact habandon.congr rfl rfl rfl rfl
  · rw [h]
    obtain ⟨_, hstarts⟩ := startNext_eq scan { scan.leave s found.span with stack := below } ended
    rw [hstarts]
    exact (moves_leave hg hs hspan).congr rfl rfl rfl rfl

end Act

/-! ## Steps -/

/-- Whether the next step finds an empty end where a mode has just opened, and suppresses it. -/
def suppresses (scan : Scan) (s : State) : Bool :=
  match (scan.top s).rules.find scan.text s.cursor s.resume with
  | some found => isVacuousEnd s found
  | none => false

theorem suppresses_of_none (h : scan.found? s = none) : scan.suppresses s = false := by
  unfold found? at h
  simp only [suppresses, h]

theorem suppresses_of_found {found : Rule.Found} (h : scan.found? s = some found) :
    scan.suppresses s = isVacuousEnd s found := by
  unfold found? at h
  simp only [suppresses, h]

/-- **All that a step can do to the place of a scan.** -/
theorem step_spec (hg : scan.grammar.SearchesOnward) (hs : Placed scan s) :
    (scan.suppresses s = false ∧ Moves scan s (scan.step s) ∧ Ended scan (scan.step s)) ∨
    (scan.suppresses s = true ∧ Moves scan s (scan.step s) ∧
      (s.cursor < (scan.step s).cursor ∨ Ended scan (scan.step s))) ∨
    (scan.suppresses s = false ∧
      ∃ s₁, Moves scan s s₁ ∧ scan.step s = scan.countStall s₁ s.cursor) := by
  have hs₀ : Placed scan { s with resume := none } := ⟨hs.flushed_le, hs.cursor_le⟩
  rcases step_cases scan s with
    ⟨hfound, hstep⟩ | ⟨found, hfound, hv, hstep⟩ | ⟨found, hfound, hv, hstep⟩
  · rw [hstep, suppresses_of_none hfound]
    have hended := close_ended (hs₀.flushed_le.trans hs₀.cursor_le)
    exact .inl ⟨rfl, (moves_close hg hs₀).congr rfl rfl rfl rfl, hended⟩
  · have hspan := (hg.rules _).find hfound
    obtain ⟨h, hpasses⟩ := moves_passChar hg hs₀ hspan.le_start
    rw [hstep, suppresses_of_found hfound, hv]
    exact .inr (.inl ⟨rfl, h.congr rfl rfl rfl rfl, hpasses.imp_left hspan.le_start.trans_lt⟩)
  · have hspan := (hg.rules _).find hfound
    have h := moves_act (s := s.noting found) hg ⟨hs.flushed_le, hs.cursor_le⟩ hspan
    rw [hstep, suppresses_of_found hfound, hv]
    exact .inr (.inr ⟨rfl, _, h.congr rfl rfl rfl rfl, rfl⟩)

/-- What counting does after a move: a scan that is over or has moved starts counting anew, one
that stands still counts one more, and one that has stood still for too long is abandoned. -/
theorem countStall_spec (h : Moves scan s s') (hopen : s.closed = false) :
    (Ended scan s' ∧ scan.countStall s' s.cursor = { s' with stalled := 0 }) ∨
    (s'.closed = false ∧ s.cursor < s'.cursor ∧
      scan.countStall s' s.cursor = { s' with stalled := 0 }) ∨
    (s'.closed = false ∧ s'.cursor = s.cursor ∧ s.stalled < maxStalled ∧
      scan.countStall s' s.cursor = { s' with stalled := s.stalled + 1 }) ∨
    (s'.closed = false ∧ s'.cursor = s.cursor ∧ maxStalled ≤ s.stalled ∧
      scan.countStall s' s.cursor = scan.abandon { s' with stalled := s.stalled + 1 }) := by
  have hcases := countStall_cases scan s' s.cursor
  rw [h.stalled_eq] at hcases
  rcases hcases with ⟨hor, heq⟩ | ⟨hc, hle, hlt, heq⟩ | ⟨hc, hle, hmax, heq⟩
  · rcases h.closes with hc | hended
    · have hc := hc.trans hopen
      exact .inr (.inl ⟨hc, hor.resolve_left (by simp [hc]), heq⟩)
    · exact .inl ⟨hended, heq⟩
  · exact .inr (.inr (.inl ⟨hc, le_antisymm hle h.cursor_le, hlt, heq⟩))
  · exact .inr (.inr (.inr ⟨hc, le_antisymm hle h.cursor_le, hmax, heq⟩))

/-- **A step of an open scan advances it.** -/
theorem step_advances (hg : scan.grammar.SearchesOnward) (hs : Placed scan s)
    (hopen : s.closed = false) : Advances scan s (scan.step s) := by
  rcases step_spec hg hs with ⟨-, h, -⟩ | ⟨-, h, -⟩ | ⟨-, s₁, h, heq⟩
  · exact h.toAdvances
  · exact h.toAdvances
  · have hadv := h.toAdvances
    rw [heq]
    rcases countStall_spec h hopen with ⟨-, hc⟩ | ⟨-, -, hc⟩ | ⟨-, -, -, hc⟩ | ⟨-, -, -, hc⟩
    · rw [hc]
      exact hadv.congr rfl rfl
    · rw [hc]
      exact hadv.congr rfl rfl
    · rw [hc]
      exact hadv.congr rfl rfl
    · rw [hc]
      have ha := moves_abandon (s := { s₁ with stalled := s.stalled + 1 })
        ⟨hadv.placed.flushed_le, hadv.placed.cursor_le⟩
      exact hadv.trans (ha.toAdvances.congr rfl rfl)

end ModeStack.Scan
