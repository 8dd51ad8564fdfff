import ModeStack.Proofs.Grammar.Patterns
import ModeStack.Proofs.Rule.Exhaustion
import ModeStack.Proofs.Rule.Priority
import ModeStack.Proofs.Scan.Graded

/-!
# Rejected openings

A match of a rule that opens a mode is rejected where the guard of the mode does not allow it. The
later rules are then tried at the same position and, failing that, all rules after it. A rejection
is not an event of the scan: it leaves the stack, the tokens and the score alone (`Waits`).

`candidates` are the pairs of a position and a rule that matches there and is not rejected. From a
state that does not resume, steps that reject lead to one that acts on the least candidate, or to
the end of the scan if there is none (`rejections_skipped`). A search that is given up counts as one
that finds nothing, so a candidate may then be missed (`swamped_not_skipped`).
-/

namespace ModeStack.Scan

open ModeStack.Regex (Span)
open ModeStack.Rule (RuleSet Clause FoundAlone SelfContained)

variable (scan : Scan)

/-- Whether a match of a rule is acted on: the guard of a mode that it would open allows it. -/
def admits (rule : Rule) (pos : Nat) : Bool :=
  match rule with
  | .opening child => (scan.grammar.mode child).guard.allows scan.text pos
  | _ => true

/-- The pairs of a position and the place of a rule that matches there by itself and is not
rejected. -/
def candidates (clauses : List Clause) (ps : List Pattern) : Set (ℕ ×ₗ ℕ) :=
  {x ∈ Rule.matching ps scan.text |
    ∃ clause, clauses[(ofLex x).2]? = some clause ∧ scan.admits clause.rule (ofLex x).1 = true}

/-- The next step does no more than to reject an opening. -/
def Rejects (s : State) : Prop :=
  ∃ found, scan.found? s = some found ∧ scan.admits found.rule found.span.start = false

/-- The second state differs from the first in where the next match is looked for at most, and in
what is noted for it. -/
def State.Waits (s s' : State) : Prop :=
  ∃ cursor resume last stalled,
    s' = { s with cursor := cursor, resume := resume, last := last, stalled := stalled }

/-- The next step ends the scan, and emits the rest of the text in the innermost mode. -/
def Closes (s s' : State) : Prop :=
  ∃ last stalled, scan.step s' = { scan.close s with last := last, stalled := stalled }

/-- The next step rejects an opening, and then the scan has stood still for too long. -/
def Stalls (s : State) : Prop :=
  scan.Rejects s ∧ maxStalled ≤ s.stalled ∧ ∃ u, s.Waits u ∧ scan.step s = scan.abandon u

/-- The last step has opened a mode at a position. -/
def JustOpened (s : State) (pos : Nat) : Prop :=
  ∃ before found child queue, Reachable scan before ∧ before.closed = false ∧
    scan.found? before = some found ∧ found.rule = .opening child ∧ found.span.start = pos ∧
    scan.admits found.rule pos = true ∧ s = { scan.step before with queue := queue }

/-- A match is an empty end where a mode has just opened. -/
def EndsAtOnce (s : State) (found : Rule.Found) : Prop :=
  found.span.stop ≤ found.span.start ∧ found.rule = .ending ∧ scan.JustOpened s found.span.start

/-- The next step acts on a match. An empty end where a mode has just opened is passed over. -/
structure Handles (s : State) (found : Rule.Found) : Prop where
  found? : scan.found? s = some found
  admits : scan.admits found.rule found.span.start = true
  acts : ¬ scan.EndsAtOnce s found →
    scan.step s = scan.countStall (scan.act (s.noting found) found) s.cursor
  passes : scan.EndsAtOnce s found →
    scan.step s = scan.passChar { s with resume := none } found.span.start

/-- A candidate is missed in one of the first steps, since a search is given up. -/
def Missed (s : State) (count : Nat) (x : ℕ ×ₗ ℕ) : Prop :=
  ∃ m < count, Rule.Misses (scan.top (scan.step^[m] s)).rules scan.text
    (scan.step^[m] s).cursor (scan.step^[m] s).resume x

variable {scan} {s s' s'' : State} {found : Rule.Found} {pos : Nat}

theorem State.Waits.refl (s : State) : s.Waits s := ⟨_, _, _, _, rfl⟩

theorem State.Waits.trans (h : s.Waits s') (h' : s'.Waits s'') : s.Waits s'' := by
  obtain ⟨_, _, _, _, rfl⟩ := h
  obtain ⟨cursor, resume, last, stalled, rfl⟩ := h'
  exact ⟨cursor, resume, last, stalled, rfl⟩

theorem State.Waits.stack_eq (h : s.Waits s') : s'.stack = s.stack := by
  obtain ⟨_, _, _, _, rfl⟩ := h
  rfl

theorem State.Waits.closed_eq (h : s.Waits s') : s'.closed = s.closed := by
  obtain ⟨_, _, _, _, rfl⟩ := h
  rfl

theorem State.Waits.top_eq (h : s.Waits s') : scan.top s' = scan.top s := by
  rw [top, top, h.stack_eq]

/-! ## Steps that reject -/

theorem admits_eq_false_iff {rule : Rule} : scan.admits rule pos = false ↔
    ∃ child, rule = .opening child ∧
      (scan.grammar.mode child).guard.allows scan.text pos = false := by
  cases rule with
  | opening child => simp [admits]
  | illegal => simp [admits]
  | ending => simp [admits]

/-- A match that is not admitted is rejected. -/
theorem act_of_not_admits (h : scan.admits found.rule found.span.start = false) :
    scan.act s found = scan.reject s found.index found.span := by
  obtain ⟨child, hrule, hguard⟩ := admits_eq_false_iff.1 h
  simp [act, hrule, openMode, hguard]

theorem step_of_not_admits (hfound : scan.found? s = some found)
    (h : scan.admits found.rule found.span.start = false) :
    scan.step s = scan.countStall (scan.reject (s.noting found) found.index found.span) s.cursor := by
  have hvacuous : isVacuousEnd s found = false := by
    obtain ⟨child, hrule, -⟩ := admits_eq_false_iff.1 h
    simp [isVacuousEnd, hrule]
  rw [step_of_found hfound hvacuous, act_of_not_admits h]

/-- Emitting text does not look at where the next match is looked for. -/
theorem flush_waits (s : State) (upto cursor : Nat) (resume : Option Nat)
    (last : Option LastMatch) (stalled : Nat) :
    scan.flush { s with cursor := cursor, resume := resume, last := last, stalled := stalled } upto =
      { scan.flush s upto with
        cursor := cursor, resume := resume, last := last, stalled := stalled } := by
  unfold flush
  dsimp only
  split_ifs
  · rfl
  · cases h : (scan.top s).keywords <;> simp only [top] at h ⊢ <;> simp only [h]

/-- Where the scan is closed while it waits, it is closed as it would have been before. -/
theorem close_of_waits (scan : Scan) (h : s.Waits s') (hresume : s.resume = none) :
    ∃ last stalled, scan.close { s' with resume := none } =
      { scan.close s with last := last, stalled := stalled } := by
  obtain ⟨cursor, resume, last, stalled, rfl⟩ := h
  refine ⟨last, stalled, ?_⟩
  simp only [close, flush_waits]
  rw [flush_resume, hresume]

theorem closes_of_none (h : s.Waits s') (hresume : s.resume = none)
    (hnone : scan.found? s' = none) : scan.Closes s s' := by
  obtain ⟨last, stalled, heq⟩ := close_of_waits scan h hresume
  exact ⟨last, stalled, (step_of_none hnone).trans heq⟩

/-- The state after a rejection: the later rules are to be tried at the same position, or all rules
after it if there are no later ones. -/
structure Onward (scan : Scan) (s' : State) (found : Rule.Found) (u : State) : Prop where
  waits : s'.Waits u
  next : (found.index + 1 < (scan.top s').rules.size ∧ u.cursor = found.span.start ∧
      u.resume = some (found.index + 1)) ∨
    ((scan.top s').rules.size ≤ found.index + 1 ∧ u.cursor = found.span.start + 1 ∧
      u.resume = none)

/-- **A step that rejects** goes on with the later rules, or closes the scan where the last rule is
rejected at the end of the text, or abandons a scan that has stood still for too long. -/
theorem step_of_rejects (hfound : scan.found? s = some found)
    (hrejected : scan.admits found.rule found.span.start = false) :
    scan.Stalls s ∨
    ((scan.top s).rules.size ≤ found.index + 1 ∧ scan.text.size ≤ found.span.start ∧
      scan.step s = { scan.close (s.noting found) with stalled := 0 }) ∨
    Onward scan s found (scan.step s) := by
  have hstep := step_of_not_admits hfound hrejected
  have hstalls {u : State} (hu : s.Waits u) (hmax : maxStalled ≤ s.stalled)
      (heq : scan.step s = scan.abandon u) : scan.Stalls s :=
    ⟨⟨found, hfound, hrejected⟩, hmax, u, hu, heq⟩
  rcases reject_cases scan (s.noting found) found.index found.span with
    ⟨hsize, heq⟩ | ⟨hsize, -, heq⟩ | ⟨hsize, hend, heq⟩
  · rw [heq] at hstep
    rcases countStall_eq_or scan _ s.cursor with ⟨stalled, hcount⟩ | ⟨hmax, hcount⟩
    · rw [hstep, hcount]
      exact .inr (.inr ⟨⟨_, _, _, _, rfl⟩, .inl ⟨hsize, rfl, rfl⟩⟩)
    · exact .inl (hstalls ⟨_, _, _, _, rfl⟩ hmax (hstep.trans hcount))
  · rw [heq] at hstep
    rcases countStall_eq_or scan _ s.cursor with ⟨stalled, hcount⟩ | ⟨hmax, hcount⟩
    · rw [hstep, hcount]
      exact .inr (.inr ⟨⟨_, _, _, _, rfl⟩, .inr ⟨hsize, rfl, rfl⟩⟩)
    · exact .inl (hstalls ⟨_, _, _, _, rfl⟩ hmax (hstep.trans hcount))
  · rw [heq] at hstep
    exact .inr (.inl ⟨hsize, hend, hstep⟩)

/-- Where the last rule is rejected at the end of the text, the rest is emitted. -/
theorem closes_of_rejects (h : s.Waits s') (hresume : s.resume = none)
    (hstep : scan.step s' = { scan.close (s'.noting found) with stalled := 0 }) :
    scan.Closes s s' := by
  obtain ⟨last, stalled, heq⟩ := close_of_waits scan
    (h.trans ⟨_, none, some ⟨isOpening found.rule, found.span.start⟩, _, rfl⟩) hresume
  have heq : scan.close (s'.noting found) = _ := heq
  rw [heq] at hstep
  exact ⟨last, 0, hstep⟩

/-! ## The last match -/

/-- What is known of a match that has been noted as an opening: it was accepted in the last step, or
lies before the cursor, or was rejected at the cursor, and later rules are tried now. -/
def Noted (scan : Scan) (s : State) (pos : Nat) : Prop :=
  scan.JustOpened s pos ∨ pos < s.cursor ∨
    (pos = s.cursor ∧ ∃ k clause child, s.resume = some (k + 1) ∧
      (scan.top s).rules.clauses[k]? = some clause ∧ clause.rule = .opening child)

/-- A step that acts on a match notes it. -/
theorem step_last (hfound : scan.found? s = some found) (hvacuous : isVacuousEnd s found = false) :
    (scan.step s).last = some ⟨isOpening found.rule, found.span.start⟩ := by
  have hact := act_last scan (s.noting found) found
  rw [step_of_found hfound hvacuous]
  rcases countStall_eq_or scan (scan.act (s.noting found) found) s.cursor with
    ⟨stalled, heq⟩ | ⟨-, heq⟩
  · rw [heq]
    exact hact
  · rw [heq]
    exact hact

theorem JustOpened.last_eq (h : scan.JustOpened s pos) : s.last = some ⟨true, pos⟩ := by
  obtain ⟨before, found, child, queue, -, -, hfound, hrule, hpos, -, rfl⟩ := h
  have hvacuous : isVacuousEnd before found = false := by simp [isVacuousEnd, hrule]
  show (scan.step before).last = _
  rw [step_last hfound hvacuous, hrule, hpos]
  rfl

/-- What is known of a noted opening after a step. -/
theorem noted_step (h : Reachable scan s) (hopen : s.closed = false)
    (hopen' : (scan.step s).closed = false) (hlast : (scan.step s).last = some ⟨true, pos⟩) :
    Noted scan (scan.step s) pos := by
  rcases step_cases scan s with ⟨-, heq⟩ | ⟨found, -, hvacuous, heq⟩ | ⟨found, hfound, hvacuous, -⟩
  · rw [heq] at hopen'
    cases hopen'
  · -- The suppressed end lies where the mode has opened, and its character is passed.
    simp only [isVacuousEnd, Bool.and_eq_true, decide_eq_true_eq] at hvacuous
    rcases passChar_cases scan { s with resume := none } found.span.start with
      ⟨-, hpass⟩ | ⟨-, hpass⟩
    · rw [heq, hpass] at hlast ⊢
      cases hvacuous.2.symm.trans hlast
      exact .inr (.inl (Nat.lt_succ_self _))
    · rw [heq, hpass] at hopen'
      cases hopen'
  · rw [step_last hfound hvacuous] at hlast
    obtain ⟨hopening, hpos⟩ := LastMatch.mk.inj (Option.some.inj hlast)
    obtain ⟨child, hrule⟩ : ∃ child, found.rule = .opening child := by
      cases hrule : found.rule with
      | opening child => exact ⟨child, rfl⟩
      | illegal | ending => rw [hrule] at hopening; cases hopening
    cases hadmits : scan.admits found.rule found.span.start with
    | true => exact .inl ⟨s, found, child, _, h, hopen, hfound, hrule, hpos, hpos ▸ hadmits, rfl⟩
    | false =>
      rcases step_of_rejects hfound hadmits with
        ⟨-, -, u, -, heq⟩ | ⟨-, -, heq⟩ | ⟨hwaits, ⟨-, hcursor, hresume⟩ | ⟨-, hcursor, -⟩⟩
      · rw [heq] at hopen'
        cases hopen'
      · rw [heq] at hopen'
        cases hopen'
      · obtain ⟨clause, hclause, hclauseRule⟩ := clause_of_find hfound
        refine .inr (.inr ⟨hpos ▸ hcursor.symm, found.index, clause, child, hresume, ?_,
          hclauseRule.trans hrule⟩)
        rw [hwaits.top_eq]
        exact hclause
      · exact .inr (.inl (by omega))

/-- **What is known of a noted opening** in every reachable state of an open scan. -/
theorem noted_of_reachable (h : Reachable scan s) (hopen : s.closed = false)
    (hlast : s.last = some ⟨true, pos⟩) : Noted scan s pos := by
  induction h with
  | start => cases hlast
  | step hreach hopen' _ => exact noted_step hreach hopen' hopen hlast
  | take _ _ ih =>
    rcases ih hopen hlast with
      ⟨before, found, child, _, hbefore, hb, hfound, hrule, hpos, hadmits, rfl⟩ | hrest
    · exact .inl ⟨before, found, child, _, hbefore, hb, hfound, hrule, hpos, hadmits, rfl⟩
    · exact .inr hrest

/-! ## Candidates -/

/-- Where the next match is looked for: a position, and the first rule that is tried there. -/
def State.frontier (s : State) : ℕ ×ₗ ℕ := toLex (s.cursor, s.resume.getD 0)

/-- The candidates from where the next match is looked for on, but for those that are missed in the
first steps. -/
def remaining (scan : Scan) (ps : List Pattern) (s : State) (count : Nat) : Set (ℕ ×ₗ ℕ) :=
  {x ∈ scan.candidates (scan.top s).rules.clauses.toList ps |
    s.frontier ≤ x ∧ ¬ scan.Missed s count x}

section

variable {draft : Grammar.Draft} {ps : List Pattern} (hbuild : draft.build = .ok scan.grammar)
  (hreach : Reachable scan s)
  (hrules : List.Forall₂ (fun clause p => SelfContained draft.ignoreCase clause.part p)
    (scan.top s).rules.clauses.toList ps)

include hbuild hreach hrules

/-- What the next step finds is the least match that is not missed. -/
theorem found?_cases :
    (scan.found? s = none ∧ ∀ x ∈ Rule.matching ps scan.text, s.frontier ≤ x →
      Rule.Misses (scan.top s).rules scan.text s.cursor s.resume x) ∨
    ∃ found, scan.found? s = some found ∧
      FoundAlone (scan.top s).rules.clauses.toList ps scan.text found ∧
      IsLeast {x ∈ Rule.matching ps scan.text | s.frontier ≤ x ∧
          ¬ Rule.Misses (scan.top s).rules scan.text s.cursor s.resume x}
        (toLex (found.span.start, found.index)) :=
  Rule.find_cases hrules (Grammar.compiledFor_of_build hbuild _).rules scan.text s.cursor
    fun _ hk => (resume_of_reachable hreach hk).1

theorem frontier_le_of_found? (hfound : scan.found? s = some found) :
    s.frontier ≤ toLex (found.span.start, found.index) := by
  rcases found?_cases hbuild hreach hrules with ⟨hnone, -⟩ | ⟨other, hother, -, hleast⟩
  · rw [hnone] at hfound
    cases hfound
  · cases hother.symm.trans hfound
    exact hleast.1.2.1

/-- An end is suppressed exactly if it is empty and lies where a mode has just opened. -/
theorem isVacuousEnd_iff (hopen : s.closed = false) (hfound : scan.found? s = some found) :
    isVacuousEnd s found = true ↔ scan.EndsAtOnce s found := by
  simp only [isVacuousEnd, Bool.and_eq_true, decide_eq_true_eq]
  constructor
  · rintro ⟨⟨hempty, hending⟩, hlast⟩
    have hle := frontier_le_of_found? hbuild hreach hrules hfound
    rcases noted_of_reachable hreach hopen hlast with
      hopened | hlt | ⟨heq, k, clause, child, hresume, hclause, hopening⟩
    · exact ⟨hempty, hending, hopened⟩
    · exact absurd (Prod.Lex.monotone_fst _ _ hle) (not_le.2 hlt)
    · -- All rules after a rejected one open modes.
      rw [State.frontier, hresume, ← heq] at hle
      obtain ⟨later, hlater, hrule⟩ := clause_of_find hfound
      have hindex : k ≤ found.index := by
        rcases Prod.Lex.le_iff.1 hle with hlt | ⟨-, hindex⟩
        · exact absurd hlt (lt_irrefl _)
        · exact Nat.le_of_succ_le hindex
      obtain ⟨c, hc⟩ := Grammar.opening_of_le hbuild hclause hopening hindex hlater
      rw [← hrule, hc] at hending
      cases hending
  · rintro ⟨hempty, hending, hopened⟩
    exact ⟨⟨hempty, hending⟩, hopened.last_eq⟩

/-- A match that is admitted is handled. -/
theorem handles_of_admits (hopen : s.closed = false) (hfound : scan.found? s = some found)
    (hadmits : scan.admits found.rule found.span.start = true) : scan.Handles s found where
  found? := hfound
  admits := hadmits
  acts hnot := step_of_found hfound
    (Bool.eq_false_of_not_eq_true fun hv => hnot ((isVacuousEnd_iff hbuild hreach hrules hopen hfound).1 hv))
  passes hends := step_of_vacuous hfound
    ((isVacuousEnd_iff hbuild hreach hrules hopen hfound).2 hends)

/-- If nothing is found, nothing remains that is not missed. -/
theorem remaining_of_none (hnone : scan.found? s = none) : scan.remaining ps s 1 = ∅ := by
  rcases found?_cases hbuild hreach hrules with ⟨-, hall⟩ | ⟨found, hfound, -⟩
  · refine Set.eq_empty_of_forall_notMem fun x ⟨hx, hle, hnot⟩ => hnot ⟨0, Nat.one_pos, ?_⟩
    exact hall x hx.1 hle
  · rw [hnone] at hfound
    cases hfound

/-- What is found and admitted is the least candidate that remains. -/
theorem isLeast_remaining (hfound : scan.found? s = some found)
    (hadmits : scan.admits found.rule found.span.start = true) :
    FoundAlone (scan.top s).rules.clauses.toList ps scan.text found ∧
      IsLeast (scan.remaining ps s 1) (toLex (found.span.start, found.index)) := by
  rcases found?_cases hbuild hreach hrules with ⟨hnone, -⟩ | ⟨other, hother, halone, hleast⟩
  · rw [hnone] at hfound
    cases hfound
  · cases hother.symm.trans hfound
    have hmissed (x : ℕ ×ₗ ℕ) : scan.Missed s 1 x ↔
        Rule.Misses (scan.top s).rules scan.text s.cursor s.resume x := by
      refine ⟨fun ⟨m, hm, h⟩ => ?_, fun h => ⟨0, Nat.one_pos, h⟩⟩
      cases Nat.lt_one_iff.1 hm
      exact h
    obtain ⟨clause, hclause, hrule⟩ := halone.clause
    refine ⟨halone, ⟨⟨hleast.1.1, clause, hclause, ?_⟩, hleast.1.2.1, ?_⟩, fun x hx => ?_⟩
    · rw [hrule]
      exact hadmits
    · rw [hmissed]
      exact hleast.1.2.2
    · exact hleast.2 ⟨hx.1.1, hx.2.1, fun h => hx.2.2 ((hmissed x).2 h)⟩

/-- What remains comes after a match that is rejected. -/
theorem lt_of_mem_remaining (hfound : scan.found? s = some found)
    (hrejected : scan.admits found.rule found.span.start = false) {count : Nat} {x : ℕ ×ₗ ℕ}
    (hx : x ∈ scan.remaining ps s (count + 1)) : toLex (found.span.start, found.index) < x := by
  rcases found?_cases hbuild hreach hrules with ⟨hnone, -⟩ | ⟨other, hother, halone, hleast⟩
  · rw [hnone] at hfound
    cases hfound
  · cases hother.symm.trans hfound
    obtain ⟨⟨hmatching, clause, hclause, hadmits⟩, hle, hnot⟩ := hx
    refine lt_of_le_of_ne (hleast.2 ⟨hmatching, hle, fun h => hnot ⟨0, Nat.succ_pos _, h⟩⟩) ?_
    rintro rfl
    obtain ⟨clause', hclause', hrule⟩ := halone.clause
    cases hclause.symm.trans hclause'
    have hadmits : scan.admits clause.rule found.span.start = true := hadmits
    rw [hrule, hrejected] at hadmits
    cases hadmits

/-- No rule matches after the last one at the end of the text. -/
theorem remaining_of_end (hfound : scan.found? s = some found)
    (hrejected : scan.admits found.rule found.span.start = false)
    (hsize : (scan.top s).rules.size ≤ found.index + 1) (hend : scan.text.size ≤ found.span.start) :
    scan.remaining ps s 1 = ∅ := by
  refine Set.eq_empty_of_forall_notMem fun x hx => ?_
  obtain ⟨⟨p, hp, hmatch⟩, -⟩ := hx.1
  have hindex : (ofLex x).2 < (scan.top s).rules.size :=
    (List.getElem?_eq_some_iff.1 hp).1.trans_eq hrules.length_eq.symm
  have hpos : (ofLex x).1 ≤ scan.text.size := by
    by_contra hlt
    rw [Rule.matchAt_of_size_lt p (not_le.1 hlt)] at hmatch
    cases hmatch
  rcases Prod.Lex.lt_iff.1 (lt_of_mem_remaining hbuild hreach hrules hfound hrejected hx) with
    hlt | ⟨-, hlt⟩
  · have hlt : found.span.start < (ofLex x).1 := hlt
    omega
  · have hlt : found.index < (ofLex x).2 := hlt
    omega

/-- **A rejection passes over no candidate**: the same remain after it. -/
theorem remaining_step (hfound : scan.found? s = some found)
    (hrejected : scan.admits found.rule found.span.start = false)
    (honward : Onward scan s found (scan.step s)) (count : Nat) :
    scan.remaining ps (scan.step s) count = scan.remaining ps s (count + 1) := by
  have htop : scan.top (scan.step s) = scan.top s := honward.waits.top_eq
  -- What comes after the rejected match comes from where the next match is looked for on.
  have hafter {x : ℕ ×ₗ ℕ} (hlt : toLex (found.span.start, found.index) < x)
      (hindex : (ofLex x).2 < (scan.top s).rules.size) : (scan.step s).frontier ≤ x := by
    rcases honward.next with ⟨-, hcursor, hresume⟩ | ⟨hsize, hcursor, hresume⟩
    · rw [State.frontier, hcursor, hresume]
      exact Prod.Lex.le_iff.2 ((Prod.Lex.lt_iff.1 hlt).imp_right fun h => ⟨h.1, h.2⟩)
    · rw [State.frontier, hcursor, hresume]
      rcases Prod.Lex.lt_iff.1 hlt with hlt | ⟨-, hlt⟩
      · rcases (Nat.succ_le_of_lt hlt).lt_or_eq with hlt | heq
        · exact Prod.Lex.le_iff.2 (.inl hlt)
        · exact Prod.Lex.le_iff.2 (.inr ⟨heq, Nat.zero_le _⟩)
      · have hlt : found.index < (ofLex x).2 := hlt
        omega
  have hbefore : toLex (found.span.start, found.index) < (scan.step s).frontier := by
    rcases honward.next with ⟨-, hcursor, hresume⟩ | ⟨-, hcursor, hresume⟩
    · rw [State.frontier, hcursor, hresume]
      exact Prod.Lex.toLex_lt_toLex.2 (.inr ⟨rfl, Nat.lt_succ_self _⟩)
    · rw [State.frontier, hcursor, hresume]
      exact Prod.Lex.toLex_lt_toLex.2 (.inl (Nat.lt_succ_self _))
  ext x
  simp only [remaining, htop, Set.mem_ofPred_eq]
  constructor
  · rintro ⟨hx, hle, hnot⟩
    have hlt := hbefore.trans_le hle
    refine ⟨hx, (frontier_le_of_found? hbuild hreach hrules hfound).trans hlt.le, ?_⟩
    rintro ⟨m, hm, hmisses⟩
    cases m with
    | zero =>
      have hless := hmisses.lt_of_find hrules (Grammar.compiledFor_of_build hbuild _).rules
        (fun _ hk => (resume_of_reachable hreach hk).1) hfound
      exact absurd hless (lt_asymm hlt)
    | succ m => exact hnot ⟨m, Nat.lt_of_succ_lt_succ hm, hmisses⟩
  · rintro ⟨hx, hle, hnot⟩
    have hlt := lt_of_mem_remaining hbuild hreach hrules hfound hrejected ⟨hx, hle, hnot⟩
    obtain ⟨p, hp, -⟩ := hx.1
    refine ⟨hx, hafter hlt ((List.getElem?_eq_some_iff.1 hp).1.trans_eq hrules.length_eq.symm), ?_⟩
    rintro ⟨m, hm, hmisses⟩
    exact hnot ⟨m + 1, Nat.succ_lt_succ hm, hmisses⟩

end

/-! ## Main statement -/

/-- What rejections lead to: `count` of them leave a state that handles the least candidate that
remains, or that closes the scan since none does, or that has stood still for too long. -/
inductive Leads (scan : Scan) (ps : List Pattern) (s s' : State) (count : Nat) : Prop
  | handles {found : Rule.Found} : scan.Handles (scan.step^[count] s') found →
      FoundAlone (scan.top s).rules.clauses.toList ps scan.text found →
      IsLeast (scan.remaining ps s' (count + 1)) (toLex (found.span.start, found.index)) →
      Leads scan ps s s' count
  | closes : scan.Closes s (scan.step^[count] s') → scan.remaining ps s' (count + 1) = ∅ →
      Leads scan ps s s' count
  | stalls : scan.Stalls (scan.step^[count] s') → Leads scan ps s s' count

/-- What is left of the ways to reject a match: the positions to come, and the later rules. -/
def rejectionsLeft (scan : Scan) (s : State) : Nat :=
  (scan.text.size + 1 - s.cursor) * ((scan.top s).rules.size + 1) +
    ((scan.top s).rules.size - s.resume.getD 0)

theorem rejectionsLeft_step (hle : s.frontier ≤ toLex (found.span.start, found.index))
    (hpos : found.span.start ≤ scan.text.size) (honward : Onward scan s found (scan.step s)) :
    scan.rejectionsLeft (scan.step s) < scan.rejectionsLeft s := by
  have htop : scan.top (scan.step s) = scan.top s := honward.waits.top_eq
  unfold rejectionsLeft
  rw [htop]
  have hmoved (cursor : Nat) (hlt : s.cursor < cursor) (hcursor : cursor ≤ scan.text.size + 1)
      (k : Nat) : (scan.text.size + 1 - cursor) * ((scan.top s).rules.size + 1) +
        ((scan.top s).rules.size - k) <
      (scan.text.size + 1 - s.cursor) * ((scan.top s).rules.size + 1) +
        ((scan.top s).rules.size - s.resume.getD 0) :=
    (mul_add_lt_mul (by omega) (Nat.sub_le _ _)).trans_le (Nat.le_add_right _ _)
  have hcursor : s.cursor ≤ found.span.start := Prod.Lex.monotone_fst _ _ hle
  rcases honward.next with ⟨hsize, hc, hr⟩ | ⟨-, hc, hr⟩
  · rw [hc, hr]
    rcases Prod.Lex.le_iff.1 hle with hlt | ⟨heq, hindex⟩
    · exact hmoved found.span.start hlt (by omega) _
    · have heq : s.cursor = found.span.start := heq
      have hindex : s.resume.getD 0 ≤ found.index := hindex
      rw [heq, Option.getD_some]
      omega
  · rw [hc, hr]
    exact hmoved _ (by omega) (by omega) _

/-- Steps that reject lead on, from any state that waits. -/
theorem leads_of_waits {draft : Grammar.Draft} (hbuild : draft.build = .ok scan.grammar)
    {ps : List Pattern} (hrules : List.Forall₂
      (fun clause p => SelfContained draft.ignoreCase clause.part p)
      (scan.top s).rules.clauses.toList ps)
    (hopen : s.closed = false) (hresume : s.resume = none) (bound : Nat)
    (hreach : Reachable scan s') (hwaits : s.Waits s') (hbound : scan.rejectionsLeft s' < bound) :
    ∃ count, (∀ m < count, scan.Rejects (scan.step^[m] s')) ∧
      (∀ m ≤ count, s.Waits (scan.step^[m] s')) ∧ Leads scan ps s s' count := by
  induction bound generalizing s' with
  | zero => exact absurd hbound (Nat.not_lt_zero _)
  | succ bound ih =>
    have hrules' : List.Forall₂ (fun clause p => SelfContained draft.ignoreCase clause.part p)
        (scan.top s').rules.clauses.toList ps := by
      rw [hwaits.top_eq]
      exact hrules
    have hopen' : s'.closed = false := hwaits.closed_eq.trans hopen
    have hhere (h : Leads scan ps s s' 0) : ∃ count,
        (∀ m < count, scan.Rejects (scan.step^[m] s')) ∧
        (∀ m ≤ count, s.Waits (scan.step^[m] s')) ∧ Leads scan ps s s' count := by
      refine ⟨0, fun m hm => absurd hm (Nat.not_lt_zero _), fun m hm => ?_, h⟩
      cases Nat.le_zero.1 hm
      exact hwaits
    cases hfound : scan.found? s' with
    | none =>
      exact hhere (.closes (closes_of_none hwaits hresume hfound)
        (remaining_of_none hbuild hreach hrules' hfound))
    | some found =>
      cases hadmits : scan.admits found.rule found.span.start with
      | true =>
        obtain ⟨halone, hleast⟩ := isLeast_remaining hbuild hreach hrules' hfound hadmits
        rw [hwaits.top_eq] at halone
        exact hhere (.handles (handles_of_admits hbuild hreach hrules' hopen' hfound hadmits)
          halone hleast)
      | false =>
        rcases step_of_rejects hfound hadmits with hstalls | ⟨hsize, hend, hstep⟩ | honward
        · exact hhere (.stalls hstalls)
        · exact hhere (.closes (closes_of_rejects hwaits hresume hstep)
            (remaining_of_end hbuild hreach hrules' hfound hadmits hsize hend))
        · have hspan := Rule.RuleSet.find_within hfound
          have hless := rejectionsLeft_step (frontier_le_of_found? hbuild hreach hrules' hfound)
            (hspan.start_le.trans hspan.stop_le) honward
          obtain ⟨count, hrejects, hwait, hleads⟩ := ih (hreach.step hopen')
            (hwaits.trans honward.waits) (by omega)
          have hremain := remaining_step hbuild hreach hrules' hfound hadmits honward (count + 1)
          refine ⟨count + 1, fun m hm => ?_, fun m hm => ?_, ?_⟩
          · cases m with
            | zero => exact ⟨found, hfound, hadmits⟩
            | succ m => exact hrejects m (Nat.lt_of_succ_lt_succ hm)
          · cases m with
            | zero => exact hwaits
            | succ m => exact hwait m (Nat.le_of_succ_le_succ hm)
          · cases hleads with
            | handles hhandles halone hleast => exact .handles hhandles halone (hremain ▸ hleast)
            | closes hcloses hnone => exact .closes hcloses (hremain ▸ hnone)
            | stalls hstalls => exact .stalls hstalls

/-- **Rejected openings are skipped in the order of priority.** From a reachable state of an open
scan that does not resume, a number of steps do no more than to reject openings. Then the next step
handles the least candidate from the cursor on, with the match of its own pattern, unless it is
missed since a search is given up; or, if there is none, it closes the scan and emits the rest of
the text in the innermost mode; or the scan has stood still for too long. -/
theorem rejections_skipped {draft : Grammar.Draft} (hbuild : draft.build = .ok scan.grammar)
    (hreach : Reachable scan s) (hopen : s.closed = false) (hresume : s.resume = none)
    {ps : List Pattern} (hrules : List.Forall₂
      (fun clause p => SelfContained draft.ignoreCase clause.part p)
      (scan.top s).rules.clauses.toList ps) :
    ∃ count, (∀ m < count, scan.Rejects (scan.step^[m] s)) ∧
      (∀ m ≤ count, s.Waits (scan.step^[m] s)) ∧ Leads scan ps s s count :=
  leads_of_waits hbuild hrules hopen hresume _ hreach (.refl s) (Nat.lt_succ_self _)

/-- A mode that opens at a word, but not after a dot, and one that opens at its first letter. -/
def dotted : Grammar.Draft where
  name := "dotted"
  definitions := #[
    { scope := some "word", openingWords := some "if" },
    { scope := some "letter", opening := some "i" },
    { contains := [.mode 0, .mode 1] }]
  root := some 2

/-- A scan of the word after a dot. -/
def dottedScan (g : Grammar) : Scan where
  grammar := g
  text := #['.', 'i', 'f']

/-- The word is rejected, and the letter found in its place. -/
theorem dotted_rejections_skipped : ∃ g ps, dotted.build = .ok g ∧
    Reachable (dottedScan g) (dottedScan g).start ∧
    (dottedScan g).found? ((dottedScan g).step (dottedScan g).start) =
      some ⟨.opening 2, 1, ⟨1, 2⟩⟩ ∧
    ∃ count, (∀ m < count, (dottedScan g).Rejects ((dottedScan g).step^[m] (dottedScan g).start)) ∧
      (∀ m ≤ count, (dottedScan g).start.Waits ((dottedScan g).step^[m] (dottedScan g).start)) ∧
      Leads (dottedScan g) ps (dottedScan g).start (dottedScan g).start count := by
  obtain ⟨g, hbuild, hself, hfound⟩ := dotted.exists_built
    (fun g => ((g.mode 0).rules.clauses.toList.all (·.part.isSelfContained false) = true) ∧
      (dottedScan g).found? ((dottedScan g).step (dottedScan g).start) =
        some ⟨.opening 2, 1, ⟨1, 2⟩⟩) (by decide +kernel)
  obtain ⟨ps, hps⟩ := Rule.exists_patterns false _ hself
  exact ⟨g, ps, hbuild, .start, hfound,
    @rejections_skipped (dottedScan g) _ dotted hbuild .start rfl rfl ps hps⟩

/-! ## Candidates that are missed -/

/-- A mode that opens at letters which its pattern takes in two ways each, and one that opens at
another letter. -/
def swamped : Grammar.Draft where
  name := "swamped"
  definitions := #[
    { scope := some "x", opening := some "(?:(?=a)a|a)+b" },
    { scope := some "y", opening := some "z" },
    { contains := [.mode 0, .mode 1] }]
  root := some 2

/-- A scan of many letters and the other one. -/
def swampedScan (g : Grammar) : Scan where
  grammar := g
  text := Rule.letters 30

/-- **A candidate may be missed**: the second mode opens at the last letter, but the search for both
is given up before, and no match is ever handled. -/
theorem swamped_not_skipped : ∃ g ps, swamped.build = .ok g ∧
    List.Forall₂ (fun clause p => SelfContained false clause.part p)
      (g.mode 0).rules.clauses.toList ps ∧
    toLex (30, 1) ∈ (swampedScan g).candidates (g.mode 0).rules.clauses.toList ps ∧
    ¬∃ count found,
      (∀ m < count, (swampedScan g).Rejects ((swampedScan g).step^[m] (swampedScan g).start)) ∧
      (swampedScan g).Handles ((swampedScan g).step^[count] (swampedScan g).start) found := by
  obtain ⟨g, hbuild, hclauses, hguard⟩ := swamped.exists_built
    (fun g => (g.mode 0).rules.clauses.toList = Rule.ambiguous ∧ (g.mode 2).guard = .always)
    (by decide +kernel)
  obtain ⟨ps, hps⟩ := Rule.exists_patterns false Rule.ambiguous (by decide +kernel)
  have hmatch : ((Pattern.compile false "z").toOption.bind (·.matchAt (Rule.letters 30) 30)) =
      some 31 := by decide +kernel
  have hrules := (Grammar.compiledFor_of_build hbuild 0).rules
  have hrules : RuleSet.build false (g.mode 0).rules.clauses.toList = .ok (g.mode 0).rules := hrules
  rw [hclauses] at hrules
  have hnone : (swampedScan g).found? (swampedScan g).start = none :=
    RuleSet.search_of_givesUp (Rule.givesUp_ambiguous hrules (by decide))
  refine ⟨g, ps, hbuild, hclauses ▸ hps, ?_, ?_⟩
  · rw [hclauses]
    rcases hps with _ | ⟨_, _ | ⟨hz, _⟩⟩
    rw [hz.compiles] at hmatch
    refine ⟨⟨_, rfl, ?_⟩, _, rfl, ?_⟩
    · show (Pattern.matchAt _ (Rule.letters 30) 30).isSome = true
      rw [show Pattern.matchAt _ (Rule.letters 30) 30 = some 31 from hmatch]
      rfl
    · show (g.mode 2).guard.allows _ _ = true
      rw [hguard]
      rfl
  · rintro ⟨count, found, hrejects, hhandles⟩
    cases count with
    | zero =>
      have hfound := hhandles.found?
      rw [Function.iterate_zero_apply, hnone] at hfound
      cases hfound
    | succ count =>
      obtain ⟨other, hfound, -⟩ := hrejects 0 (Nat.succ_pos count)
      rw [Function.iterate_zero_apply, hnone] at hfound
      cases hfound

end ModeStack.Scan
