import ModeStack.Proofs.Rule.Extent
import ModeStack.Proofs.Scan.Stack

/-!
# Grammars whose scans do not stand still

The cursor of a scan stands still only where a pattern matches the empty text: a child opens or a
mode ends without taking a character, or a match is rejected. A grammar is `Graded` if every mode
has a rank that goes down with every such opening and every such end. Rejected matches come from
later and later rules. So there are bounds for the number of steps in one place
(`stalled_add_potential_le`), and where they are below `maxStalled` the guard never fires: the scan
is abandoned only at an illegal lexeme that counts (`step_closed_of_graded`).
-/

namespace ModeStack

open Rule (Clause RuleSet)

namespace Grammar

/-- Rules that are joined from patterns that stand for themselves. -/
structure Measured (ignoreCase : Bool) (rules : RuleSet) : Prop where
  built : RuleSet.build ignoreCase rules.clauses.toList = .ok rules
  selfContained : ∀ clause ∈ rules.clauses.toList, clause.part.isSelfContained ignoreCase = true

/-- Whatever such rules find takes part of the text from the position asked for on. -/
theorem Measured.searchesOnward {ignoreCase : Bool} {rules : RuleSet}
    (h : Measured ignoreCase rules) : rules.SearchesOnward := by
  intro first t pos found hfound
  have hextent := Rule.search_extent h.selfContained h.built hfound
  have hwithin := RuleSet.search_within hfound
  exact ⟨hextent.pos_le, hwithin.start_le, hwithin.stop_le⟩

/-- Rules by which a mode does not end without taking a character. -/
def Firm (ignoreCase : Bool) (rules : RuleSet) : Prop :=
  ∀ clause ∈ rules.clauses, clause.rule = .ending → 0 < clause.part.minWidth ignoreCase

/-- Modes have ranks up to `height` and at most `breadth` rules. What opens or ends without taking
a character leads to a mode of a lower rank, and what opens so does not end so. -/
structure Graded (g : Grammar) (rank : Nat → Nat) (height breadth : Nat) : Prop where
  measured : ∀ i, Measured g.ignoreCase (g.mode i).rules
  returnBegin : ∀ i, (g.mode i).flags.returnBegin = false
  returnEnd : ∀ i, (g.mode i).flags.returnEnd = false
  starts : ∀ i, (g.mode i).starts = none
  /-- A mode looks for its end before it looks for children. -/
  ending_lt : ∀ (i j k : Nat) (opening ending : Clause) (c : Nat),
    (g.mode i).rules.clauses[j]? = some opening → opening.rule = .opening c →
    (g.mode i).rules.clauses[k]? = some ending → ending.rule = .ending → k < j
  opening : ∀ i, ∀ clause ∈ (g.mode i).rules.clauses, ∀ c, clause.rule = .opening c →
    clause.part.minWidth g.ignoreCase = 0 → rank c < rank i ∧ Firm g.ignoreCase (g.mode c).rules
  ending : ∀ i, ¬ Firm g.ignoreCase (g.mode i).rules →
    (g.mode i).flags.endsWithParent = false ∧ (g.mode i).flags.endsParent = false ∧
      ∀ under, Scan.Above g under i → rank under < rank i
  rank_le : ∀ i, rank i ≤ height
  size_le : ∀ i, (g.mode i).rules.size ≤ breadth

end Grammar

namespace Scan

open ModeStack.Regex (Span)
open ModeStack.Grammar (Graded Firm)

variable {scan : Scan} {s : State}

/-! ## How a scan ends -/

/-- Acting on a match leaves the scan open, emits the rest of the text in the innermost mode, or
abandons the scan at an illegal lexeme that counts. -/
theorem act_closed (scan : Scan) (s : State) (found : Rule.Found) :
    (scan.act s found).closed = s.closed ∨ scan.act s found = scan.close s ∨
    (found.rule = .illegal ∧ scan.ignoreIllegals = false ∧
      scan.act s found = scan.abandon { s with illegal := true }) := by
  rcases act_cases scan s found with ⟨child, -, heq⟩ | ⟨child, -, -, heq⟩ | ⟨pos, -, -, heq⟩ | heq |
    hillegal | ⟨ended, below, -, -, heq⟩
  · exact .inl (by rw [heq]; exact enter_closed scan s _ _)
  · exact .inl (by rw [heq])
  · exact .inl (by rw [heq])
  · exact .inr (.inl heq)
  · exact .inr (.inr hillegal)
  · exact .inl (by rw [heq, startNext_closed]; exact leave_closed scan s _)

/-- **How a step ends a scan**: the rest of the text is emitted in the innermost mode; or an
illegal lexeme counts, and the rest is left without scopes; or the scan has stood still for too
long. -/
theorem step_closed (hopen : s.closed = false) (hclosed : (scan.step s).closed = true) :
    (∃ last stalled, scan.step s =
      { scan.close { s with resume := none, last := last } with stalled := stalled }) ∨
    (∃ found, scan.found? s = some found ∧ found.rule = .illegal ∧ scan.ignoreIllegals = false ∧
      scan.step s = { scan.abandon { s.noting found with illegal := true } with stalled := 0 }) ∨
    maxStalled < (scan.step s).stalled := by
  rcases step_cases scan s with ⟨-, heq⟩ | ⟨found, -, -, heq⟩ | ⟨found, hfound, -, heq⟩
  · exact .inl ⟨s.last, (scan.close { s with resume := none }).stalled, heq⟩
  · rcases passChar_cases scan { s with resume := none } found.span.start with ⟨-, h⟩ | ⟨-, h⟩
    · rw [heq, h] at hclosed
      rw [hopen] at hclosed
      cases hclosed
    · exact .inl ⟨s.last, _, heq.trans h⟩
  · rcases countStall_cases scan (scan.act (s.noting found) found) s.cursor with
      ⟨-, hcount⟩ | ⟨hstill, -, -, hcount⟩ | ⟨-, -, hmax, hcount⟩
    · rw [heq, hcount] at hclosed ⊢
      rcases act_closed scan (s.noting found) found with h | h | ⟨hrule, hstrict, h⟩
      · have hclosed : (scan.act (s.noting found) found).closed = true := hclosed
        rw [h] at hclosed
        exact absurd hclosed (by simp [State.noting, hopen])
      · exact .inl ⟨_, _, by rw [h]; rfl⟩
      · exact .inr (.inl ⟨found, hfound, hrule, hstrict, by rw [h]⟩)
    · rw [heq, hcount] at hclosed
      have hclosed : (scan.act (s.noting found) found).closed = true := hclosed
      rw [hstill] at hclosed
      cases hclosed
    · rw [heq, hcount]
      exact .inr (.inr (Nat.lt_succ_of_le hmax))

/-! ## Standing still in a graded grammar -/

/-- What is left of the ways to stand still: the ranks to go down, and the rules to reject. -/
def potential (rank : Nat → Nat) (breadth : Nat) (s : State) : Nat :=
  rank (s.stack.headD Grammar.root) * (breadth + 1) + (breadth - s.resume.getD 0)

/-- If the last match was an opening, it lies before the cursor, or no rule that may still be tried
there is an end that takes no character. -/
def Unhurried (scan : Scan) (s : State) : Prop :=
  ∀ pos, s.last = some ⟨true, pos⟩ → pos < s.cursor ∨ pos = s.cursor ∧
    ∀ (k : Nat) (clause : Clause), s.resume.getD 0 ≤ k →
      (scan.top s).rules.clauses[k]? = some clause → clause.rule = .ending →
        0 < clause.part.minWidth scan.grammar.ignoreCase

/-- An open scan that has stood still for no longer than it can. -/
structure Settled (scan : Scan) (rank : Nat → Nat) (height breadth : Nat) (s : State) : Prop where
  stacked : Stacked scan.grammar s.stack
  unhurried : Unhurried scan s
  stalled_lt : s.stalled + potential rank breadth s < (height + 1) * (breadth + 1)

theorem eq_of_noting_last {found : Rule.Found} {pos : Nat}
    (h : (s.noting found).last = some ⟨true, pos⟩) :
    isOpening found.rule = true ∧ pos = found.span.start :=
  have heq := Option.some.inj h
  ⟨congrArg LastMatch.opening heq, (congrArg LastMatch.pos heq).symm⟩

theorem mul_add_lt_mul {a b m n : Nat} (h : a < b) (hn : n ≤ m) : a * (m + 1) + n < b * (m + 1) := by
  have hle := Nat.mul_le_mul_right (m + 1) (Nat.succ_le_of_lt h)
  rw [Nat.succ_mul] at hle
  omega

/-- A mode that ends neither with its parent nor its parent with it ends alone. -/
theorem ending?_of_alone {g : Grammar} {t : Text} {pos index ended : Nat} {stack below : List Nat}
    (hwith : (g.mode index).flags.endsWithParent = false)
    (hparent : (g.mode index).flags.endsParent = false)
    (h : ending? g t pos (index :: stack) = some (ended, below)) :
    ended = index ∧ below = stack ∧ ∃ under rest, stack = under :: rest := by
  cases stack with
  | nil => cases h
  | cons under rest =>
    unfold ending? at h
    simp only [hwith, Bool.false_eq_true, if_false] at h
    split_ifs at h
    have hends : outermost g index (under :: rest) = (index, under :: rest) := by
      cases rest with
      | nil => rfl
      | cons => simp [outermost, hparent]
    rw [hends] at h
    cases h
    exact ⟨rfl, rfl, under, rest, rfl⟩

section Graded

variable {rank : Nat → Nat} {height breadth : Nat} {found : Rule.Found}
  (hg : Graded scan.grammar rank height breadth)

include hg

theorem potential_lt (s : State) :
    potential rank breadth s < (height + 1) * (breadth + 1) := by
  have hrank := Nat.mul_le_mul_right (breadth + 1) (hg.rank_le (s.stack.headD Grammar.root))
  rw [potential, Nat.succ_mul]
  omega

/-- What a step of a scan finds is a match of one of the rules that may be tried. -/
theorem found_extent (hfound : scan.found? s = some found) :
    Rule.Extent scan.grammar.ignoreCase (scan.top s).rules.clauses.toList 0 scan.text s.cursor
      found ∧ (found.span.start = s.cursor → s.resume.getD 0 ≤ found.index) := by
  have hmeasured := hg.measured (s.stack.headD Grammar.root)
  exact Rule.find_extent hmeasured.selfContained hmeasured.built hfound

/-- No end is suppressed. -/
theorem not_isVacuousEnd (hs : Unhurried scan s) (hfound : scan.found? s = some found) :
    isVacuousEnd s found = false := by
  obtain ⟨hextent, hresume⟩ := found_extent hg hfound
  obtain ⟨clause, hclause, hrule, hwidth⟩ := hextent.width_le
  rw [Bool.eq_false_iff]
  intro hvacuous
  simp only [isVacuousEnd, Bool.and_eq_true, decide_eq_true_eq] at hvacuous
  obtain ⟨⟨hempty, hending⟩, hlast⟩ := hvacuous
  rcases hs _ hlast with hlt | ⟨heq, hfirm⟩
  · exact absurd hextent.pos_le (not_le.2 hlt)
  · have hpos := hfirm found.index clause (hresume heq) (by simpa using hclause)
      (hrule.trans hending)
    omega

/-- **Acting on a match in a graded grammar** ends the scan, moves the cursor, or leaves fewer ways
to stand still. -/
theorem act_graded (hstacked : Stacked scan.grammar s.stack) (hfound : scan.found? s = some found) :
    (scan.act (s.noting found) found).closed = true ∨
    (Unhurried scan (scan.act (s.noting found) found) ∧
      (scan.act (s.noting found) found).stalled = s.stalled ∧
      (s.cursor < (scan.act (s.noting found) found).cursor ∨
        potential rank breadth (scan.act (s.noting found) found) < potential rank breadth s)) := by
  obtain ⟨hextent, hresume⟩ := found_extent hg hfound
  obtain ⟨clause, hclause, hrule, hwidth⟩ := hextent.width_le
  have hpos := hextent.pos_le
  have hclause : (scan.top s).rules.clauses[found.index]? = some clause := by simpa using hclause
  have hmem : clause ∈ (scan.top s).rules.clauses := Array.mem_of_getElem? hclause
  rcases act_cases scan (s.noting found) found with ⟨child, hopening, heq⟩ |
    ⟨child, hopening, hsize, heq⟩ | ⟨pos, hlt, -, heq⟩ | heq | ⟨-, -, heq⟩ |
    ⟨ended, below, hending, hends, heq⟩
  · -- A child opens; if it takes no character, it has a lower rank and does not end so.
    obtain ⟨queue, score, hflush⟩ := flush_eq scan (s.noting found)
      (enterUpto (scan.grammar.mode child).flags found.span)
    rw [heq, enter_eq, hflush, enterCursor_of_not_returnBegin (hg.returnBegin child)]
    by_cases hempty : found.span.stop ≤ found.span.start
    · obtain ⟨hrank, hfirm⟩ := hg.opening _ clause hmem child (hrule.trans hopening) (by omega)
      have hlt := mul_add_lt_mul hrank (le_refl breadth)
      refine .inr ⟨fun pos hlast => .inr ⟨?_, fun k ending _ hk hends => ?_⟩, rfl, .inr ?_⟩
      · show pos = found.span.stop
        have hstart := (eq_of_noting_last (s := s) hlast).2
        omega
      · exact hfirm ending (Array.mem_of_getElem? hk) hends
      · show rank child * (breadth + 1) + breadth < _
        exact hlt.trans_le (Nat.le_add_right _ _)
    · have hmoved : found.span.start < found.span.stop := not_le.1 hempty
      refine .inr ⟨fun pos hlast => .inl ?_, rfl, .inl (hpos.trans_lt hmoved)⟩
      show pos < found.span.stop
      exact (eq_of_noting_last (s := s) hlast).2 ▸ hmoved
  · -- The match is rejected, and the ends come before it.
    rw [heq]
    refine .inr ⟨fun pos hlast =>
      .inr ⟨(eq_of_noting_last (s := s) hlast).2, fun k ending hk hget hends => ?_⟩, rfl, ?_⟩
    · have hlt := hg.ending_lt _ _ _ clause ending child hclause (hrule.trans hopening) hget hends
      exact absurd hk (not_le.2 (Nat.lt_succ_of_lt hlt))
    · rcases Nat.eq_or_lt_of_le hpos with hsame | hlt
      · refine .inr ?_
        have hlater := hresume hsame.symm
        have hbreadth := hg.size_le (s.stack.headD Grammar.root)
        have hsize : found.index + 1 < (scan.top s).rules.size := hsize
        have hsize : found.index + 1 < breadth := hsize.trans_le hbreadth
        show rank (s.stack.headD Grammar.root) * (breadth + 1) + (breadth - (found.index + 1)) <
          rank (s.stack.headD Grammar.root) * (breadth + 1) + (breadth - s.resume.getD 0)
        omega
      · exact .inl hlt
  · rw [heq]
    refine .inr ⟨fun p hlast => .inl ?_, rfl, .inl (hpos.trans_lt hlt)⟩
    exact (eq_of_noting_last (s := s) hlast).2 ▸ hlt
  · exact .inl (by rw [heq]; rfl)
  · exact .inl (by rw [heq]; rfl)
  · -- A mode ends; if it takes no character, what lies below has a lower rank.
    obtain ⟨queue, score, hflush⟩ := flush_eq scan (s.noting found)
      (leaveUpto (scan.top (s.noting found)).flags found.span)
    have hcursor : leaveCursor (scan.top (s.noting found)).flags found.span = found.span.stop :=
      leaveCursor_of_not_returnEnd (hg.returnEnd _)
    rw [heq, startNext, hg.starts, leave_eq, hflush, hcursor]
    refine .inr ⟨fun pos hlast => ?_, rfl, ?_⟩
    · have hopens := (eq_of_noting_last (s := s) hlast).1
      rw [hending] at hopens
      cases hopens
    · by_cases hstill : found.span.stop ≤ s.cursor
      · refine .inr ?_
        have hsoft : ¬ Firm scan.grammar.ignoreCase (scan.top s).rules := fun hfirm => by
          have := hfirm clause hmem (hrule.trans hending)
          omega
        obtain ⟨hwith, hparent, hbelow⟩ := hg.ending _ hsoft
        obtain ⟨index, rest, hstack⟩ := List.exists_cons_of_ne_nil hstacked.ne_nil
        have hends : ending? scan.grammar scan.text found.span.start s.stack =
            some (ended, below) := hends
        rw [hstack] at hends hstacked
        rw [hstack, List.headD_cons] at hwith hparent hbelow
        obtain ⟨rfl, rfl, under, deeper, rfl⟩ := ending?_of_alone hwith hparent hends
        have habove : Above scan.grammar under ended :=
          (@Stacked.of_append _ [] _ _ _ hstacked).2
        have hlt := mul_add_lt_mul (hbelow under habove) (le_refl breadth)
        show rank under * (breadth + 1) + breadth < _
        rw [potential, hstack]
        exact hlt.trans_le (Nat.le_add_right _ _)
      · exact .inl (not_le.1 hstill)

variable (hlinkage : Grammar.Linkage scan.grammar)
  (hmax : (height + 1) * (breadth + 1) ≤ maxStalled)

include hlinkage hmax

/-- **A step in a graded grammar** leaves the scan settled, unless it ends it; the guard does not
fire. -/
theorem step_graded (hs : Settled scan rank height breadth s) :
    (scan.step s).stalled < (height + 1) * (breadth + 1) ∧
      ((scan.step s).closed = false → Settled scan rank height breadth (scan.step s)) := by
  have hstacked := stacked_step hlinkage hs.stacked
  have hbefore : s.stalled < (height + 1) * (breadth + 1) :=
    (Nat.le_add_right _ _).trans_lt hs.stalled_lt
  rcases step_cases scan s with ⟨-, heq⟩ | ⟨found, hfound, hvacuous, -⟩ | ⟨found, hfound, -, heq⟩
  · rw [heq]
    refine ⟨?_, fun hopen => by cases hopen⟩
    have hstalled := flush_stalled scan { s with resume := none } scan.text.size
    exact hstalled.trans_lt hbefore
  · rw [not_isVacuousEnd hg hs.unhurried hfound] at hvacuous
    cases hvacuous
  · have hstalled := hs.stalled_lt
    rcases act_graded hg hs.stacked hfound with hclosed | ⟨hunhurried, hsame, hprogress⟩
    · rcases countStall_cases scan (scan.act (s.noting found) found) s.cursor with
        ⟨-, hcount⟩ | ⟨hopen, -⟩ | ⟨hopen, -⟩
      · rw [heq, hcount]
        exact ⟨(Nat.zero_le _).trans_lt hbefore, fun hopen => by rw [hclosed] at hopen; cases hopen⟩
      · rw [hclosed] at hopen
        cases hopen
      · rw [hclosed] at hopen
        cases hopen
    · rcases countStall_cases scan (scan.act (s.noting found) found) s.cursor with
        ⟨-, hcount⟩ | ⟨-, hstill, -, hcount⟩ | ⟨-, hstill, hguard, -⟩
      · rw [heq, hcount] at hstacked ⊢
        refine ⟨(Nat.zero_le _).trans_lt hbefore, fun _ => ⟨hstacked, hunhurried, ?_⟩⟩
        rw [Nat.zero_add]
        exact potential_lt hg _
      · have hless := hprogress.resolve_left (not_lt.2 hstill)
        rw [heq, hcount] at hstacked ⊢
        have hbound : s.stalled + 1 + potential rank breadth (scan.act (s.noting found) found) <
            (height + 1) * (breadth + 1) := by omega
        rw [hsame]
        exact ⟨(Nat.le_add_right _ _).trans_lt hbound, fun _ => ⟨hstacked, hunhurried, hbound⟩⟩
      · -- The counter would have to be at its greatest, with ways to stand still left.
        have hless := hprogress.resolve_left (not_lt.2 hstill)
        omega

/-- **The counter of standing steps is bounded** along every scan with a graded grammar. -/
theorem settled_of_reachable (h : Reachable scan s) :
    s.stalled < (height + 1) * (breadth + 1) ∧
      (s.closed = false → Settled scan rank height breadth s) := by
  induction h with
  | start =>
    have hbound := potential_lt hg scan.start
    refine ⟨(Nat.zero_le _).trans_lt hbound, fun _ => ⟨stacked_root hlinkage, ?_, ?_⟩⟩
    · intro pos hlast
      cases hlast
    · rw [show scan.start.stalled = 0 from rfl, Nat.zero_add]
      exact hbound
  | step _ hopen ih => exact step_graded hg hlinkage hmax (ih.2 hopen)
  | take _ _ ih => exact ⟨ih.1, fun hopen => ⟨(ih.2 hopen).stacked, (ih.2 hopen).unhurried,
      (ih.2 hopen).stalled_lt⟩⟩

/-- **In a graded grammar a scan is abandoned only at an illegal lexeme that counts**: otherwise,
the step that ends it emits the rest of the text in the innermost mode. -/
theorem step_closed_of_graded (h : Reachable scan s) (hopen : s.closed = false)
    (hclosed : (scan.step s).closed = true) :
    (∃ found, scan.found? s = some found ∧ found.rule = .illegal ∧ scan.ignoreIllegals = false ∧
      scan.step s = { scan.abandon { s.noting found with illegal := true } with stalled := 0 }) ∨
    ∃ last stalled, scan.step s =
      { scan.close { s with resume := none, last := last } with stalled := stalled } := by
  rcases step_closed hopen hclosed with hclose | hillegal | hguard
  · exact .inr hclose
  · exact .inl hillegal
  · have hstalled := (settled_of_reachable hg hlinkage hmax (h.step hopen)).1
    exact absurd hguard (not_lt.2 (hstalled.le.trans hmax))

end Graded

end Scan

end ModeStack
