import ModeStack.Proofs.Scan.Stream

/-!
# Scans with alike grammars

Two compiled modes are alike if they differ in the place of their definition at most, or, up to
scores, also in what they and their keywords are worth. Scans of one text with alike grammars go
through alike states: the same stack, cursor and queue, and, unless only up to scores, the same
score. A step keeps this (`step_alike`), and so does taking a token (`next_alike`), which gives the
same token on both sides. So after any number of tokens the two scans look the same from outside
(`Grammar.Alike.looksAlike`).

Everything is stated for both readings at once: with `scored` the scores are compared too.
-/

namespace ModeStack

/-! ## Keyword tables without weights -/

namespace Keyword

/-- An entry that is worth nothing. -/
def Entry.unweighted (entry : Entry) : Entry := { entry with weight := 0 }

/-- Entries that are worth nothing. -/
def Entries.unweighted (entries : Entries) : Entries :=
  entries.map fun (word, entry) => (word, entry.unweighted)

/-- The words and classes of a table, worth nothing. -/
def Table.unweighted (table : Table) : Table :=
  { table with entries := Entries.unweighted table.entries }

theorem Entries.lookup_unweighted (entries : Entries) (word : String) :
    (Entries.unweighted entries).lookup word = (entries.lookup word).map Entry.unweighted := by
  induction entries with
  | nil => rfl
  | cons entry entries ih =>
    obtain ⟨w, e⟩ := entry
    simp only [unweighted, List.map_cons, List.lookup_cons]
    cases word == w
    · exact ih
    · rfl

theorem Entries.unweighted_insert (entries : Entries) (word : String) (entry : Entry) :
    Entries.unweighted (entries.insert word entry) =
      (Entries.unweighted entries).insert word entry.unweighted := by
  induction entries with
  | nil => rfl
  | cons first entries ih =>
    obtain ⟨w, e⟩ := first
    unfold unweighted at ih ⊢
    simp only [List.map_cons, insert]
    split_ifs
    · rfl
    · rw [List.map_cons, ih]

namespace Table

variable (table : Table)

/-- Folding compares words only. -/
theorem folded_unweighted : table.unweighted.folded = table.folded.unweighted := by
  have hfold (entries done : Entries) :
      (Entries.unweighted entries).foldl
          (fun es (word, entry) => es.insert (Text.lowercase word) entry)
          (Entries.unweighted done) =
        Entries.unweighted (entries.foldl
          (fun es (word, entry) => es.insert (Text.lowercase word) entry) done) := by
    induction entries generalizing done with
    | nil => rfl
    | cons entry entries ih =>
      rw [List.foldl_cons, ← ih, Entries.unweighted_insert]
      rfl
  have hentries := hfold table.entries []
  simp only [folded, unweighted]
  exact congrArg (Table.mk · table.classes true) hentries

theorem forGrammar_unweighted (ignoreCase : Bool) :
    table.unweighted.forGrammar ignoreCase = (table.forGrammar ignoreCase).unweighted := by
  unfold forGrammar
  rw [folded_unweighted]
  split_ifs <;> first | rfl | contradiction

theorem classify_unweighted (word : String) :
    table.unweighted.classify word =
      (table.classify word).map fun found => { found with weight := 0 } := by
  simp only [classify, unweighted, Entries.lookup_unweighted, Option.map_map]
  rfl

end Table

end Keyword

namespace Scan.Classifier

/-- The same classifier, with words that are worth nothing. -/
def unweighted (c : Classifier) : Classifier := { c with table := c.table.unweighted }

/-- Weights do not decide how a piece of text is cut. -/
theorem splitFrom_unweighted (c : Classifier) (piece : Text) (base rounds plain pos : Nat) :
    (c.unweighted.splitFrom piece base rounds plain pos).tokens =
      (c.splitFrom piece base rounds plain pos).tokens := by
  induction rounds generalizing plain pos with
  | zero => rfl
  | succ rounds ih =>
    simp only [splitFrom]
    have hpattern : c.unweighted.pattern = c.pattern := rfl
    have hscope : c.unweighted.scope = c.scope := rfl
    have htable : c.unweighted.table = c.table.unweighted := rfl
    rw [hpattern, hscope, htable]
    cases hfind : c.pattern.find piece pos with
    | none => rfl
    | some span =>
      dsimp only
      split_ifs with hempty
      · cases piece.next? span.start with
        | none => rfl
        | some next => exact ih plain next
      · rw [Keyword.Table.classify_unweighted]
        cases hclass : c.table.classify (piece.between span.start span.stop) with
        | none => exact ih plain span.stop
        | some found =>
          have hhidden : Keyword.Classification.isHidden { found with weight := 0 } =
              found.isHidden := rfl
          simp only [Option.map_some, hhidden]
          split_ifs
          · exact ih plain span.stop
          · rw [ih]

/-- Tables with the same words and classes cut a text in the same way. -/
theorem split_tokens_eq {table table' : Keyword.Table}
    (h : table'.unweighted = table.unweighted) (pattern : Pattern) (scope : Option String)
    (t : Text) (span : Regex.Span) :
    (Classifier.split ⟨table', pattern, scope⟩ t span).tokens =
      (Classifier.split ⟨table, pattern, scope⟩ t span).tokens := by
  have hforget (table : Keyword.Table) :
      (Classifier.split ⟨table.unweighted, pattern, scope⟩ t span).tokens =
        (Classifier.split ⟨table, pattern, scope⟩ t span).tokens :=
    splitFrom_unweighted ⟨table, pattern, scope⟩ _ _ _ _ _
  rw [← hforget table', h, hforget]

end Scan.Classifier

/-! ## Alike modes -/

/-- The modes do the same. With `scored` they are worth the same too. -/
structure Grammar.Mode.Alike (scored : Bool) (mode mode' : Grammar.Mode) : Prop where
  scope_eq : mode'.scope = mode.scope
  closing_eq : mode'.closing = mode.closing
  guard_eq : mode'.guard = mode.guard
  words_eq : mode'.keywords.map (·.unweighted) = mode.keywords.map (·.unweighted)
  wordPattern_eq : mode'.wordPattern = mode.wordPattern
  flags_eq : mode'.flags = mode.flags
  starts_eq : mode'.starts = mode.starts
  rules_eq : mode'.rules = mode.rules
  worth_eq : scored = true → mode'.keywords = mode.keywords ∧ mode'.relevance = mode.relevance

/-- The grammars have as many modes, alike at every index. -/
structure Grammar.Alike (scored : Bool) (g g' : Grammar) : Prop where
  modeCount_eq : g'.modeCount = g.modeCount
  mode : ∀ index, (g.mode index).Alike scored (g'.mode index)

theorem Grammar.Mode.Alike.refl (scored : Bool) (mode : Grammar.Mode) : mode.Alike scored mode :=
  ⟨rfl, rfl, rfl, rfl, rfl, rfl, rfl, rfl, fun _ => ⟨rfl, rfl⟩⟩

namespace Scan

open ModeStack.Regex (Span)

/-! ## Alike states -/

/-- The states differ in their score at most, and with `scored` not at all. -/
def State.Alike (scored : Bool) (s s' : State) : Prop :=
  ∃ score, (scored = true → score = s.score) ∧ s' = { s with score := score }

/-- The scans are of the same text, with alike grammars. -/
structure Alike (scored : Bool) (scan scan' : Scan) : Prop where
  text_eq : scan'.text = scan.text
  ignoreIllegals_eq : scan'.ignoreIllegals = scan.ignoreIllegals
  mode : ∀ index, (scan.grammar.mode index).Alike scored (scan'.grammar.mode index)

theorem State.Alike.refl (scored : Bool) (s : State) : s.Alike scored s := ⟨_, fun _ => rfl, rfl⟩

section

variable {scored : Bool} {scan scan' : Scan} {s s' : State}

namespace State.Alike

variable (hs : s.Alike scored s')

include hs

theorem stack_eq : s'.stack = s.stack := by
  obtain ⟨_, _, rfl⟩ := hs
  rfl

theorem queue_eq : s'.queue = s.queue := by
  obtain ⟨_, _, rfl⟩ := hs
  rfl

theorem withQueue (queue : List Token) :
    { s with queue := queue }.Alike scored { s' with queue := queue } := by
  obtain ⟨score, hscore, rfl⟩ := hs
  exact ⟨score, hscore, rfl⟩

theorem depth_eq : s'.depth = s.depth := congrArg List.length hs.stack_eq

theorem illegal_eq : s'.illegal = s.illegal := by
  obtain ⟨_, _, rfl⟩ := hs
  rfl

theorem report_eq (hscored : scored = true) : s'.report = s.report := by
  obtain ⟨score, hscore, rfl⟩ := hs
  cases hscore hscored
  rfl

end State.Alike

section

variable (h : Alike scored scan scan') (hs : s.Alike scored s')

include h

theorem top_alike (hs : s.Alike scored s') : (scan.top s).Alike scored (scan'.top s') := by
  unfold top
  rw [hs.stack_eq]
  exact h.mode _

theorem scopeOf_alike (stack : List Nat) : scan'.scopeOf stack = scan.scopeOf stack := by
  have hscope (index : Nat) := (h.mode index).scope_eq
  have hflags (index : Nat) := (h.mode index).flags_eq
  simp only [scopeOf, hscope, hflags]

include hs

/-- Both scans emit the same tokens. -/
theorem flush_alike (upto : Nat) : (scan.flush s upto).Alike scored (scan'.flush s' upto) := by
  have htop := top_alike h hs
  obtain ⟨score, hscore, rfl⟩ := hs
  unfold flush
  dsimp only
  split_ifs
  · exact ⟨score, hscore, rfl⟩
  · rw [scopeOf_alike h, h.text_eq, htop.wordPattern_eq]
    have hwords := htop.words_eq
    cases htable : (scan.top s).keywords with
    | none =>
      have hnone : (scan'.top { s with score := score }).keywords = none := by
        simpa [htable] using hwords
      rw [hnone]
      exact ⟨score, hscore, rfl⟩
    | some table =>
      rw [htable] at hwords
      obtain ⟨table', htable', heq⟩ := Option.map_eq_some_iff.1 hwords
      rw [htable']
      dsimp only
      rw [Classifier.split_tokens_eq heq]
      refine ⟨_, fun hscored => ?_, rfl⟩
      have hsame : table' = table := by
        have hkeywords := (htop.worth_eq hscored).1
        rw [htable, htable'] at hkeywords
        exact Option.some.inj hkeywords
      rw [hsame, hscore hscored]

theorem close_alike : (scan.close s).Alike scored (scan'.close s') := by
  obtain ⟨score, hscore, heq⟩ := flush_alike h hs scan.text.size
  unfold close
  rw [h.text_eq, heq]
  exact ⟨score, hscore, rfl⟩

theorem abandon_alike : (scan.abandon s).Alike scored (scan'.abandon s') := by
  obtain ⟨score, hscore, rfl⟩ := hs
  unfold abandon
  rw [h.text_eq]
  exact ⟨score, hscore, rfl⟩

theorem passChar_alike (pos : Nat) :
    (scan.passChar s pos).Alike scored (scan'.passChar s' pos) := by
  unfold passChar
  rw [h.text_eq]
  cases scan.text.next? pos with
  | none => exact close_alike h hs
  | some next =>
    obtain ⟨score, hscore, rfl⟩ := hs
    exact ⟨score, hscore, rfl⟩

theorem passLexeme_alike (span : Span) :
    (scan.passLexeme s span).Alike scored (scan'.passLexeme s' span) := by
  unfold passLexeme
  split_ifs
  · exact passChar_alike h hs _
  · obtain ⟨score, hscore, rfl⟩ := hs
    exact ⟨score, hscore, rfl⟩

/-! ## Alike steps -/

theorem reject_alike (index : Nat) (span : Span) :
    (scan.reject s index span).Alike scored (scan'.reject s' index span) := by
  unfold reject
  rw [(top_alike h hs).rules_eq]
  split_ifs
  · exact passChar_alike h hs _
  · obtain ⟨score, hscore, rfl⟩ := hs
    exact ⟨score, hscore, rfl⟩

theorem enter_alike {mode mode' : Grammar.Mode} (hmode : mode.Alike scored mode') (span : Span) :
    (scan.enter s mode span).Alike scored (scan'.enter s' mode' span) := by
  have hworth (score score' : Keyword.Score) (hscore : scored = true → score' = score)
      (hscored : scored = true) :
      score'.addMode mode'.relevance = score.addMode mode.relevance := by
    rw [hscore hscored, (hmode.worth_eq hscored).2]
  obtain ⟨score, hscore, heq⟩ := flush_alike h hs (enterUpto mode.flags span)
  rw [enter_eq, enter_eq, hmode.flags_eq, heq]
  refine ⟨_, fun hscored => ?_, rfl⟩
  dsimp only
  split_ifs
  · obtain ⟨score, hscore, rfl⟩ := hs
    exact hscore hscored
  · exact hworth _ _ hscore hscored

theorem openMode_alike (child index : Nat) (span : Span) :
    (scan.openMode s child index span).Alike scored (scan'.openMode s' child index span) := by
  unfold openMode
  dsimp only
  rw [(h.mode child).guard_eq, h.text_eq]
  split_ifs
  · obtain ⟨score, hscore, heq⟩ := enter_alike h hs (h.mode child) span
    rw [heq]
    exact ⟨score, hscore, rfl⟩
  · exact reject_alike h hs index span

omit hs in
theorem outermost_alike (mode : Nat) (below : List Nat) :
    outermost scan'.grammar mode below = outermost scan.grammar mode below := by
  induction below generalizing mode with
  | nil => rfl
  | cons parent below ih =>
    cases below with
    | nil => rfl
    | cons grandparent below =>
      unfold outermost
      rw [(h.mode mode).flags_eq, ih]

omit hs in
theorem ending?_alike (t : Text) (pos : Nat) (stack : List Nat) :
    ending? scan'.grammar t pos stack = ending? scan.grammar t pos stack := by
  induction stack with
  | nil => rfl
  | cons index stack ih =>
    cases stack with
    | nil => rfl
    | cons parent below =>
      unfold ending?
      dsimp only
      rw [(h.mode index).closing_eq, (h.mode index).flags_eq, outermost_alike h, ih]

theorem leave_alike (span : Span) :
    (scan.leave s span).Alike scored (scan'.leave s' span) := by
  obtain ⟨score, hscore, heq⟩ := flush_alike h hs (leaveUpto (scan.top s).flags span)
  rw [leave_eq, leave_eq, (top_alike h hs).flags_eq, heq]
  exact ⟨score, hscore, rfl⟩

theorem startNext_alike (ended : Nat) :
    (scan.startNext s ended).Alike scored (scan'.startNext s' ended) := by
  unfold startNext
  rw [(h.mode ended).starts_eq]
  cases (scan.grammar.mode ended).starts with
  | none => exact hs
  | some next =>
    obtain ⟨score, hscore, rfl⟩ := hs
    dsimp only
    rw [(h.mode next).flags_eq]
    refine ⟨_, fun hscored => ?_, rfl⟩
    rw [hscore hscored, ((h.mode next).worth_eq hscored).2]

theorem closeModes_alike (span : Span) :
    (scan.closeModes s span).Alike scored (scan'.closeModes s' span) := by
  unfold closeModes
  rw [ending?_alike h, h.text_eq, hs.stack_eq]
  cases ending? scan.grammar scan.text span.start s.stack with
  | none => exact passLexeme_alike h hs span
  | some outer =>
    obtain ⟨score, hscore, heq⟩ := leave_alike h hs span
    refine startNext_alike h ?_ outer.1
    rw [heq]
    exact ⟨score, hscore, rfl⟩

theorem illegalLexeme_alike (span : Span) :
    (scan.illegalLexeme s span).Alike scored (scan'.illegalLexeme s' span) := by
  unfold illegalLexeme
  rw [h.ignoreIllegals_eq]
  split_ifs
  · exact passLexeme_alike h hs span
  · refine abandon_alike h ?_
    obtain ⟨score, hscore, rfl⟩ := hs
    exact ⟨score, hscore, rfl⟩

theorem act_alike (found : Rule.Found) :
    (scan.act s found).Alike scored (scan'.act s' found) := by
  unfold act
  cases found.rule with
  | opening child => exact openMode_alike h hs child _ _
  | illegal => exact illegalLexeme_alike h hs _
  | ending => exact closeModes_alike h hs _

theorem countStall_alike (before : Nat) :
    (scan.countStall s before).Alike scored (scan'.countStall s' before) := by
  obtain ⟨score, hscore, rfl⟩ := hs
  have hcounted : State.Alike scored { s with stalled := s.stalled + 1 }
      { s with score := score, stalled := s.stalled + 1 } := ⟨score, hscore, rfl⟩
  unfold countStall
  dsimp only
  split_ifs
  · exact abandon_alike h hcounted
  · exact hcounted
  · exact ⟨score, hscore, rfl⟩

/-- Both scans find the same match. -/
theorem found?_alike : scan'.found? s' = scan.found? s := by
  have hrules := (top_alike h hs).rules_eq
  obtain ⟨score, -, rfl⟩ := hs
  unfold found?
  rw [hrules, h.text_eq]

/-- **A step keeps states alike.** -/
theorem step_alike : (scan.step s).Alike scored (scan'.step s') := by
  have hfound := found?_alike h hs
  obtain ⟨score, hscore, rfl⟩ := hs
  have hcleared : State.Alike scored { s with resume := none }
      { s with score := score, resume := none } := ⟨score, hscore, rfl⟩
  rcases step_cases scan s with ⟨hnone, heq⟩ | ⟨found, hsome, hv, heq⟩ | ⟨found, hsome, hv, heq⟩
  · rw [heq, step_of_none (hfound.trans hnone)]
    exact close_alike h hcleared
  · rw [heq, step_of_vacuous (hfound.trans hsome) hv]
    exact passChar_alike h hcleared _
  · rw [heq, step_of_found (hfound.trans hsome) hv]
    have hnoting : (s.noting found).Alike scored (State.noting { s with score := score } found) :=
      ⟨score, hscore, rfl⟩
    exact countStall_alike h (act_alike h hnoting found) _

/-! ## Alike streams -/

theorem advance_alike (rounds : Nat) :
    (scan.advance rounds s).Alike scored (scan'.advance rounds s') := by
  induction rounds generalizing s s' with
  | zero => exact hs
  | succ rounds ih =>
    have hstep := step_alike h hs
    obtain ⟨score, hscore, rfl⟩ := hs
    unfold advance
    dsimp only
    split_ifs
    · exact ih hstep
    · exact ⟨score, hscore, rfl⟩

/-- **Taking a token gives the same token** and keeps states alike. -/
theorem next_alike : (scan'.next s').1 = (scan.next s).1 ∧
    (scan.next s).2.Alike scored (scan'.next s').2 := by
  have hsteps : scan'.maxSteps s' = scan.maxSteps s := by
    obtain ⟨score, -, rfl⟩ := hs
    simp only [maxSteps, h.text_eq]
  have hready := advance_alike h hs (scan.maxSteps s)
  have hqueue : (scan'.advance (scan'.maxSteps s') s').queue =
      (scan.advance (scan.maxSteps s) s).queue := by
    rw [hsteps, hready.queue_eq]
  cases hq : (scan.advance (scan.maxSteps s) s).queue with
  | nil =>
    rw [next_of_nothing hq, next_of_nothing (hqueue.trans hq), hsteps]
    exact ⟨rfl, hready⟩
  | cons token queue =>
    rw [next_of_queued hq, next_of_queued (hqueue.trans hq), hsteps]
    exact ⟨rfl, hready.withQueue queue⟩

end

/-- The state after a number of calls for the next token. -/
def after (scan : Scan) (calls : Nat) : State := (fun s => (scan.next s).2)^[calls] scan.start

/-- The token that the call after the first `calls` gives. -/
def token? (scan : Scan) (calls : Nat) : Option Token := (scan.next (scan.after calls)).1

theorem after_alike (h : Alike scored scan scan') (calls : Nat) :
    (scan.after calls).Alike scored (scan'.after calls) := by
  induction calls with
  | zero => exact .refl scored scan.start
  | succ calls ih =>
    unfold after at ih ⊢
    rw [Function.iterate_succ_apply', Function.iterate_succ_apply']
    exact (next_alike h ih).2

theorem token?_alike (h : Alike scored scan scan') (calls : Nat) :
    scan'.token? calls = scan.token? calls := by
  rw [token?, token?, (next_alike h (after_alike h calls)).1]

end

end Scan

/-! ## What is seen of a grammar -/

namespace Grammar

open Scan (Report)

/-- Whatever text is scanned with the grammars, with whatever options: every call for the next
token gives the same one, and leaves as many modes open and reports in the given relation. -/
def LooksAlike (reports : Report → Report → Prop) (g g' : Grammar) : Prop :=
  ∀ (t : Text) (ignoreIllegals : Bool) (calls : Nat),
    let scan : Scan := ⟨g, t, ignoreIllegals⟩
    let scan' : Scan := ⟨g', t, ignoreIllegals⟩
    scan'.token? calls = scan.token? calls ∧
    (scan'.after calls).depth = (scan.after calls).depth ∧
    reports (scan.after calls).report (scan'.after calls).report

/-- The grammars have as many modes, and scans with them cannot be told apart. -/
def Indistinguishable (g g' : Grammar) : Prop :=
  g'.modeCount = g.modeCount ∧ LooksAlike (fun report report' => report' = report) g g'

variable {g g' : Grammar}

theorem Alike.scan {scored : Bool} (h : g.Alike scored g') (t : Text) (ignoreIllegals : Bool) :
    Scan.Alike scored ⟨g, t, ignoreIllegals⟩ ⟨g', t, ignoreIllegals⟩ := ⟨rfl, rfl, h.mode⟩

/-- **Alike grammars look alike**, up to scores the relevance of the reports apart. -/
theorem Alike.looksAlike {scored : Bool} (h : g.Alike scored g') :
    LooksAlike (fun report report' => report'.illegal = report.illegal ∧
      (scored = true → report' = report)) g g' := by
  intro t ignoreIllegals calls
  have hafter := Scan.after_alike (h.scan t ignoreIllegals) calls
  exact ⟨Scan.token?_alike (h.scan t ignoreIllegals) calls, hafter.depth_eq,
    hafter.illegal_eq, hafter.report_eq⟩

theorem Alike.indistinguishable (h : g.Alike true g') : Indistinguishable g g' := by
  refine ⟨h.modeCount_eq, fun t ignoreIllegals calls => ?_⟩
  obtain ⟨htoken, hdepth, -, hreport⟩ := h.looksAlike t ignoreIllegals calls
  exact ⟨htoken, hdepth, hreport rfl⟩

end Grammar

end ModeStack
