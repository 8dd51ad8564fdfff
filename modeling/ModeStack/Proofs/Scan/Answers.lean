import ModeStack.Proofs.Scan.Alike

/-!
# Scans that get the same answers

A scan looks at its grammar and its text through a few questions only: how long the text is, what
the rules of a mode find in it, whether a closing pattern matches at a position, whether a guard
allows a match, how a piece of it is cut into words, and what the flags, the scope, the successor
and the worth of a mode are. Where two scans get the same answers (`Scan.Echoes`), each function of
a scan does the same in both, up to the step (`step_echo`) and the stream of tokens (`next_echo`).
So they go through the same states and emit the same tokens (`after_echo`, `run_echo`).

A grammar that reads two texts alike (`Grammar.ReadsAlike`) is one case of this.
-/

namespace ModeStack.Scan

open ModeStack.Regex (Span)

/-- What the first scan asks of its grammar and its text has the same answers in the second. -/
structure Echoes (scan scan' : Scan) : Prop where
  ignoreIllegals_eq : scan'.ignoreIllegals = scan.ignoreIllegals
  textSize_eq : scan'.text.size = scan.text.size
  scope_eq : ∀ index, (scan'.grammar.mode index).scope = (scan.grammar.mode index).scope
  flags_eq : ∀ index, (scan'.grammar.mode index).flags = (scan.grammar.mode index).flags
  starts_eq : ∀ index, (scan'.grammar.mode index).starts = (scan.grammar.mode index).starts
  relevance_eq : ∀ index,
    (scan'.grammar.mode index).relevance = (scan.grammar.mode index).relevance
  rulesSize_eq : ∀ index,
    (scan'.grammar.mode index).rules.size = (scan.grammar.mode index).rules.size
  find_eq : ∀ index pos resume,
    (scan'.grammar.mode index).rules.find scan'.text pos resume =
      (scan.grammar.mode index).rules.find scan.text pos resume
  closes_eq : ∀ index pos,
    ((scan'.grammar.mode index).closing.any fun p => (p.matchAt scan'.text pos).isSome) =
      (scan.grammar.mode index).closing.any fun p => (p.matchAt scan.text pos).isSome
  allows_eq : ∀ index start,
    (scan'.grammar.mode index).guard.allows scan'.text start =
      (scan.grammar.mode index).guard.allows scan.text start
  split_eq : ∀ index scope span,
    ((scan'.grammar.mode index).keywords.map fun table =>
        Classifier.split ⟨table, (scan'.grammar.mode index).wordPattern, scope⟩ scan'.text span) =
      (scan.grammar.mode index).keywords.map fun table =>
        Classifier.split ⟨table, (scan.grammar.mode index).wordPattern, scope⟩ scan.text span

section

variable {scan scan' : Scan} (h : scan.Echoes scan') (s : State)

include h

/-! ## Emitting text -/

theorem scopeOf_echo (stack : List Nat) : scan'.scopeOf stack = scan.scopeOf stack := by
  simp only [scopeOf, h.scope_eq, h.flags_eq]

theorem flush_echo (upto : Nat) : scan'.flush s upto = scan.flush s upto := by
  have hsplit := h.split_eq (s.stack.headD Grammar.root) (scan.scopeOf s.stack) ⟨s.flushed, upto⟩
  unfold flush
  rw [scopeOf_echo h]
  split_ifs
  · rfl
  · unfold top
    dsimp only
    cases htable : (scan.grammar.mode (s.stack.headD Grammar.root)).keywords with
    | none =>
      rw [htable, Option.map_none, Option.map_eq_none_iff] at hsplit
      rw [hsplit]
    | some table =>
      rw [htable, Option.map_some] at hsplit
      obtain ⟨table', htable', heq⟩ := Option.map_eq_some_iff.1 hsplit
      rw [htable']
      dsimp only
      rw [heq]

theorem close_echo : scan'.close s = scan.close s := by
  unfold close
  rw [h.textSize_eq, flush_echo h]

theorem abandon_echo : scan'.abandon s = scan.abandon s := by
  unfold abandon
  rw [h.textSize_eq]

theorem passChar_echo (pos : Nat) : scan'.passChar s pos = scan.passChar s pos := by
  unfold passChar Text.next?
  rw [h.textSize_eq, close_echo h]

theorem passLexeme_echo (span : Span) : scan'.passLexeme s span = scan.passLexeme s span := by
  unfold passLexeme
  rw [passChar_echo h]

/-! ## Opening and closing modes -/

theorem reject_echo (index : Nat) (span : Span) :
    scan'.reject s index span = scan.reject s index span := by
  unfold reject top
  rw [h.rulesSize_eq, passChar_echo h]

theorem openMode_echo (child index : Nat) (span : Span) :
    scan'.openMode s child index span = scan.openMode s child index span := by
  unfold openMode enter
  dsimp only
  rw [h.allows_eq, h.flags_eq, h.relevance_eq, flush_echo h, flush_echo h, reject_echo h]

omit s in
theorem outermost_echo (mode : Nat) (below : List Nat) :
    outermost scan'.grammar mode below = outermost scan.grammar mode below := by
  induction below generalizing mode with
  | nil => rfl
  | cons parent below ih =>
    cases below with
    | nil => rfl
    | cons grandparent below =>
      unfold outermost
      rw [h.flags_eq, ih]

omit s in
theorem ending?_echo (pos : Nat) (stack : List Nat) :
    ending? scan'.grammar scan'.text pos stack = ending? scan.grammar scan.text pos stack := by
  induction stack with
  | nil => rfl
  | cons index stack ih =>
    cases stack with
    | nil => rfl
    | cons parent below =>
      unfold ending?
      dsimp only
      rw [h.closes_eq, h.flags_eq, outermost_echo h, ih]

theorem leave_echo (span : Span) : scan'.leave s span = scan.leave s span := by
  unfold leave top
  rw [h.flags_eq, flush_echo h, flush_echo h]

theorem startNext_echo (ended : Nat) : scan'.startNext s ended = scan.startNext s ended := by
  unfold startNext
  rw [h.starts_eq]
  simp only [h.flags_eq, h.relevance_eq]

theorem closeModes_echo (span : Span) : scan'.closeModes s span = scan.closeModes s span := by
  unfold closeModes
  rw [ending?_echo h, leave_echo h, passLexeme_echo h]
  simp only [startNext_echo h]

/-! ## Steps -/

theorem illegalLexeme_echo (span : Span) :
    scan'.illegalLexeme s span = scan.illegalLexeme s span := by
  unfold illegalLexeme
  rw [h.ignoreIllegals_eq, passLexeme_echo h, abandon_echo h]

theorem act_echo (found : Rule.Found) : scan'.act s found = scan.act s found := by
  unfold act
  cases found.rule with
  | opening child => exact openMode_echo h s child found.index found.span
  | illegal => exact illegalLexeme_echo h s found.span
  | ending => exact closeModes_echo h s found.span

theorem countStall_echo (before : Nat) : scan'.countStall s before = scan.countStall s before := by
  unfold countStall
  dsimp only
  rw [abandon_echo h]

/-- **A step does the same** in scans that get the same answers. -/
theorem step_echo : scan'.step s = scan.step s := by
  unfold step top
  dsimp only
  rw [h.find_eq]
  cases (scan.grammar.mode (s.stack.headD Grammar.root)).rules.find scan.text s.cursor s.resume with
  | none => exact close_echo h _
  | some found =>
    dsimp only
    rw [passChar_echo h, act_echo h, countStall_echo h]

/-! ## The stream of tokens -/

theorem advance_echo (rounds : Nat) : scan'.advance rounds s = scan.advance rounds s := by
  induction rounds generalizing s with
  | zero => rfl
  | succ rounds ih =>
    unfold advance
    rw [step_echo h, ih]

/-- **Taking a token gives the same token and the same state.** -/
theorem next_echo : scan'.next s = scan.next s := by
  have hsteps : scan'.maxSteps s = scan.maxSteps s := by
    unfold maxSteps
    rw [h.textSize_eq]
  exact next_congr (by rw [hsteps, advance_echo h])

theorem take_echo (count : Nat) : scan'.take count s = scan.take count s := by
  induction count generalizing s with
  | zero => rfl
  | succ count ih =>
    rcases hnext : scan.next s with ⟨_ | token, s'⟩
    · rw [take_of_none hnext, take_of_none ((next_echo h s).trans hnext)]
    · rw [take_of_some hnext, take_of_some ((next_echo h s).trans hnext), ih]

omit s

theorem after_echo (calls : Nat) : scan'.after calls = scan.after calls := by
  have hnext : (fun s => (scan'.next s).2) = fun s => (scan.next s).2 := by
    funext s
    rw [next_echo h]
  unfold after
  rw [hnext]
  rfl

theorem token?_echo (calls : Nat) : scan'.token? calls = scan.token? calls := by
  rw [token?, token?, after_echo h, next_echo h]

theorem run_echo : scan'.run = scan.run := by
  have hrest : scan'.rest scan'.start = scan.rest scan.start := by
    rw [rest, rest, h.textSize_eq]
    exact take_echo h scan.start _
  rw [run_eq (hrest.trans Prod.mk.eta.symm), run_eq Prod.mk.eta.symm]

end

end ModeStack.Scan

/-! ## Texts that a grammar reads alike -/

namespace ModeStack

/-- What a scan with the grammar asks of the texts has the same answers. -/
structure Grammar.ReadsAlike (g : Grammar) (t t' : Text) : Prop where
  size_eq : t'.size = t.size
  find_eq : ∀ index pos resume,
    (g.mode index).rules.find t' pos resume = (g.mode index).rules.find t pos resume
  matchAt_eq : ∀ index, ∀ p ∈ (g.mode index).closing, ∀ pos, p.matchAt t' pos = p.matchAt t pos
  allows_eq : ∀ (guard : Grammar.Guard) (start : Nat), guard.allows t' start = guard.allows t start
  split_eq : ∀ index, ∀ table ∈ (g.mode index).keywords, ∀ scope span,
    Scan.Classifier.split ⟨table, (g.mode index).wordPattern, scope⟩ t' span =
      Scan.Classifier.split ⟨table, (g.mode index).wordPattern, scope⟩ t span

namespace Scan

section

variable {g : Grammar} {t t' : Text} {ignoreIllegals : Bool} (h : g.ReadsAlike t t')

include h

theorem echoes_of_readsAlike : Echoes ⟨g, t, ignoreIllegals⟩ ⟨g, t', ignoreIllegals⟩ where
  ignoreIllegals_eq := rfl
  textSize_eq := h.size_eq
  scope_eq _ := rfl
  flags_eq _ := rfl
  starts_eq _ := rfl
  relevance_eq _ := rfl
  rulesSize_eq _ := rfl
  find_eq := h.find_eq
  closes_eq index pos := by
    dsimp only
    cases hclosing : (g.mode index).closing with
    | none => rfl
    | some p => rw [Option.any_some, Option.any_some, h.matchAt_eq index p hclosing]
  allows_eq _ := h.allows_eq _
  split_eq index scope span := by
    dsimp only
    exact Option.map_congr fun table htable => h.split_eq index table htable scope span

theorem after_readsAlike (calls : Nat) :
    after ⟨g, t', ignoreIllegals⟩ calls = after ⟨g, t, ignoreIllegals⟩ calls :=
  after_echo (echoes_of_readsAlike h) calls

theorem token?_readsAlike (calls : Nat) :
    token? ⟨g, t', ignoreIllegals⟩ calls = token? ⟨g, t, ignoreIllegals⟩ calls :=
  token?_echo (echoes_of_readsAlike h) calls

theorem run_readsAlike : run ⟨g, t', ignoreIllegals⟩ = run ⟨g, t, ignoreIllegals⟩ :=
  run_echo (echoes_of_readsAlike h)

end

end Scan

end ModeStack
