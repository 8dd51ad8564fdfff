import ModeStack.Proofs.Grammar.Patterns
import ModeStack.Proofs.Rule.Folded
import ModeStack.Proofs.Scan.Answers

/-!
# Grammars that ignore case

A grammar that ignores case reads texts alike that differ in the case of ASCII letters only
(`readsAlike_of_recased`): every pattern of every mode is compiled to ignore case, words are
compared and counted in lower case, and nothing else looks at letters. So scans of such texts emit
the same tokens, and have the same depths and reports on the way (`scan_recased`).

This asks of each pattern that it is read as a folded expression (`Grammar.readsFolded`), of the
rules of a mode that this is so after they have been joined. Joining can turn a pattern that ignores
case into one that does not, if another rule leaves a flag in force (`exists_case_seen`).
-/

namespace ModeStack

open ModeStack.Regex (Span)

/-! ## Words -/

namespace Scan.Classifier

variable {c : Classifier} (hcase : c.table.ignoreCase = true)

include hcase

theorem key_recased {piece piece' : Text} (hpiece : piece.Recased piece') (start stop : Nat) :
    c.table.key (piece'.between start stop) = c.table.key (piece.between start stop) := by
  unfold Keyword.Table.key
  rw [if_pos hcase, if_pos hcase, hpiece.lowercase_between_eq]

theorem splitFrom_recased {piece piece' : Text} (hpiece : piece.Recased piece')
    (hfind : ∀ pos, c.pattern.find piece' pos = c.pattern.find piece pos)
    (base rounds plain pos : Nat) :
    c.splitFrom piece' base rounds plain pos = c.splitFrom piece base rounds plain pos := by
  have hsize := hpiece.size_eq
  have hkey := key_recased hcase hpiece
  have hclassify (start stop : Nat) : c.table.classify (piece'.between start stop) =
      c.table.classify (piece.between start stop) := by
    unfold Keyword.Table.classify
    rw [hkey]
  induction rounds generalizing plain pos with
  | zero => simp only [splitFrom, hsize]
  | succ rounds ih => simp only [splitFrom, hsize, hfind, hkey, hclassify,
      hpiece.next?_eq, ih]

/-- **Words that differ in case are classified alike**, with the same keys to be counted under. -/
theorem split_recased {t t' : Text} (ht : t.Recased t')
    (hfind : ∀ {piece piece' : Text}, piece.Recased piece' →
      ∀ pos, c.pattern.find piece' pos = c.pattern.find piece pos)
    (span : Span) : c.split t' span = c.split t span := by
  have hpiece := ht.extract span.start span.stop
  unfold split
  dsimp only
  rw [hpiece.size_eq]
  exact splitFrom_recased hcase hpiece (hfind hpiece) _ _ _ _

end Scan.Classifier

/-! ## Grammars -/

namespace Grammar

/-- Whether the patterns that a mode does not share with others are read as folded expressions. -/
def Mode.readsOwnFolded (mode : Mode) : Bool :=
  mode.closing.all (fun p => Pattern.readsFolded p.source) &&
    Pattern.readsFolded mode.wordPattern.source

/-- Whether every pattern with which a mode searches is read as a folded expression, its joined
rules from each place on among them. -/
def Mode.readsFolded (mode : Mode) : Bool :=
  mode.rules.readsFolded && mode.readsOwnFolded

/-- Whether every pattern with which a grammar searches is read as a folded expression. -/
def readsFolded (g : Grammar) : Bool := g.modes.all (·.readsFolded)

variable {g : Grammar} {t t' : Text}

/-- Guards look for a dot only. -/
theorem Guard.allows_recased (ht : t.Recased t') (guard : Guard) (start : Nat) :
    guard.allows t' start = guard.allows t start := by
  have hdot := ht.getElem?_eq_some_iff (by decide : Text.isAsciiLetter '.' = false)
  cases guard with
  | always => rfl
  | notAfterDot => simp only [Guard.allows, ne_eq, hdot]

theorem readsFolded_mode (h : g.readsFolded = true) (index : Nat) :
    (g.mode index).readsFolded = true := by
  have hinert : Mode.inert.readsFolded = true := by decide +kernel
  refine mode_induction (P := (·.readsFolded = true)) (fun i hi => ?_) hinert index
  have hi : i < g.modes.size := hi
  rw [mode, Array.getD_eq_getD_getElem?, Array.getElem?_eq_getElem hi, Option.getD_some]
  exact Array.all_eq_true.1 h i hi

/-- **A grammar that ignores case reads recased texts alike.** -/
theorem readsAlike_of_recased {draft : Draft} (hbuild : draft.build = .ok g)
    (hcase : draft.ignoreCase = true) (hfolded : g.readsFolded = true) (ht : t.Recased t') :
    g.ReadsAlike t t' := by
  have hmode (index : Nat) : (g.mode index).CompiledFor true := by
    have hcompiled := compiledFor_of_build hbuild index
    rwa [hcase] at hcompiled
  have hreads (index : Nat) : (g.mode index).rules.readsFolded = true ∧
      ((g.mode index).closing.all (fun p => Pattern.readsFolded p.source) = true ∧
        Pattern.readsFolded (g.mode index).wordPattern.source = true) := by
    have hindex := readsFolded_mode hfolded index
    rwa [Mode.readsFolded, Mode.readsOwnFolded, Bool.and_eq_true, Bool.and_eq_true] at hindex
  refine ⟨ht.size_eq, fun index pos resume => ?_, fun index p hp pos => ?_,
    Guard.allows_recased ht, fun index table htable scope span => ?_⟩
  · exact Rule.RuleSet.find_recased (hmode index).rules (hreads index).1 ht pos resume
  · have hsource : Pattern.readsFolded p.source = true := by
      have hall := (hreads index).2.1
      rwa [Option.mem_def.1 hp, Option.all_some] at hall
    exact Pattern.matchAt_recased ((hmode index).closing p hp) hsource ht pos
  · exact Scan.Classifier.split_recased ((hmode index).keywords rfl table htable) ht
      (fun hpiece pos => Pattern.find_recased (hmode index).word (hreads index).2.2 hpiece pos) span

end Grammar

/-! ## Scans -/

namespace Scan

/-- **A grammar that ignores case scans recased texts in the same way**: each call for the next
token gives one with the same scope and span, in bytes too, and leaves the same depth and report;
and so does the whole scan. -/
theorem scan_recased {draft : Grammar.Draft} {g : Grammar} (hbuild : draft.build = .ok g)
    (hcase : draft.ignoreCase = true) (hfolded : g.readsFolded = true) {t t' : Text}
    (ht : t.Recased t') (ignoreIllegals : Bool) :
    let scan : Scan := ⟨g, t, ignoreIllegals⟩
    let scan' : Scan := ⟨g, t', ignoreIllegals⟩
    (∀ calls, scan'.token? calls = scan.token? calls ∧
      (scan'.after calls).depth = (scan.after calls).depth ∧
      (scan'.after calls).report = (scan.after calls).report) ∧
    scan'.run = scan.run ∧
    ∀ token : Token, token.byteStart t' = token.byteStart t ∧
      token.byteStop t' = token.byteStop t := by
  intro scan scan'
  have halike := Grammar.readsAlike_of_recased hbuild hcase hfolded ht
  refine ⟨fun calls => ?_, run_readsAlike halike, fun token =>
    ⟨ht.byteOffset_eq token.span.start, ht.byteOffset_eq token.span.stop⟩⟩
  have hafter : scan'.after calls = scan.after calls := after_readsAlike halike calls
  rw [hafter]
  exact ⟨token?_readsAlike halike calls, rfl, rfl⟩

/-- Blocks that nest, and a keyword outside them. -/
def shouting : Grammar.Draft where
  name := "shouting"
  ignoreCase := true
  definitions := #[
    { scope := some "block", opening := some "\\bbegin\\b", closing := some "\\bend\\b",
      contains := [.self] },
    { contains := [.mode 0], keywords := some ⟨[("if", ⟨0, 1⟩)], #["keyword"], false⟩ }]
  root := some 1

/-- A conditional block is read in any case. -/
theorem shouting_scan_recased : ∃ g, shouting.build = .ok g ∧ shouting.ignoreCase = true ∧
    g.readsFolded = true ∧
    (Text.ofString "If Begin x End").Recased (Text.ofString "IF begin X end") ∧
    (run ⟨g, Text.ofString "If Begin x End", false⟩).1.map (·.scope) =
      [some "keyword", none, some "block"] ∧
    run ⟨g, Text.ofString "IF begin X end", false⟩ =
      run ⟨g, Text.ofString "If Begin x End", false⟩ := by
  obtain ⟨g, hbuild, hfolded, hscopes⟩ := shouting.exists_built
    (fun g => g.readsFolded = true ∧
      (run ⟨g, Text.ofString "If Begin x End", false⟩).1.map (·.scope) =
        [some "keyword", none, some "block"]) (by decide +kernel)
  have hrecased : (Text.ofString "If Begin x End").Recased (Text.ofString "IF begin X end") := by
    decide +kernel
  exact ⟨g, hbuild, rfl, hfolded, hrecased, hscopes,
    (scan_recased hbuild rfl hfolded hrecased false).2.1⟩

/-! ## Flags that leak -/

/-- The first rule leaves verbose mode in force when the rules are joined. There the spaces of the
second mean nothing, and what is a group of its own otherwise clears the flag that ignores case. -/
def whispering : Grammar.Draft where
  name := "whispering"
  ignoreCase := true
  definitions := #[
    { opening := some "(?x)a" },
    { scope := some "x", opening := some "( ?-i)b" },
    { contains := [.mode 0, .mode 1] }]
  root := some 2

/-- **Case can be seen** although the grammar ignores it and so does each pattern alone: a letter is
found in lower case only. -/
theorem exists_case_seen : ∃ g, whispering.build = .ok g ∧ whispering.ignoreCase = true ∧
    (∀ mode ∈ g.modes, (∀ clause ∈ mode.rules.clauses,
      Pattern.readsFolded clause.part.source = true) ∧ mode.readsOwnFolded = true) ∧
    (Text.ofString "b").Recased (Text.ofString "B") ∧
    (run ⟨g, Text.ofString "b", false⟩).1.map (·.scope) = [some "x"] ∧
    (run ⟨g, Text.ofString "B", false⟩).1.map (·.scope) = [none] := by
  obtain ⟨g, hbuild, hg⟩ := whispering.exists_built
    (fun g => (∀ mode ∈ g.modes, (∀ clause ∈ mode.rules.clauses,
        Pattern.readsFolded clause.part.source = true) ∧ mode.readsOwnFolded = true) ∧
      (Text.ofString "b").Recased (Text.ofString "B") ∧
      (run ⟨g, Text.ofString "b", false⟩).1.map (·.scope) = [some "x"] ∧
      (run ⟨g, Text.ofString "B", false⟩).1.map (·.scope) = [none]) (by decide +kernel)
  exact ⟨g, hbuild, rfl, hg⟩

end Scan

end ModeStack
