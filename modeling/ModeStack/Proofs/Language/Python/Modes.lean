import ModeStack.Proofs.Language.Python
import ModeStack.Proofs.Rule.Direct
import ModeStack.Proofs.Scan.Plain

/-!
# What is known of the Python grammar

`exists_known` is all that is said of the Python grammar where its texts are scanned: its modes are
as they are sketched (`Known`). So what the rules of a mode find can be told from its sketch, rule
by rule.
-/

namespace ModeStack.Language.Python

open ModeStack.Grammar
open ModeStack.Rule (Clause Part combine)
open ModeStack.Regex

/-! ## The grammar -/

/-- What is known of the grammar. -/
structure Known (g : Grammar) : Prop where
  onward : g.SearchesOnward
  selfContained : ∀ i, ∀ clause ∈ (g.mode i).rules.clauses.toList,
    clause.part.isSelfContained false = true
  sketched : ∀ i sketch, (i, sketch) ∈ sketches → Sketched false sketch (g.mode i)

theorem ignoreCase_draft (words : Keyword.Table) : (draft words).ignoreCase = false := rfl

theorem exists_known : ∃ g, grammar = .ok g ∧ Known g := by
  obtain ⟨words, hwords, -, hdrawn⟩ := exists_surveyed
  rw [isDrawn, Bool.and_eq_true, List.all_eq_true, List.all_eq_true] at hdrawn
  obtain ⟨hsketches, hpatterns⟩ := hdrawn
  obtain ⟨g, hg, -, hgraded⟩ := exists_graded_grammar
  have hbuild : (draft words).build = .ok g := (grammar_eq hwords).symm.trans hg
  have hcase : g.ignoreCase = false :=
    (ignoreCase_of_build hbuild).trans (ignoreCase_draft words)
  have hmeasured : ∀ i, Measured false (g.mode i).rules := hcase ▸ hgraded.measured
  have hword : (Pattern.compile false defaultWordPattern).toOption.any (·.isForward) = true := by
    decide +kernel
  refine ⟨g, hg, ⟨fun i => (hmeasured i).searchesOnward, fun i => ?_⟩,
    fun i => (hmeasured i).selfContained, fun i sketch hmem => ?_⟩
  · refine Pattern.searchesOnward_of_isForward ?_
    by_cases hi : i < g.modeCount
    · obtain ⟨sketch, hsketch⟩ := exists_sketch hbuild hi
      have hpattern := hpatterns (some sketch) (List.mem_of_getElem? hsketch)
      rw [Option.all_some, decide_eq_true_eq] at hpattern
      have hcompile := (sketched_of_build hbuild hsketch).2.wordPattern
      rw [hpattern, ignoreCase_draft] at hcompile
      rw [hcompile] at hword
      exact hword
    · have hinert : g.mode i = .inert := by
        rw [mode, Array.getD_eq_getD_getElem?, Array.getElem?_eq_none (not_lt.1 hi)]
        rfl
      rw [hinert]
      rfl
  · have hsketched := (sketched_of_build hbuild (of_decide_eq_true (hsketches _ hmem))).2
    rw [ignoreCase_draft] at hsketched
    exact hsketched

/-! ## What its modes find -/

namespace Known

variable {g : Grammar} {i index start : Nat} {sketch : Sketch} {clause : Clause} {t : Text}
  {pos stop : Nat} (hg : Known g) (hmem : (i, sketch) ∈ sketches)

include hg hmem

theorem isSelfContained (hclause : clause ∈ sketch.clauses) :
    clause.part.isSelfContained false = true :=
  hg.selfContained i clause ((hg.sketched i sketch hmem).clauses_eq ▸ hclause)

/-- The first rule that takes something is found, if those before it reject the position. -/
theorem search_here (hpos : pos ≤ t.size) (hclause : sketch.clauses[index]? = some clause)
    (htakes : clause.part.Takes false t pos stop)
    (hrejects : ∀ clause ∈ sketch.clauses.take index, clause.part.Rejects false t pos)
    (hindex : index ≤ maxBacktracks) :
    (g.mode i).rules.search 0 t pos = some ⟨clause.rule, index, ⟨pos, stop⟩⟩ :=
  Rule.search_here (fun _ hclause => hg.isSelfContained hmem hclause) (hg.sketched i sketch hmem).build
    hpos hclause htakes hrejects hindex

/-- So it is further on. -/
theorem search_onward
    (hdirect : ((combine false sketch.clauses).toOption.all (·.regex.isDirect)) = true)
    (hpos : pos ≤ start) (hstart : start ≤ t.size) (hclause : sketch.clauses[index]? = some clause)
    (htakes : clause.part.Takes false t start stop)
    (hbefore : ∀ q, pos ≤ q → q < start →
      ∀ clause ∈ sketch.clauses, clause.part.Rejects false t q)
    (hrejects : ∀ clause ∈ sketch.clauses.take index, clause.part.Rejects false t start) :
    (g.mode i).rules.search 0 t pos = some ⟨clause.rule, index, ⟨start, stop⟩⟩ :=
  Rule.search_onward_direct (fun _ hclause => hg.isSelfContained hmem hclause)
    (hg.sketched i sketch hmem).build hdirect hpos hstart hclause htakes hbefore hrejects

/-- At the end of the text there is nothing for rules that take characters. -/
theorem search_end (hwidth : ∀ clause ∈ sketch.clauses, 0 < clause.part.minWidth false) :
    (g.mode i).rules.search 0 t t.size = none := by
  refine Option.eq_none_iff_forall_not_mem.2 fun found hfound => ?_
  have hextent := Rule.search_extent (fun _ hclause => hg.isSelfContained hmem hclause)
    (hg.sketched i sketch hmem).build hfound
  have hstop := (Rule.RuleSet.search_within hfound).stop_le
  obtain ⟨clause, hclause, -, hle⟩ := hextent.width_le
  have hpos := hextent.pos_le
  have hwide := hwidth clause (List.mem_of_getElem? hclause)
  omega

end Known

/-! ## Empty ends -/

/-- What modes end with that have no closing pattern. -/
def emptyExpr : Expr := .alt (.assert .notWordEdge) (.assert .wordEdge)

theorem reads_emptyExpr : ∀ part ∈ [emptyEnding.part, ⟨implicitClosing, 0⟩],
    part.isSelfContained false = true ∧ part.reads false emptyExpr = true := by
  decide +kernel

theorem prefers_emptyExpr (t : Text) {pos : Nat} (hpos : pos ≤ t.size) :
    emptyExpr.Prefers t pos pos := by
  refine Expr.prefers_of_unique rfl hpos ?_ fun q hq => ?_
  · cases hedge : Assertion.wordEdge.holds t pos with
    | true => exact .inr ⟨hedge, rfl⟩
    | false =>
      refine .inl ⟨?_, rfl⟩
      simpa [Assertion.holds] using hedge
  · rcases hq with hq | hq
    · exact hq.2
    · exact hq.2

section EmptyEnding

variable {g : Grammar} {i pos : Nat} {sketch : Sketch} {t : Text} (hg : Known g)
  (hmem : (i, sketch) ∈ sketches) (hpos : pos ≤ t.size)

include hg hmem hpos

theorem Known.search_emptyEnding (hclauses : sketch.clauses = [emptyEnding]) :
    (g.mode i).rules.search 0 t pos = some ⟨.ending, 0, ⟨pos, pos⟩⟩ := by
  have hreads := (reads_emptyExpr emptyEnding.part (by simp)).2
  have hclause : sketch.clauses[0]? = some emptyEnding := by rw [hclauses]; rfl
  exact hg.search_here hmem hpos hclause
    (Rule.Part.takes_of_reads hreads (prefers_emptyExpr t hpos)) (by simp) (Nat.zero_le _)

/-- A mode without a closing pattern closes wherever it is. -/
theorem Known.closes_empty (hclosing : sketch.closing = some implicitClosing) :
    ((g.mode i).closing.any fun p => (p.matchAt t pos).isSome) = true := by
  obtain ⟨hself, hreads⟩ := reads_emptyExpr ⟨implicitClosing, 0⟩ (by simp)
  exact (hg.sketched i sketch hmem).closes hclosing hself hpos
    (Rule.Part.takes_of_reads hreads (prefers_emptyExpr t hpos))

end EmptyEnding

end ModeStack.Language.Python
