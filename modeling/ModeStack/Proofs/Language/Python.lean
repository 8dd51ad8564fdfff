import ModeStack.Proofs.Grammar.Survey
import ModeStack.Proofs.Language.Python.Sketches

/-!
# Scans of Python texts do not stall

The Python grammar is graded (`Grammar.Graded`). A decorator may end without taking a character,
where a comment or the line ends, and so may comments and the annotations of parameters; but none
of the modes that they lie on can then be opened or ended without taking one.
-/

namespace ModeStack.Language.Python

open ModeStack.Grammar
open ModeStack.Regex (exists_of_toOption_any)

/-! ## What is said of the modes -/

/-- No mode has forty rules, and no pattern twenty-one groups. -/
def bounds : Bounds := ⟨2, 40, 20⟩

/-- A mode that takes characters where it begins and where it ends. -/
def firm : Stance := ⟨true, true, 0⟩

/-- A mode that begins where a lookahead holds, inside those that end so. -/
def ahead : Stance := ⟨false, true, 0⟩

/-- A mode with children that may end without taking a character. -/
def soft : Stance := ⟨true, false, 1⟩

/-- A mode without such children that may end without taking a character. -/
def leaf : Stance := ⟨true, false, 2⟩

/-- What is said of the modes, the root first. -/
def stances : List Stance :=
  firm :: (List.replicate 10 leaf ++ List.replicate 12 firm ++
    [soft, soft, firm, firm, soft, leaf, leaf, leaf, firm, leaf, firm, ahead, leaf, leaf, leaf,
     firm, firm, leaf, soft])

/-- What is said of the modes is true, and they are as they are sketched. One evaluation shows both,
since most of it is reading the patterns. -/
theorem surveyed : (keywords.toOption.any fun words =>
    (draft words).isGraded bounds stances && isDrawn (draft words)) = true := by
  decide +kernel

theorem exists_surveyed : ∃ words, keywords = .ok words ∧
    (draft words).isGraded bounds stances = true ∧ isDrawn (draft words) = true := by
  obtain ⟨words, hwords, h⟩ := exists_of_toOption_any surveyed
  exact ⟨words, hwords, Bool.and_eq_true_iff.1 h⟩

theorem grammar_eq {words : Keyword.Table} (h : keywords = .ok words) :
    grammar = (draft words).build := by
  unfold grammar
  rw [h]
  exact pure_bind words fun words => (draft words).build

theorem exists_graded_grammar : ∃ g, grammar = .ok g ∧ Linkage g ∧
    g.Graded (rankIn stances) bounds.height bounds.breadth := by
  obtain ⟨words, hwords, hdraft, -⟩ := exists_surveyed
  obtain ⟨g, hbuild, hgraded⟩ := exists_graded hdraft
  refine ⟨g, ?_, ?_, hgraded⟩
  · exact (grammar_eq hwords).trans hbuild
  · obtain ⟨_, hbuilt⟩ := built_of_build hbuild
    exact hbuilt.linkage

/-! ## Scans -/

/-- **A scan of a Python text never stalls**: at no time has its cursor stood still for more steps
than it may. So it is abandoned only at an illegal lexeme that counts; otherwise, the step that ends
it emits the rest of the text in the innermost mode. -/
theorem scan_unstalled : ∃ g, grammar = .ok g ∧
    ∀ (t : Text) (ignoreIllegals : Bool) (s : Scan.State),
      Scan.Reachable ⟨g, t, ignoreIllegals⟩ s →
      s.stalled ≤ Scan.maxStalled ∧
      (s.closed = false → (Scan.step ⟨g, t, ignoreIllegals⟩ s).closed = true →
        (∃ found, Scan.found? ⟨g, t, ignoreIllegals⟩ s = some found ∧ found.rule = .illegal ∧
          ignoreIllegals = false ∧
          Scan.step ⟨g, t, ignoreIllegals⟩ s =
            { Scan.abandon ⟨g, t, ignoreIllegals⟩ { s.noting found with illegal := true } with
              stalled := 0 }) ∨
        ∃ last stalled, Scan.step ⟨g, t, ignoreIllegals⟩ s =
          { Scan.close ⟨g, t, ignoreIllegals⟩ { s with resume := none, last := last } with
            stalled := stalled }) := by
  obtain ⟨g, hg, hlinkage, hgraded⟩ := exists_graded_grammar
  have hmax : (bounds.height + 1) * (bounds.breadth + 1) ≤ Scan.maxStalled := by decide
  refine ⟨g, hg, fun t ignoreIllegals s hs => ⟨?_, fun hopen hclosed => ?_⟩⟩
  · exact (Scan.settled_of_reachable hgraded hlinkage hmax hs).1.le.trans hmax
  · exact Scan.step_closed_of_graded hgraded hlinkage hmax hs hopen hclosed

end ModeStack.Language.Python
