import ModeStack.Proofs.Grammar.Evaluation
import ModeStack.Proofs.Grammar.Terminators
import ModeStack.Proofs.Rule.Direct
import ModeStack.Proofs.Scan.Plain

/-!
# Sketches of compiled modes

What a compiled mode is, its joined rules apart, can be read off the draft: a `Sketch` holds it with
the clauses of the rules, and `Draft.sketches` lists the sketches of all modes. A grammar that has
been built has the modes that are sketched (`sketched_of_build`).
-/

namespace ModeStack.Grammar

open ModeStack.Rule (Clause)
open ModeStack.Regex (exists_of_bind_eq_ok eq_ok_of_mapError)

/-- What a draft says of a mode. -/
structure Sketch where
  scope : Option String := none
  /-- The text of its own closing pattern. -/
  closing : Option String := some implicitClosing
  guard : Guard := .always
  /-- Whether it classifies words. -/
  classifies : Bool := false
  /-- The text of its pattern of words. -/
  wordPattern : String := defaultWordPattern
  flags : Flags := {}
  starts : Option Nat := none
  clauses : List Clause
  deriving DecidableEq

/-- The sketch of a staged mode, if its rules can be listed. -/
def Source.sketch (src : Source) (st : Stage) (mode : Staged) (links : Links) : Option Sketch :=
  (src.clausesOf st mode links.children).toOption.map fun clauses =>
    { scope := mode.definition.scope
      closing := mode.closing.map (·.source)
      guard := mode.guard
      classifies := mode.definition.keywords.isSome
      wordPattern := mode.definition.wordPattern.getD defaultWordPattern
      flags := mode.definition.flags
      starts := links.starts
      clauses := clauses }

/-- The sketches of the modes of a draft. -/
def Draft.sketches (draft : Draft) : List (Option Sketch) :=
  match draft.root with
  | none => []
  | some root =>
    match draft.source.expandWith (Pattern.evaluate draft.ignoreCase) root with
    | .error _ => []
    | .ok (links, st) =>
      (st.staged.toList.zip links).map fun (mode, links) => draft.source.sketch st mode links

theorem Draft.sketches_of_expand {draft : Draft} {root : ModeId} {links : List Links} {st : Stage}
    (hroot : draft.root = some root) (hexpand : draft.source.expand root = .ok (links, st)) :
    draft.sketches =
      (st.staged.toList.zip links).map fun (mode, links) => draft.source.sketch st mode links := by
  have hexpand : draft.source.expandWith (Pattern.evaluate draft.ignoreCase) root = _ :=
    (draft.source.expand_eq root).symm.trans hexpand
  simp only [Draft.sketches, hroot, hexpand]

/-- A compiled mode is as it was sketched. -/
structure Sketched (ignoreCase : Bool) (sketch : Sketch) (mode : Mode) : Prop where
  scope : mode.scope = sketch.scope
  closing : mode.closing.map (·.source) = sketch.closing
  compiled : ∀ p ∈ mode.closing, Pattern.compile ignoreCase p.source = .ok p
  guard : mode.guard = sketch.guard
  classifies : mode.keywords.isSome = sketch.classifies
  wordPattern : Pattern.compile ignoreCase sketch.wordPattern = .ok mode.wordPattern
  flags : mode.flags = sketch.flags
  starts : mode.starts = sketch.starts
  build : Rule.RuleSet.build ignoreCase sketch.clauses = .ok mode.rules

section Sketched

variable {ignoreCase : Bool} {sketch : Sketch} {mode : Mode} (h : Sketched ignoreCase sketch mode)

include h

theorem Sketched.clauses_eq : mode.rules.clauses.toList = sketch.clauses := by
  rw [(Rule.RuleSet.from?_of_build h.build).1]

theorem Sketched.isPlain (hguard : sketch.guard = .always) (hwords : sketch.classifies = false)
    (hflags : sketch.flags = {}) (hstarts : sketch.starts = none) : mode.IsPlain where
  guard := h.guard.trans hguard
  keywords := Option.not_isSome_iff_eq_none.1 (by simp [h.classifies, hwords])
  flags := h.flags.trans hflags
  starts := h.starts.trans hstarts

/-- A mode closes where the pattern that it is sketched with matches. -/
theorem Sketched.closes {part : Rule.Part} {t : Text} {pos stop : Nat}
    (hclosing : sketch.closing = some part.source)
    (hself : part.isSelfContained ignoreCase = true) (hpos : pos ≤ t.size)
    (htakes : part.Takes ignoreCase t pos stop) :
    (mode.closing.any fun p => (p.matchAt t pos).isSome) = true := by
  obtain ⟨p, hp, hsource⟩ := Option.map_eq_some_iff.1 (h.closing.trans hclosing)
  obtain ⟨p', hself⟩ := Rule.exists_selfContained hself
  obtain rfl : p' = p := by
    have hcompile := h.compiled p hp
    rw [hsource] at hcompile
    exact Except.ok.inj (hself.compiles.symm.trans hcompile)
  rw [hp, Option.any_some, hself.matchAt_of_takes hpos htakes]
  rfl

end Sketched

variable {draft : Draft} {g : Grammar}

theorem sketched_of_finish {src : Source} {st : Stage} {mode : Staged} {links : Links}
    {clauses : List Clause} {compiled : Mode} {sketch : Sketch}
    (hsketch : src.sketch st mode links = some sketch)
    (hclauses : src.clausesOf st mode links.children = .ok clauses)
    (hfinish : src.finish mode links clauses = .ok compiled)
    (hclosing : ∀ p ∈ mode.closing, Pattern.compile src.ignoreCase p.source = .ok p) :
    Sketched src.ignoreCase sketch compiled := by
  rw [Source.sketch, hclauses] at hsketch
  cases hsketch
  obtain ⟨word, hword, hfinish⟩ := exists_of_bind_eq_ok hfinish
  obtain ⟨rules, hrules, hfinish⟩ := exists_of_bind_eq_ok hfinish
  cases hfinish
  exact {
    scope := rfl
    closing := rfl
    compiled := hclosing
    guard := rfl
    classifies := by simp
    wordPattern := Source.compile_of_pattern hword
    flags := rfl
    starts := rfl
    build := eq_ok_of_mapError hrules }

theorem ignoreCase_of_build (h : draft.build = .ok g) : g.ignoreCase = draft.ignoreCase := by
  unfold Draft.build at h
  cases hroot : draft.root with
  | none =>
    simp only [hroot] at h
    cases h
  | some root =>
    simp only [hroot] at h
    obtain ⟨compiled, -, h⟩ := exists_of_bind_eq_ok h
    cases h
    rfl

/-- Every mode of a grammar that has been built is sketched. -/
theorem exists_sketch (h : draft.build = .ok g) {i : Nat} (hi : i < g.modeCount) :
    ∃ sketch, draft.sketches[i]? = some (some sketch) := by
  obtain ⟨root, links, st, hroot, -, hexpand, -, hfinished⟩ := exists_finished h
  obtain ⟨mode, l, clauses, hmode, hl, hclauses, -⟩ := hfinished i hi
  have hzip : (st.staged.toList.zip links)[i]? = some (mode, l) :=
    List.getElem?_zip_eq_some.2 ⟨by rwa [Array.getElem?_toList], hl⟩
  simp only [Draft.sketches_of_expand hroot hexpand, List.getElem?_map, hzip, Option.map_some,
    Source.sketch, hclauses]
  exact ⟨_, rfl⟩

/-- **A grammar that has been built** has the modes that are sketched. -/
theorem sketched_of_build (h : draft.build = .ok g) {i : Nat} {sketch : Sketch}
    (hsketch : draft.sketches[i]? = some (some sketch)) :
    i < g.modeCount ∧ Sketched draft.ignoreCase sketch (g.mode i) := by
  obtain ⟨root, links, st, hroot, hvalid, hexpand, hsize, hfinished⟩ := exists_finished h
  have hexpanded := expanded_of_expand hvalid hexpand
  rw [Draft.sketches_of_expand hroot hexpand] at hsketch
  obtain ⟨⟨mode, l⟩, hzip, hsketch⟩ := Option.map_eq_some_iff.1 (List.getElem?_map ▸ hsketch)
  obtain ⟨hmode, hl⟩ := List.getElem?_zip_eq_some.1 hzip
  rw [Array.getElem?_toList] at hmode
  have hlt : i < g.modeCount := by
    rw [hsize]
    exact (Array.getElem?_eq_some_iff.1 hmode).1
  obtain ⟨mode', l', clauses, hmode', hl', hclauses, hfinish⟩ := hfinished i hlt
  cases hmode.symm.trans hmode'
  cases hl.symm.trans hl'
  refine ⟨hlt, sketched_of_finish hsketch hclauses hfinish fun p hp => ?_⟩
  rcases hexpanded.root_or_needed hmode with ⟨rfl, -, -⟩ | ⟨form, -, -, hstaged⟩
  · cases hmode.symm.trans hexpanded.root_eq
    cases hp
  · exact (stagedFrom_of_compileStaged hstaged).compiled p hp

end ModeStack.Grammar
