import ModeStack.Proofs.Grammar.Interchange
import ModeStack.Proofs.Keyword.Folding
import ModeStack.Proofs.Rule.Searches
import ModeStack.Proofs.Scan.Answers

/-!
# One keyword table in place of another

Two drafts may differ in that one has a keyword table in some places where the other has another
table. If the two tables find the same as a grammar uses them, the drafts are built alike, and scans
with the grammars cannot be told apart (`build_retabled`): definitions with one table in place of the
other stand in for each other, and the modes get the same answers when words are cut from a text.

So it does not matter in which way a table is folded. A grammar that ignores case can be given a
table that counts case, or one for which it is decided in the end that it does not
(`build_folded`).
-/

namespace ModeStack

open ModeStack.Keyword (Table)

/-! ## Scans with tables that agree -/

namespace Scan

/-- Tables that agree cut a text in the same way, with the same words to be scored. -/
theorem Classifier.split_agrees {table table' : Table} (h : table.Agrees table')
    (pattern : Pattern) (scope : Option String) (t : Text) (span : Regex.Span) :
    Classifier.split ⟨table', pattern, scope⟩ t span =
      Classifier.split ⟨table, pattern, scope⟩ t span := by
  have hfrom (piece : Text) (base rounds plain pos : Nat) :
      Classifier.splitFrom ⟨table', pattern, scope⟩ piece base rounds plain pos =
        Classifier.splitFrom ⟨table, pattern, scope⟩ piece base rounds plain pos := by
    induction rounds generalizing plain pos with
    | zero => rfl
    | succ rounds ih => simp only [splitFrom, h.classify_eq, h.key_eq, ih]
  exact hfrom _ _ _ _ _

/-- **Modes with tables that agree give the same answers.** -/
theorem echoes_of_standsIn {g g' : Grammar}
    (h : ∀ index, (g.mode index).StandsIn Table.Agrees (g'.mode index)) (t : Text)
    (ignoreIllegals : Bool) : Echoes ⟨g, t, ignoreIllegals⟩ ⟨g', t, ignoreIllegals⟩ := by
  have hread {α : Type} (index : Nat) (f : Grammar.Mode → α)
      (hf : ∀ mode keywords, f { mode with keywords := keywords } = f mode) :
      f (g'.mode index) = f (g.mode index) := (h index).read f (hf _)
  refine ⟨rfl, rfl, ?_, ?_, ?_, ?_, ?_, ?_, ?_, ?_, ?_⟩
  · exact fun index => hread index Grammar.Mode.scope fun _ _ => rfl
  · exact fun index => hread index Grammar.Mode.flags fun _ _ => rfl
  · exact fun index => hread index Grammar.Mode.starts fun _ _ => rfl
  · exact fun index => hread index Grammar.Mode.relevance fun _ _ => rfl
  · exact fun index => hread index (·.rules.size) fun _ _ => rfl
  · exact fun index pos resume => hread index (·.rules.find t pos resume) fun _ _ => rfl
  · intro index pos
    exact hread index (·.closing.any fun p => (p.matchAt t pos).isSome) fun _ _ => rfl
  · exact fun index start => hread index (·.guard.allows t start) fun _ _ => rfl
  · intro index scope span
    have hpattern := hread index Grammar.Mode.wordPattern fun _ _ => rfl
    have hkeywords := (h index).keywords
    dsimp only
    rw [hpattern]
    generalize (g.mode index).keywords = table at hkeywords
    generalize (g'.mode index).keywords = table' at hkeywords
    cases hkeywords with
    | none => rfl
    | some hagrees => exact congrArg some (Classifier.split_agrees hagrees _ scope t span)

end Scan

namespace Grammar

/-- Grammars whose modes have tables that agree cannot be told apart. -/
theorem indistinguishable_of_standsIn {g g' : Grammar}
    (h : List.Forall₂ (Mode.StandsIn Table.Agrees) g.modes.toList g'.modes.toList) :
    Indistinguishable g g' := by
  have hmode (index : Nat) : (g.mode index).StandsIn Table.Agrees (g'.mode index) := by
    unfold mode
    rw [Array.getD_eq_getD_getElem?, Array.getD_eq_getD_getElem?, ← Array.getElem?_toList,
      ← Array.getElem?_toList]
    rcases getElem?_of_forall₂ h index with ⟨hnone, hnone'⟩ | ⟨mode, mode', hmode, hmode', hstands⟩
    · rw [hnone, hnone']
      exact ⟨rfl, .none⟩
    · rw [hmode, hmode']
      exact hstands
  refine ⟨h.length_eq.symm, fun t ignoreIllegals calls => ?_⟩
  have hechoes := Scan.echoes_of_standsIn hmode t ignoreIllegals
  have hafter := Scan.after_echo hechoes calls
  dsimp only
  rw [hafter]
  exact ⟨Scan.token?_echo hechoes calls, rfl, rfl⟩

/-! ## Replacing a table -/

/-- One table, or another in its place. -/
def swap (table table' : Table) (t : Table) : Table := if t = table then table' else t

/-- A definition with one keyword table in place of another. -/
def Definition.swapped (table table' : Table) (d : Definition) : Definition :=
  { d with keywords := d.keywords.map (swap table table') }

/-- A draft with one keyword table in place of another, in variants too. -/
def Draft.retabled (draft : Draft) (table table' : Table) : Draft :=
  draft.rewritten (Definition.swapped table table')

section

variable {table table' : Table} {draft draft' : Draft} {d d' : Definition}

theorem Definition.distributes_swapped : Distributes (swapped table table') := by
  intro base variant
  simp only [swapped, merged]
  cases variant.keywords <;> rfl

theorem Definition.keeps_swapped : Keeps (swapped table table') :=
  ⟨fun _ => rfl, fun _ => rfl, fun _ => rfl, fun _ => rfl⟩

/-- Tables that are the same when one is put in place of the other. -/
def Swapped (table table' : Table) (t t' : Table) : Prop := swap table table' t' = swap table table' t

theorem standsIn_of_swapped
    (h : d'.throughout (Definition.swapped table table') =
      d.throughout (Definition.swapped table table')) :
    d.StandsIn (Swapped table table') d' := by
  simp only [Definition.throughout_eq, Definition.swapped, Definition.mk.injEq] at h
  obtain ⟨hscope, hopening, hwords, hclosing, hillegal, hcontains, -, hkeywords, hpattern,
    hrelevance, hstarts, hflags⟩ := h
  refine ⟨hscope, fun _ => hopening, hwords, hclosing, hillegal, hcontains, ?_, hpattern, hrelevance,
    hstarts, hflags⟩
  cases hd : d.keywords with
  | none =>
    rw [hd, Option.map_none, Option.map_eq_none_iff] at hkeywords
    rw [hkeywords]
    exact .none
  | some t =>
    rw [hd, Option.map_some] at hkeywords
    obtain ⟨t', ht', heq⟩ := Option.map_eq_some_iff.1 hkeywords
    rw [ht']
    exact .some heq

/-- Tables that are the same when one is put in place of the other agree if these two do. -/
theorem Swapped.agrees {ignoreCase : Bool} {t t' : Table}
    (hagrees : (table'.forGrammar ignoreCase).Agrees (table.forGrammar ignoreCase))
    (h : Swapped table table' t t') : (t.forGrammar ignoreCase).Agrees (t'.forGrammar ignoreCase) := by
  unfold Swapped swap at h
  split_ifs at h with ht' ht ht
  · rw [ht, ht']
    exact .refl _
  · rw [ht', ← h]
    exact hagrees
  · rw [ht, h]
    exact ⟨hagrees.ignoreCase_eq.symm, fun word => (hagrees.classify_eq word).symm⟩
  · rw [h]
    exact .refl _

/-- **A table in place of another** with which it agrees, in any of the places where one of them
stands, cannot be told by scans. -/
theorem build_retabled
    (hagrees : (table'.forGrammar draft.ignoreCase).Agrees (table.forGrammar draft.ignoreCase))
    (h : draft'.retabled table table' = draft.retabled table table') :
    Agree Indistinguishable draft.build draft'.build := by
  obtain ⟨hname, hcase, hroot⟩ := Draft.fields_of_rewritten h
  cases hr : draft.root with
  | none => exact Draft.build_of_no_root hr (hroot.trans hr) hname
  | some root =>
    have hstands : draft.source.StandsIn (Swapped table table') draft'.source root := by
      refine ⟨hname, hcase, ?_, fun form _ => ?_, fun d _ => ?_⟩
      · exact standsIn_of_swapped (Draft.definitionAt_of_rewritten h root)
      · exact standsIn_of_swapped
          (Draft.resolve_of_rewritten h Definition.distributes_swapped form.1 form.2)
      · unfold Source.formsOf
        simp only [Draft.variantsOf_of_rewritten h]
    have hcompile : Agree (fun c c' =>
        List.Forall₂ (Mode.StandsIn Table.Agrees) c.modes.toList c'.modes.toList ∧
          c'.illegal = c.illegal) (draft.source.compile root) (draft'.source.compile root) := by
      have hvalidate := validate_of_rewritten h Definition.keeps_swapped root
      cases hv : draft.source.validate root with
      | ok =>
        cases hv' : draft'.source.validate root with
        | ok =>
          have hrefl (t : Table) : Swapped table table' t t := rfl
          exact compile_standsIn hrefl hstands (fun _ _ => Swapped.agrees hagrees) hv hv'
        | error e' =>
          rw [hv, hv'] at hvalidate
          cases hvalidate
      | error e =>
        unfold Source.compile
        rw [hv] at hvalidate ⊢
        exact hvalidate.bind_of_ok fun _ _ hok => by cases hok
    rw [Draft.build_eq hr, Draft.build_eq (hroot.trans hr)]
    exact hcompile.bind fun c c' hmodes => .ok (indistinguishable_of_standsIn hmodes.1)

end

/-! ## Folding in either way -/

section

open ModeStack.Keyword

variable {steps : List Step} {table given : Table}

/-- **Two ways of folding agree.** If the steps write a table that counts case, and no two of its
words have the same lower case, then they also write a table when they end with the decision to
ignore case. It finds what the first table finds when a grammar that ignores case folds it, in
whatever order the first keeps its words, and has as many words. And drafts that ignore case and
differ in which of the tables they have where are built alike, with grammars that no scan can tell
apart. -/
theorem build_folded (hbuild : Keyword.build steps = .ok table) (hcase : folds steps = false)
    (hapart : Set.InjOn Text.lowercase (wordsOf steps)) (hgiven : table.Reordered given) :
    ∃ other, Keyword.build (steps ++ [.ignoreCase true]) = .ok other ∧
      (∀ word, (given.forGrammar true).classify word = other.classify word) ∧
      (given.forGrammar true).size = other.size ∧
      ∀ draft draft' : Draft, draft.ignoreCase = true →
        draft'.retabled other given = draft.retabled other given →
        Agree Indistinguishable draft.build draft'.build := by
  have htable := eq_tableOf hbuild
  subst htable
  obtain ⟨hagrees, hsize⟩ := folded_agrees hcase hapart hgiven
  refine ⟨_, build_concat_ignoreCase hbuild true, hagrees.classify_eq, hsize, ?_⟩
  intro draft draft' hdraft h
  have hfolded : (tableOf (steps ++ [Step.ignoreCase true])).forGrammar true =
      tableOf (steps ++ [Step.ignoreCase true]) := by
    rw [tableOf_concat_ignoreCase]
    rfl
  refine build_retabled ?_ h
  rw [hdraft, hfolded]
  exact ⟨hagrees.ignoreCase_eq.symm, fun word => (hagrees.classify_eq word).symm⟩

/-- Steps for two words that differ in more than case. -/
def branching : List Step := [.cls "keyword" ["If|2", "End"]]

/-- The table that they write, with its words kept the other way round. -/
def branchingBackwards : Table := ⟨[("End", ⟨0, 1⟩), ("If", ⟨0, 2⟩)], #["keyword"], false⟩

theorem mem_wordsOf_branching {word : String} (h : word ∈ wordsOf branching) :
    word = "If" ∨ word = "End" := by
  have hif : readEntry "If|2" = some ("If", 2) := by decide +kernel
  have hend : readEntry "End" = some ("End", 1) := by decide +kernel
  obtain ⟨p, hp, read, n, hdenotes, -, rfl⟩ := h
  have hread := readEntry_eq_some_iff.2 hdenotes
  have hp : p ∈ [("keyword", "If|2"), ("keyword", "End")] := hp
  rcases List.mem_pair.1 hp with rfl | rfl
  · cases hif.symm.trans hread
    exact .inl rfl
  · cases hend.symm.trans hread
    exact .inr rfl

/-- A draft that ignores case and has a table for its root. -/
def classifying (table : Table) : Draft where
  name := "classifying"
  ignoreCase := true
  definitions := #[{ keywords := some table }]
  root := some 0

/-- Folded by a grammar or before, the table finds a word in capitals, and scans are the same. -/
theorem branching_build_folded :
    Keyword.build branching = .ok (tableOf branching) ∧ folds branching = false ∧
    Set.InjOn Text.lowercase (wordsOf branching) ∧
    (tableOf branching).Reordered branchingBackwards ∧
    ∃ other g g', Keyword.build (branching ++ [.ignoreCase true]) = .ok other ∧
      (classifying branchingBackwards).build = .ok g ∧ (classifying other).build = .ok g' ∧
      g.relevance #['I', 'F'] = ⟨2, false⟩ ∧ Indistinguishable g g' := by
  have hbuild : Keyword.build branching = .ok (tableOf branching) := by
    have hread : (["If|2", "End"].find? fun entry => (readEntry entry).isNone) = none := by
      decide +kernel
    exact (build_eq branching).trans (by simp [entriesOf, branching, Step.entries, hread])
  have hcase : folds branching = false := by decide +kernel
  have hapart : Set.InjOn Text.lowercase (wordsOf branching) := by
    have hne : Text.lowercase "If" ≠ Text.lowercase "End" := by decide +kernel
    intro word hword other hother heq
    rcases mem_wordsOf_branching hword with rfl | rfl <;>
      rcases mem_wordsOf_branching hother with rfl | rfl
    · rfl
    · exact absurd heq hne
    · exact absurd heq.symm hne
    · rfl
  have hgiven : (tableOf branching).Reordered branchingBackwards := by
    have htable : tableOf branching =
        ⟨[("If", ⟨0, 2⟩), ("End", ⟨0, 1⟩)], #["keyword"], false⟩ := by decide +kernel
    rw [htable]
    exact ⟨.swap _ _ [], rfl, rfl⟩
  obtain ⟨other, hother, -, -, hscans⟩ := build_folded hbuild hcase hapart hgiven
  have hsame : (classifying other).retabled other branchingBackwards =
      (classifying branchingBackwards).retabled other branchingBackwards := by
    simp [Draft.retabled, Draft.rewritten, classifying, Definition.throughout_eq,
      Definition.swapped, swap]
  obtain ⟨g, hg, hscore⟩ := (classifying branchingBackwards).exists_built
    (fun g => g.relevance #['I', 'F'] = ⟨2, false⟩) (by decide +kernel)
  have hagree := hscans (classifying branchingBackwards) (classifying other) rfl hsame
  rw [hg] at hagree
  cases hg' : (classifying other).build with
  | error e =>
    rw [hg'] at hagree
    cases hagree
  | ok g' =>
    rw [hg'] at hagree
    exact ⟨hbuild, hcase, hapart, hgiven, other, g, g', hother, hg, hg', hscore, hagree.of_ok⟩

end

end Grammar

end ModeStack
