import ModeStack.Proofs.Grammar.Needed
import ModeStack.Proofs.Grammar.Patterns
import ModeStack.Proofs.Rule.Choice

/-!
# Terminators of compiled modes

What a built grammar ends its modes with. The rule by which a mode ends joins its terminators
(`part_of_ending`): its own closing pattern alone, if it does not end with its parent
(`terminators_eq_own`), and otherwise those that it inherits too. Of these its own is tried first,
and leaving out what would be there twice changes nothing (`firstMatch_inheriting`).

Where no definition starts a mode when it ends (`Draft.NeverStarts`), no compiled mode does
(`starts_of_neverStarts`), so that every mode is opened as the child of another.
-/

namespace ModeStack.Grammar

open ModeStack.Rule (Part FirstMatch Standalone)

variable {draft : Draft} {g : Grammar}

/-! ## Grammars without modes that are started -/

/-- No definition and no variant starts a mode when it ends. -/
def Draft.NeverStarts (draft : Draft) : Prop :=
  ∀ d ∈ draft.definitions, d.starts = none ∧ ∀ v ∈ d.variants, v.starts = none

theorem starts_resolve (h : draft.NeverStarts) (id : ModeId) (variant : Option Nat) :
    (draft.source.resolve id variant).starts = none := by
  have hbase : (draft.definitions.getD id {}).starts = none ∧
      ∀ v ∈ (draft.definitions.getD id {}).variants, v.starts = none := by
    rw [Array.getD_eq_getD_getElem?]
    cases hd : draft.definitions[id]? with
    | none => exact ⟨rfl, by simp⟩
    | some d => exact h d (Array.mem_of_getElem? hd)
  unfold Source.resolve
  dsimp only
  split
  · rename_i v hv
    obtain ⟨k, -, hk⟩ := Option.bind_eq_some_iff.1 hv
    have hvariant := hbase.2 v (List.mem_of_getElem? hk)
    show v.starts.or (draft.definitions.getD id {}).starts = none
    rw [hvariant, hbase.1]
    rfl
  · exact hbase.1

/-- What is known of the mode at an index: how it was staged, and what became of it. -/
theorem exists_expanded (h : draft.build = .ok g) {i : Nat} (hi : i < g.modeCount) :
    ∃ root links st mode l, Expanded draft.source root links st ∧ draft.staged = st.staged ∧
      st.staged[i]? = some mode ∧ CompiledAs (g.mode i) st mode l ∧
      draft.source.link st i mode = .ok (l, st) := by
  obtain ⟨root, links, st, hroot, hvalid, hexpand, -, hfinished⟩ := exists_finished h
  obtain ⟨mode, l, clauses, hmode, hl, hclauses, hfinish⟩ := hfinished i hi
  have hexpanded := expanded_of_expand hvalid hexpand
  exact ⟨root, links, st, mode, l, hexpanded, by simp [Draft.staged, hroot, hexpand], hmode,
    compiledAs_of_finish hclauses hfinish, hexpanded.relinked i mode l hmode hl⟩

/-- Where no definition starts a mode, no mode does. -/
theorem starts_of_neverStarts (h : draft.build = .ok g) (hnever : draft.NeverStarts) (i : Nat) :
    (g.mode i).starts = none := by
  by_contra hstarts
  obtain ⟨next, hnext⟩ := Option.ne_none_iff_exists'.1 hstarts
  obtain ⟨root, links, st, mode, l, hexpanded, -, hmode, hcompiled, hlink⟩ :=
    exists_expanded h (lt_of_starts_eq_some hnext)
  have hnone : mode.definition.starts = none := by
    rcases hexpanded.root_or_needed hmode with ⟨-, -, heq⟩ | ⟨form, -, -, hstaged⟩
    · rw [heq]
      exact starts_resolve hnever root none
    · rw [(stagedFrom_of_compileStaged hstaged).starts_eq]
      exact starts_resolve hnever form.1 form.2
  unfold Source.link at hlink
  obtain ⟨⟨children, st'⟩, -, hlink⟩ := Regex.exists_of_bind_eq_ok hlink
  simp only [hnone] at hlink
  cases hlink
  exact hstarts hcompiled.starts_eq

/-! ## The terminators of a mode -/

/-- A mode that does not end with its parent has its own terminator only. -/
theorem terminators_eq_own (h : draft.build = .ok g) {i : Nat} (hi : i < g.modeCount)
    (hends : (g.mode i).flags.endsWithParent = false) :
    draft.terminators i = ownParts (g.mode i).closing := by
  obtain ⟨root, links, st, mode, l, hexpanded, hstaged, hmode, hcompiled, -⟩ := exists_expanded h hi
  have hterminators : draft.terminators i = mode.terminators := by
    rw [Draft.terminators, hstaged, hmode]
    rfl
  rw [hterminators, hcompiled.closing_eq]
  rcases hexpanded.root_or_needed hmode with ⟨rfl, -, -⟩ | ⟨form, -, -, hcompile⟩
  · cases hmode.symm.trans hexpanded.root_eq
    rfl
  · have hfrom := stagedFrom_of_compileStaged hcompile
    rw [hcompiled.flags_eq, hfrom.flags_eq] at hends
    rw [hfrom.terminators_eq, Source.inherited, if_neg (by simp [hends]), List.append_nil]

theorem terminators_root (h : draft.build = .ok g) : draft.terminators Grammar.root = [] := by
  obtain ⟨root, links, st, hroot, hvalid, hexpand, -, -⟩ := exists_finished h
  have hmode := (expanded_of_expand hvalid hexpand).root_eq
  rw [Draft.terminators, Draft.staged, hroot]
  simp only [hexpand, Grammar.root, hmode, Option.map_some, Option.getD_some]

/-- The rule by which a mode ends joins its terminators. -/
theorem part_of_ending (h : draft.build = .ok g) {i : Nat} {clause : Rule.Clause}
    (hclause : clause ∈ (g.mode i).rules.clauses) (hrule : clause.rule = .ending) :
    draft.terminators i ≠ [] ∧
      clause.part.source = (Rule.alternation false (draft.terminators i)).1 := by
  obtain ⟨st, hbuilt⟩ := built_of_build h
  have hmem : clause ∈ (g.mode i).rules.clauses.toList.filter (·.rule = .ending) :=
    List.mem_filter.2 ⟨Array.mem_toList_iff.2 hclause, by simpa using hrule⟩
  rw [hbuilt.ending_eq (lt_of_mem_clauses hclause)] at hmem
  unfold endingClauses at hmem
  split_ifs at hmem with hempty
  · cases hmem
  · rw [List.mem_singleton.1 hmem]
    exact ⟨fun hnil => hempty (by simp [hnil]), rfl⟩

/-! ## The first terminator that matches -/

/-- The patterns of terminators. -/
def patternsOf (ignoreCase : Bool) (parts : List Part) : List Pattern :=
  parts.filterMap fun part => (Pattern.compile ignoreCase part.source).toOption

section FirstMatch

variable {ignoreCase : Bool} {t : Text} {pos stop : Nat} {closing : Option Pattern}
  {parts : List Part}

/-- Leaving out a pattern that does not match changes nothing. -/
theorem firstMatch_of_filter {p : Pattern} (hcompile : Pattern.compile ignoreCase p.source = .ok p)
    (hmatch : p.matchAt t pos = none)
    (h : FirstMatch t pos stop
      (patternsOf ignoreCase (parts.filter fun part => some p.source ≠ some part.source))) :
    FirstMatch t pos stop (patternsOf ignoreCase parts) := by
  induction parts with
  | nil => exact h
  | cons part parts ih =>
    by_cases heq : p.source = part.source
    · rw [List.filter_cons_of_neg (by simp [heq])] at h
      have hrest := ih h
      simp only [patternsOf, List.filterMap_cons, ← heq, hcompile, Except.toOption] at hrest ⊢
      exact .later hmatch hrest
    · rw [List.filter_cons_of_pos (by simp [heq])] at h
      simp only [patternsOf, List.filterMap_cons] at h ih ⊢
      cases hpart : (Pattern.compile ignoreCase part.source).toOption with
      | none =>
        simp only [hpart] at h ⊢
        exact ih h
      | some q =>
        simp only [hpart] at h ⊢
        cases h with
        | here hhere => exact .here hhere
        | later hlater hrest => exact .later hlater (ih hrest)

/-- Of the terminators that a mode inherits, its own is tried first. -/
theorem firstMatch_inheriting
    (hcompiled : ∀ p ∈ closing, Pattern.compile ignoreCase p.source = .ok p)
    (h : FirstMatch t pos stop (patternsOf ignoreCase (inheriting closing parts))) :
    (∃ p ∈ closing, p.matchAt t pos = some stop) ∨
      (∀ p ∈ closing, p.matchAt t pos = none) ∧
        FirstMatch t pos stop (patternsOf ignoreCase parts) := by
  cases closing with
  | none =>
    refine .inr ⟨by simp, ?_⟩
    simpa [inheriting, ownParts] using h
  | some p =>
    have hcompile := hcompiled p rfl
    have hown : patternsOf ignoreCase (inheriting (some p) parts) = p ::
        patternsOf ignoreCase (parts.filter fun part => some p.source ≠ some part.source) := by
      simp [inheriting, ownParts, patternsOf, hcompile, Except.toOption]
    rw [hown] at h
    cases h with
    | here hhere => exact .inl ⟨p, rfl, hhere⟩
    | later hlater hrest =>
      refine .inr ⟨fun q hq => ?_, firstMatch_of_filter hcompile hlater hrest⟩
      cases hq
      exact hlater

/-- Terminators that are patterns of their own have the patterns that they are compiled to. -/
theorem forall₂_patternsOf (h : ∀ part ∈ parts, ∃ p, Standalone ignoreCase part p) :
    List.Forall₂ (Standalone ignoreCase) parts (patternsOf ignoreCase parts) := by
  induction parts with
  | nil => exact .nil
  | cons part parts ih =>
    obtain ⟨p, hp⟩ := h part List.mem_cons_self
    simp only [patternsOf, List.filterMap_cons, hp.compiles, Except.toOption]
    exact .cons hp (ih fun part' hpart' => h part' (List.mem_cons_of_mem _ hpart'))

end FirstMatch

end ModeStack.Grammar
