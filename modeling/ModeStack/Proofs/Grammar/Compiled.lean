import ModeStack.Proofs.Grammar.Linking

/-!
# Compiled grammars

Every staged mode of a grammar that can be built is compiled under the same index, with its flags,
its own closing pattern, one rule for all its terminators, and rules for children among those it
has been linked to (`Built`). `Draft.terminators` are the terminators with which a mode is
compiled.

From this follow what a scan relies on: all links lead to modes (`Linkage`), a child that ends
with its parent has the terminators of the parent (`Built.child_inherits`), and a mode that is
started has those of the mode from which the one that starts it was first reached
(`Built.started_inherits`).
-/

namespace ModeStack

open Rule (Part Clause)
open Regex (exists_of_bind_eq_ok eq_ok_of_mapError exists_getElem?_of_forall₂
  exists_getElem?_of_forall₂')

/-- What a list of steps that all succeed gives, element by element. -/
theorem forall₂_of_mapM_eq_ok {ε α β : Type} {f : α → Except ε β} {l : List α} {r : List β}
    (h : l.mapM f = .ok r) : List.Forall₂ (fun a b => f a = .ok b) l r := by
  induction l generalizing r with
  | nil =>
    cases h
    exact .nil
  | cons a l ih =>
    rw [List.mapM_cons] at h
    obtain ⟨b, hb, h⟩ := exists_of_bind_eq_ok h
    obtain ⟨bs, hbs, h⟩ := exists_of_bind_eq_ok h
    cases h
    exact .cons hb (ih hbs)

theorem Rule.RuleSet.clauses_of_build {ignoreCase : Bool} {clauses : List Clause}
    {s : Rule.RuleSet} (h : Rule.RuleSet.build ignoreCase clauses = .ok s) :
    s.clauses = clauses.toArray := by
  unfold build at h
  cases clauses with
  | nil =>
    cases h
    rfl
  | cons clause clauses =>
    obtain ⟨full, -, h⟩ := exists_of_bind_eq_ok h
    cases h
    rfl

namespace Grammar

variable {src : Source} {st : Stage} {mode : Staged} {links : Links}

/-! ## Rules -/

/-- The rules by which a mode with the given terminators ends. -/
def endingClauses (terminators : List Part) : List Clause :=
  if terminators.isEmpty then []
  else [⟨.ending, ⟨(Rule.alternation false terminators).1, Rule.groupCount terminators⟩⟩]

/-- How a staged mode is compiled. -/
structure CompiledAs (compiled : Mode) (st : Stage) (mode : Staged) (links : Links) : Prop where
  flags_eq : compiled.flags = mode.definition.flags
  closing_eq : compiled.closing = mode.closing
  starts_eq : compiled.starts = links.starts
  ending_eq : compiled.rules.clauses.toList.filter (·.rule = .ending) =
    endingClauses mode.terminators
  opening : ∀ clause ∈ compiled.rules.clauses, ∀ c, clause.rule = .opening c →
    c ∈ links.children ∧ ∃ child, st.staged[c]? = some child ∧ child.opening.isSome

/-- The rules for children, which are those of the modes that open. -/
def openingClauses (st : Stage) (children : List Nat) : List Clause :=
  children.filterMap fun index =>
    (st.staged[index]?.bind (·.opening)).map fun part => ⟨.opening index, part⟩

theorem exists_of_mem_openingClauses {children : List Nat} {clause : Clause}
    (h : clause ∈ openingClauses st children) :
    ∃ c child, clause.rule = .opening c ∧ c ∈ children ∧ st.staged[c]? = some child ∧
      child.opening.isSome := by
  obtain ⟨c, hc, h⟩ := List.mem_filterMap.1 h
  obtain ⟨part, hpart, rfl⟩ := Option.map_eq_some_iff.1 h
  obtain ⟨child, hchild, hopening⟩ := Option.bind_eq_some_iff.1 hpart
  exact ⟨c, child, rfl, hc, hchild, by simp [hopening]⟩

theorem rule_of_mem_endingClauses {terminators : List Part} {clause : Clause}
    (h : clause ∈ endingClauses terminators) : clause.rule = .ending := by
  unfold endingClauses at h
  split_ifs at h
  · cases h
  · rw [List.mem_singleton.1 h]

/-- The rules of a mode: illegal lexemes, the terminators, the children. -/
theorem clausesOf_eq {children : List Nat} {clauses : List Clause}
    (h : src.clausesOf st mode children = .ok clauses) :
    ∃ illegal, (∀ clause ∈ illegal, clause.rule = .illegal) ∧
      clauses = illegal ++ endingClauses mode.terminators ++ openingClauses st children := by
  unfold Source.clausesOf at h
  cases hi : mode.definition.illegal with
  | none =>
    simp only [hi] at h
    cases h
    exact ⟨[], by simp, rfl⟩
  | some source =>
    simp only [hi] at h
    obtain ⟨p, -, h⟩ := exists_of_bind_eq_ok h
    cases h
    exact ⟨[⟨.illegal, ⟨source, p.groups⟩⟩], by simp, rfl⟩

theorem compiledAs_of_finish {clauses : List Clause} {compiled : Mode}
    (hclauses : src.clausesOf st mode links.children = .ok clauses)
    (h : src.finish mode links clauses = .ok compiled) : CompiledAs compiled st mode links := by
  obtain ⟨p, -, h⟩ := exists_of_bind_eq_ok h
  obtain ⟨rules, hrules, h⟩ := exists_of_bind_eq_ok h
  cases h
  have hbuild : Rule.RuleSet.build src.ignoreCase clauses = .ok rules := eq_ok_of_mapError hrules
  have heq := Rule.RuleSet.clauses_of_build hbuild
  obtain ⟨illegal, hillegal, hparts⟩ := clausesOf_eq hclauses
  refine ⟨rfl, rfl, rfl, ?_, ?_⟩
  · show rules.clauses.toList.filter (·.rule = .ending) = _
    have hnone : illegal.filter (·.rule = .ending) = [] :=
      List.filter_eq_nil_iff.2 fun clause hc => by simp [hillegal clause hc]
    have hall : (endingClauses mode.terminators).filter (·.rule = .ending) =
        endingClauses mode.terminators :=
      List.filter_eq_self.2 fun clause hc => by simp [rule_of_mem_endingClauses hc]
    have hopen : (openingClauses st links.children).filter (·.rule = .ending) = [] := by
      refine List.filter_eq_nil_iff.2 fun clause hc => ?_
      obtain ⟨c, child, hrule, -⟩ := exists_of_mem_openingClauses hc
      simp [hrule]
    rw [heq, hparts, List.filter_append, List.filter_append, hnone, hall, hopen]
    simp
  · intro clause hclause c hc
    have hclause : clause ∈ clauses := by simpa [heq] using hclause
    rw [hparts, List.mem_append, List.mem_append] at hclause
    rcases hclause with (hmem | hmem) | hmem
    · rw [hillegal clause hmem] at hc
      cases hc
    · rw [rule_of_mem_endingClauses hmem] at hc
      cases hc
    · obtain ⟨c', child, hrule, hchild⟩ := exists_of_mem_openingClauses hmem
      rw [hrule] at hc
      cases hc
      exact ⟨hchild.1, child, hchild.2⟩

/-! ## Building -/

namespace Draft

/-- The definitions of a draft under its name. -/
def source (draft : Draft) : Source := ⟨draft.name, draft.definitions, draft.ignoreCase⟩

/-- The modes staged for a draft. -/
def staged (draft : Draft) : Array Staged :=
  match draft.root with
  | none => #[]
  | some root =>
    match draft.source.expand root with
    | .ok (_, st) => st.staged
    | .error _ => #[]

/-- The terminators with which the mode at an index is compiled. -/
def terminators (draft : Draft) (index : Nat) : List Part :=
  (draft.staged[index]?.map (·.terminators)).getD []

/-- The terminators of the mode from which the mode at an index was first reached. -/
def firstParentTerminators (draft : Draft) (index : Nat) : List Part :=
  (draft.staged[index]?.map (·.parentTerminators)).getD []

end Draft

/-- What is known of a grammar that has been built. -/
structure Built (draft : Draft) (g : Grammar) (st : Stage) : Prop where
  staged_eq : draft.staged = st.staged
  sound : st.Sound draft.source
  root_lt : Grammar.root < g.modeCount
  size_eq : g.modeCount = st.staged.size
  compiled : ∀ i < g.modeCount, ∃ mode links, st.staged[i]? = some mode ∧
    CompiledAs (g.mode i) st mode links ∧ Linked st i mode links

/-- A compiled source: its modes are those that were staged, each linked, given its rules and
compiled in turn. -/
theorem compile_spec {root : ModeId} {compiled : Source.Compiled}
    (h : src.compile root = .ok compiled) :
    src.Validated root ∧ ∃ links st clauses, src.expand root = .ok (links, st) ∧
      List.Forall₂ (fun linked clauses =>
          src.clausesOf st linked.1 linked.2.children = .ok clauses)
        (st.staged.toList.zip links) clauses ∧
      List.Forall₂ (fun ruled mode => src.finish ruled.1.1 ruled.1.2 ruled.2 = .ok mode)
        ((st.staged.toList.zip links).zip clauses) compiled.modes.toList := by
  obtain ⟨⟨⟩, hvalid, h⟩ := exists_of_bind_eq_ok h
  obtain ⟨⟨links, st⟩, hexpand, h⟩ := exists_of_bind_eq_ok h
  refine ⟨Source.validated_of_validate hvalid, links, st, ?_⟩
  cases hi : (src.definitions.getD root {}).illegal with
  | none =>
    simp only [hi] at h
    obtain ⟨p, -, h⟩ := exists_of_bind_eq_ok h
    obtain ⟨clauses, hclauses, h⟩ := exists_of_bind_eq_ok h
    obtain ⟨modes, hmodes, h⟩ := exists_of_bind_eq_ok h
    cases h
    exact ⟨clauses, hexpand, forall₂_of_mapM_eq_ok hclauses, forall₂_of_mapM_eq_ok hmodes⟩
  | some illegal =>
    simp only [hi] at h
    obtain ⟨p, -, h⟩ := exists_of_bind_eq_ok h
    obtain ⟨clauses, hclauses, h⟩ := exists_of_bind_eq_ok h
    obtain ⟨modes, hmodes, h⟩ := exists_of_bind_eq_ok h
    cases h
    exact ⟨clauses, hexpand, forall₂_of_mapM_eq_ok hclauses, forall₂_of_mapM_eq_ok hmodes⟩

/-- Every mode of a grammar that has been built is a staged mode that has been linked, given its
rules and finished. -/
theorem exists_finished {draft : Draft} {g : Grammar} (h : draft.build = .ok g) :
    ∃ root links st, draft.root = some root ∧ draft.source.Validated root ∧
      draft.source.expand root = .ok (links, st) ∧ g.modeCount = st.staged.size ∧
      ∀ i < g.modeCount, ∃ mode l clauses, st.staged[i]? = some mode ∧ links[i]? = some l ∧
        draft.source.clausesOf st mode l.children = .ok clauses ∧
        draft.source.finish mode l clauses = .ok (g.mode i) := by
  unfold Draft.build at h
  cases hroot : draft.root with
  | none =>
    simp only [hroot] at h
    cases h
  | some root =>
    simp only [hroot] at h
    obtain ⟨compiled, hcompile, h⟩ := exists_of_bind_eq_ok h
    cases h
    obtain ⟨hvalid, links, st, clauses, hexpand, hclauses, hmodes⟩ := compile_spec hcompile
    obtain ⟨-, -, hlen, -⟩ := expand_spec hvalid hexpand
    have hsize : compiled.modes.size = st.staged.size := by
      have hone := hclauses.length_eq
      have htwo := hmodes.length_eq
      simp only [List.length_zip, Array.length_toList] at hone htwo
      omega
    refine ⟨root, links, st, rfl, hvalid, hexpand, hsize, fun i hi => ?_⟩
    have hi : i < compiled.modes.size := hi
    have hget : compiled.modes.toList[i]? = some (compiled.modes.getD i .inert) := by
      simp [Array.getD_eq_getD_getElem?, hi]
    obtain ⟨⟨⟨mode, l⟩, c⟩, hruled, hfinish⟩ := exists_getElem?_of_forall₂' hmodes hget
    obtain ⟨hzip, hc⟩ := List.getElem?_zip_eq_some.1 hruled
    obtain ⟨c', hc', hclause⟩ := exists_getElem?_of_forall₂ hclauses hzip
    cases hc.symm.trans hc'
    obtain ⟨hmode, hl⟩ := List.getElem?_zip_eq_some.1 hzip
    exact ⟨mode, l, c, by simpa using hmode, hl, hclause, hfinish⟩

/-- **A grammar that has been built** has the modes that were staged, each compiled as it was
staged and linked. -/
theorem built_of_build {draft : Draft} {g : Grammar} (h : draft.build = .ok g) :
    ∃ st, Built draft g st := by
  obtain ⟨root, links, st, hroot, hvalid, hexpand, hsize, hfinished⟩ := exists_finished h
  obtain ⟨hsound, hpos, -, hlinked⟩ := expand_spec hvalid hexpand
  refine ⟨st, by simp [Draft.staged, hroot, hexpand], hsound, hsize ▸ hpos, hsize, fun i hi => ?_⟩
  obtain ⟨mode, l, clauses, hmode, hl, hclauses, hfinish⟩ := hfinished i hi
  obtain ⟨mode', hmode', hlink⟩ := hlinked i l hl
  cases hmode.symm.trans hmode'
  exact ⟨mode, l, hmode, compiledAs_of_finish hclauses hfinish, hlink⟩

/-! ## What a scan relies on -/

/-- All links of a grammar lead to modes. -/
structure Linkage (g : Grammar) : Prop where
  root_lt : Grammar.root < g.modeCount
  child_lt : ∀ i, ∀ clause ∈ (g.mode i).rules.clauses, ∀ c, clause.rule = .opening c →
    c < g.modeCount
  next_lt : ∀ i next, (g.mode i).starts = some next → next < g.modeCount

theorem mode_of_le {g : Grammar} {i : Nat} (h : g.modeCount ≤ i) : g.mode i = .inert := by
  rw [mode, Array.getD_eq_getD_getElem?, Array.getElem?_eq_none h, Option.getD_none]

/-- Only compiled modes have rules. -/
theorem lt_of_mem_clauses {g : Grammar} {i : Nat} {clause : Clause}
    (h : clause ∈ (g.mode i).rules.clauses) : i < g.modeCount := by
  by_contra hge
  rw [mode_of_le (not_lt.1 hge)] at h
  simp [Mode.inert, Rule.RuleSet.none] at h

/-- Only compiled modes start another. -/
theorem lt_of_starts_eq_some {g : Grammar} {i next : Nat} (h : (g.mode i).starts = some next) :
    i < g.modeCount := by
  by_contra hge
  rw [mode_of_le (not_lt.1 hge)] at h
  simp [Mode.inert] at h

/-! ## The order of rules -/

/-- The rules for children come last. -/
theorem arranged_of_clausesOf {children : List Nat} {clauses : List Clause}
    (h : src.clausesOf st mode children = .ok clauses) {i j : Nat} {clause clause' : Clause} {c : Nat}
    (hi : clauses[i]? = some clause) (hc : clause.rule = .opening c) (hij : i ≤ j)
    (hj : clauses[j]? = some clause') : ∃ c', clause'.rule = .opening c' := by
  obtain ⟨illegal, hillegal, rfl⟩ := clausesOf_eq h
  by_cases hlt : i < (illegal ++ endingClauses mode.terminators).length
  · rw [List.getElem?_append_left hlt] at hi
    rcases List.mem_append.1 (List.mem_of_getElem? hi) with hmem | hmem
    · rw [hillegal clause hmem] at hc
      cases hc
    · rw [rule_of_mem_endingClauses hmem] at hc
      cases hc
  · rw [List.getElem?_append_right ((not_lt.1 hlt).trans hij)] at hj
    obtain ⟨c', -, hrule, -⟩ := exists_of_mem_openingClauses (List.mem_of_getElem? hj)
    exact ⟨c', hrule⟩

theorem clauses_of_finish {clauses : List Clause} {compiled : Mode}
    (h : src.finish mode links clauses = .ok compiled) :
    compiled.rules.clauses.toList = clauses := by
  obtain ⟨p, -, h⟩ := exists_of_bind_eq_ok h
  obtain ⟨rules, hrules, h⟩ := exists_of_bind_eq_ok h
  cases h
  show rules.clauses.toList = clauses
  rw [Rule.RuleSet.clauses_of_build (eq_ok_of_mapError hrules)]

/-- **In every mode of a grammar the rules for children come last.** -/
theorem opening_of_le {draft : Draft} {g : Grammar} (h : draft.build = .ok g) {index i j : Nat}
    {clause clause' : Clause} {c : Nat} (hi : (g.mode index).rules.clauses[i]? = some clause)
    (hc : clause.rule = .opening c) (hij : i ≤ j)
    (hj : (g.mode index).rules.clauses[j]? = some clause') :
    ∃ c', clause'.rule = .opening c' := by
  obtain ⟨root, links, st, -, -, -, -, hfinished⟩ := exists_finished h
  obtain ⟨mode, l, clauses, -, -, hclauses, hfinish⟩ :=
    hfinished index (lt_of_mem_clauses (Array.mem_of_getElem? hi))
  rw [← Array.getElem?_toList, clauses_of_finish hfinish] at hi hj
  exact arranged_of_clausesOf hclauses hi hc hij hj

namespace Built

variable {draft : Draft} {g : Grammar} (h : Built draft g st)

include h

theorem terminators_eq {i : Nat} {mode : Staged} (hmode : st.staged[i]? = some mode) :
    draft.terminators i = mode.terminators := by
  rw [Draft.terminators, h.staged_eq, hmode]
  rfl

theorem firstParentTerminators_eq {i : Nat} {mode : Staged} (hmode : st.staged[i]? = some mode) :
    draft.firstParentTerminators i = mode.parentTerminators := by
  rw [Draft.firstParentTerminators, h.staged_eq, hmode]
  rfl

/-- A mode that can be reached from a parent with the given terminators has them too, if it ends
with its parent. -/
theorem of_reached {parent : List Part} {i : Nat} (hr : Reached st parent i) :
    i < g.modeCount ∧ ((g.mode i).flags.endsWithParent = true →
      draft.terminators i = inheriting (g.mode i).closing parent) := by
  obtain ⟨mode, hmode, -, hends⟩ := hr
  have hlt : i < g.modeCount := by
    rw [h.size_eq]
    exact (Array.getElem?_eq_some_iff.1 hmode).1
  obtain ⟨mode', links, hmode', hcompiled, -⟩ := h.compiled i hlt
  rw [hmode] at hmode'
  cases hmode'
  refine ⟨hlt, fun hflag => ?_⟩
  rw [hcompiled.flags_eq] at hflag
  rw [h.terminators_eq hmode, hcompiled.closing_eq]
  exact hends hflag

/-- **A child that ends with its parent has the parent's terminators.** -/
theorem child_inherits {under c : Nat} {clause : Clause}
    (hclause : clause ∈ (g.mode under).rules.clauses) (hc : clause.rule = .opening c) :
    c < g.modeCount ∧ ((g.mode c).flags.endsWithParent = true →
      draft.terminators c = inheriting (g.mode c).closing (draft.terminators under)) := by
  obtain ⟨mode, links, hmode, hcompiled, hlinked⟩ := h.compiled under (lt_of_mem_clauses hclause)
  obtain ⟨hmem, child, hchild, hopening⟩ := hcompiled.opening clause hclause c hc
  have hr : Reached st mode.terminators c := by
    rcases hlinked.children c hmem with rfl | hr
    · -- A mode that contains itself has inherited from someone, and need not inherit anew.
      rw [hmode] at hchild
      cases hchild
      refine ⟨mode, hmode, hopening, fun hends => ?_⟩
      obtain ⟨parent, heq⟩ := h.sound.inherits mode (Array.mem_of_getElem? hmode) hends
      rw [heq, inheriting_inheriting]
    · exact hr
  rw [h.terminators_eq hmode]
  exact h.of_reached hr

/-- **A mode that is started**, if it ends with its parent, has the terminators of the mode from
which the one that starts it was first reached. -/
theorem started_inherits {m next : Nat} (hnext : (g.mode m).starts = some next) :
    next < g.modeCount ∧ ((g.mode next).flags.endsWithParent = true →
      draft.terminators next =
        inheriting (g.mode next).closing (draft.firstParentTerminators m)) := by
  obtain ⟨mode, links, hmode, hcompiled, hlinked⟩ := h.compiled m (lt_of_starts_eq_some hnext)
  rw [hcompiled.starts_eq] at hnext
  rw [h.firstParentTerminators_eq hmode]
  exact h.of_reached (hlinked.starts next hnext)

/-- The rules by which a mode ends are those of its terminators. -/
theorem ending_eq {i : Nat} (hi : i < g.modeCount) :
    (g.mode i).rules.clauses.toList.filter (·.rule = .ending) =
      endingClauses (draft.terminators i) := by
  obtain ⟨mode, links, hmode, hcompiled, -⟩ := h.compiled i hi
  rw [hcompiled.ending_eq, h.terminators_eq hmode]

/-- **All links of a grammar that has been built lead to modes.** -/
theorem linkage : Linkage g where
  root_lt := h.root_lt
  child_lt _ _ hclause _ hc := (h.child_inherits hclause hc).1
  next_lt _ _ hnext := (h.started_inherits hnext).1

end Built

end Grammar

end ModeStack
