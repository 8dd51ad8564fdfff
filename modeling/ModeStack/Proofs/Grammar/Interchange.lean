import ModeStack.Proofs.Grammar.Needed

/-!
# Definitions that stand in for each other

Two sources are compiled to the same modes if the definitions that are needed say the same
(`Definition.StandsIn`): they agree in everything that is looked at, which leaves out an opening
pattern beside opening words, and the variants of a form. Their keyword tables may be related more
loosely. Staging and linking never look into a table, so the compilations go in lockstep, and the
modes that they give have tables in the same relation, as a grammar uses them
(`compile_standsIn`).
-/

namespace ModeStack.Grammar

open ModeStack.Rule (Part Clause)

/-! ## Steps that agree -/

/-- Steps that are the same, element by element. -/
theorem mapM_same {ε α β γ : Type} {Q : α → β → Prop} {f : α → Except ε γ} {g : β → Except ε γ}
    {l : List α} {l' : List β} (hl : List.Forall₂ Q l l') (hf : ∀ a b, Q a b → g b = f a) :
    l'.mapM g = l.mapM f := by
  induction hl with
  | nil => rfl
  | cons hab _ ih => rw [List.mapM_cons, List.mapM_cons, hf _ _ hab, ih]

theorem Agree.refl {α : Type} {R : α → α → Prop} (hR : ∀ a, R a a) {x : Except Error α} :
    Agree R x x := by
  cases x with
  | ok a => exact .ok (hR a)
  | error e => exact .error rfl

/-! ## Definitions, modes and stages -/

/-- The second definition says what the first does, with a keyword table in the relation. -/
structure Definition.StandsIn (W : Keyword.Table → Keyword.Table → Prop) (d d' : Definition) :
    Prop where
  scope_eq : d'.scope = d.scope
  /-- An opening pattern beside opening words is not looked at. -/
  opening_eq : d.openingWords = none → d'.opening = d.opening
  openingWords_eq : d'.openingWords = d.openingWords
  closing_eq : d'.closing = d.closing
  illegal_eq : d'.illegal = d.illegal
  contains_eq : d'.contains = d.contains
  keywords : Option.Rel W d.keywords d'.keywords
  wordPattern_eq : d'.wordPattern = d.wordPattern
  relevance_eq : d'.relevance = d.relevance
  starts_eq : d'.starts = d.starts
  flags_eq : d'.flags = d.flags

/-- The modes are the same but for their keyword tables, which are in the relation. -/
structure Mode.StandsIn (V : Keyword.Table → Keyword.Table → Prop) (mode mode' : Mode) : Prop where
  eq_with : mode' = { mode with keywords := mode'.keywords }
  keywords : Option.Rel V mode.keywords mode'.keywords

/-- The definitions of the second source stand in for those of the first that are needed. -/
structure Source.StandsIn (W : Keyword.Table → Keyword.Table → Prop) (src src' : Source)
    (root : ModeId) : Prop where
  name_eq : src'.name = src.name
  ignoreCase_eq : src'.ignoreCase = src.ignoreCase
  root_standsIn : (src.definitionAt root).StandsIn W (src'.definitionAt root)
  form_standsIn : ∀ form, src.Needs root form → (src.ofForm form).StandsIn W (src'.ofForm form)
  /-- Children stand for the same forms. -/
  forms_eq : ∀ d, src.NeedsDefinition root d → src'.formsOf d.contains = src.formsOf d.contains

/-- The staged modes are compiled from definitions that stand in for each other. -/
structure Staged.StandsIn (W : Keyword.Table → Keyword.Table → Prop) (mode mode' : Staged) :
    Prop where
  definition : mode.definition.StandsIn W mode'.definition
  source_eq : mode'.source = mode.source
  opening_eq : mode'.opening = mode.opening
  guard_eq : mode'.guard = mode.guard
  closing_eq : mode'.closing = mode.closing
  terminators_eq : mode'.terminators = mode.terminators
  parentTerminators_eq : mode'.parentTerminators = mode.parentTerminators

/-- The same modes have been staged, under the same keys. -/
structure Stage.StandsIn (W : Keyword.Table → Keyword.Table → Prop) (st st' : Stage) : Prop where
  staged : List.Forall₂ (Staged.StandsIn W) st.staged.toList st'.staged.toList
  index_eq : st'.index = st.index

/-- Both sides have the same value and the same modes. -/
def SameStaged (W : Keyword.Table → Keyword.Table → Prop) {α : Type} (r r' : α × Stage) : Prop :=
  r'.1 = r.1 ∧ r.2.StandsIn W r'.2

variable {W V : Keyword.Table → Keyword.Table → Prop} {src src' : Source} {root : ModeId}
  {d d' : Definition} {parent : List Part} {mode mode' : Staged} {st st' : Stage}

theorem eq_of_rel {α : Type} {x y : Option α} (h : Option.Rel Eq x y) : y = x := by
  cases h with
  | none => rfl
  | some heq => rw [heq]

theorem rel_map {α β : Type} {R : α → α → Prop} {S : β → β → Prop} {f : α → β}
    {x y : Option α} (h : Option.Rel R x y) (hf : ∀ a b, R a b → S (f a) (f b)) :
    Option.Rel S (x.map f) (y.map f) := by
  cases h with
  | none => exact .none
  | some hab => exact .some (hf _ _ hab)

/-- What does not look at the keyword table of a mode is the same. -/
theorem Mode.StandsIn.read {α : Type} {mode mode' : Mode} (h : mode.StandsIn V mode')
    (f : Mode → α) (hf : ∀ keywords, f { mode with keywords := keywords } = f mode) :
    f mode' = f mode := by
  rw [h.eq_with, hf]

/-- Modes with the same tables are the same. -/
theorem Mode.StandsIn.eq {mode mode' : Mode} (h : mode.StandsIn Eq mode') : mode' = mode := by
  have heq := h.eq_with
  rw [eq_of_rel h.keywords] at heq
  exact heq

/-! ## What is read of a definition -/

section

variable (h : d.StandsIn W d')

include h

theorem closingOf_standsIn : Source.closingOf d' = Source.closingOf d := by
  unfold Source.closingOf
  rw [h.closing_eq, h.flags_eq]

theorem inherited_standsIn : Source.inherited d' parent = Source.inherited d parent := by
  unfold Source.inherited
  rw [h.flags_eq, closingOf_standsIn h]

theorem keyOf_standsIn (form : Form) :
    Source.keyOf form.1 form.2 d' parent = Source.keyOf form.1 form.2 d parent := by
  unfold Source.keyOf
  rw [h.flags_eq, closingOf_standsIn h, inherited_standsIn h]

/-- What opening words imply keeps definitions in each other's place. -/
theorem standsIn_of_words {table table' : Keyword.Table} (htable : W table table') :
    Definition.StandsIn W
      { d with keywords := some table, relevance := d.relevance.or (some 0) }
      { d' with keywords := some table', relevance := d'.relevance.or (some 0) } where
  scope_eq := h.scope_eq
  opening_eq := h.opening_eq
  openingWords_eq := h.openingWords_eq
  closing_eq := h.closing_eq
  illegal_eq := h.illegal_eq
  contains_eq := h.contains_eq
  keywords := .some htable
  wordPattern_eq := h.wordPattern_eq
  relevance_eq := by rw [h.relevance_eq]
  starts_eq := h.starts_eq
  flags_eq := h.flags_eq

/-- The opening pattern and the guard are the same. -/
theorem openingOf_standsIn (hrefl : ∀ table, W table table) :
    Agree (fun r r' => r'.1 = r.1 ∧ r'.2.1 = r.2.1 ∧ r.2.2.StandsIn W r'.2.2)
      (Source.openingOf d) (Source.openingOf d') := by
  unfold Source.openingOf
  rw [h.openingWords_eq]
  cases hwords : d.openingWords with
  | none => exact .ok ⟨by rw [h.opening_eq hwords], rfl, h⟩
  | some text =>
    have himplied {table table' : Keyword.Table} (htable : W table table') :=
      standsIn_of_words h htable
    rw [hwords, h.openingWords_eq.trans hwords] at himplied
    have hkeywords := h.keywords
    cases htable : d.keywords with
    | none =>
      rw [htable] at hkeywords
      cases hkeywords' : d'.keywords with
      | some table' =>
        rw [hkeywords'] at hkeywords
        cases hkeywords
      | none =>
        refine Agree.bind (.mapError _ fun _ => rfl) fun table _ heq => ?_
        cases heq
        exact .ok ⟨rfl, rfl, himplied (hrefl table)⟩
    | some table =>
      rw [htable] at hkeywords
      cases hkeywords' : d'.keywords with
      | none =>
        rw [hkeywords'] at hkeywords
        cases hkeywords
      | some table' =>
        rw [hkeywords'] at hkeywords
        cases hkeywords with
        | some hrel => exact .ok ⟨rfl, rfl, himplied hrel⟩

end

/-! ## Staging -/

section

variable (hrefl : ∀ table, W table table) (hname : src'.name = src.name)
  (hcase : src'.ignoreCase = src.ignoreCase)

include hname hcase

theorem pattern_standsIn (id : ModeId) (role : Role) (source : String) :
    src'.pattern id role source = src.pattern id role source := by
  unfold Source.pattern
  rw [hname, hcase]

include hrefl

theorem compileStaged_standsIn (h : d.StandsIn W d') (id : ModeId) (parent : List Part) :
    Agree (Staged.StandsIn W) (src.compileStaged id d parent) (src'.compileStaged id d' parent) := by
  unfold Source.compileStaged
  refine (openingOf_standsIn h hrefl).bind ?_
  rintro ⟨source, guard, e⟩ ⟨_, _, e'⟩ ⟨hsource, hguard, he⟩
  cases hsource
  cases hguard
  rw [closingOf_standsIn h, inherited_standsIn h]
  simp only [pattern_standsIn hname hcase]
  cases src.pattern id .opening source with
  | error error => exact .error rfl
  | ok opening =>
    cases Source.closingOf d with
    | none => exact .ok ⟨he, rfl, rfl, rfl, rfl, rfl, rfl⟩
    | some closing =>
      dsimp only
      cases src.pattern id .closing closing with
      | error error => exact .error rfl
      | ok q => exact .ok ⟨he, rfl, rfl, rfl, rfl, rfl, rfl⟩

theorem stage_standsIn (h : st.StandsIn W st') {form : Form}
    (hform : (src.ofForm form).StandsIn W (src'.ofForm form)) (parent : List Part) :
    Agree (SameStaged W) (src.stage st form.1 form.2 parent)
      (src'.stage st' form.1 form.2 parent) := by
  unfold Source.stage
  dsimp only
  rw [keyOf_standsIn hform, h.index_eq]
  cases st.index.lookup (Source.keyOf form.1 form.2 (src.ofForm form) parent) with
  | some index => exact .ok ⟨rfl, h⟩
  | none =>
    have hsize : st'.staged.size = st.staged.size := h.staged.length_eq.symm
    refine (compileStaged_standsIn hrefl hname hcase hform form.1 parent).bind
      fun mode mode' hmode => .ok ⟨hsize, ?_, ?_⟩
    · simp only [Array.toList_push]
      exact List.rel_append h.staged (.cons hmode .nil)
    · simp only [hsize]

theorem stageForms_standsIn (h : st.StandsIn W st') (self : Nat) {forms : List (Option Form)}
    (hforms : ∀ form, some form ∈ forms → (src.ofForm form).StandsIn W (src'.ofForm form)) :
    Agree (SameStaged W) (src.stageForms self parent st forms)
      (src'.stageForms self parent st' forms) := by
  induction forms generalizing st st' with
  | nil => exact .ok ⟨rfl, h⟩
  | cons form forms ih =>
    have hrest (form : Form) (hform : some form ∈ forms) :=
      hforms form (List.mem_cons_of_mem _ hform)
    cases form with
    | none =>
      refine (ih h hrest).bind ?_
      rintro ⟨indices, st₁⟩ ⟨_, st₁'⟩ ⟨heq, h₁⟩
      cases heq
      exact .ok ⟨rfl, h₁⟩
    | some form =>
      refine (stage_standsIn hrefl hname hcase h (hforms form List.mem_cons_self) parent).bind ?_
      rintro ⟨index, st₁⟩ ⟨_, st₁'⟩ ⟨heq, h₁⟩
      cases heq
      refine (ih h₁ hrest).bind ?_
      rintro ⟨indices, st₂⟩ ⟨_, st₂'⟩ ⟨heq, h₂⟩
      cases heq
      exact .ok ⟨rfl, h₂⟩

/-! ## Rules and modes -/

omit hrefl hname hcase in
theorem opening_standsIn (h : st.StandsIn W st') (index : Nat) :
    st'.staged[index]?.bind (·.opening) = st.staged[index]?.bind (·.opening) := by
  rw [← Array.getElem?_toList, ← Array.getElem?_toList]
  rcases getElem?_of_forall₂ h.staged index with
    ⟨hnone, hnone'⟩ | ⟨mode, mode', hmode, hmode', hsame⟩
  · rw [hnone, hnone']
  · rw [hmode, hmode']
    exact hsame.opening_eq

omit hrefl in
theorem clausesOf_standsIn (h : st.StandsIn W st') (hmode : mode.StandsIn W mode')
    (children : List Nat) :
    src'.clausesOf st' mode' children = src.clausesOf st mode children := by
  unfold Source.clausesOf
  simp only [hmode.definition.illegal_eq, hmode.terminators_eq, hmode.source_eq,
    opening_standsIn h, pattern_standsIn hname hcase]

omit hrefl in
theorem finish_standsIn (hW : ∀ table table', W table table' →
      V (table.forGrammar src.ignoreCase) (table'.forGrammar src.ignoreCase))
    (hmode : mode.StandsIn W mode') (links : Links) (clauses : List Clause) :
    Agree (Mode.StandsIn V) (src.finish mode links clauses) (src'.finish mode' links clauses) := by
  have hdefinition := hmode.definition
  have hkeywords : Option.Rel V (mode.definition.keywords.map (·.forGrammar src.ignoreCase))
      (mode'.definition.keywords.map (·.forGrammar src.ignoreCase)) :=
    rel_map hdefinition.keywords hW
  unfold Source.finish
  dsimp only
  rw [hdefinition.wordPattern_eq, hdefinition.relevance_eq, hdefinition.scope_eq,
    hdefinition.flags_eq, hmode.source_eq, hmode.guard_eq, hmode.closing_eq, hname, hcase,
    pattern_standsIn hname hcase]
  refine (Agree.refl (R := Eq) fun _ => rfl).bind ?_
  rintro word _ rfl
  refine (Agree.refl (R := Eq) fun _ => rfl).bind ?_
  rintro rules _ rfl
  exact .ok ⟨rfl, hkeywords⟩

end

/-! ## Linking and compiling -/

section

variable (hrefl : ∀ table, W table table) (hsame : src.StandsIn W src' root)

include hrefl hsame

theorem link_standsIn (h : st.StandsIn W st') (hst : st.Contained src root) (self : Nat)
    (hmem : mode ∈ st.staged) (hmode : mode.StandsIn W mode') :
    Agree (SameStaged W) (src.link st self mode) (src'.link st' self mode') := by
  obtain ⟨d, hd, hcontains, hstarts⟩ := hst mode hmem
  have hforms : src'.formsOf mode'.definition.contains = src.formsOf mode.definition.contains := by
    rw [hmode.definition.contains_eq, hcontains]
    exact hsame.forms_eq d hd
  unfold Source.link
  rw [Source.stageChildren_eq, Source.stageChildren_eq, hforms, hmode.terminators_eq,
    hmode.parentTerminators_eq, hmode.definition.starts_eq]
  refine (stageForms_standsIn hrefl hsame.name_eq hsame.ignoreCase_eq h self fun form hform =>
    hsame.form_standsIn form (hst.needs hmem (.inl hform))).bind ?_
  rintro ⟨children, st₁⟩ ⟨_, st₁'⟩ ⟨heq, h₁⟩
  cases heq
  dsimp only
  cases hstart : mode.definition.starts with
  | none => exact .ok ⟨rfl, h₁⟩
  | some id =>
    have hform : (src.ofForm (id, none)).StandsIn W (src'.ofForm (id, none)) :=
      hsame.form_standsIn (id, none) (hst.needs hmem (.inr ⟨rfl, hstart⟩))
    refine (stage_standsIn hrefl hsame.name_eq hsame.ignoreCase_eq h₁ hform
      mode.parentTerminators).bind ?_
    rintro ⟨next, st₂⟩ ⟨_, st₂'⟩ ⟨heq, h₂⟩
    cases heq
    exact .ok ⟨rfl, h₂⟩

/-- Linking gives the same, whatever the numbers of rounds, if neither runs out of them. -/
theorem linkFrom_standsIn (hv : src.Validated root) (hv' : src'.Validated root)
    {rounds rounds' done : Nat} (hst : st.Sound src) (hst' : st'.Sound src')
    (hcontained : st.Contained src root) (h : st.StandsIn W st')
    (hrounds : src.maxModes ≤ done + rounds) (hrounds' : src'.maxModes ≤ done + rounds')
    (hdone : done ≤ st.staged.size) :
    Agree (SameStaged W) (src.linkFrom rounds done st) (src'.linkFrom rounds' done st') := by
  have hlt := hst.size_lt
  have hlt' := hst'.size_lt
  have hsize : st'.staged.size = st.staged.size := h.staged.length_eq.symm
  induction rounds generalizing st st' done rounds' with
  | zero => omega
  | succ rounds ih =>
    cases rounds' with
    | zero => omega
    | succ rounds' =>
      unfold Source.linkFrom
      rw [← Array.getElem?_toList, ← Array.getElem?_toList]
      rcases getElem?_of_forall₂ h.staged done with
        ⟨hnone, hnone'⟩ | ⟨mode, mode', hmode, hmode', halike⟩
      · rw [hnone, hnone']
        exact .ok ⟨rfl, h⟩
      · rw [hmode, hmode']
        rw [Array.getElem?_toList] at hmode hmode'
        have hmem := Array.mem_of_getElem? hmode
        refine (link_standsIn hrefl hsame h hcontained done hmem halike).bind_of_ok ?_
        rintro ⟨links, st₁⟩ ⟨_, st₁'⟩ hlink hlink' ⟨heq, h₁⟩
        cases heq
        obtain ⟨hst₁, hext, -⟩ := link_spec hv hst hmode hlink
        obtain ⟨hst₁', -, -⟩ := link_spec hv' hst' hmode' hlink'
        have hgrows := (link_grows hlink).1.mono fun form hform => hcontained.needs hmem hform
        have hdone₁ : done + 1 ≤ st₁.staged.size :=
          (Array.getElem?_eq_some_iff.1 (hext done mode hmode)).1
        refine (ih hst₁ hst₁' (hgrows.contained hcontained) h₁ (by omega) (by omega) hdone₁
          hst₁.size_lt hst₁'.size_lt h₁.staged.length_eq.symm).bind ?_
        rintro ⟨rest, st₂⟩ ⟨_, st₂'⟩ ⟨heq, h₂⟩
        cases heq
        exact .ok ⟨rfl, h₂⟩

theorem expand_standsIn (hv : src.Validated root) (hv' : src'.Validated root) :
    Agree (SameStaged W) (src.expand root) (src'.expand root) := by
  have hstage : (src.stageRoot root).StandsIn W (src'.stageRoot root) :=
    ⟨.cons ⟨hsame.root_standsIn, rfl, rfl, rfl, rfl, rfl, rfl⟩ .nil, rfl⟩
  exact linkFrom_standsIn hrefl hsame hv hv' (sound_stageRoot root hv) (sound_stageRoot root hv')
    (contained_stageRoot src root) hstage (by omega) (by omega) (Nat.zero_le _)

/-- **Definitions that stand in for each other** are compiled to modes that do, or refused for the
same reason. -/
theorem compile_standsIn (hW : ∀ table table', W table table' →
      V (table.forGrammar src.ignoreCase) (table'.forGrammar src.ignoreCase))
    (hv : src.validate root = .ok ()) (hv' : src'.validate root = .ok ()) :
    Agree (fun c c' => List.Forall₂ (Mode.StandsIn V) c.modes.toList c'.modes.toList ∧
      c'.illegal = c.illegal) (src.compile root) (src'.compile root) := by
  have hillegal : (src'.definitions.getD root {}).illegal = (src.definitions.getD root {}).illegal :=
    hsame.root_standsIn.illegal_eq
  unfold Source.compile
  rw [hv, hv', hillegal]
  refine (expand_standsIn hrefl hsame (Source.validated_of_validate hv)
    (Source.validated_of_validate hv')).bind ?_
  rintro ⟨links, st⟩ ⟨_, st'⟩ ⟨heq, h⟩
  cases heq
  have hlinked := zip_right h.staged links
  have hclauses := mapM_same hlinked
    (f := fun l => src.clausesOf st l.1 l.2.children)
    (g := fun l => src'.clausesOf st' l.1 l.2.children) fun l l' hl => by
      rw [hl.2]
      exact clausesOf_standsIn hsame.name_eq hsame.ignoreCase_eq h hl.1 _
  have hmodes (clauses : List (List Clause)) :=
    Agree.mapM (R := Mode.StandsIn V) (zip_right hlinked clauses)
      (f := fun ruled => src.finish ruled.1.1 ruled.1.2 ruled.2)
      (k := fun ruled => src'.finish ruled.1.1 ruled.1.2 ruled.2) fun r r' hr => by
        rw [hr.2, hr.1.2]
        exact finish_standsIn hsame.name_eq hsame.ignoreCase_eq hW hr.1.1 _ _
  simp only [hclauses, pattern_standsIn hsame.name_eq hsame.ignoreCase_eq]
  cases (src.definitions.getD root {}).illegal with
  | none =>
    simp only [pure_bind]
    refine (Agree.refl (R := Eq) fun _ => rfl).bind ?_
    rintro clauses _ rfl
    exact (hmodes clauses).bind fun modes modes' hmodes => .ok ⟨hmodes, rfl⟩
  | some source =>
    refine (Agree.refl (R := Eq) fun _ => rfl).bind ?_
    rintro illegal _ rfl
    refine (Agree.refl (R := Eq) fun _ => rfl).bind ?_
    rintro clauses _ rfl
    exact (hmodes clauses).bind fun modes modes' hmodes => .ok ⟨hmodes, rfl⟩

end

end ModeStack.Grammar
