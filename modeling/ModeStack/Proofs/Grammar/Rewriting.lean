import ModeStack.Proofs.Grammar.Pairing

/-!
# Rewriting definitions

A change of definitions, such as other places for the modes they refer to, is made to their
variants too (`Definition.throughout`). If it distributes over merging, a form of a changed
definition is the changed form (`throughout_withVariant`). So it suffices to know what the change
does to a single definition. Drafts that become the same by it are checked alike, if it leaves what
they are checked for (`validate_of_rewritten`).
-/

namespace ModeStack.Grammar

namespace Definition

/-! ## Changing variants too -/

mutual

/-- Makes a change to a definition and to its variants. -/
def throughout (f : Definition → Definition) : Definition → Definition
  | ⟨scope, opening, openingWords, closing, illegal, contains, variants, keywords, wordPattern,
      relevance, starts, flags⟩ =>
    { f ⟨scope, opening, openingWords, closing, illegal, contains, variants, keywords, wordPattern,
        relevance, starts, flags⟩ with variants := throughoutAll f variants }

/-- Makes a change to definitions and to their variants. -/
def throughoutAll (f : Definition → Definition) : List Definition → List Definition
  | [] => []
  | d :: ds => throughout f d :: throughoutAll f ds

end

variable {f : Definition → Definition} {d d' : Definition}

theorem throughoutAll_eq (ds : List Definition) : throughoutAll f ds = ds.map (throughout f) := by
  induction ds with
  | nil => rfl
  | cons d ds ih => rw [throughoutAll, ih, List.map_cons]

theorem throughout_eq (d : Definition) :
    d.throughout f = { f d with variants := d.variants.map (throughout f) } := by
  cases d
  rw [throughout, throughoutAll_eq]

@[simp] theorem throughout_variants (d : Definition) :
    (d.throughout f).variants = d.variants.map (throughout f) := by
  rw [throughout_eq]

mutual

/-- A change that leaves every definition as it is does so throughout. -/
theorem throughout_eq_self (hf : ∀ d, f d = d) : ∀ d : Definition, d.throughout f = d
  | ⟨_, _, _, _, _, _, variants, _, _, _, _, _⟩ => by
    rw [throughout, throughoutAll_eq_self hf variants, hf]

theorem throughoutAll_eq_self (hf : ∀ d, f d = d) : ∀ ds : List Definition, throughoutAll f ds = ds
  | [] => rfl
  | d :: ds => by
    rw [throughoutAll, throughout_eq_self hf d, throughoutAll_eq_self hf ds]

end

/-! ## Forms of changed definitions -/

/-- The definition with one of its variants merged in, or as it is. -/
def withVariant (d : Definition) (variant : Option Nat) : Definition :=
  match variant.bind (d.variants[·]?) with
  | some v => d.merged v
  | none => d

/-- A change that can be made before or after merging. -/
def Distributes (f : Definition → Definition) : Prop :=
  ∀ base variant : Definition,
    { f (base.merged variant) with variants := [] } = (f base).merged (f variant)

theorem throughout_merged (hf : Distributes f) (base variant : Definition) :
    (base.merged variant).throughout f = (base.throughout f).merged (variant.throughout f) := by
  have hmerge := hf base variant
  simp only [throughout_eq]
  exact hmerge

/-- **A form of a changed definition is the changed form.** -/
theorem throughout_withVariant (hf : Distributes f) (d : Definition) (variant : Option Nat) :
    (d.withVariant variant).throughout f = (d.throughout f).withVariant variant := by
  unfold withVariant
  rw [throughout_variants]
  cases variant with
  | none => rfl
  | some v =>
    simp only [Option.bind_some, List.getElem?_map]
    cases d.variants[v]? with
    | none => rfl
    | some variant => exact throughout_merged hf d variant

end Definition

/-! ## Sources -/

namespace Source

variable {src src' : Source}

/-- The definition at a place, empty if there is none. -/
def definitionAt (src : Source) (id : ModeId) : Definition := src.definitions.getD id {}

theorem resolve_eq (src : Source) (id : ModeId) (variant : Option Nat) :
    src.resolve id variant = (src.definitionAt id).withVariant variant := rfl

theorem definitionAt_of_getElem? {id : ModeId} {d : Definition}
    (h : src.definitions[id]? = some d) : src.definitionAt id = d := by
  rw [definitionAt, Array.getD_eq_getD_getElem?, h, Option.getD_some]

/-- The forms of a definition are told by the number of its variants. -/
theorem variantsOf_eq {id id' : ModeId}
    (h : (src'.definitionAt id').variants.length = (src.definitionAt id).variants.length) :
    src'.variantsOf id' = src.variantsOf id := by
  unfold variantsOf
  unfold definitionAt at h
  rw [h]

/-- If each child becomes children that stand for the images of its forms, so do all of them. -/
theorem formsOf_flatMap {image : Form → Form} {change : Child → List Child} {children : List Child}
    (h : ∀ child ∈ children,
      src'.formsOf (change child) = (src.formsOf [child]).map (Option.map image)) :
    src'.formsOf (children.flatMap change) = (src.formsOf children).map (Option.map image) := by
  induction children with
  | nil => rfl
  | cons child children ih =>
    have hrest := ih fun child hchild => h child (List.mem_cons_of_mem _ hchild)
    have hsplit : src.formsOf (child :: children) =
        src.formsOf [child] ++ src.formsOf children := by
      simp [formsOf]
    rw [List.flatMap_cons, hsplit, List.map_append, ← hrest, ← h child List.mem_cons_self]
    exact List.flatMap_append

@[simp] theorem formsOf_self : src.formsOf [.self] = [none] := rfl

@[simp] theorem formsOf_mode (id : ModeId) :
    src.formsOf [.mode id] = (src.variantsOf id).map fun variant => some (id, variant) := by
  simp [formsOf]

theorem mem_formsOf {children : List Child} {form : Form} :
    some form ∈ src.formsOf children ↔
      .mode form.1 ∈ children ∧ form.2 ∈ src.variantsOf form.1 := by
  unfold formsOf
  rw [List.mem_flatMap]
  constructor
  · rintro ⟨_ | id, hchild, hform⟩
    · obtain ⟨variant, hvariant, heq⟩ := List.mem_map.1 hform
      cases heq
      exact ⟨hchild, hvariant⟩
    · simp at hform
  · rintro ⟨hchild, hform⟩
    exact ⟨_, hchild, List.mem_map.2 ⟨_, hform, rfl⟩⟩

end Source

/-! ## Drafts that a change makes the same -/

/-- A change that leaves everything that drafts are checked for. -/
structure Definition.Keeps (f : Definition → Definition) : Prop where
  closing_eq : ∀ d, (f d).closing = d.closing
  contains_eq : ∀ d, (f d).contains = d.contains
  starts_eq : ∀ d, (f d).starts = d.starts
  flags_eq : ∀ d, (f d).flags = d.flags

/-- A draft with a change made to all definitions, in their variants too. -/
def Draft.rewritten (f : Definition → Definition) (draft : Draft) : Draft :=
  { draft with definitions := draft.definitions.map (Definition.throughout f) }

section

variable {f : Definition → Definition} {d d' : Definition} {draft draft' : Draft}

/-- Definitions that a change makes the same refer to the same modes. -/
theorem Definition.contains_of_throughout (hf : Keeps f)
    (h : d'.throughout f = d.throughout f) : d'.contains = d.contains ∧ d'.starts = d.starts := by
  rw [throughout_eq, throughout_eq] at h
  have hcontains := congrArg Definition.contains h
  have hstarts := congrArg Definition.starts h
  dsimp only at hcontains hstarts
  rw [hf.contains_eq, hf.contains_eq] at hcontains
  rw [hf.starts_eq, hf.starts_eq] at hstarts
  exact ⟨hcontains, hstarts⟩

theorem Definition.references_throughout (hf : Keeps f) (d : Definition) :
    (d.throughout f).references = d.references := by
  have hfields (v : Definition) :
      (v.throughout f).contains = v.contains ∧ (v.throughout f).starts = v.starts := by
    rw [throughout_eq]
    exact ⟨hf.contains_eq v, hf.starts_eq v⟩
  simp only [references, (hfields d).1, (hfields d).2, throughout_variants, List.flatMap_map,
    (hfields _).1, (hfields _).2]

theorem Definition.cannotBeRoot_throughout (hf : Keeps f) (d : Definition) :
    (d.throughout f).cannotBeRoot = d.cannotBeRoot := by
  rw [throughout_eq]
  simp [cannotBeRoot, List.isEmpty_map, hf.closing_eq, hf.flags_eq]

variable (h : draft'.rewritten f = draft.rewritten f)

include h

theorem Draft.fields_of_rewritten : draft'.name = draft.name ∧
    draft'.ignoreCase = draft.ignoreCase ∧ draft'.root = draft.root := by
  simp only [Draft.rewritten, Draft.mk.injEq] at h
  exact ⟨h.1, h.2.2.1, h.2.2.2.2.2⟩

/-- The change makes the definitions at a place the same, or there is none on both sides. -/
theorem Draft.getElem?_of_rewritten (id : ModeId) :
    draft'.definitions[id]?.map (Definition.throughout f) =
      draft.definitions[id]?.map (Definition.throughout f) := by
  have hdefinitions := congrArg (·.definitions[id]?) h
  simpa [Draft.rewritten] using hdefinitions

theorem Draft.definitionAt_of_rewritten (id : ModeId) :
    (draft'.source.definitionAt id).throughout f = (draft.source.definitionAt id).throughout f := by
  have hget := Draft.getElem?_of_rewritten h id
  simp only [Source.definitionAt, Draft.source, Array.getD_eq_getD_getElem?]
  cases hd : draft.definitions[id]? with
  | none =>
    rw [hd] at hget
    rw [Option.map_eq_none_iff.1 hget]
  | some d =>
    rw [hd] at hget
    obtain ⟨d', hd', heq⟩ := Option.map_eq_some_iff.1 hget
    rw [hd']
    exact heq

/-- The change makes the forms of a definition the same. -/
theorem Draft.resolve_of_rewritten (hd : Definition.Distributes f) (id : ModeId)
    (variant : Option Nat) : (draft'.source.resolve id variant).throughout f =
      (draft.source.resolve id variant).throughout f := by
  simp only [Source.resolve_eq, Definition.throughout_withVariant hd]
  exact congrArg (·.withVariant variant) (Draft.definitionAt_of_rewritten h id)

theorem Draft.variantsOf_of_rewritten (id : ModeId) :
    draft'.source.variantsOf id = draft.source.variantsOf id := by
  have heq := congrArg Definition.variants (Draft.definitionAt_of_rewritten h id)
  rw [Definition.throughout_variants, Definition.throughout_variants] at heq
  exact Source.variantsOf_eq (by simpa using congrArg List.length heq)

theorem Draft.dangling_of_rewritten (hf : Definition.Keeps f)
    (hdangling : draft.source.Dangling) : draft'.source.Dangling := by
  obtain ⟨id, d, hd, r, hr, hle⟩ := hdangling
  have hget := Draft.getElem?_of_rewritten h id
  have hd : draft.definitions[id]? = some d := hd
  have hsize : draft'.definitions.size = draft.definitions.size := by
    simpa [Draft.rewritten] using congrArg (·.definitions.size) h
  rw [hd] at hget
  obtain ⟨d', hd', heq⟩ := Option.map_eq_some_iff.1 hget
  refine ⟨id, d', hd', r, ?_, hsize.trans_le hle⟩
  rwa [← Definition.references_throughout hf, heq, Definition.references_throughout hf]

/-- **Drafts that a change makes the same are checked alike.** -/
theorem validate_of_rewritten (hf : Definition.Keeps f) (root : ModeId) :
    Agree (fun _ _ => True) (draft.source.validate root) (draft'.source.validate root) := by
  refine validate_agree (Draft.fields_of_rewritten h).1 ?_
    ⟨Draft.dangling_of_rewritten h.symm hf, Draft.dangling_of_rewritten h hf⟩
  have hroot := congrArg (Option.map Definition.cannotBeRoot) (Draft.getElem?_of_rewritten h root)
  simp only [Option.map_map, Function.comp_def, Definition.cannotBeRoot_throughout hf] at hroot
  exact hroot

end

end ModeStack.Grammar
