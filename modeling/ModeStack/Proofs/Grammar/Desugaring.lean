import ModeStack.Proofs.Grammar.Rewriting
import ModeStack.Proofs.Rule.Searches

/-!
# Variants written out

Variants are a way of writing several modes as one. A mode `m` with variants can be written out:
each variant, merged over the mode, becomes a definition of its own at the end of the draft, and
wherever `m` is a child, these definitions are children instead (`Draft.writtenOut`). If no mode
starts `m`, and nothing already names the places that the new definitions take, the draft is built
as before, with the same number of modes and scans that cannot be told apart, or is refused for the
same reason (`build_writtenOut`).
-/

namespace ModeStack.Grammar

/-! ## Writing out -/

/-- The children for a child, when the variants of `m` stand at `count` places from `first` on. -/
def Child.spread (m first count : Nat) : Child → List Child
  | .mode id => if id = m then (List.range' first count).map .mode else [.mode id]
  | .self => [.self]

/-- A definition with the variants of `m` as children in its place. -/
def Definition.spreading (m first count : Nat) (d : Definition) : Definition :=
  { d with contains := d.contains.flatMap (Child.spread m first count) }

/-- A definition with the variants of `m` as children in its place, in its variants too. -/
def Definition.spread (m first count : Nat) : Definition → Definition :=
  Definition.throughout (Definition.spreading m first count)

namespace Draft

variable (draft : Draft) (m : ModeId)

/-- The variants of a mode. -/
def variantsAt : List Definition := (draft.source.definitionAt m).variants

/-- The change made to the definitions of a draft when the variants of `m` are written out. -/
def spread : Definition → Definition :=
  Definition.spread m draft.definitions.size (draft.variantsAt m).length

/-- A draft with the variants of `m` written out at the end. -/
def writtenOut : Draft :=
  { draft with
    definitions := draft.definitions.map (draft.spread m) ++
      ((draft.variantsAt m).map fun variant =>
        draft.spread m ((draft.source.definitionAt m).merged variant)).toArray }

/-- A place is not one that the new definitions take. -/
def Apart (place : ModeId) : Prop :=
  place < draft.definitions.size ∨ draft.definitions.size + (draft.variantsAt m).length ≤ place

/-- The mode has variants and is started by no mode, and neither the root nor a reference is a
place that the new definitions take. -/
structure CanWriteOut : Prop where
  variants_ne : draft.variantsAt m ≠ []
  not_started : ∀ d ∈ draft.definitions, d.starts ≠ some m ∧ ∀ v ∈ d.variants, v.starts ≠ some m
  references_apart : ∀ d ∈ draft.definitions, ∀ r ∈ d.references, draft.Apart m r
  root_apart : ∀ root ∈ draft.root, draft.Apart m root

end Draft

/-! ## What it does to a definition -/

section

variable {m first count : Nat} {d : Definition}

theorem Definition.spread_eq (d : Definition) :
    d.spread m first count =
      { d.spreading m first count with
        variants := d.variants.map (Definition.spread m first count) } := throughout_eq d

theorem Definition.alike_spread (scored : Bool) (d : Definition) :
    d.Alike scored (d.spread m first count) := by
  rw [spread_eq]
  exact ⟨rfl, rfl, rfl, rfl, rfl, rfl, rfl, rfl, fun _ => ⟨rfl, rfl⟩⟩

theorem Definition.cannotBeRoot_spread (d : Definition) :
    (d.spread m first count).cannotBeRoot = d.cannotBeRoot := by
  rw [spread_eq]
  simp [cannotBeRoot, spreading, List.isEmpty_map]

/-- As there are variants, children stay children. -/
theorem Child.isEmpty_flatMap_spread (hcount : 0 < count) (children : List Child) :
    (children.flatMap (Child.spread m first count)).isEmpty = children.isEmpty := by
  cases children with
  | nil => rfl
  | cons child children =>
    have hne : Child.spread m first count child ≠ [] := by
      cases child with
      | self => simp [spread]
      | mode id =>
        simp only [spread]
        split_ifs
        · simp [hcount.ne']
        · simp
    simp [hne]

theorem Definition.distributes_spreading (hcount : 0 < count) :
    Distributes (spreading m first count) := by
  intro base variant
  simp only [spreading, merged, Child.isEmpty_flatMap_spread hcount, Definition.mk.injEq, true_and,
    and_true]
  split_ifs <;> rfl

theorem mem_modesOf {children : List Child} {r : ModeId} :
    r ∈ Definition.modesOf children ↔ .mode r ∈ children := by
  unfold Definition.modesOf
  rw [List.mem_filterMap]
  constructor
  · rintro ⟨_ | id, hchild, heq⟩
    · cases heq
      exact hchild
    · cases heq
  · exact fun hchild => ⟨_, hchild, rfl⟩

theorem mode_mem_spread {children : List Child} {r : ModeId}
    (h : .mode r ∈ children.flatMap (Child.spread m first count)) :
    .mode r ∈ children ∨ first ≤ r ∧ r < first + count := by
  obtain ⟨child, hchild, hr⟩ := List.mem_flatMap.1 h
  cases child with
  | self => simp [Child.spread] at hr
  | mode id =>
    simp only [Child.spread] at hr
    split_ifs at hr
    · obtain ⟨place, hplace, heq⟩ := List.mem_map.1 hr
      cases heq
      exact .inr (by simpa using hplace)
    · rw [List.mem_singleton.1 hr]
      exact .inl hchild

/-- What a spread definition refers to, the definition refers to itself, or it is one of the new
places. -/
theorem Definition.mem_references_of_spread {r : ModeId}
    (h : r ∈ (d.spread m first count).references) :
    r ∈ d.references ∨ first ≤ r ∧ r < first + count := by
  rw [spread_eq] at h
  simp only [references, List.mem_append, List.mem_flatMap, mem_modesOf] at h ⊢
  rcases h with (h | h) | ⟨_, hmem, h⟩
  · exact (mode_mem_spread h).imp_left fun h => .inl (.inl h)
  · exact .inl (.inl (.inr h))
  · obtain ⟨v, hv, rfl⟩ := List.mem_map.1 hmem
    rw [spread_eq] at h
    rcases h with h | h
    · exact (mode_mem_spread h).imp_left fun h => .inr ⟨v, hv, .inl h⟩
    · exact .inl (.inr ⟨v, hv, .inr h⟩)

/-- All references but those to `m` remain. -/
theorem Definition.mem_references_spread {r : ModeId} (h : r ∈ d.references) (hne : r ≠ m) :
    r ∈ (d.spread m first count).references := by
  have hkeep {children : List Child} (hr : .mode r ∈ children) :
      .mode r ∈ children.flatMap (Child.spread m first count) :=
    List.mem_flatMap.2 ⟨.mode r, hr, by simp [Child.spread, hne]⟩
  rw [spread_eq]
  simp only [references, List.mem_append, List.mem_flatMap, mem_modesOf] at h ⊢
  rcases h with (h | h) | ⟨v, hv, h⟩
  · exact .inl (.inl (hkeep h))
  · exact .inl (.inr h)
  · refine .inr ⟨_, List.mem_map_of_mem hv, ?_⟩
    rw [spread_eq]
    exact h.imp_left hkeep

end

/-! ## What it does to a draft -/

section

variable {draft : Draft} {m : ModeId}

theorem Draft.size_writtenOut (draft : Draft) (m : ModeId) :
    (draft.writtenOut m).definitions.size =
      draft.definitions.size + (draft.variantsAt m).length := by
  simp [writtenOut]

/-- The definitions of the draft stay where they are. -/
theorem Draft.getElem?_writtenOut {id : ModeId} (hid : id < draft.definitions.size) :
    (draft.writtenOut m).definitions[id]? = draft.definitions[id]?.map (draft.spread m) := by
  unfold writtenOut
  rw [Array.getElem?_append_left (by simpa using hid), Array.getElem?_map]

/-- The variants follow. -/
theorem Draft.getElem?_writtenOut_add (v : Nat) :
    (draft.writtenOut m).definitions[draft.definitions.size + v]? =
      (draft.variantsAt m)[v]?.map fun variant =>
        draft.spread m ((draft.source.definitionAt m).merged variant) := by
  unfold writtenOut
  rw [Array.getElem?_append_right (by simp)]
  simp

theorem Draft.resolve_some {v : Nat} {variant : Definition}
    (hv : (draft.variantsAt m)[v]? = some variant) :
    draft.source.resolve m (some v) = (draft.source.definitionAt m).merged variant := by
  have hv : (draft.source.definitionAt m).variants[v]? = some variant := hv
  simp only [Source.resolve_eq, Definition.withVariant, Option.bind_some, hv]

/-- A definition of the new draft is one of the old, spread, or one of the variants. -/
theorem Draft.getElem?_writtenOut_cases {id : ModeId} {d' : Definition}
    (hd : (draft.writtenOut m).definitions[id]? = some d') :
    (∃ d, draft.definitions[id]? = some d ∧ d' = draft.spread m d) ∨
    ∃ v, (draft.source.resolve m (some v)).variants = [] ∧
      d' = draft.spread m (draft.source.resolve m (some v)) := by
  rcases Nat.lt_or_ge id draft.definitions.size with hlt | hge
  · rw [Draft.getElem?_writtenOut hlt] at hd
    obtain ⟨d, hget, rfl⟩ := Option.map_eq_some_iff.1 hd
    exact .inl ⟨d, hget, rfl⟩
  · obtain ⟨v, rfl⟩ := Nat.exists_eq_add_of_le hge
    rw [Draft.getElem?_writtenOut_add] at hd
    obtain ⟨variant, hv, rfl⟩ := Option.map_eq_some_iff.1 hd
    rw [← Draft.resolve_some hv]
    exact .inr ⟨v, by rw [Draft.resolve_some hv]; rfl, rfl⟩

namespace Draft.CanWriteOut

variable (h : draft.CanWriteOut m)

include h

theorem pos : 0 < (draft.variantsAt m).length := List.length_pos_iff.2 h.variants_ne

theorem lt_size : m < draft.definitions.size := by
  by_contra hge
  have hnone : draft.definitions[m]? = none := Array.getElem?_eq_none (not_lt.1 hge)
  refine h.variants_ne ?_
  simp [variantsAt, Source.definitionAt, Draft.source, Array.getD_eq_getD_getElem?, hnone]

/-- Writing out neither adds nor removes a dangling reference. -/
theorem dangling_iff : (draft.writtenOut m).source.Dangling ↔ draft.source.Dangling := by
  have hsize := draft.size_writtenOut m
  constructor
  · rintro ⟨id, d', hd', r, hr, hle⟩
    have hle : (draft.writtenOut m).definitions.size ≤ r := hle
    have hle' : draft.definitions.size ≤ r := by omega
    rcases Draft.getElem?_writtenOut_cases hd' with ⟨d, hd, rfl⟩ | ⟨v, hnone, rfl⟩
    · rcases Definition.mem_references_of_spread hr with hr | ⟨-, hr⟩
      · exact ⟨id, d, hd, r, hr, hle'⟩
      · exact absurd (hsize.symm.trans_le hle) (not_le.2 hr)
    · rcases Definition.mem_references_of_spread hr with hr | ⟨-, hr⟩
      · simp only [Definition.references, hnone, List.flatMap_nil, List.append_nil,
          List.mem_append, mem_modesOf, Option.mem_toList] at hr
        obtain ⟨d, hd, hmem⟩ := draft.source.resolve_references m (some v) hr
        exact ⟨m, d, hd, r, hmem, hle'⟩
      · exact absurd (hsize.symm.trans_le hle) (not_le.2 hr)
  · rintro ⟨id, d, hd, r, hr, hle⟩
    have hd : draft.definitions[id]? = some d := hd
    have hle : draft.definitions.size ≤ r := hle
    have hid := (Array.getElem?_eq_some_iff.1 hd).1
    have hne : r ≠ m := (h.lt_size.trans_le hle).ne'
    refine ⟨id, draft.spread m d, ?_, r, Definition.mem_references_spread hr hne, ?_⟩
    · show (draft.writtenOut m).definitions[id]? = _
      rw [Draft.getElem?_writtenOut hid, hd]
      rfl
    · rcases h.references_apart d (Array.mem_of_getElem? hd) r hr with hr | hr
      · exact absurd hr (not_lt.2 hle)
      · exact hsize.trans_le hr

theorem validate_writtenOut {root : ModeId} (hroot : draft.root = some root) :
    Agree (fun _ _ => True) (draft.source.validate root)
      ((draft.writtenOut m).source.validate root) := by
  refine validate_agree rfl ?_ h.dangling_iff
  show ((draft.writtenOut m).definitions[root]?).map _ = (draft.definitions[root]?).map _
  rcases h.root_apart root hroot with hlt | hge
  · rw [Draft.getElem?_writtenOut hlt, Option.map_map]
    congr 1
    funext d
    exact Definition.cannotBeRoot_spread d
  · rw [Array.getElem?_eq_none ((draft.size_writtenOut m).trans_le hge),
      Array.getElem?_eq_none (by omega)]

end Draft.CanWriteOut

/-! ## Building -/

/-- A form is its own image, but that of a variant of `m` is the definition it has become. -/
def writtenOutPairing (draft : Draft) (m : ModeId) :
    Pairing draft.source (draft.writtenOut m).source where
  scored := true
  forms := {form | form.1 < draft.definitions.size ∧
    (form.1 = m → ∃ v < (draft.variantsAt m).length, form.2 = some v)}
  image form := if form.1 = m then (draft.definitions.size + form.2.getD 0, none) else form

theorem Draft.definitionAt_writtenOut {id : ModeId} (hid : id < draft.definitions.size) :
    (draft.writtenOut m).source.definitionAt id = draft.spread m (draft.source.definitionAt id) := by
  have hd : draft.source.definitions[id]? = some draft.definitions[id] :=
    Array.getElem?_eq_getElem hid
  have hd' : (draft.writtenOut m).source.definitions[id]? =
      some (draft.spread m draft.definitions[id]) :=
    (Draft.getElem?_writtenOut hid).trans (congrArg (Option.map _) hd)
  rw [Source.definitionAt_of_getElem? hd, Source.definitionAt_of_getElem? hd']

theorem Draft.definitionAt_writtenOut_add {v : Nat} (hv : v < (draft.variantsAt m).length) :
    (draft.writtenOut m).source.definitionAt (draft.definitions.size + v) =
      draft.spread m (draft.source.resolve m (some v)) := by
  have hget : (draft.variantsAt m)[v]? = some (draft.variantsAt m)[v] := List.getElem?_eq_getElem hv
  have hd' : (draft.writtenOut m).source.definitions[draft.definitions.size + v]? =
      some (draft.spread m ((draft.source.definitionAt m).merged (draft.variantsAt m)[v])) :=
    (Draft.getElem?_writtenOut_add v).trans (congrArg (Option.map _) hget)
  rw [Source.definitionAt_of_getElem? hd', Draft.resolve_some hget]

theorem Draft.variantsOf_writtenOut {id : ModeId} (hid : id < draft.definitions.size) :
    (draft.writtenOut m).source.variantsOf id = draft.source.variantsOf id := by
  refine Source.variantsOf_eq ?_
  rw [Draft.definitionAt_writtenOut hid, Draft.spread, Definition.spread_eq, List.length_map]

theorem Draft.variantsOf_writtenOut_add {v : Nat} (hv : v < (draft.variantsAt m).length) :
    (draft.writtenOut m).source.variantsOf (draft.definitions.size + v) = [none] := by
  have hnone : ((draft.writtenOut m).source.definitionAt
      (draft.definitions.size + v)).variants = [] := by
    rw [Draft.definitionAt_writtenOut_add hv, Draft.resolve_some (List.getElem?_eq_getElem hv),
      Draft.spread, Definition.spread_eq]
    rfl
  unfold Source.definitionAt at hnone
  unfold Source.variantsOf
  rw [hnone]
  rfl

namespace Draft.CanWriteOut

variable (h : draft.CanWriteOut m)

include h

/-- The image of a form is the form, spread. -/
theorem resolve_image {form : Form} (hform : form ∈ (writtenOutPairing draft m).forms) :
    (draft.writtenOut m).source.resolve ((writtenOutPairing draft m).image form).1
        ((writtenOutPairing draft m).image form).2 =
      draft.spread m (draft.source.resolve form.1 form.2) := by
  obtain ⟨id, variant⟩ := form
  obtain ⟨hid, hvariant⟩ := hform
  dsimp only [writtenOutPairing]
  split_ifs with hm
  · cases hm
    obtain ⟨v, hv, rfl⟩ := hvariant rfl
    exact Draft.definitionAt_writtenOut_add hv
  · rw [Source.resolve_eq, Draft.definitionAt_writtenOut hid]
    exact (Definition.throughout_withVariant (Definition.distributes_spreading h.pos) _ variant).symm

/-- Nothing that a form is starts `m`. -/
theorem resolve_starts_ne (id : ModeId) (variant : Option Nat) :
    (draft.source.resolve id variant).starts ≠ some m := by
  rcases draft.source.resolve_cases id variant with heq | ⟨d, hd, heq | ⟨v, hv, heq⟩⟩
  · rw [heq]
    simp
  · rw [heq]
    exact (h.not_started d (Array.mem_of_getElem? hd)).1
  · rw [heq]
    obtain ⟨hbase, hvariant⟩ := h.not_started d (Array.mem_of_getElem? hd)
    intro hstarts
    rcases Option.or_eq_some_iff.1 hstarts with hs | ⟨-, hs⟩
    · exact hvariant v hv hs
    · exact hbase hs

theorem variantsOf_self :
    draft.source.variantsOf m = (List.range (draft.variantsAt m).length).map some := by
  have hpos := h.pos
  unfold Draft.variantsAt Source.definitionAt at hpos ⊢
  unfold Source.variantsOf
  split
  · omega
  · rfl

/-- The children that stand for a child refer to the images of its forms. -/
theorem formsOf_spread {child : Child}
    (hchild : ∀ r, child = .mode r → r < draft.definitions.size) :
    (draft.writtenOut m).source.formsOf
        (child.spread m draft.definitions.size (draft.variantsAt m).length) =
      (draft.source.formsOf [child]).map (Option.map (writtenOutPairing draft m).image) := by
  cases child with
  | self => rfl
  | mode r =>
    simp only [Child.spread, Source.formsOf_mode, List.map_map]
    split_ifs with hr
    · subst hr
      rw [h.variantsOf_self, List.range'_eq_map_range, List.map_map, List.map_map,
        Source.formsOf, List.flatMap_map, List.map_eq_flatMap]
      refine List.flatMap_congr fun v hv => ?_
      have hv := List.mem_range.1 hv
      simp [writtenOutPairing, Draft.variantsOf_writtenOut_add hv]
    · rw [Source.formsOf_mode, Draft.variantsOf_writtenOut (hchild r rfl)]
      refine List.map_congr_left fun variant _ => ?_
      simp [writtenOutPairing, hr]

theorem faithful {root : ModeId} (hv : draft.source.Validated root) :
    (writtenOutPairing draft m).Faithful where
  name_eq := rfl
  ignoreCase_eq := rfl
  injOn := by
    rintro ⟨id, variant⟩ ⟨hid, hvariant⟩ ⟨id', variant'⟩ ⟨hid', hvariant'⟩ heq
    dsimp only [writtenOutPairing] at heq hid hid' hvariant hvariant'
    split_ifs at heq with hm hm' hm'
    · obtain ⟨v, -, rfl⟩ := hvariant hm
      obtain ⟨v', -, rfl⟩ := hvariant' hm'
      simp only [Option.getD_some, Prod.mk.injEq, Nat.add_left_cancel_iff, and_true] at heq
      rw [hm, hm', heq]
    · rw [← (Prod.mk.inj heq).1] at hid'
      exact absurd hid' (not_lt.2 (Nat.le_add_right _ _))
    · rw [(Prod.mk.inj heq).1] at hid
      exact absurd hid (not_lt.2 (Nat.le_add_right _ _))
    · exact heq
  counterpart := by
    rintro form hform
    have hrefers {r : ModeId} (hr : .mode r ∈ (draft.source.resolve form.1 form.2).contains ∨
        (draft.source.resolve form.1 form.2).starts = some r) : r < draft.definitions.size := by
      obtain ⟨d, hd, hmem⟩ := draft.source.resolve_references form.1 form.2 hr
      exact hv.references_lt _ d hd r hmem
    have hstarts := h.resolve_starts_ne form.1 form.2
    rw [h.resolve_image hform]
    exact {
      alike := Definition.alike_spread true _
      contains_eq := by
        rw [Draft.spread, Definition.spread_eq]
        refine Source.formsOf_flatMap fun child hchild => h.formsOf_spread ?_
        rintro r rfl
        exact hrefers (.inl hchild)
      starts_eq := by
        rw [Draft.spread, Definition.spread_eq]
        show (draft.source.resolve form.1 form.2).starts.map (·, none) = _
        cases hs : (draft.source.resolve form.1 form.2).starts with
        | none => rfl
        | some r =>
          have hne : r ≠ m := by
            rintro rfl
            exact hstarts hs
          simp [writtenOutPairing, hne]
      contains_mem := by
        rintro ⟨r, variant⟩ hr
        obtain ⟨hchild, hvariant⟩ := Source.mem_formsOf.1 hr
        refine ⟨hrefers (.inl hchild), fun hm => ?_⟩
        cases hm
        rw [h.variantsOf_self] at hvariant
        simpa [eq_comm] using hvariant
      starts_mem := fun r hr => ⟨hrefers (.inr hr), fun hm => by
        cases hm
        exact absurd hr hstarts⟩ }

end Draft.CanWriteOut

/-- **Variants are a way of writing modes.** A draft with the variants of a mode written out is
built with as many modes and scans that cannot be told apart, or is refused for the same reason. -/
theorem build_writtenOut (h : draft.CanWriteOut m) :
    Agree Indistinguishable draft.build (draft.writtenOut m).build := by
  cases hroot : draft.root with
  | none => exact Draft.build_of_no_root hroot hroot rfl
  | some root =>
    refine (Pairing.build_agree (p := writtenOutPairing draft m) hroot hroot
      (h.validate_writtenOut hroot) fun hvalid => ?_).mono fun _ _ halike =>
        halike.indistinguishable
    have hv := Source.validated_of_validate hvalid
    have hne : root ≠ m := by
      rintro rfl
      have hlt := hv.root_lt
      have hd := Array.getElem?_eq_getElem hlt
      have hvariants := h.variants_ne
      rw [Draft.variantsAt, Source.definitionAt_of_getElem? hd] at hvariants
      have hfit := cannotBeRoot_of_validate hvalid hd
      simp [Definition.cannotBeRoot, hvariants] at hfit
    refine ⟨h.faithful hv, ⟨hv.root_lt, fun heq => absurd heq hne⟩, ?_⟩
    simp [writtenOutPairing, hne]

end

/-! ## Quotes of two kinds -/

/-- Quotes of two kinds, each of which can contain both. -/
def quoting : Draft where
  name := "quoting"
  definitions := #[
    { scope := some "quoted"
      variants := [
        { opening := some "<", closing := some ">" },
        { opening := some "\\(", closing := some "\\)" }]
      contains := [.self, .mode 0] },
    { contains := [.mode 0] }]
  root := some 1

theorem quoting_canWriteOut : quoting.CanWriteOut 0 where
  variants_ne := List.cons_ne_nil _ _
  not_started := by decide
  references_apart d hd r hr := by
    have hlt : ∀ d ∈ quoting.definitions, ∀ r ∈ d.references, r < quoting.definitions.size := by
      decide
    exact .inl (hlt d hd r hr)
  root_apart root hroot := by
    cases hroot
    exact .inl (by decide)

/-- Written out, the quotes are the same. -/
theorem quoting_build_writtenOut : ∃ g g', quoting.build = .ok g ∧
    (quoting.writtenOut 0).build = .ok g' ∧ g.modeCount = 3 ∧ Indistinguishable g g' := by
  obtain ⟨g, hg, hcount⟩ := quoting.exists_built (·.modeCount = 3) (by decide +kernel)
  obtain ⟨g', hg', -⟩ := (quoting.writtenOut 0).exists_built (fun _ => True) (by decide +kernel)
  have hagree := build_writtenOut quoting_canWriteOut
  rw [hg, hg'] at hagree
  exact ⟨g, g', hg, hg', hcount, hagree.of_ok⟩

/-- A draft in which a mode refers to the place after the last. When a variant is written out, it
takes that place. -/
def straying : Draft where
  name := "straying"
  definitions := #[
    { scope := some "a", opening := some "x", variants := [{ opening := some "y" }] },
    { opening := some "z", contains := [.mode 3] },
    { contains := [.mode 0, .mode 1] }]
  root := some 2

/-- If a dangling reference is to a place that a written out variant takes, writing out repairs
it. -/
theorem straying_writtenOut : straying.variantsAt 0 ≠ [] ∧
    (∀ d ∈ straying.definitions, d.starts ≠ some 0 ∧ ∀ v ∈ d.variants, v.starts ≠ some 0) ∧
    straying.build = .error (.unknownMode "straying" 1 3) ∧
    (∃ g, (straying.writtenOut 0).build = .ok g) ∧
    ¬Agree Indistinguishable straying.build (straying.writtenOut 0).build := by
  have herror : straying.build = .error (.unknownMode "straying" 1 3) := by rfl
  obtain ⟨g, hg, -⟩ := (straying.writtenOut 0).exists_built (fun _ => True) (by decide +kernel)
  refine ⟨List.cons_ne_nil _ _, by decide, herror, ⟨g, hg⟩, fun hagree => ?_⟩
  rw [herror, hg] at hagree
  cases hagree

end ModeStack.Grammar
