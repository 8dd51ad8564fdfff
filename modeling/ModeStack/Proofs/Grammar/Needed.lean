import ModeStack.Proofs.Grammar.Growth
import ModeStack.Proofs.Grammar.Rewriting

/-!
# The modes that are needed

A form is needed if the root refers to it, or a form that is needed. A form stands for the
definition with the variant merged in; the mode that another starts is needed without variant.

Expanding a source compiles what is needed and nothing else. If it succeeds, the staged modes
beside the root stand for the needed forms (`needed_iff_stagedAs`); if it fails, a needed form
cannot be compiled (`exists_of_expand_eq_error`).
-/

namespace ModeStack.Grammar

open ModeStack.Rule (Part)
open ModeStack.Regex (exists_of_bind_eq_ok)

/-- Steps that fail: the first does, or it succeeds and the rest fails. -/
theorem failed_of_bind_eq_error {ε α β : Type} {x : Except ε α} {f : α → Except ε β} {e : ε}
    (h : x >>= f = .error e) : x = .error e ∨ ∃ a, x = .ok a ∧ f a = .error e := by
  cases x with
  | error e' =>
    cases h
    exact .inl rfl
  | ok a => exact .inr ⟨a, rfl, h⟩

theorem error_bind {ε α β : Type} {x : Except ε α} {e : ε} (h : x = .error e)
    (f : α → Except ε β) : x >>= f = .error e := by
  rw [h]
  rfl

variable {src : Source} {root : ModeId} {st st' : Stage} {form : Form} {e : Error}

/-- The definition that a form stands for. -/
abbrev Source.ofForm (src : Source) (form : Form) : Definition := src.resolve form.1 form.2

/-- The forms that can be reached from the root, by children and by modes that are started. -/
inductive Source.Needs (src : Source) (root : ModeId) : Form → Prop
  | root {form : Form} : form ∈ src.referred (src.definitionAt root) → Needs src root form
  | next {form form' : Form} : Needs src root form → form' ∈ src.referred (src.ofForm form) →
      Needs src root form'

/-! ## In range -/

theorem mem_forms_of_referred (hv : src.Validated root) {id : ModeId} {variant : Option Nat}
    (h : form ∈ src.referred (src.resolve id variant)) : form ∈ src.forms := by
  obtain ⟨id', variant'⟩ := form
  rcases h with h | ⟨rfl, h⟩
  · obtain ⟨hmem, hvariant⟩ := Source.mem_formsOf.1 h
    obtain ⟨d, hd, hr⟩ := src.resolve_references id variant (.inl hmem)
    exact mem_forms_of_mem_variantsOf (hv.references_lt id d hd id' hr) hvariant
  · obtain ⟨d, hd, hr⟩ := src.resolve_references id variant (.inr h)
    exact Source.mem_forms (Array.getElem?_eq_getElem (hv.references_lt id d hd id' hr)) (by simp)

/-- **What is needed is there**: every definition that is looked up, and the variant of it. -/
theorem Source.Needs.mem_forms (hv : src.Validated root) (h : src.Needs root form) :
    form ∈ src.forms := by
  cases h with
  | root h =>
    have h : form ∈ src.referred (src.resolve root none) := h
    exact mem_forms_of_referred hv h
  | next _ h => exact mem_forms_of_referred hv h

/-- The definition of the root, or one that a needed form stands for. -/
def Source.NeedsDefinition (src : Source) (root : ModeId) (d : Definition) : Prop :=
  d = src.definitionAt root ∨ ∃ form, src.Needs root form ∧ d = src.ofForm form

theorem Source.NeedsDefinition.needs {d : Definition} (h : src.NeedsDefinition root d)
    (hform : form ∈ src.referred d) : src.Needs root form := by
  rcases h with rfl | ⟨form', hneeds, rfl⟩
  · exact .root hform
  · exact .next hneeds hform

/-- Every staged mode refers to the same as a definition that is needed. -/
def Stage.Contained (src : Source) (root : ModeId) (st : Stage) : Prop :=
  ∀ mode ∈ st.staged, ∃ d, src.NeedsDefinition root d ∧ mode.definition.contains = d.contains ∧
    mode.definition.starts = d.starts

theorem contained_stageRoot (src : Source) (root : ModeId) :
    (src.stageRoot root).Contained src root := by
  intro mode hmode
  simp only [Source.stageRoot, List.mem_toArray, List.mem_singleton] at hmode
  subst hmode
  exact ⟨src.definitionAt root, .inl rfl, rfl, rfl⟩

theorem Source.referred_eq {d d' : Definition} (hcontains : d'.contains = d.contains)
    (hstarts : d'.starts = d.starts) : src.referred d' = src.referred d := by
  rw [referred, referred, hcontains, hstarts]

/-- All that staged modes refer to is needed. -/
theorem Stage.Contained.needs (hst : st.Contained src root) {mode : Staged}
    (hmode : mode ∈ st.staged) (hform : form ∈ src.referred mode.definition) :
    src.Needs root form := by
  obtain ⟨d, hd, hcontains, hstarts⟩ := hst mode hmode
  rw [Source.referred_eq hcontains hstarts] at hform
  exact hd.needs hform

theorem Source.Grows.contained (h : src.Grows {form | src.Needs root form} st st')
    (hst : st.Contained src root) : st'.Contained src root := by
  induction h with
  | refl => exact hst
  | step hform hstage _ ih =>
    refine ih ?_
    rcases stage_cases hstage with ⟨-, rfl⟩ | ⟨-, rfl, mode, hmode, rfl⟩
    · exact hst
    · intro other hother
      rcases Array.mem_push.1 hother with hother | rfl
      · exact hst other hother
      · have hfrom := stagedFrom_of_compileStaged hmode
        exact ⟨_, .inr ⟨_, hform, rfl⟩, hfrom.contains_eq, hfrom.starts_eq⟩

/-- A form that cannot be compiled, whatever the terminators of the parent. -/
def Source.Refuses (src : Source) (form : Form) (e : Error) : Prop :=
  ∃ parent, src.compileStaged form.1 (src.ofForm form) parent = .error e

theorem refuses_of_stage {parent : List Part}
    (h : src.stage st form.1 form.2 parent = .error e) : src.Refuses form e := by
  unfold Source.stage at h
  dsimp only at h
  cases hlookup : st.index.lookup
      (Source.keyOf form.1 form.2 (src.resolve form.1 form.2) parent) with
  | some found =>
    simp only [hlookup] at h
    cases h
  | none =>
    simp only [hlookup] at h
    rcases failed_of_bind_eq_error h with h | ⟨mode, -, h⟩
    · exact ⟨parent, h⟩
    · cases h

theorem exists_of_stageForms_eq_error {self : Nat} {parent : List Part}
    {forms : List (Option Form)} (h : src.stageForms self parent st forms = .error e) :
    ∃ form, some form ∈ forms ∧ src.Refuses form e := by
  induction forms generalizing st with
  | nil => cases h
  | cons form forms ih =>
    have hrest {st : Stage} (h : src.stageForms self parent st forms = .error e) :
        ∃ f, some f ∈ form :: forms ∧ src.Refuses f e := by
      obtain ⟨f, hmem, hf⟩ := ih h
      exact ⟨f, List.mem_cons_of_mem _ hmem, hf⟩
    cases form with
    | none =>
      rcases failed_of_bind_eq_error h with h | ⟨_, -, h⟩
      · exact hrest h
      · cases h
    | some form =>
      rcases failed_of_bind_eq_error h with h | ⟨_, -, h⟩
      · exact ⟨form, List.mem_cons_self, refuses_of_stage h⟩
      · rcases failed_of_bind_eq_error h with h | ⟨_, -, h⟩
        · exact hrest h
        · cases h

/-- If a mode cannot be linked, something that it refers to cannot be compiled. -/
theorem exists_of_link_eq_error {place : Nat} {mode : Staged}
    (h : src.link st place mode = .error e) :
    ∃ form ∈ src.referred mode.definition, src.Refuses form e := by
  unfold Source.link at h
  rw [Source.stageChildren_eq] at h
  rcases failed_of_bind_eq_error h with h | ⟨⟨children, st₁⟩, -, h⟩
  · obtain ⟨form, hmem, hform⟩ := exists_of_stageForms_eq_error h
    exact ⟨form, .inl hmem, hform⟩
  · cases hs : mode.definition.starts with
    | none =>
      simp only [hs] at h
      cases h
    | some id =>
      simp only [hs] at h
      rcases failed_of_bind_eq_error h with h | ⟨_, -, h⟩
      · have h : src.stage st₁ ((id, none) : Form).1 ((id, none) : Form).2
            mode.parentTerminators = .error e := h
        exact ⟨(id, none), .inr ⟨rfl, hs⟩, refuses_of_stage h⟩
      · cases h

/-- **Linking goes no further than what is needed**: it stages needed forms, and if it fails, one
of them cannot be compiled. -/
theorem linkFrom_needs {rounds done : Nat} (hst : st.Contained src root) :
    (∀ links st', src.linkFrom rounds done st = .ok (links, st') →
      src.Grows {form | src.Needs root form} st st') ∧
    ∀ e, src.linkFrom rounds done st = .error e →
      ∃ form, src.Needs root form ∧ src.Refuses form e := by
  induction rounds generalizing st done with
  | zero =>
    constructor
    · rintro links _ ⟨⟩
      exact .refl _
    · rintro _ ⟨⟩
  | succ rounds ih =>
    unfold Source.linkFrom
    cases hmode : st.staged[done]? with
    | none =>
      constructor
      · rintro links _ ⟨⟩
        exact .refl _
      · rintro _ ⟨⟩
    | some mode =>
      have hneeds : src.referred mode.definition ⊆ {form | src.Needs root form} :=
        fun form hform => hst.needs (Array.mem_of_getElem? hmode) hform
      have hgrown {links : Links} {st₁ : Stage} (hlink : src.link st done mode = .ok (links, st₁)) :
          src.Grows {form | src.Needs root form} st st₁ := (link_grows hlink).1.mono hneeds
      constructor
      · intro links st' h
        obtain ⟨⟨first, st₁⟩, hlink, h⟩ := exists_of_bind_eq_ok h
        obtain ⟨⟨rest, st₂⟩, hrest, h⟩ := exists_of_bind_eq_ok h
        cases h
        have hfirst := hgrown hlink
        exact hfirst.trans ((ih (hfirst.contained hst)).1 rest _ hrest)
      · intro e h
        rcases failed_of_bind_eq_error h with h | ⟨⟨first, st₁⟩, hlink, h⟩
        · obtain ⟨form, hform, hrefuses⟩ := exists_of_link_eq_error h
          exact ⟨form, hneeds hform, hrefuses⟩
        · rcases failed_of_bind_eq_error h with h | ⟨_, -, h⟩
          · exact (ih ((hgrown hlink).contained hst)).2 e h
          · cases h

/-- The forms that have been staged are found under their keys. -/
theorem lookup_of_stageForms {self : Nat} {parent : List Part} {forms : List (Option Form)}
    {indices : List Nat} (h : src.stageForms self parent st forms = .ok (indices, st'))
    (hform : some form ∈ forms) :
    ∃ i, st'.index.lookup (src.keyOfForm form parent) = some i := by
  induction forms generalizing st indices with
  | nil => cases hform
  | cons head forms ih =>
    cases head with
    | none =>
      obtain ⟨⟨rest, st₁⟩, hrest, h⟩ := exists_of_bind_eq_ok h
      cases h
      rcases List.mem_cons.1 hform with heq | hform
      · cases heq
      · exact ih hrest hform
    | some head =>
      obtain ⟨⟨i, st₁⟩, hstage, h⟩ := exists_of_bind_eq_ok h
      obtain ⟨⟨rest, st₂⟩, hrest, h⟩ := exists_of_bind_eq_ok h
      cases h
      rcases List.mem_cons.1 hform with heq | hform
      · cases heq
        exact ⟨i, (stageForms_grows hrest).1.keeps _ _ (lookup_of_stage hstage)⟩
      · exact ih hrest hform

/-- A mode is staged for a form. -/
def Stage.StagedAs (st : Stage) (form : Form) (place : Nat) : Prop :=
  ∃ key : Key, (key, place) ∈ st.index ∧ key.source = form.1 ∧ key.variant = form.2

theorem stagedAs_of_lookup {parent : List Part} {i : Nat}
    (h : st.index.lookup (src.keyOfForm form parent) = some i) : st.StagedAs form i := by
  obtain ⟨before, after, heq, -⟩ := List.lookup_eq_some_iff.1 h
  exact ⟨src.keyOfForm form parent, by rw [heq]; simp, rfl, rfl⟩

/-- Linking a mode stages all that it refers to. -/
theorem stagedAs_of_link {place : Nat} {mode : Staged} {links : Links}
    (h : src.link st place mode = .ok (links, st')) (hform : form ∈ src.referred mode.definition) :
    ∃ i, st'.StagedAs form i := by
  unfold Source.link at h
  rw [Source.stageChildren_eq] at h
  obtain ⟨⟨children, st₁⟩, hchildren, h⟩ := exists_of_bind_eq_ok h
  obtain ⟨id, variant⟩ := form
  cases hs : mode.definition.starts with
  | none =>
    simp only [hs] at h
    cases h
    rcases hform with hform | ⟨-, hform⟩
    · obtain ⟨i, hi⟩ := lookup_of_stageForms hchildren hform
      exact ⟨i, stagedAs_of_lookup hi⟩
    · rw [hs] at hform
      cases hform
  | some next =>
    simp only [hs] at h
    obtain ⟨⟨i, st₂⟩, hstage, h⟩ := exists_of_bind_eq_ok h
    cases h
    have hstage : src.stage st₁ ((next, none) : Form).1 ((next, none) : Form).2
        mode.parentTerminators = .ok (i, st₂) := hstage
    rcases hform with hform | ⟨rfl, hform⟩
    · obtain ⟨i, hi⟩ := lookup_of_stageForms hchildren hform
      exact ⟨i, stagedAs_of_lookup (keeps_of_stage hstage _ _ hi)⟩
    · cases hs.symm.trans hform
      exact ⟨i, stagedAs_of_lookup (lookup_of_stage hstage)⟩

/-- What is known of a source that has been expanded. -/
structure Expanded (src : Source) (root : ModeId) (links : List Links) (st : Stage) : Prop where
  sound : st.Sound src
  numbered : st.Numbered src
  grows : src.Grows {form | src.Needs root form} (src.stageRoot root) st
  length_eq : links.length = st.staged.size
  linked : ∀ (place : Nat) (l : Links), links[place]? = some l →
    ∃ mode, st.staged[place]? = some mode ∧ Linked st place mode l
  relinked : ∀ (place : Nat) (mode : Staged) (l : Links), st.staged[place]? = some mode →
    links[place]? = some l → src.link st place mode = .ok (l, st)

theorem expanded_of_expand (hv : src.Validated root) {links : List Links}
    (h : src.expand root = .ok (links, st)) : Expanded src root links st := by
  obtain ⟨hsound, -, hlen, hlinked⟩ := expand_spec hv h
  obtain ⟨hgrows, hagain⟩ := relink h
  refine ⟨hsound, hgrows.numbered (numbered_stageRoot src root),
    (linkFrom_needs (contained_stageRoot src root)).1 links st h, hlen,
    hlinked, fun place mode l hmode hl => ?_⟩
  have hplace := hagain place mode l
  rw [Nat.zero_add] at hplace
  exact hplace hmode hl

namespace Expanded

variable {links : List Links} (h : Expanded src root links st)

include h

/-- The root stands at the first place. -/
theorem root_eq : st.staged[0]? = some {
    source := root
    definition := src.definitionAt root
    opening := none
    guard := .always
    closing := none
    terminators := []
    parentTerminators := [] } :=
  h.grows.extension 0 _ rfl

theorem stagedAs_of_referred {place : Nat} {mode : Staged} (hmode : st.staged[place]? = some mode)
    (hform : form ∈ src.referred mode.definition) : ∃ i, st.StagedAs form i := by
  have hlt : place < links.length := h.length_eq ▸ (Array.getElem?_eq_some_iff.1 hmode).1
  exact stagedAs_of_link (h.relinked place mode _ hmode (List.getElem?_eq_getElem hlt)) hform

theorem compiled {place : Nat} (hplace : st.StagedAs form place) :
    ∃ mode, st.staged[place]? = some mode ∧
      src.compileStaged form.1 (src.ofForm form) mode.parentTerminators = .ok mode := by
  obtain ⟨id, variant⟩ := form
  obtain ⟨key, hentry, rfl, rfl⟩ := hplace
  exact h.numbered.compiled _ hentry

/-- **The staged modes beside the root stand for the forms that are needed.** -/
theorem needed_iff_stagedAs : src.Needs root form ↔ ∃ place, st.StagedAs form place := by
  constructor
  · intro hneeds
    induction hneeds with
    | root hform => exact h.stagedAs_of_referred h.root_eq hform
    | next _ hform ih =>
      obtain ⟨place, hplace⟩ := ih
      obtain ⟨mode, hmode, hcompiled⟩ := h.compiled hplace
      have hfrom := stagedFrom_of_compileStaged hcompiled
      rw [← Source.referred_eq hfrom.contains_eq hfrom.starts_eq] at hform
      exact h.stagedAs_of_referred hmode hform
  · rintro ⟨place, key, hentry, hsource, hvariant⟩
    obtain ⟨id, variant⟩ := form
    cases hsource
    cases hvariant
    rcases h.grows.mem_index hentry with hentry | hneeds
    · cases hentry
    · exact hneeds

/-- A staged mode is the root, at the first place, or stands for a form that is needed. -/
theorem root_or_needed {place : Nat} {mode : Staged} (hmode : st.staged[place]? = some mode) :
    (place = 0 ∧ mode.source = root ∧ mode.definition = src.definitionAt root) ∨
      ∃ form, src.Needs root form ∧ st.StagedAs form place ∧
        src.compileStaged form.1 (src.ofForm form) mode.parentTerminators = .ok mode := by
  rcases Nat.eq_zero_or_pos place with rfl | hpos
  · cases hmode.symm.trans h.root_eq
    exact .inl ⟨rfl, rfl, rfl⟩
  · have hlt := (Array.getElem?_eq_some_iff.1 hmode).1
    obtain ⟨⟨key, _⟩, hentry, rfl⟩ := List.mem_map.1 ((h.numbered.mem_places place).2 ⟨hpos, hlt⟩)
    have hplace : st.StagedAs (key.source, key.variant) _ := ⟨key, hentry, rfl, rfl⟩
    obtain ⟨other, hother, hcompiled⟩ := h.compiled hplace
    cases hmode.symm.trans hother
    exact .inr ⟨_, h.needed_iff_stagedAs.2 ⟨_, hplace⟩, hplace, hcompiled⟩

end Expanded

end ModeStack.Grammar
