import ModeStack.Proofs.Grammar.Rewriting
import ModeStack.Proofs.Rule.Searches

/-!
# The layout of a draft

It does not matter at which places the definitions of a draft stand, nor what stands at places
that cannot be reached from the root. If the definitions that can be reached stand at other
places of another draft, with all references changed accordingly, the two drafts are built alike,
or refused with the same error up to places (`build_moved`).
-/

namespace ModeStack.Grammar

/-! ## Moving definitions -/

/-- A child whose definition has moved. -/
def Child.moved (place : ModeId → ModeId) : Child → Child
  | .mode id => .mode (place id)
  | .self => .self

/-- A definition whose children and successor have moved. -/
def Definition.redirected (place : ModeId → ModeId) (d : Definition) : Definition :=
  { d with contains := d.contains.map (Child.moved place), starts := d.starts.map place }

/-- A definition with every reference changed, in its variants too. -/
def Definition.moved (place : ModeId → ModeId) : Definition → Definition :=
  Definition.throughout (Definition.redirected place)

/-- The places that can be reached from one through children, variants and successors. -/
inductive Source.Reaches (src : Source) (first : ModeId) : ModeId → Prop
  | first : Reaches src first first
  | next {id r : ModeId} {d : Definition} : Reaches src first id → src.definitions[id]? = some d →
      r ∈ d.references → Reaches src first r

theorem Source.Reaches.lt {src : Source} {root id : ModeId} (hv : src.Validated root)
    (h : src.Reaches root id) : id < src.definitions.size := by
  induction h with
  | first => exact hv.root_lt
  | next _ hd hr _ => exact hv.references_lt _ _ hd _ hr

/-- What can be reached from the root of the first draft has moved to other places of the second,
no two to the same. -/
structure Draft.MovedTo (draft draft' : Draft) (root : ModeId) (place : ModeId → ModeId) :
    Prop where
  name_eq : draft'.name = draft.name
  ignoreCase_eq : draft'.ignoreCase = draft.ignoreCase
  injOn : Set.InjOn place {id | draft.source.Reaches root id}
  definition_eq : ∀ id, draft.source.Reaches root id →
    draft'.definitions[place id]? = draft.definitions[id]?.map (Definition.moved place)

theorem Definition.distributes_redirected (place : ModeId → ModeId) :
    Distributes (redirected place) := by
  intro base variant
  have hchildren : (variant.contains.map (Child.moved place)).isEmpty =
      variant.contains.isEmpty := List.isEmpty_map
  simp only [redirected, merged, hchildren, Definition.mk.injEq, true_and, and_true]
  refine ⟨?_, ?_⟩
  · split_ifs <;> rfl
  · cases variant.starts <;> rfl

theorem Definition.moved_eq (place : ModeId → ModeId) (d : Definition) :
    d.moved place =
      { d.redirected place with variants := d.variants.map (Definition.moved place) } :=
  throughout_eq d

theorem Definition.alike_moved (scored : Bool) (place : ModeId → ModeId) (d : Definition) :
    d.Alike scored (d.moved place) := by
  rw [moved_eq]
  exact ⟨rfl, rfl, rfl, rfl, rfl, rfl, rfl, rfl, fun _ => ⟨rfl, rfl⟩⟩

/-! ## Building -/

section

variable {draft draft' : Draft} {root : ModeId} {place : ModeId → ModeId}

/-- The image of a form is the same variant of the definition that has moved. -/
def movedPairing (draft draft' : Draft) (root : ModeId) (place : ModeId → ModeId) :
    Pairing draft.source draft'.source where
  scored := true
  forms := {form | draft.source.Reaches root form.1}
  image form := (place form.1, form.2)

theorem Draft.MovedTo.definitionAt_eq (h : draft.MovedTo draft' root place) {id : ModeId}
    (hid : draft.source.Reaches root id) :
    draft'.source.definitionAt (place id) = (draft.source.definitionAt id).moved place := by
  simp only [Source.definitionAt, Draft.source, Array.getD_eq_getD_getElem?, h.definition_eq id hid]
  cases draft.definitions[id]? with
  | none => rfl
  | some d => rfl

theorem faithful_moved (h : draft.MovedTo draft' root place) :
    (movedPairing draft draft' root place).Faithful where
  name_eq := h.name_eq
  ignoreCase_eq := h.ignoreCase_eq
  injOn := by
    rintro ⟨id, variant⟩ hform ⟨id', variant'⟩ hform' heq
    simp only [movedPairing, Prod.mk.injEq] at heq
    exact Prod.ext (h.injOn hform hform' heq.1) heq.2
  counterpart := by
    rintro ⟨id, variant⟩ hid
    have hreaches : draft.source.Reaches root id := hid
    have hresolve : draft'.source.resolve (place id) variant =
        (draft.source.resolve id variant).moved place := by
      rw [Source.resolve_eq, Source.resolve_eq, h.definitionAt_eq hreaches]
      exact (Definition.throughout_withVariant
        (Definition.distributes_redirected place) _ variant).symm
    have hrefers {r : ModeId} (hr : .mode r ∈ (draft.source.resolve id variant).contains ∨
        (draft.source.resolve id variant).starts = some r) : draft.source.Reaches root r := by
      obtain ⟨d, hd, hmem⟩ := draft.source.resolve_references id variant hr
      exact .next hreaches hd hmem
    show (movedPairing draft draft' root place).Counterpart (draft.source.resolve id variant)
      (draft'.source.resolve (place id) variant)
    rw [hresolve]
    exact {
      alike := Definition.alike_moved true place _
      contains_eq := by
        rw [Definition.moved_eq]
        show draft'.source.formsOf
          ((draft.source.resolve id variant).contains.map (Child.moved place)) = _
        rw [List.map_eq_flatMap]
        refine Source.formsOf_flatMap fun child hchild => ?_
        cases child with
        | self => rfl
        | mode r =>
          have hlength := h.definitionAt_eq (hrefers (.inl hchild))
          have hvariants : draft'.source.variantsOf (place r) = draft.source.variantsOf r := by
            refine Source.variantsOf_eq ?_
            rw [hlength, Definition.moved_eq, List.length_map]
          simp only [Child.moved, Source.formsOf_mode, hvariants, List.map_map]
          rfl
      starts_eq := by
        rw [Definition.moved_eq]
        show ((draft.source.resolve id variant).starts.map place).map (·, none) = _
        rw [Option.map_map, Option.map_map]
        rfl
      contains_mem := fun form hform => hrefers (.inl (Source.mem_formsOf.1 hform).1)
      starts_mem := fun r hr => hrefers (.inr hr) }

theorem alike_of_moved (hroot : draft.root = some root) (hroot' : draft'.root = some (place root))
    (hvalid : draft.source.validate root = .ok ())
    (hvalid' : draft'.source.validate (place root) = .ok ())
    (h : draft.MovedTo draft' root place) :
    Agree (Grammar.Alike true) draft.build draft'.build := by
  have hv : Agree (fun _ _ => True) (draft.source.validate root)
      (draft'.source.validate (place root)) := by
    rw [hvalid, hvalid']
    exact .ok trivial
  exact Pairing.build_agree hroot hroot' hv fun _ => ⟨faithful_moved h, .first, rfl⟩

/-- **The layout of a draft does not matter.** If both drafts are valid, and what can be reached
from the root of the first has moved to other places of the second, they are built alike, with
the same number of modes and scans that cannot be told apart, or both are refused for the same
reason. -/
theorem build_moved (hroot : draft.root = some root) (hroot' : draft'.root = some (place root))
    (hvalid : draft.source.validate root = .ok ())
    (hvalid' : draft'.source.validate (place root) = .ok ())
    (h : draft.MovedTo draft' root place) :
    Agree Indistinguishable draft.build draft'.build :=
  (alike_of_moved hroot hroot' hvalid hvalid' h).mono fun _ _ halike => halike.indistinguishable

/-- A draft in disorder: its root contains a mode that stands after it, and a pattern that cannot
be compiled stands before it, where nothing refers to it. -/
def disordered : Draft where
  name := "ordered"
  definitions := #[
    { opening := some "(" },
    { contains := [.mode 2] },
    { scope := some "a", opening := some "x", contains := [.self] }]
  root := some 1

/-- The same without what cannot be reached, in order. -/
def ordered : Draft where
  name := "ordered"
  definitions := #[
    { scope := some "a", opening := some "x", contains := [.self] },
    { contains := [.mode 0] }]
  root := some 1

/-- The place in disorder of a definition in order. -/
def disorderedPlace (id : ModeId) : ModeId := if id = 0 then 2 else id

theorem ordered_validate : ordered.source.validate 1 = .ok () := by decide +kernel

theorem ordered_movedTo_disordered : ordered.MovedTo disordered 1 disorderedPlace := by
  have hlt {id : ModeId} (h : ordered.source.Reaches 1 id) : id < 2 :=
    h.lt (Source.validated_of_validate ordered_validate)
  refine ⟨rfl, rfl, fun id hid id' hid' heq => ?_, fun id hid => ?_⟩
  · have hid := hlt hid
    have hid' := hlt hid'
    interval_cases id <;> interval_cases id' <;> simp [disorderedPlace] at heq ⊢
  · have hid := hlt hid
    interval_cases id <;> rfl

/-- The two drafts build grammars that cannot be told apart. -/
theorem disordered_build_moved : ∃ g g', ordered.build = .ok g ∧ disordered.build = .ok g' ∧
    Indistinguishable g g' := by
  obtain ⟨g, hg, -⟩ := ordered.exists_built (fun _ => True) (by decide +kernel)
  obtain ⟨g', hg', -⟩ := disordered.exists_built (fun _ => True) (by decide +kernel)
  have hagree := build_moved rfl rfl ordered_validate (by decide +kernel)
    ordered_movedTo_disordered
  rw [hg, hg'] at hagree
  exact ⟨g, g', hg, hg', hagree.of_ok⟩

/-- A draft with more definitions at the end. -/
def Draft.append (draft : Draft) (extra : Array Definition) : Draft :=
  { draft with definitions := draft.definitions ++ extra }

/-- **What cannot be reached changes nothing.** Definitions can be added to a valid draft, as long
as it stays valid. Their patterns need not even be regular expressions. -/
theorem build_append {extra : Array Definition} (hroot : draft.root = some root)
    (hvalid : draft.source.validate root = .ok ())
    (hvalid' : (draft.append extra).source.validate root = .ok ()) :
    Agree Indistinguishable draft.build (draft.append extra).build := by
  have hself (d : Definition) : d.moved id = d := by
    refine Definition.throughout_eq_self (fun d => ?_) d
    have hchild : Child.moved id = id := funext fun child => by cases child <;> rfl
    cases d
    simp only [Definition.redirected, hchild, List.map_id, Option.map_id, id]
  have hmoved : draft.MovedTo (draft.append extra) root id :=
    ⟨rfl, rfl, Set.injOn_id _, fun place hplace => by
      have hlt : place < draft.definitions.size :=
        hplace.lt (Source.validated_of_validate hvalid)
      rw [id, Draft.append, Array.getElem?_append_left hlt, funext hself, Option.map_id']⟩
  have hroot' : (draft.append extra).root = some (id root) := hroot
  exact (alike_of_moved hroot hroot' hvalid hvalid' hmoved).mono
    fun _ _ halike => halike.indistinguishable

end

end ModeStack.Grammar
