import ModeStack.Proofs.Grammar.Rewriting
import ModeStack.Proofs.Rule.Searches

/-!
# Scores decide nothing but scores

Two drafts that become the same when all relevances and the weights of all keywords are forgotten
are built alike, or both are refused. Scans with them yield the same tokens, with the same number
of open modes and the same verdict on illegal lexemes after each (`build_unscored`).
-/

namespace ModeStack.Grammar

/-! ## Forgetting scores -/

/-- A definition without what it and its keywords are worth. -/
def Definition.worthless (d : Definition) : Definition :=
  { d with keywords := d.keywords.map (·.unweighted), relevance := none }

/-- A definition without scores, in its variants neither. -/
def Definition.unscored : Definition → Definition := Definition.throughout Definition.worthless

/-- A draft without scores. -/
def Draft.unscored (draft : Draft) : Draft :=
  { draft with definitions := draft.definitions.map Definition.unscored }

theorem Definition.distributes_worthless : Distributes worthless := by
  intro base variant
  simp only [worthless, merged]
  cases variant.keywords <;> rfl

variable {d d' : Definition}

theorem Definition.unscored_eq (d : Definition) :
    d.unscored = { d.worthless with variants := d.variants.map unscored } := throughout_eq d

/-- Definitions that are the same without scores say the same. -/
theorem Definition.alike_of_unscored (h : d'.unscored = d.unscored) : d.Alike false d' := by
  simp only [unscored_eq, worthless, Definition.mk.injEq] at h
  obtain ⟨hscope, hopening, hwords, hclosing, hillegal, -, -, hkeywords, hpattern, -, -, hflags⟩ := h
  exact ⟨hscope, hopening, hwords, hclosing, hillegal, hkeywords, hpattern, hflags, by simp⟩

theorem Definition.keeps_worthless : Keeps worthless :=
  ⟨fun _ => rfl, fun _ => rfl, fun _ => rfl, fun _ => rfl⟩

/-! ## Building -/

section

variable {draft draft' : Draft}

/-- Forgetting scores is a change that is made throughout. -/
theorem Draft.rewritten_of_unscored (h : draft'.unscored = draft.unscored) :
    draft'.rewritten Definition.worthless = draft.rewritten Definition.worthless := h

theorem Draft.fields_of_unscored (h : draft'.unscored = draft.unscored) :
    draft'.name = draft.name ∧ draft'.ignoreCase = draft.ignoreCase ∧ draft'.root = draft.root :=
  Draft.fields_of_rewritten (Draft.rewritten_of_unscored h)

theorem validate_unscored (h : draft'.unscored = draft.unscored) (root : ModeId) :
    Agree (fun _ _ => True) (draft.source.validate root) (draft'.source.validate root) :=
  validate_of_rewritten (Draft.rewritten_of_unscored h) Definition.keeps_worthless root

/-- Every form is its own image, up to scores. -/
def unscoredPairing (draft draft' : Draft) : Pairing draft.source draft'.source where
  scored := false
  forms := Set.univ
  image form := form

theorem faithful_unscored (h : draft'.unscored = draft.unscored) :
    (unscoredPairing draft draft').Faithful where
  name_eq := (Draft.fields_of_unscored h).1
  ignoreCase_eq := (Draft.fields_of_unscored h).2.1
  injOn := fun _ _ _ _ heq => heq
  counterpart := by
    rintro ⟨mode, variant⟩ -
    have hrewritten := Draft.rewritten_of_unscored h
    have hresolve : (draft'.source.resolve mode variant).unscored =
        (draft.source.resolve mode variant).unscored :=
      Draft.resolve_of_rewritten hrewritten Definition.distributes_worthless mode variant
    have hvariants := Draft.variantsOf_of_rewritten hrewritten
    obtain ⟨hcontains, hstarts⟩ :=
      Definition.contains_of_throughout Definition.keeps_worthless hresolve
    exact {
      alike := Definition.alike_of_unscored hresolve
      contains_eq := by
        have hid : Option.map (unscoredPairing draft draft').image = id := Option.map_id
        rw [hid, List.map_id]
        simp only [unscoredPairing, hcontains, Source.formsOf, hvariants]
      starts_eq := by
        simp only [unscoredPairing, Option.map_id', hstarts]
      contains_mem := fun _ _ => trivial
      starts_mem := fun _ _ => trivial }

/-- **Scores never decide what tokens there are.** Drafts that differ in scores only are both built
or both refused, and scans with them differ in scores only. -/
theorem build_unscored (h : draft'.unscored = draft.unscored) :
    Agree (fun g g' => g'.modeCount = g.modeCount ∧
        LooksAlike (fun report report' => report'.illegal = report.illegal) g g')
      draft.build draft'.build := by
  obtain ⟨hname, -, hroot⟩ := Draft.fields_of_unscored h
  cases hr : draft.root with
  | none =>
    exact Draft.build_of_no_root hr (hroot.trans hr) hname
  | some root =>
    refine (Pairing.build_agree hr (hroot.trans hr) (validate_unscored h root)
      fun _ => ⟨faithful_unscored h, trivial, rfl⟩).mono fun g g' halike => ?_
    refine ⟨halike.modeCount_eq, fun t ignoreIllegals calls => ?_⟩
    obtain ⟨htoken, hdepth, hillegal, -⟩ := halike.looksAlike t ignoreIllegals calls
    exact ⟨htoken, hdepth, hillegal⟩

end

/-- A word that is worth something, in a mode that is not. -/
def weighty (weight relevance : Nat) : Draft where
  name := "weighty"
  definitions := #[
    { scope := some "a", opening := some "<", closing := some ">", relevance := some relevance
      keywords := some {
        entries := [("b", ⟨0, weight⟩)]
        classes := #["c"] } },
    { contains := [.mode 0] }]
  root := some 1

/-- Two drafts that score a text differently are both built, and scans with them look alike but
for the score. -/
theorem weighty_build_unscored : (weighty 5 0).unscored = (weighty 1 2).unscored ∧
    ∃ g g', (weighty 1 2).build = .ok g ∧ (weighty 5 0).build = .ok g' ∧
      LooksAlike (fun report report' => report'.illegal = report.illegal) g g' ∧
      g.relevance #['<', 'b', '>'] ≠ g'.relevance #['<', 'b', '>'] := by
  have hsame : (weighty 5 0).unscored = (weighty 1 2).unscored := by
    simp [weighty, Draft.unscored, Definition.unscored_eq, Definition.worthless,
      Keyword.Table.unweighted, Keyword.Entries.unweighted, Keyword.Entry.unweighted]
  obtain ⟨g, hg, hscore⟩ := (weighty 1 2).exists_built
    (fun g => g.relevance #['<', 'b', '>'] = ⟨3, false⟩) (by decide +kernel)
  obtain ⟨g', hg', hscore'⟩ := (weighty 5 0).exists_built
    (fun g => g.relevance #['<', 'b', '>'] = ⟨5, false⟩) (by decide +kernel)
  have hagree := build_unscored hsame
  rw [hg, hg'] at hagree
  obtain ⟨-, halike⟩ := hagree.of_ok
  exact ⟨hsame, g, g', hg, hg', halike, by rw [hscore, hscore']; decide⟩

end ModeStack.Grammar
