import ModeStack.Command.Run
import ModeStack.Proofs.Language.Lookup

/-!
# Highlighting in a detected language

A text is highlighted in the language asked for or else in the one detected, and either is looked
up by its name. A name given by the user means the first grammar that answers to it. The name of the
detected grammar means that grammar unless it is shadowed (`highlight_in_detected`); if it is, the
text is highlighted with the grammar that shadows it (`exists_highlight_in_other`).
-/

namespace ModeStack.Command

open ModeStack.Scan (Token)

variable {env : Surroundings} {c : Catalog} {s : Settings} {t : Text} {file : Option String}
  {language : Option String} {format : Format}

/-- The tokens of a text that is scanned with a grammar, as the settings say. -/
def tokensOf (s : Settings) (g : Grammar) (t : Text) : List Token :=
  (Scan.run { grammar := g, text := t, ignoreIllegals := s.ignoreIllegals }).1

/-- Highlighting a text that could be read. -/
theorem perform_highlight (hread : readInput env file s.maxBytes = .ok t) :
    perform env c s (.highlight file language format) = highlight c s t language format := by
  rw [perform, hread]
  rfl

/-- A text is highlighted with the first grammar that answers to the name of the language. -/
theorem highlight_named {name : String} {id : LanguageId}
    (hname : languageName c s t language = some name) (hfind : c.find? name = some id) :
    ∃ g, c.get? id = some g ∧
      highlight c s t language format = .ok (tokenLines t (tokensOf s g t) format) := by
  obtain ⟨g, hg, hhighlight⟩ := Catalog.highlight_of_find? hfind t s.ignoreIllegals
  refine ⟨g, hg, ?_⟩
  rw [highlight, hname]
  simp only [hhighlight]
  rfl

/-- A text whose language is not registered is not highlighted. -/
theorem highlight_unknown {name : String} (hname : languageName c s t language = some name)
    (hfind : c.find? name = none) :
    highlight c s t language format = .error ⟨"unknown language: " ++ name, []⟩ := by
  have hlookup : c.highlight name t s.ignoreIllegals = .error (.unknownLanguage name) := by
    rw [Catalog.highlight, Catalog.lookup, hfind]
    rfl
  rw [highlight, hname]
  simp only [hlookup]
  rfl

/-- The name of a detected language is that of its grammar. -/
theorem languageName_detected {d : Catalog.Detection} {g : Grammar}
    (hdetect : c.detect t s.detect = some d) (hg : c.get? d.language = some g) :
    languageName c s t none = some g.name := by
  simp [languageName, hdetect, hg]

/-- **What is detected is highlighted with the first grammar of its name**, its own or one that was
registered earlier. -/
theorem highlight_first_of_name (format : Format) {d : Catalog.Detection}
    (hdetect : c.detect t s.detect = some d) :
    ∃ g first g', c.get? d.language = some g ∧ c.find? g.name = some first ∧
      first ≤ d.language ∧ c.get? first = some g' ∧
      highlight c s t none format = .ok (tokenLines t (tokensOf s g' t) format) := by
  obtain ⟨g, hg⟩ := Catalog.get?_of_detect hdetect
  obtain ⟨first, hle, hfind⟩ := Catalog.exists_find?_name hg
  obtain ⟨g', hg', hhighlight⟩ := highlight_named (languageName_detected hdetect hg) hfind
  exact ⟨g, first, g', hg, hfind, hle, hg', hhighlight⟩

/-- **A text is highlighted with the grammar that was detected**, if that grammar is not
shadowed. -/
theorem highlight_in_detected {d : Catalog.Detection}
    (hread : readInput env file s.maxBytes = .ok t)
    (hdetect : c.detect t s.detect = some d) (hclear : ¬c.Shadowed d.language) :
    ∃ g, c.get? d.language = some g ∧
      perform env c s (.highlight file none format) =
        .ok (tokenLines t (tokensOf s g t) format) := by
  obtain ⟨g, first, g', hg, hfind, -, hg', hhighlight⟩ :=
    highlight_first_of_name format hdetect
  have hfirst : first = d.language := by
    rw [(Catalog.find?_name_iff hg).2 hclear] at hfind
    exact (Option.some.inj hfind).symm
  subst hfirst
  cases hg.symm.trans hg'
  exact ⟨g, hg, by rw [perform_highlight hread, hhighlight]⟩

/-- A language that does not take part in detection. -/
def elder : Grammar.Draft where
  name := "dialect"
  autoDetect := false
  definitions := #[{ scope := some "x", opening := some "a" }, { contains := [.mode 0] }]
  root := some 1

/-- A language of the same name that does. -/
def younger : Grammar.Draft where
  name := "dialect"
  definitions := #[{ scope := some "y", opening := some "b" }, { contains := [.mode 0] }]
  root := some 1

/-- A program that is given the text `b` on standard input. -/
def readsB : Surroundings where
  stdin := ⟨#[98]⟩
  file := fun _ => .absent
  defaultConfig := none

theorem readInput_readsB : readInput readsB none ({} : Settings).maxBytes = .ok #['b'] := by
  decide +kernel

/-- The younger language is highlighted as itself where it was registered first. -/
theorem younger_highlight_in_detected : ∃ c g, Catalog.ofDrafts [younger, elder] = .ok c ∧
    readInput readsB none ({} : Settings).maxBytes = .ok #['b'] ∧
    c.detect #['b'] {} = some ⟨0, 1, none⟩ ∧ ¬c.Shadowed 0 ∧ c.get? 0 = some g ∧
    perform readsB c {} (.highlight none none .json) =
      .ok (tokenLines #['b'] (tokensOf {} g #['b']) .json) := by
  obtain ⟨c, hc, hdetect⟩ := Catalog.exists_ofDrafts [younger, elder]
    (fun c => c.detect #['b'] {} = some ⟨0, 1, none⟩) (by decide +kernel)
  have hclear : ¬c.Shadowed 0 := fun ⟨_, _, earlier, hlt, _⟩ => Nat.not_lt_zero earlier hlt
  obtain ⟨g, hg, hperform⟩ := @highlight_in_detected readsB c {} _ none .json _ readInput_readsB
    hdetect hclear
  exact ⟨c, g, hc, readInput_readsB, hdetect, hclear, hg, hperform⟩

/-- **A detected language can be highlighted as another**: where the elder language was registered
first, the text is scanned with it although the younger one was detected. -/
theorem exists_highlight_in_other : ∃ c g, Catalog.ofDrafts [elder, younger] = .ok c ∧
    c.detect #['b'] {} = some ⟨1, 1, none⟩ ∧ c.get? 1 = some g ∧
    perform readsB c {} (.highlight none none .json) =
      .ok "\x7b\"scope\":null,\"start\":0,\"end\":1,\"text\":\"b\"\x7d\n" ∧
    tokenLines #['b'] (tokensOf {} g #['b']) .json =
      "\x7b\"scope\":\"y\",\"start\":0,\"end\":1,\"text\":\"b\"\x7d\n" := by
  obtain ⟨c, hc, hdetect, hother, hown⟩ := Catalog.exists_ofDrafts [elder, younger]
    (fun c => c.detect #['b'] {} = some ⟨1, 1, none⟩ ∧
      perform readsB c {} (.highlight none none .json) =
        .ok "\x7b\"scope\":null,\"start\":0,\"end\":1,\"text\":\"b\"\x7d\n" ∧
      (c.get? 1).map (fun g => tokenLines #['b'] (tokensOf {} g #['b']) .json) =
        some "\x7b\"scope\":\"y\",\"start\":0,\"end\":1,\"text\":\"b\"\x7d\n") (by decide +kernel)
  obtain ⟨g, hg, hlines⟩ := Option.map_eq_some_iff.1 hown
  exact ⟨c, g, hc, hdetect, hg, hother, hlines⟩

end ModeStack.Command
