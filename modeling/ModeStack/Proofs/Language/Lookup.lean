import Mathlib.Data.List.Basic
import ModeStack.Language.Catalog

/-!
# Languages looked up and detected

A name finds the first grammar that answers to it (`find?_eq_some_iff`), and every grammar answers
to its own name. So a grammar is found by its name unless one that was registered earlier answers
to that name too: then it is `Shadowed`.

What is detected is a candidate, and so the place of a grammar (`get?_of_detect`).
-/

namespace ModeStack

/-- A grammar goes by its own name. -/
theorem Grammar.answersTo_name (g : Grammar) : g.answersTo g.name = true := by
  simp [answersTo, Text.equalUpToAsciiCase]

namespace Catalog

variable {c : Catalog} {name : String} {id : LanguageId}

/-- A name finds the first grammar that answers to it. -/
theorem find?_eq_some_iff : c.find? name = some id ↔
    (∃ g, c.get? id = some g ∧ g.answersTo name = true) ∧
      ∀ earlier < id, ∀ g, c.get? earlier = some g → g.answersTo name = false := by
  rw [find?, Array.findIdx?_eq_some_iff_getElem]
  constructor
  · rintro ⟨hid, hanswers, hfirst⟩
    refine ⟨⟨c.grammars[id], Array.getElem?_eq_getElem hid, hanswers⟩, fun earlier hlt g hg => ?_⟩
    obtain ⟨hsize, rfl⟩ := Array.getElem?_eq_some_iff.1 hg
    simpa using hfirst earlier hlt
  · rintro ⟨⟨g, hg, hanswers⟩, hfirst⟩
    obtain ⟨hid, rfl⟩ := Array.getElem?_eq_some_iff.1 hg
    refine ⟨hid, hanswers, fun earlier hlt => ?_⟩
    simpa using hfirst earlier hlt _ (Array.getElem?_eq_getElem (Nat.lt_trans hlt hid))

/-- A name that finds nothing is one to which no grammar answers. -/
theorem find?_eq_none_iff : c.find? name = none ↔
    ∀ id g, c.get? id = some g → g.answersTo name = false := by
  rw [find?, Array.findIdx?_eq_none_iff]
  constructor
  · intro h id g hg
    obtain ⟨hid, rfl⟩ := Array.getElem?_eq_some_iff.1 hg
    exact h _ (Array.getElem_mem hid)
  · intro h g hg
    obtain ⟨id, hid, rfl⟩ := Array.getElem_of_mem hg
    exact h id _ (Array.getElem?_eq_getElem hid)

/-- What a name finds is the place of a grammar. -/
theorem lookup_of_find? (h : c.find? name = some id) :
    ∃ g, c.get? id = some g ∧ c.lookup name = .ok (id, g) := by
  obtain ⟨⟨g, hg, -⟩, -⟩ := find?_eq_some_iff.1 h
  exact ⟨g, hg, by simp only [lookup, h, hg]⟩

/-- Highlighting scans with the first grammar that answers to the name. -/
theorem highlight_of_find? (h : c.find? name = some id) (t : Text) (ignoreIllegals : Bool) :
    ∃ g, c.get? id = some g ∧ c.highlight name t ignoreIllegals =
      .ok ⟨id, (Scan.run ⟨g, t, ignoreIllegals⟩).1, (Scan.run ⟨g, t, ignoreIllegals⟩).2⟩ := by
  obtain ⟨g, hg, hlookup⟩ := lookup_of_find? h
  refine ⟨g, hg, ?_⟩
  rw [highlight, hlookup]
  rfl

/-- A grammar registered earlier answers to the name of this one. -/
def Shadowed (c : Catalog) (id : LanguageId) : Prop :=
  ∃ g, c.get? id = some g ∧
    ∃ earlier < id, ∃ g', c.get? earlier = some g' ∧ g'.answersTo g.name = true

/-- The name of a grammar finds this grammar or one registered earlier. -/
theorem exists_find?_name {g : Grammar} (hg : c.get? id = some g) :
    ∃ first ≤ id, c.find? g.name = some first := by
  cases hfind : c.find? g.name with
  | none =>
    have hno := find?_eq_none_iff.1 hfind id g hg
    rw [g.answersTo_name] at hno
    cases hno
  | some first =>
    refine ⟨first, ?_, rfl⟩
    by_contra hlt
    have hno := (find?_eq_some_iff.1 hfind).2 id (Nat.lt_of_not_le hlt) g hg
    rw [g.answersTo_name] at hno
    cases hno

/-- **A grammar is found by its name exactly if it is not shadowed.** -/
theorem find?_name_iff {g : Grammar} (hg : c.get? id = some g) :
    c.find? g.name = some id ↔ ¬c.Shadowed id := by
  constructor
  · rintro hfind ⟨g', hg', earlier, hlt, g'', hg'', hanswers⟩
    cases hg.symm.trans hg'
    rw [(find?_eq_some_iff.1 hfind).2 earlier hlt g'' hg''] at hanswers
    cases hanswers
  · intro hclear
    refine find?_eq_some_iff.2 ⟨⟨g, hg, g.answersTo_name⟩, fun earlier hlt g' hg' => ?_⟩
    by_contra hanswers
    exact hclear ⟨g, hg, earlier, hlt, g', hg', by simpa using hanswers⟩

/-! ## Detection -/

variable {t : Text} {options : DetectOptions} {d : Detection}

/-- What is detected is a candidate, with its score. -/
theorem mem_candidates_of_detect (h : c.detect t options = some d) :
    d.language ∈ c.candidates options ∧ d.relevance = c.scoreOf t d.language := by
  unfold detect at h
  split at h
  · cases h
  · rename_i language relevance others hranking
    split_ifs at h
    cases h
    have hmem : (language, relevance) ∈ c.ranking t options := by
      rw [hranking]
      exact List.mem_cons_self
    rw [ranking, List.mem_mergeSort] at hmem
    obtain ⟨id, hid, heq⟩ := List.mem_map.1 hmem
    cases heq
    exact ⟨hid, rfl⟩

/-- What is detected is the place of a grammar. -/
theorem get?_of_detect (h : c.detect t options = some d) : ∃ g, c.get? d.language = some g := by
  have hmem := (List.mem_filter.1 (mem_candidates_of_detect h).1).1
  exact ⟨_, Array.getElem?_eq_getElem (List.mem_range.1 hmem)⟩

/-! ## Catalogs of drafts -/

/-- Builds grammars and registers them in order. -/
def ofDrafts (drafts : List Grammar.Draft) : Except Grammar.Error Catalog :=
  drafts.foldlM (fun c draft => do return (c.register (← draft.build)).2) {}

/-- What evaluation finds of a catalog of drafts. -/
theorem exists_ofDrafts (drafts : List Grammar.Draft) (p : Catalog → Prop) [DecidablePred p]
    (h : ((ofDrafts drafts).toOption.map fun c => decide (p c)) = some true) :
    ∃ c, ofDrafts drafts = .ok c ∧ p c := by
  cases hbuild : ofDrafts drafts with
  | error e =>
    rw [hbuild] at h
    cases h
  | ok c =>
    rw [hbuild] at h
    exact ⟨c, rfl, of_decide_eq_true (Option.some.inj h)⟩

end Catalog

end ModeStack
