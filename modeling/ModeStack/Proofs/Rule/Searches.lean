import ModeStack.Grammar.Basic
import ModeStack.Proofs.Regex.Onward

/-!
# What a scan relies on in its searches

A scan asks two things of a grammar: the nearest match of the rules of a mode, and the next word
in a piece of text. `Grammar.SearchesOnward` says that each answer is a part of the text from the
position asked for on. That is all the theorems about scans assume of regular expressions.

It fails only for a grammar that captures inside a look-behind or moves the start of a match
(`\K`). `searchesOnward_of_isForward` proves it for every grammar without those, which
`Grammar.isForward` decides. That a match lies inside the text holds of every grammar
(`RuleSet.find_within`).
-/

namespace ModeStack

open Regex (Span Hit)

/-- The part of a text lies between two positions. -/
structure Regex.Span.Within (span : Span) (lo hi : Nat) : Prop where
  le_start : lo ≤ span.start
  start_le : span.start ≤ span.stop
  stop_le : span.stop ≤ hi

/-! ## Searches that go onward -/

/-- Every match of the rules lies at or after the position from which they were searched. -/
def Rule.RuleSet.SearchesOnward (rules : Rule.RuleSet) : Prop :=
  ∀ first t pos found, rules.search first t pos = some found → found.span.Within pos t.size

/-- Every match of the pattern lies at or after the position from which it was searched. -/
def Pattern.SearchesOnward (p : Pattern) : Prop :=
  ∀ t pos span, p.find t pos = some span → span.Within pos t.size

/-- The rules and the word patterns of all modes search onward. -/
structure Grammar.SearchesOnward (g : Grammar) : Prop where
  rules : ∀ index, (g.mode index).rules.SearchesOnward
  words : ∀ index, (g.mode index).wordPattern.SearchesOnward

/-- What is found, whether or not after a rejection, is found by a search at the position or
later. -/
theorem Rule.RuleSet.exists_search_of_find {rules : Rule.RuleSet} {t : Text} {pos : Nat}
    {resume : Option Nat} {found : Rule.Found} (h : rules.find t pos resume = some found) :
    ∃ first next, pos ≤ next ∧ rules.search first t next = some found := by
  have onward (hs : (do rules.search 0 t (← t.next? pos)) = some found) :
      ∃ first next, pos ≤ next ∧ rules.search first t next = some found := by
    obtain ⟨next, hnext, hs⟩ := Option.bind_eq_some_iff.1 hs
    unfold Text.next? at hnext
    split_ifs at hnext
    cases hnext
    exact ⟨0, pos + 1, Nat.le_succ pos, hs⟩
  unfold find at h
  rcases resume with _ | _ | first
  · exact ⟨0, pos, le_rfl, h⟩
  · exact ⟨0, pos, le_rfl, h⟩
  · dsimp only at h
    cases hsearch : rules.search (first + 1) t pos with
    | none =>
      simp only [hsearch] at h
      exact onward h
    | some other =>
      simp only [hsearch] at h
      split_ifs at h
      · cases h
        exact ⟨first + 1, pos, le_rfl, hsearch⟩
      · exact onward h

/-- Resuming after a rejection searches onward too. -/
theorem Rule.RuleSet.SearchesOnward.find {rules : Rule.RuleSet} (h : rules.SearchesOnward)
    {t : Text} {pos : Nat} {resume : Option Nat} {found : Rule.Found}
    (hfind : rules.find t pos resume = some found) : found.span.Within pos t.size := by
  obtain ⟨first, next, hle, hs⟩ := exists_search_of_find hfind
  have hw := h first t next found hs
  exact ⟨hle.trans hw.le_start, hw.start_le, hw.stop_le⟩

/-! ## Deciding it -/

/-- Whether a pattern captures nothing inside a look-behind and does not move its start. -/
def Pattern.isForward (p : Pattern) : Bool :=
  p.regex.plan.isForward && !p.regex.plan.captured.contains 0

/-- Whether rules capture nothing inside a look-behind. -/
def Rule.RuleSet.isForward (rules : Rule.RuleSet) : Bool :=
  rules.full.all (·.regex.plan.isForward)
    && rules.suffixes.all fun suffix => suffix.get.all (·.regex.plan.isForward)

/-- Whether the rules and word patterns of a grammar do so. -/
def Grammar.isForward (g : Grammar) : Bool :=
  g.modes.all fun mode => mode.rules.isForward && mode.wordPattern.isForward

theorem Rule.RuleSet.isForward_of_from? {rules : Rule.RuleSet} (h : rules.isForward = true)
    {first : Nat} {c : Rule.Combined} (hc : rules.from? first = some c) :
    c.regex.plan.isForward = true := by
  rw [isForward, Bool.and_eq_true] at h
  obtain ⟨hfull, hsuffixes⟩ := h
  unfold from? at hc
  split_ifs at hc
  · rw [hc] at hfull
    simpa using hfull
  · obtain ⟨suffix, hget, hc⟩ := Option.bind_eq_some_iff.1 hc
    obtain ⟨hlt, rfl⟩ := Array.getElem?_eq_some_iff.1 hget
    have hall := Array.all_eq_true.1 hsuffixes (first - 1) hlt
    rw [hc] at hall
    simpa using hall

theorem Rule.Combined.mem_of_winner? {h : Hit} {wrappers : List Nat} {base index : Nat}
    {capture : Regex.Capture} (hw : winner? h base wrappers = some (index, capture)) :
    capture ∈ h.captures := by
  induction wrappers generalizing base with
  | nil => simp [winner?] at hw
  | cons wrapper wrappers ih =>
    simp only [winner?] at hw
    split at hw
    · rename_i c hc
      simp only [Option.some.injEq, Prod.mk.injEq] at hw
      exact hw.2 ▸ List.mem_of_find?_eq_some hc
    · exact ih hw

/-- What rules find has been captured by a search of their joined patterns. -/
theorem Rule.RuleSet.exists_capture_of_search {rules : Rule.RuleSet} {first : Nat} {t : Text}
    {pos : Nat} {found : Rule.Found} (hs : rules.search first t pos = some found) :
    ∃ c start hit capture, rules.from? first = some c ∧
      c.regex.search t pos = some (start, hit) ∧ capture ∈ hit.captures ∧
      found.span = ⟨capture.start, capture.stop⟩ := by
  simp only [search, Combined.search, Option.bind_eq_bind, Option.bind_eq_some_iff] at hs
  obtain ⟨c, hc, ⟨offset, span⟩, hspan, clause, -, hfound⟩ := hs
  obtain ⟨⟨start, hit⟩, hsearch, ⟨index, capture⟩, hwin, hpair⟩ := hspan
  simp only [Option.pure_def, Option.some.injEq, Prod.mk.injEq] at hpair hfound
  obtain ⟨-, rfl⟩ := hpair
  subst hfound
  exact ⟨c, start, hit, capture, hc, hsearch, Combined.mem_of_winner? hwin, rfl⟩

theorem Rule.RuleSet.searchesOnward_of_isForward {rules : Rule.RuleSet}
    (h : rules.isForward = true) : rules.SearchesOnward := by
  intro first t pos found hs
  obtain ⟨c, start, hit, capture, hc, hsearch, hmem, hspan⟩ := exists_capture_of_search hs
  obtain ⟨hle, honward⟩ :=
    Regex.search_onward (fun _ : true = true => isForward_of_from? h hc) hsearch
  obtain ⟨new, heq, hall⟩ := honward.captures
  rw [heq, List.append_nil] at hmem
  obtain ⟨-, hstart, hstop, hsize⟩ := hall capture hmem
  rw [hspan]
  exact ⟨hle.trans (hstart rfl), hstop, hsize⟩

/-- **Whatever rules find lies inside the text**, even if they do not search onward. -/
theorem Rule.RuleSet.search_within {rules : Rule.RuleSet} {first : Nat} {t : Text} {pos : Nat}
    {found : Rule.Found} (h : rules.search first t pos = some found) :
    found.span.Within 0 t.size := by
  obtain ⟨c, start, hit, capture, -, hsearch, hmem, hspan⟩ := exists_capture_of_search h
  have hnever : false = true → c.regex.plan.isForward = true := by simp
  obtain ⟨-, honward⟩ := Regex.search_onward hnever hsearch
  obtain ⟨new, heq, hall⟩ := honward.captures
  rw [heq, List.append_nil] at hmem
  obtain ⟨-, -, hstop, hsize⟩ := hall capture hmem
  rw [hspan]
  exact ⟨Nat.zero_le _, hstop, hsize⟩

theorem Rule.RuleSet.find_within {rules : Rule.RuleSet} {t : Text} {pos : Nat}
    {resume : Option Nat} {found : Rule.Found} (h : rules.find t pos resume = some found) :
    found.span.Within 0 t.size := by
  obtain ⟨first, next, -, hs⟩ := exists_search_of_find h
  exact search_within hs

theorem Pattern.searchesOnward_of_isForward {p : Pattern} (h : p.isForward = true) :
    p.SearchesOnward := by
  intro t pos span hs
  rw [isForward, Bool.and_eq_true] at h
  obtain ⟨⟨start, hit⟩, hsearch, rfl⟩ := Option.map_eq_some_iff.1 hs
  obtain ⟨hle, honward⟩ := Regex.search_onward (fun _ : true = true => h.1) hsearch
  -- Group 0 is captured only by moving the start of the match.
  have hkeep : hit.captureOf? 0 = none := by
    obtain ⟨new, heq, hall⟩ := honward.captures
    refine List.find?_eq_none.2 fun c hc => ?_
    rw [heq, List.append_nil] at hc
    have hgroup := (hall c hc).1
    intro hzero
    simp only [decide_eq_true_eq] at hzero
    rw [hzero] at hgroup
    simp [hgroup] at h
  simp only [hkeep, Option.map_none, Option.getD_none]
  exact ⟨hle, honward.le, honward.pos_le⟩

/-- Evaluating a draft shows what the grammar it builds is like. -/
theorem Grammar.Draft.exists_built (draft : Draft) (p : Grammar → Prop) [DecidablePred p]
    (h : (draft.build.toOption.map fun g => decide (p g)) = some true) :
    ∃ g, draft.build = .ok g ∧ p g := by
  cases hbuild : draft.build with
  | error e =>
    rw [hbuild] at h
    cases h
  | ok g =>
    rw [hbuild] at h
    exact ⟨g, rfl, of_decide_eq_true (Option.some.inj h)⟩

/-- **A grammar that captures nothing behind searches onward.** -/
theorem Grammar.searchesOnward_of_isForward {g : Grammar} (h : g.isForward = true) :
    g.SearchesOnward := by
  have hmode (index : Nat) :
      (g.mode index).rules.isForward = true ∧ (g.mode index).wordPattern.isForward = true := by
    unfold mode
    rw [Array.getD_eq_getD_getElem?]
    cases hget : g.modes[index]? with
    | none =>
      exact ⟨by simp [Mode.inert, Rule.RuleSet.none, Rule.RuleSet.isForward], rfl⟩
    | some mode =>
      obtain ⟨hlt, rfl⟩ := Array.getElem?_eq_some_iff.1 hget
      simpa using Array.all_eq_true.1 h index hlt
  exact ⟨fun index => Rule.RuleSet.searchesOnward_of_isForward (hmode index).1,
    fun index => Pattern.searchesOnward_of_isForward (hmode index).2⟩

end ModeStack
