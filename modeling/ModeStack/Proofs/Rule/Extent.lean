import ModeStack.Proofs.Regex.Width
import ModeStack.Proofs.Rule.Naive

/-!
# How far the match of a rule extends

What is reported for a rule is a match of its pattern (`search_extent`): it starts where the search
does or after it, and takes at least as many characters as the pattern cannot do without. Only rules
whose patterns can match the empty text leave a scan where it is.
-/

namespace ModeStack.Rule

open ModeStack.Regex

/-- The least number of characters that the pattern of a rule takes. -/
def Part.minWidth (ignoreCase : Bool) : Part → Nat
  | ⟨source, _⟩ =>
    ((Pattern.evaluate ignoreCase source).toOption.map (·.regex.plan.minWidth)).getD 0

variable {ignoreCase : Bool} {clauses : List Clause} {t : Text} {pos : Nat}

theorem SelfContained.minWidth_eq {part : Part} {p : Pattern}
    (h : SelfContained ignoreCase part p) : part.minWidth ignoreCase = p.regex.plan.minWidth := by
  obtain ⟨source, groups⟩ := part
  rw [Part.minWidth, ← Pattern.compile_eq, h.compiles]
  rfl

/-- What a plan matches takes the least width of the pattern it stands for. -/
theorem Plays.minWidth_le {p : Pattern} {plan : Plan} {found : Hit} {left : Nat}
    (h : Plays p plan) (hpos : pos ≤ t.size) (hattempt : plan.attempt t pos = .matched found left) :
    pos + p.regex.plan.minWidth ≤ found.pos := by
  obtain ⟨body, hplanned⟩ := h
  have hverdict := hplanned.verdictAt (t := t) pos pos
  rw [hattempt] at hverdict
  have hwidth : pos + p.regex.plan.minWidth ≤ (found.shift 1).pos :=
    minWidth_of_matched hpos hverdict
  exact hwidth

/-- A match of some of the rules: which rule it is for, and how far it extends. -/
structure Extent (ignoreCase : Bool) (clauses : List Clause) (first : Nat) (t : Text) (pos : Nat)
    (found : Found) : Prop where
  first_le : first ≤ found.index
  pos_le : pos ≤ found.span.start
  start_le : found.span.start ≤ t.size
  width_le : ∃ clause, clauses[found.index]? = some clause ∧ clause.rule = found.rule ∧
    found.span.start + clause.part.minWidth ignoreCase ≤ found.span.stop

/-- **The match of a rule takes the width of its pattern.** -/
theorem search_extent {s : RuleSet} {first : Nat} {found : Found}
    (hrules : ∀ clause ∈ clauses, clause.part.isSelfContained ignoreCase = true)
    (hbuild : RuleSet.build ignoreCase clauses = .ok s)
    (hfound : s.search first t pos = some found) :
    Extent ignoreCase clauses first t pos found := by
  obtain ⟨ps, hps⟩ := exists_patterns ignoreCase clauses (List.all_eq_true.2 hrules)
  obtain ⟨ms, plans, hcast⟩ := exists_cast hps
  obtain ⟨hlt, c, offset, hcombine, hsearch, hindex, clause, hclause, hrule⟩ :=
    RuleSet.exists_combined_of_search hbuild hfound
  obtain ⟨c₀, hc₀⟩ := ((RuleSet.from?_of_build hbuild).2.2 first hlt).1
  obtain ⟨body, rest, c', hdrop, hc', hjoined⟩ := exists_combine_drop hcast hlt hc₀
  rw [hcombine] at hc'
  cases hc'
  have hcast' := hcast.drop first
  have hplans := hcast'.plan?
  rw [hdrop] at hplans
  cases houtcome : c.regex.outcome t pos with
  | givenUp | absent =>
    rw [Combined.search, search_eq_match?, houtcome] at hsearch
    cases hsearch
  | found start hit =>
    obtain ⟨hpos, hsize, -, index, plan, hit', left, hplan, hattempt, -, hreport⟩ :=
      hjoined.found hplans houtcome
    rw [hreport] at hsearch
    obtain ⟨rfl, hspan⟩ := Prod.mk.inj (Option.some.inj hsearch)
    obtain ⟨p, hp, hplays⟩ := exists_getElem?_of_forall₂' hcast'.plays hplan
    have hwidth := hplays.minWidth_le hsize hattempt
    rw [List.getElem?_drop, ← hindex] at hp
    obtain ⟨p', hp', hself⟩ := exists_getElem?_of_forall₂ hps hclause
    rw [hp] at hp'
    cases hp'
    rw [← hself.minWidth_eq] at hwidth
    exact {
      first_le := by omega
      pos_le := hspan ▸ hpos
      start_le := hspan ▸ hsize
      width_le := ⟨clause, hclause, hrule, hspan ▸ hwidth⟩ }

/-- After a rejection, the later rules are tried in the same place, and all rules in the next. -/
theorem RuleSet.search_of_find {s : RuleSet} {resume : Option Nat} {found : Found}
    (h : s.find t pos resume = some found) :
    s.search (resume.getD 0) t pos = some found ∨ s.search 0 t (pos + 1) = some found := by
  have onward (hs : (do s.search 0 t (← t.next? pos)) = some found) :
      s.search 0 t (pos + 1) = some found := by
    obtain ⟨next, hnext, hs⟩ := Option.bind_eq_some_iff.1 hs
    unfold Text.next? at hnext
    split_ifs at hnext
    cases hnext
    exact hs
  unfold find at h
  rcases resume with _ | _ | first
  · exact .inl h
  · exact .inl h
  · dsimp only at h
    cases hsearch : s.search (first + 1) t pos with
    | none =>
      simp only [hsearch] at h
      exact .inr (onward h)
    | some other =>
      simp only [hsearch] at h
      split_ifs at h
      · cases h
        exact .inl hsearch
      · exact .inr (onward h)

/-- What is found after a rejection at a position is a match further on, or one of a later rule. -/
theorem find_extent {s : RuleSet} {resume : Option Nat} {found : Found}
    (hrules : ∀ clause ∈ clauses, clause.part.isSelfContained ignoreCase = true)
    (hbuild : RuleSet.build ignoreCase clauses = .ok s)
    (hfound : s.find t pos resume = some found) :
    Extent ignoreCase clauses 0 t pos found ∧
      (found.span.start = pos → resume.getD 0 ≤ found.index) := by
  rcases s.search_of_find hfound with hsearch | hsearch
  · have hextent := search_extent hrules hbuild hsearch
    exact ⟨{ hextent with first_le := Nat.zero_le _ }, fun _ => hextent.first_le⟩
  · have hextent := search_extent hrules hbuild hsearch
    have hlater : pos < found.span.start := hextent.pos_le
    exact ⟨{ hextent with pos_le := hlater.le }, fun hsame => absurd hsame hlater.ne'⟩

end ModeStack.Rule
