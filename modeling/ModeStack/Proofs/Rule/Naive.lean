import ModeStack.Proofs.Rule.Planned

/-!
# Joined rules match like the rules one by one

For patterns that stand for themselves (`SelfContained`) a search of joined rules finds what one
would find by trying each rule at each position: the nearest position at which any rule matches, and
the first rule that matches there (`Nearest`).

The joined pattern has one budget for all positions and all rules, so a search may be given up
although some rule alone would match. `search_naive` says that this is the only difference.
-/

namespace ModeStack.Rule

open ModeStack.Regex
open ModeStack.Text (charactersOf charactersOf_eq)

/-! ## Patterns that stand for themselves -/

/-- The pattern of a rule parses completely on its own, holds nothing that depends on its place,
compiles, and has as many groups as are counted for it. -/
structure SelfContained (ignoreCase : Bool) (part : Part) (p : Pattern) : Prop where
  parses : ∃ e n, Regex.parse part.source = .ok (e, n)
  tame : Regex.tame none part.source.toList = true
  compiles : Pattern.compile ignoreCase part.source = .ok p
  groups : part.groups = p.groups

theorem SelfContained.standalone {ignoreCase : Bool} {part : Part} {p : Pattern}
    (h : SelfContained ignoreCase part p) : Standalone ignoreCase part p where
  parses := h.parses
  calm := by
    have hcalm : Regex.calm (.of none) false [] part.source.toList = true :=
      calm_of_tame (by simp) h.tame
    exact hcalm
  compiles := h.compiles
  groups := h.groups

/-- Texts and plans for the rules of a list, one for each. No text sets flags for others. -/
structure Cast (ignoreCase : Bool) (clauses : List Clause) (ps : List Pattern)
    (ms : List Movable) (plans : List Plan) : Prop where
  stands : List.Forall₂ Stands (clauses.map (·.part)) ms
  steady : ∀ m ∈ ms, m.Steady
  plan? : List.Forall₂ (fun body plan => body.plan? = .ok plan)
    (ms.map (·.body (sharedFlags ignoreCase))) plans
  plays : List.Forall₂ Plays ps plans

theorem exists_cast {ignoreCase : Bool} {clauses : List Clause} {ps : List Pattern}
    (h : List.Forall₂ (fun clause p => SelfContained ignoreCase clause.part p) clauses ps) :
    ∃ ms plans, Cast ignoreCase clauses ps ms plans := by
  induction h with
  | nil => exact ⟨[], [], .nil, by simp, .nil, .nil⟩
  | cons hself _ ih =>
    obtain ⟨m, hstands, plan, hplanned⟩ := exists_planned hself.standalone
    obtain ⟨ms, plans, hms⟩ := ih
    have hsteady : m.Steady := fun flags hverbose => by
      rw [hstands.text]
      exact flagsAfter_of_tame hverbose hself.tame
    exact ⟨m :: ms, plan :: plans, .cons hstands hms.stands,
      List.forall_mem_cons.2 ⟨hsteady, hms.steady⟩, .cons hplanned.plan? hms.plan?,
      .cons ⟨_, hplanned⟩ hms.plays⟩

variable {ignoreCase : Bool} {clauses : List Clause} {ps : List Pattern} {m : Movable}
  {ms : List Movable} {plans : List Plan} {t : Text} {pos : Nat}

theorem Cast.drop (h : Cast ignoreCase clauses ps ms plans) (count : Nat) :
    Cast ignoreCase (clauses.drop count) (ps.drop count) (ms.drop count) (plans.drop count) where
  stands := by
    rw [List.map_drop]
    exact List.forall₂_drop count h.stands
  steady := fun m hm => h.steady m (List.mem_of_mem_drop hm)
  plan? := by
    rw [List.map_drop]
    exact List.forall₂_drop count h.plan?
  plays := List.forall₂_drop count h.plays

theorem Cast.terse (h : Cast ignoreCase clauses ps ms plans) : Terse (.start ignoreCase) ms :=
  terse_of_steady rfl h.steady

/-- Rules that are accepted can be joined. -/
theorem exists_combine (h : Cast ignoreCase clauses ps (m :: ms) plans)
    (haccepts : Accepts (.start ignoreCase) (m :: ms))
    (hmixed : (Before.all ignoreCase (m :: ms)).isMixed = false) :
    ∃ c, combine ignoreCase clauses = .ok c ∧ JoinedOf (m.body (sharedFlags ignoreCase))
      (ms.map (·.body (sharedFlags ignoreCase))) c := by
  have hbodies := bodies_of_steady (b := .start ignoreCase) rfl h.steady
  obtain ⟨plan, hplan⟩ := exists_plan_joined (exists_plan_of_forall₂ h.plan?) (refers_joined _)
  rw [combine_eq_map h.stands h.terse hbodies haccepts hmixed]
  exact ⟨_, congrArg (Except.map _) hplan, rfl, hplan⟩

/-- Where all rules can be joined, so can those from a place on. -/
theorem exists_combine_drop {first : Nat} (h : Cast ignoreCase clauses ps ms plans)
    (hlt : first < clauses.length) {c : Combined} (hc : combine ignoreCase clauses = .ok c) :
    ∃ body rest c', (ms.drop first).map (·.body (sharedFlags ignoreCase)) = body :: rest ∧
      combine ignoreCase (clauses.drop first) = .ok c' ∧ JoinedOf body rest c' := by
  have hlength : clauses.length = ms.length := by
    simpa using h.stands.length_eq
  obtain ⟨m', ms', hdrop⟩ := List.exists_cons_of_ne_nil (l := ms.drop first)
    (fun hnil => by rw [List.drop_eq_nil_iff] at hnil; omega)
  cases ms with
  | nil => simp at hdrop
  | cons m ms =>
    obtain ⟨haccepts, hmixed⟩ := accepts_of_combine h.stands h.terse hc
    have hcast := h.drop first
    rw [hdrop] at hcast ⊢
    obtain ⟨c', hc', hjoined⟩ := exists_combine hcast (hdrop ▸ haccepts.drop rfl h.steady first)
      (hdrop ▸ (Before.all_drop_le h.steady first).isMixed hmixed)
    exact ⟨_, _, c', rfl, hc', hjoined⟩

/-! ## Searching one by one -/

/-- No rule from place `first` on matches at any position from `pos` on. -/
def NoMatch (ps : List Pattern) (first : Nat) (t : Text) (pos : Nat) : Prop :=
  ∀ q, pos ≤ q → ∀ i p, first ≤ i → ps[i]? = some p → p.matchAt t q = none

/-- What is found by trying each rule from place `first` on at each position from `pos` on: the
nearest match, and the first rule that matches there. -/
structure Nearest (ps : List Pattern) (first : Nat) (t : Text) (pos : Nat) (index : Nat)
    (span : Span) : Prop where
  first_le : first ≤ index
  pos_le : pos ≤ span.start
  matches_at : ∃ p, ps[index]? = some p ∧ p.matchAt t span.start = some span.stop
  nearest : ∀ q, pos ≤ q → q < span.start → ∀ i p, first ≤ i → ps[i]? = some p →
    p.matchAt t q = none
  least : ∀ i p, first ≤ i → i < index → ps[i]? = some p → p.matchAt t span.start = none

/-- The budget of the joined pattern is spent before the search is decided. -/
def RuleSet.GivesUp (s : RuleSet) (first : Nat) (t : Text) (pos : Nat) : Prop :=
  ∃ c, s.from? first = some c ∧ c.regex.outcome t pos = .givenUp

/-- A search that is given up finds nothing. -/
theorem RuleSet.search_of_givesUp {s : RuleSet} {first : Nat} (h : s.GivesUp first t pos) :
    s.search first t pos = .none := by
  obtain ⟨c, hfirst, hgiven⟩ := h
  rw [RuleSet.search, hfirst]
  simp only [Option.bind_eq_bind, Option.bind_some, Combined.search, search_eq_match?, hgiven]
  rfl

section Dropped

variable {first : Nat} (hplays : List.Forall₂ Plays (ps.drop first) plans)

include hplays

/-- The plan of a rule from place `first` on. -/
theorem exists_plays_drop {i : Nat} {p : Pattern} (hi : first ≤ i) (hp : ps[i]? = some p) :
    ∃ plan, plans[i - first]? = some plan ∧ Plays p plan := by
  refine exists_getElem?_of_forall₂ hplays ?_
  rw [List.getElem?_drop, Nat.add_sub_cancel' hi]
  exact hp

theorem matchAt_of_all_failed {q : Nat}
    (hfailed : ∀ plan ∈ plans, ∃ left, plan.attempt t q = .failed left) (i : Nat) (p : Pattern)
    (hi : first ≤ i) (hp : ps[i]? = some p) : p.matchAt t q = none := by
  obtain ⟨plan, hplan, hplay⟩ := exists_plays_drop hplays hi hp
  obtain ⟨left, hattempt⟩ := hfailed plan (List.mem_of_getElem? hplan)
  exact hplay.matchAt_of_failed hattempt

/-- Where every plan fails inside the text, no rule matches. -/
theorem noMatch_of_all_failed
    (hfailed : ∀ q, pos ≤ q → q ≤ t.size →
      ∀ plan ∈ plans, ∃ left, plan.attempt t q = .failed left) :
    NoMatch ps first t pos := by
  intro q hq i p hi hp
  by_cases hsize : q ≤ t.size
  · exact matchAt_of_all_failed hplays (hfailed q hq hsize) i p hi hp
  · obtain ⟨plan, -, hplay⟩ := exists_plays_drop hplays hi hp
    exact hplay.matchAt_of_size_lt (Nat.lt_of_not_le hsize)

/-- The first plan that matches at the nearest position belongs to the nearest match. -/
theorem nearest_of_found {index start left : Nat} {plan : Plan} {found : Hit} (hpos : pos ≤ start)
    (hsize : start ≤ t.size)
    (hbefore : ∀ q, pos ≤ q → q < start → ∀ plan ∈ plans, ∃ left, plan.attempt t q = .failed left)
    (hplan : plans[index]? = some plan) (hattempt : plan.attempt t start = .matched found left)
    (hleast : ∀ j < index, ∀ plan, plans[j]? = some plan →
      ∃ left, plan.attempt t start = .failed left) :
    Nearest ps first t pos (first + index) ⟨start, found.pos⟩ where
  first_le := Nat.le_add_right _ _
  pos_le := hpos
  matches_at := by
    obtain ⟨p, hp, _, hplanned⟩ := exists_getElem?_of_forall₂' hplays hplan
    rw [List.getElem?_drop] at hp
    exact ⟨p, hp, hplanned.matchAt_eq_some_iff.2 ⟨hsize, found, left, hattempt, rfl⟩⟩
  nearest := fun q hq hqs => matchAt_of_all_failed hplays (hbefore q hq hqs)
  least := by
    intro i p hi hlt hp
    obtain ⟨plan', hplan', hplay⟩ := exists_plays_drop hplays hi hp
    obtain ⟨left', hfailed⟩ := hleast (i - first) (by omega) plan' hplan'
    exact hplay.matchAt_of_failed hfailed

end Dropped

theorem Nearest.not_noMatch {first index : Nat} {span : Span}
    (h : Nearest ps first t pos index span) : ¬ NoMatch ps first t pos := by
  intro hno
  obtain ⟨p, hp, hmatch⟩ := h.matches_at
  rw [hno span.start h.pos_le index p h.first_le hp] at hmatch
  cases hmatch

/-- A search of joined rules is given up, or finds nothing where no rule matches, or finds the
nearest match. -/
theorem search_cases {s : RuleSet}
    (hrules : List.Forall₂ (fun clause p => SelfContained ignoreCase clause.part p) clauses ps)
    (hbuild : RuleSet.build ignoreCase clauses = .ok s) (first : Nat) (t : Text) (pos : Nat) :
    (s.GivesUp first t pos ∧ s.search first t pos = none) ∨
    (¬ s.GivesUp first t pos ∧ s.search first t pos = none ∧ NoMatch ps first t pos) ∨
    (¬ s.GivesUp first t pos ∧ ∃ found clause, s.search first t pos = some found ∧
      Nearest ps first t pos found.index found.span ∧
      clauses[found.index]? = some clause ∧ clause.rule = found.rule) := by
  by_cases hdecided : s.GivesUp first t pos
  · exact .inl ⟨hdecided, RuleSet.search_of_givesUp hdecided⟩
  refine .inr ?_
  obtain ⟨ms, plans, hcast⟩ := exists_cast hrules
  obtain ⟨hclauses, hnone, hfrom⟩ := RuleSet.from?_of_build hbuild
  by_cases hlt : first < clauses.length
  · obtain ⟨⟨c₀, hc₀⟩, hfirst⟩ := hfrom first hlt
    obtain ⟨body, rest, c, hdrop, hc, hjoined⟩ := exists_combine_drop hcast hlt hc₀
    rw [hc] at hfirst
    have hfirst : s.from? first = some c := hfirst
    have hcast' := hcast.drop first
    have hplans := hcast'.plan?
    rw [hdrop] at hplans
    have hsearch : s.search first t pos = (c.search t pos).bind fun x =>
        (s.clauses[first + x.1]?).bind fun clause => some ⟨clause.rule, first + x.1, x.2⟩ := by
      rw [RuleSet.search, hfirst]
      rfl
    cases houtcome : c.regex.outcome t pos with
    | givenUp => exact absurd ⟨c, hfirst, houtcome⟩ hdecided
    | absent =>
      have hnothing : s.search first t pos = none := by
        rw [hsearch, Combined.search, search_eq_match?, houtcome]
        rfl
      exact .inl ⟨hdecided, hnothing, noMatch_of_all_failed hcast'.plays fun q hq hsize =>
        hjoined.absent hplans houtcome hq hsize⟩
    | found start hit =>
      obtain ⟨hpos, hsize, hbefore, index, plan, found, left, hplan, hattempt, hleast, hcsearch⟩ :=
        hjoined.found hplans houtcome
      have hnearest := nearest_of_found hcast'.plays hpos hsize hbefore hplan hattempt hleast
      have hindex : first + index < clauses.length := by
        have hbound := (List.getElem?_eq_some_iff.1 hplan).1
        rw [List.length_drop, ← hcast.plays.length_eq, ← hrules.length_eq] at hbound
        omega
      obtain ⟨clause, hclause⟩ : ∃ clause, clauses[first + index]? = some clause :=
        ⟨_, List.getElem?_eq_getElem hindex⟩
      rw [hcsearch, Option.bind_some, hclauses, List.getElem?_toArray, hclause, Option.bind_some]
        at hsearch
      exact .inr ⟨hdecided, _, clause, hsearch, hnearest, hclause, rfl⟩
  · have hfirst := hnone first (Nat.le_of_not_lt hlt)
    have hnothing : s.search first t pos = none := by
      rw [RuleSet.search, hfirst]
      rfl
    refine .inl ⟨hdecided, hnothing, fun q _ i p hi hp => ?_⟩
    have hlength := hrules.length_eq
    have hbound := (List.getElem?_eq_some_iff.1 hp).1
    omega

/-- **Joined rules match like the rules one by one.** A search that is given up finds nothing. Any
other finds something exactly if some rule matches somewhere, and then the match of the first rule
that matches at the nearest position. -/
theorem search_naive {s : RuleSet}
    (hrules : List.Forall₂ (fun clause p => SelfContained ignoreCase clause.part p) clauses ps)
    (hbuild : RuleSet.build ignoreCase clauses = .ok s) (first : Nat) (t : Text) (pos : Nat) :
    (s.GivesUp first t pos → s.search first t pos = none) ∧
    (¬ s.GivesUp first t pos →
      (s.search first t pos = none ↔ NoMatch ps first t pos) ∧
      ∀ found, s.search first t pos = some found →
        Nearest ps first t pos found.index found.span ∧
        ∃ clause, clauses[found.index]? = some clause ∧ clause.rule = found.rule) := by
  refine ⟨RuleSet.search_of_givesUp, fun hdecided => ?_⟩
  rcases search_cases hrules hbuild first t pos with
    ⟨hgives, -⟩ | ⟨-, hnothing, hno⟩ | ⟨-, found, clause, hfound, hnearest, hclause, hrule⟩
  · exact absurd hgives hdecided
  · refine ⟨⟨fun _ => hno, fun _ => hnothing⟩, fun found hfound => ?_⟩
    rw [hnothing] at hfound
    cases hfound
  · refine ⟨⟨fun hnothing => ?_, fun hno => absurd hno hnearest.not_noMatch⟩, fun f hf => ?_⟩
    · rw [hnothing] at hfound
      cases hfound
    · rw [hfound] at hf
      cases hf
      exact ⟨hnearest, clause, hclause, hrule⟩

/-! ## Deciding what patterns stand for themselves -/

/-- Whether the pattern of a rule stands for itself. -/
def Part.isSelfContained (ignoreCase : Bool) : Part → Bool
  | ⟨source, groups⟩ =>
    Part.isWhole ignoreCase ⟨source, groups⟩ && Regex.tame none (charactersOf source)

theorem exists_selfContained {ignoreCase : Bool} {part : Part}
    (h : part.isSelfContained ignoreCase = true) : ∃ p, SelfContained ignoreCase part p := by
  obtain ⟨source, groups⟩ := part
  rw [Part.isSelfContained, charactersOf_eq, Bool.and_eq_true] at h
  obtain ⟨p, hparses, hcompiles, hgroups⟩ := exists_of_isWhole h.1
  exact ⟨p, hparses, h.2, hcompiles, hgroups⟩

theorem exists_patterns (ignoreCase : Bool) (clauses : List Clause)
    (h : clauses.all (·.part.isSelfContained ignoreCase) = true) :
    ∃ ps, List.Forall₂ (fun clause p => SelfContained ignoreCase clause.part p) clauses ps :=
  exists_forall₂ fun clause hclause => exists_selfContained (List.all_eq_true.1 h clause hclause)

/-- An illegal pair, and an end that doubles a letter. -/
def doubling : List Clause :=
  [⟨.illegal, ⟨"(x)(y)", 2⟩⟩, ⟨.ending, ⟨"(a|b)\\1", 1⟩⟩]

/-- The doubled letter is found, although its group has another number in the joined pattern. -/
theorem doubling_search_naive : ∃ ps s,
    List.Forall₂ (fun clause p => SelfContained false clause.part p) doubling ps ∧
    RuleSet.build false doubling = .ok s ∧
    s.search 0 "cabbxy".toList.toArray 0 = some ⟨.ending, 1, ⟨2, 4⟩⟩ ∧
    Nearest ps 0 "cabbxy".toList.toArray 0 1 ⟨2, 4⟩ := by
  obtain ⟨ps, hps⟩ := exists_patterns false doubling (by decide +kernel)
  have hfound : ((RuleSet.build false doubling).toOption.bind fun s =>
      s.search 0 "cabbxy".toList.toArray 0) = some ⟨.ending, 1, ⟨2, 4⟩⟩ := by decide +kernel
  cases hbuild : RuleSet.build false doubling with
  | error err =>
    rw [hbuild] at hfound
    cases hfound
  | ok s =>
    rw [hbuild] at hfound
    have hfound : s.search 0 "cabbxy".toList.toArray 0 = some ⟨.ending, 1, ⟨2, 4⟩⟩ := hfound
    obtain ⟨hgivesUp, hnaive⟩ := search_naive hps hbuild 0 "cabbxy".toList.toArray 0
    have hdecided : ¬ s.GivesUp 0 "cabbxy".toList.toArray 0 := fun hgives => by
      rw [hgivesUp hgives] at hfound
      cases hfound
    exact ⟨ps, s, hps, rfl, hfound, ((hnaive hdecided).2 _ hfound).1⟩

end ModeStack.Rule
