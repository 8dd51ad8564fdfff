import ModeStack.Proofs.Regex.Evaluation
import ModeStack.Proofs.Rule.Attempt

/-!
# What joined rules find

A rule set joins the patterns of its rules into one, raises their references, and tells the rule
that matched from the group that captured it. For patterns that parse on their own (`Standalone`)
the joined pattern is the joined plan of its parts (`JoinedOf`), so a search finds the match of the
first part at the nearest position (`JoinedOf.found`). What a part makes of a position is what its
pattern makes of it, if the part is read under the flags that all patterns share (`Planned`).
-/

namespace ModeStack.Rule

open ModeStack.Regex
open ModeStack.Text (charactersOf)

/-! ## Patterns and their plans -/

/-- The pattern of a rule parses completely on its own, holds nothing that depends on its place,
flags apart, compiles, and has as many groups as are counted for it. -/
structure Standalone (ignoreCase : Bool) (part : Part) (p : Pattern) : Prop where
  parses : ∃ e n, Regex.parse part.source = .ok (e, n)
  calm : Regex.calm .outside false [] part.source.toList = true
  compiles : Pattern.compile ignoreCase part.source = .ok p
  groups : part.groups = p.groups

/-- Whether a pattern parses and compiles, and has as many groups as are counted for it. -/
def Part.isWhole (ignoreCase : Bool) : Part → Bool
  | ⟨source, groups⟩ => (parseCharacters (charactersOf source)).toOption.isSome &&
      (Pattern.evaluate ignoreCase source).toOption.any (groups = ·.groups)

theorem exists_of_isWhole {ignoreCase : Bool} {part : Part}
    (h : part.isWhole ignoreCase = true) :
    ∃ p, (∃ e n, Regex.parse part.source = .ok (e, n)) ∧
      Pattern.compile ignoreCase part.source = .ok p ∧ part.groups = p.groups := by
  obtain ⟨source, groups⟩ := part
  rw [Part.isWhole, ← parse_eq, ← Pattern.compile_eq, Bool.and_eq_true] at h
  obtain ⟨⟨e, n⟩, hparse⟩ := exists_of_toOption_isSome h.1
  obtain ⟨p, hcompile, hgroups⟩ := exists_of_toOption_any h.2
  exact ⟨p, ⟨e, n, hparse⟩, hcompile, of_decide_eq_true hgroups⟩

/-- The plan of a pattern is the plan of what its text means, with its groups numbered from 1
on. -/
structure Planned (body : Body) (p : Pattern) (plan : Plan) : Prop where
  plan? : body.plan? = .ok plan
  shifted : p.regex.plan = plan.shift 1

/-- A pattern whose text means a body, with its groups numbered from 1 on, has the plan of the
body. -/
theorem exists_planned_of_parse {ignoreCase : Bool} {source : String} {p : Pattern} {body : Body}
    (hcompile : Pattern.compile ignoreCase source = .ok p)
    (hparse : ∀ e n, parse (Pattern.flagged ignoreCase source) = .ok (e, n) →
      e = body.expr.shift 1) :
    ∃ plan, Planned body p plan := by
  obtain ⟨re, hre, hp⟩ := exists_of_bind_eq_ok hcompile
  cases hp
  obtain ⟨⟨e, n⟩, hflagged, hre⟩ := exists_of_bind_eq_ok hre
  obtain rfl := hparse e n hflagged
  obtain ⟨plan', hplan', hre⟩ := exists_of_bind_eq_ok hre
  cases hre
  have hagree : Expr.Agree 1 body.expr.references (body.expr.shift 1).references
      body.expr.spread := by
    intro i _
    rw [Expr.references_shift, Bool.eq_iff_iff, List.contains_iff_mem, List.contains_iff_mem,
      List.mem_map]
    exact ⟨fun ⟨j, hj, hji⟩ => Nat.succ.inj hji ▸ hj, fun hi => ⟨i, hi, rfl⟩⟩
  rw [Expr.spread_shift, Expr.plan_shift hagree] at hplan'
  cases hplan : body.plan? with
  | error err =>
    rw [Body.plan?] at hplan
    rw [hplan] at hplan'
    cases hplan'
  | ok plan =>
    have hplan₀ := hplan
    rw [Body.plan?] at hplan
    rw [hplan] at hplan'
    cases hplan'
    exact ⟨plan, hplan₀, rfl⟩

theorem exists_planned {ignoreCase : Bool} {part : Part} {p : Pattern}
    (h : Standalone ignoreCase part p) :
    ∃ m, Stands part m ∧ ∃ plan, Planned (m.body (sharedFlags ignoreCase)) p plan := by
  obtain ⟨e, n, hparse⟩ := h.parses
  obtain ⟨m, htext, hgroups⟩ := exists_movable h.calm hparse
  have hmeans (e' : Expr) (n' : Nat)
      (hflagged : parse (Pattern.flagged ignoreCase part.source) = .ok (e', n')) :
      e' = (m.body (sharedFlags ignoreCase)).expr.shift 1 ∧ n' = m.groups :=
    of_parse_flagged htext hflagged
  have hstands : m.groups = part.groups := by
    obtain ⟨re, hre, hp⟩ := exists_of_bind_eq_ok h.compiles
    cases hp
    obtain ⟨⟨e', n'⟩, hflagged, hre⟩ := exists_of_bind_eq_ok hre
    obtain ⟨plan', -, hre⟩ := exists_of_bind_eq_ok hre
    cases hre
    exact (hmeans e' n' hflagged).2.symm.trans h.groups.symm
  exact ⟨m, ⟨htext, hstands⟩,
    exists_planned_of_parse h.compiles fun e' n' hflagged => (hmeans e' n' hflagged).1⟩

theorem exists_movables {ignoreCase : Bool} {parts : List Part} {ps : List Pattern}
    (h : List.Forall₂ (Standalone ignoreCase) parts ps) :
    ∃ ms, List.Forall₂ Stands parts ms ∧
      List.Forall₂ (fun m p => ∃ plan, Planned (m.body (sharedFlags ignoreCase)) p plan) ms ps := by
  induction h with
  | nil => exact ⟨[], .nil, .nil⟩
  | cons hstandalone _ ih =>
    obtain ⟨m, hstands, hplanned⟩ := exists_planned hstandalone
    obtain ⟨ms, hms, hps⟩ := ih
    exact ⟨m :: ms, .cons hstands hms, .cons hplanned hps⟩

section Match

variable {body : Body} {p : Pattern} {plan : Plan} {t : Text}

theorem Planned.verdictAt (h : Planned body p plan) (origin pos : Nat) :
    p.regex.verdictAt t origin pos = (plan.attempt t pos).map (Hit.shift 1) := by
  have hplain := Expr.isPlain_plan (Expr.isPlain_spread body.isPlain) h.plan?
  rw [Regex.verdictAt, h.shifted]
  exact run_shift hplain _ _ _ follows_accepted { pos := pos } maxBacktracks

theorem captureOf?_shift_one (h : Hit) : (h.shift 1).captureOf? 0 = none := by
  refine List.find?_eq_none.2 fun c hc hgroup => ?_
  obtain ⟨c', -, rfl⟩ := List.mem_map.1 hc
  exact absurd (of_decide_eq_true hgroup) (Nat.succ_ne_zero c'.group)

/-- A match that a pattern finds is one that its plan makes, where it starts. -/
theorem Planned.of_find (h : Planned body p plan) {pos : Nat} {span : Span}
    (hfind : p.find t pos = some span) :
    span.start ≤ t.size ∧ ∃ found left, plan.attempt t span.start = .matched found left ∧
      found.pos = span.stop := by
  obtain ⟨⟨start, hit⟩, hsearch, rfl⟩ := Option.map_eq_some_iff.1 hfind
  obtain ⟨hle, hlt, ⟨left, hverdict⟩, -⟩ :=
    matched_of_outcomeFrom_found le_rfl (outcome_of_search hsearch)
  rw [h.verdictAt] at hverdict
  obtain ⟨found, hattempt, rfl⟩ := exists_of_map_eq_matched hverdict
  simp only [captureOf?_shift_one, Option.map_none, Option.getD_none]
  exact ⟨by omega, found, left, hattempt, rfl⟩

/-- A pattern finds at once what its plan makes of the position. -/
theorem Planned.find_of_attempt (h : Planned body p plan) {pos left : Nat} {found : Hit}
    (hpos : pos ≤ t.size) (hattempt : plan.attempt t pos = .matched found left) :
    p.find t pos = some ⟨pos, found.pos⟩ := by
  obtain ⟨rounds, hrounds⟩ : ∃ rounds, t.size + 1 - pos = rounds + 1 :=
    ⟨t.size - pos, Nat.succ_sub hpos⟩
  have hverdict : p.regex.plan.run t pos accepted { pos := pos } maxBacktracks =
      .matched (found.shift 1) left := by
    have := h.verdictAt (t := t) pos pos
    rw [hattempt] at this
    exact this
  have hsearch : p.regex.search t pos = some (pos, found.shift 1) := by
    rw [Regex.search, hrounds, searchFrom, hverdict]
  rw [Pattern.find, Regex.find, hsearch]
  simp only [Option.map_some, captureOf?_shift_one, Option.map_none, Option.getD_none]
  rfl

/-- A pattern matches at a position where its plan does. -/
theorem Planned.matchAt_eq_some_iff (h : Planned body p plan) {pos stop : Nat} :
    p.matchAt t pos = some stop ↔
      pos ≤ t.size ∧ ∃ found left, plan.attempt t pos = .matched found left ∧ found.pos = stop := by
  constructor
  · intro hmatch
    unfold Pattern.matchAt at hmatch
    split at hmatch
    · rename_i span hfind
      split_ifs at hmatch with hstart
      cases hmatch
      subst hstart
      exact h.of_find hfind
    · cases hmatch
  · rintro ⟨hpos, found, left, hattempt, rfl⟩
    rw [Pattern.matchAt, h.find_of_attempt hpos hattempt]
    exact if_pos rfl

/-- A pattern does not match where its plan fails. -/
theorem Planned.matchAt_of_failed (h : Planned body p plan) {pos left : Nat}
    (hattempt : plan.attempt t pos = .failed left) : p.matchAt t pos = none := by
  rw [Option.eq_none_iff_forall_ne_some]
  intro stop hmatch
  obtain ⟨-, found, left', hmatched, -⟩ := h.matchAt_eq_some_iff.1 hmatch
  rw [hattempt] at hmatched
  cases hmatched

end Match

/-- A plan does at every position what the pattern does. -/
def Plays (p : Pattern) (plan : Plan) : Prop := ∃ body, Planned body p plan

section Plays

variable {t : Text} {pos : Nat}

theorem Plays.matchAt_of_failed {p : Pattern} {plan : Plan} (h : Plays p plan) {left : Nat}
    (hattempt : plan.attempt t pos = .failed left) : p.matchAt t pos = none := by
  obtain ⟨_, hplanned⟩ := h
  exact hplanned.matchAt_of_failed hattempt

theorem Plays.matchAt_of_size_lt {p : Pattern} {plan : Plan} (h : Plays p plan)
    (hpos : t.size < pos) : p.matchAt t pos = none := by
  obtain ⟨_, hplanned⟩ := h
  rw [Option.eq_none_iff_forall_ne_some]
  intro stop hmatch
  exact absurd (hplanned.matchAt_eq_some_iff.1 hmatch).1 (Nat.not_le_of_gt hpos)

end Plays

/-! ## Joined rules -/

/-- A joined pattern is the joined plan of its parts. -/
structure JoinedOf (body : Body) (rest : List Body) (c : Combined) : Prop where
  wrappers : c.wrappers = wrapperNumbers 0 (body :: rest)
  plan : (joinedExpr 0 body rest).spread.plan (partReferences 0 (body :: rest)) false =
    .ok c.regex.plan

variable {ignoreCase : Bool} {clauses : List Clause}

section Combine

variable {m : Movable} {ms : List Movable} {body : Body} {rest : List Body}
  (hstands : List.Forall₂ Stands (clauses.map (·.part)) (m :: ms))
  (hterse : Terse (.start ignoreCase) (m :: ms))

include hstands hterse

/-- Rules that can be joined are accepted. -/
theorem accepts_of_combine {c : Combined} (hc : combine ignoreCase clauses = .ok c) :
    Accepts (.start ignoreCase) (m :: ms) ∧
      (Before.all ignoreCase (m :: ms)).isMixed = false := by
  obtain ⟨re, hre, -⟩ := exists_of_bind_eq_ok hc
  obtain ⟨⟨e, n⟩, hparse, -⟩ := exists_of_bind_eq_ok hre
  exact accepts_of_parse hstands hterse hparse

variable (hbodies : bodies (.start ignoreCase) (m :: ms) = body :: rest)

include hbodies

/-- Rules that are accepted are joined if their parts have a joined plan. -/
theorem combine_eq_map (haccepts : Accepts (.start ignoreCase) (m :: ms))
    (hmixed : (Before.all ignoreCase (m :: ms)).isMixed = false) :
    combine ignoreCase clauses =
      ((joinedExpr 0 body rest).spread.plan (partReferences 0 (body :: rest)) false).map
        fun plan => ⟨⟨plan, groupsAfter 0 (body :: rest)⟩, wrapperNumbers 0 (body :: rest)⟩ := by
  have hparse : parse (Pattern.flagged ignoreCase (alternation true (clauses.map (·.part))).1) =
      .ok (joinedExpr 0 body rest, groupsAfter 0 (body :: rest)) := by
    rw [parse_joined hstands hterse haccepts hmixed, hbodies]
    cases hbodies
    rfl
  have hwrappers : (wrapped true 0 (clauses.map (·.part))).2 = wrapperNumbers 0 (body :: rest) := by
    rw [wrapped_wrappers hstands 0 (.start ignoreCase), hbodies]
  have hjoined : combine ignoreCase clauses =
      (Pattern.compileFlagged ignoreCase (alternation true (clauses.map (·.part))).1).map
        fun re => ⟨re, (wrapped true 0 (clauses.map (·.part))).2⟩ := rfl
  rw [hjoined, hwrappers, Pattern.compileFlagged, Regex.compile, hparse]
  show ((joinedExpr 0 body rest).spread.plan (joinedExpr 0 body rest).references false >>=
    fun plan => pure ⟨plan, groupsAfter 0 (body :: rest)⟩ : Except _ Regex).map _ = _
  rw [references_joinedExpr]
  cases (joinedExpr 0 body rest).spread.plan (partReferences 0 (body :: rest)) false <;> rfl

theorem joinedOf_of_combine {c : Combined} (hc : combine ignoreCase clauses = .ok c) :
    JoinedOf body rest c := by
  obtain ⟨haccepts, hmixed⟩ := accepts_of_combine hstands hterse hc
  rw [combine_eq_map hstands hterse hbodies haccepts hmixed] at hc
  cases hplan : (joinedExpr 0 body rest).spread.plan (partReferences 0 (body :: rest)) false with
  | error err =>
    rw [hplan] at hc
    cases hc
  | ok plan =>
    rw [hplan] at hc
    cases hc
    exact ⟨rfl, hplan⟩

end Combine

theorem refers_joined (bodies : List Body) : Refers (partReferences 0 bodies) 0 bodies :=
  fun _ _ => Iff.rfl

/-- The joined rules from a place on. -/
theorem RuleSet.from?_of_build {s : RuleSet} (h : RuleSet.build ignoreCase clauses = .ok s) :
    s.clauses = clauses.toArray ∧
      (∀ first, clauses.length ≤ first → s.from? first = .none) ∧
      ∀ first, first < clauses.length → (∃ c, combine ignoreCase clauses = .ok c) ∧
        s.from? first = (combine ignoreCase (clauses.drop first)).toOption := by
  unfold RuleSet.build at h
  cases clauses with
  | nil =>
    cases h
    refine ⟨rfl, fun first _ => ?_, fun first hlt => absurd hlt (Nat.not_lt_zero first)⟩
    unfold RuleSet.from?
    split_ifs
    · rfl
    · rfl
  | cons clause clauses =>
    cases hc : combine ignoreCase (clause :: clauses) with
    | error err =>
      rw [hc] at h
      cases h
    | ok c =>
      rw [hc] at h
      cases h
      refine ⟨rfl, fun first hle => ?_, fun first hlt => ⟨⟨c, rfl⟩, ?_⟩⟩
      · rw [List.length_cons] at hle
        obtain ⟨first, rfl⟩ := Nat.exists_eq_succ_of_ne_zero (by omega : first ≠ 0)
        simp [RuleSet.from?, show ¬ first < clauses.length by omega]
      · cases first with
        | zero =>
          rw [List.drop_zero, hc]
          rfl
        | succ first =>
          rw [List.length_cons] at hlt
          simp [RuleSet.from?, show first < clauses.length by omega, Thunk.get]

/-- What is found by rules, their joined pattern has found. -/
theorem RuleSet.exists_combined_of_search {s : RuleSet} {first pos : Nat} {t : Text}
    {found : Found} (hbuild : RuleSet.build ignoreCase clauses = .ok s)
    (hfound : s.search first t pos = some found) :
    first < clauses.length ∧ ∃ c offset,
      combine ignoreCase (clauses.drop first) = .ok c ∧
      c.search t pos = some (offset, found.span) ∧ found.index = first + offset ∧
      ∃ clause, clauses[found.index]? = some clause ∧ clause.rule = found.rule := by
  obtain ⟨hclauses, hnone, hfrom⟩ := RuleSet.from?_of_build hbuild
  obtain ⟨c, hc, hfound⟩ := Option.bind_eq_some_iff.1 hfound
  obtain ⟨⟨offset, span⟩, hsearch, hfound⟩ := Option.bind_eq_some_iff.1 hfound
  obtain ⟨clause, hclause, hfound⟩ := Option.bind_eq_some_iff.1 hfound
  cases hfound
  have hlt : first < clauses.length := by
    by_contra hle
    rw [hnone first (Nat.le_of_not_lt hle)] at hc
    cases hc
  rw [hclauses, List.getElem?_toArray] at hclause
  rw [(hfrom first hlt).2] at hc
  cases hjoin : combine ignoreCase (clauses.drop first) with
  | error err =>
    rw [hjoin] at hc
    cases hc
  | ok c' =>
    rw [hjoin] at hc
    cases hc
    exact ⟨hlt, c, offset, rfl, hsearch, rfl, clause, hclause, rfl⟩

/-! ## What a joined pattern finds -/

variable {body : Body} {rest : List Body} {plans : List Plan} {t : Text} {pos : Nat}

/-- At every position the first rule that matches wins. -/
theorem JoinedOf.tried {c : Combined} (h : JoinedOf body rest c)
    (hplans : List.Forall₂ (fun body plan => body.plan? = .ok plan) (body :: rest) plans)
    (origin pos : Nat) : Tried t pos 0 (body :: rest) plans (c.regex.verdictAt t origin pos) :=
  run_joined hplans (refers_joined (body :: rest)) h.plan le_rfl

/-- A search that is not given up and finds nothing has failed everywhere. -/
theorem JoinedOf.absent {c : Combined} (h : JoinedOf body rest c)
    (hplans : List.Forall₂ (fun body plan => body.plan? = .ok plan) (body :: rest) plans)
    (habsent : c.regex.outcome t pos = .absent) {q : Nat} (hq : pos ≤ q) (hsize : q ≤ t.size) :
    ∀ plan ∈ plans, ∃ left, plan.attempt t q = .failed left := by
  obtain ⟨left, hfailed⟩ := failed_of_outcomeFrom_absent le_rfl habsent hq (by omega)
  have htried := h.tried hplans (t := t) pos q
  rw [hfailed] at htried
  exact htried

/-- What a search finds is the match of the first rule at the nearest position. -/
theorem JoinedOf.found {c : Combined} (h : JoinedOf body rest c)
    (hplans : List.Forall₂ (fun body plan => body.plan? = .ok plan) (body :: rest) plans)
    {start : Nat} {hit : Hit} (hfound : c.regex.outcome t pos = .found start hit) :
    pos ≤ start ∧ start ≤ t.size ∧
      (∀ q, pos ≤ q → q < start → ∀ plan ∈ plans, ∃ left, plan.attempt t q = .failed left) ∧
      ∃ index plan found left, plans[index]? = some plan ∧
        plan.attempt t start = .matched found left ∧
        (∀ j < index, ∀ plan, plans[j]? = some plan → ∃ left, plan.attempt t start = .failed left) ∧
        c.search t pos = some (index, ⟨start, found.pos⟩) := by
  obtain ⟨hle, hlt, ⟨left, hmatched⟩, hbefore⟩ := matched_of_outcomeFrom_found le_rfl hfound
  refine ⟨hle, by omega, fun q hq hqs => ?_, ?_⟩
  · obtain ⟨left, hfailed⟩ := hbefore q hq hqs
    have htried := h.tried hplans (t := t) pos q
    rw [hfailed] at htried
    exact htried
  · have htried := h.tried hplans (t := t) pos start
    rw [hmatched] at htried
    obtain ⟨index, hwon⟩ := htried
    obtain ⟨plan, found, left, wrapper, hplan, hattempt, hwinner⟩ := hwon.attempt
    refine ⟨index, plan, found, left, hplan, hattempt, hwon.least, ?_⟩
    have hsearch : c.regex.search t pos = some (start, hit) := by
      rw [search_eq_match?, hfound]
      rfl
    rw [Combined.search, hsearch, h.wrappers]
    simp only [Option.bind_eq_bind, Option.bind_some, hwinner 0, Nat.zero_add]
    rfl

end ModeStack.Rule
