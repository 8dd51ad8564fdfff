import ModeStack.Proofs.Regex.Preferred
import ModeStack.Proofs.Regex.Words
import ModeStack.Proofs.Rule.Extent
import ModeStack.Proofs.Rule.Priority

/-!
# Rules that need not go back

A pattern that is matched through the ends of its expression spends nothing of the budget: it takes
what the expression prefers (`Plan.takes_direct`) or rejects the position (`Plan.rejects_direct`).
So a search is not given up at a position where a rule takes something and those before it reject
the position (`search_here`), nor at all if the joined pattern of the rules is matched so itself
(`search_onward_direct`).
-/

namespace ModeStack.Regex

variable {t : Text} {pos stop : Nat}

/-- From a position a plan comes to another at once. -/
def Plan.Takes (t : Text) (pos stop : Nat) (p : Plan) : Prop :=
  ∀ origin budget, ∃ h, p.run t origin accepted { pos := pos } budget = .matched h budget ∧
    h.pos = stop

/-- At a position a plan fails at once. -/
def Plan.Rejects (t : Text) (pos : Nat) (p : Plan) : Prop :=
  ∀ origin budget, p.run t origin accepted { pos := pos } budget = .failed budget

theorem Plan.takes_direct {e : Expr} (h : e.Prefers t pos stop) :
    (Plan.direct e).Takes t pos stop := by
  intro origin budget
  obtain ⟨x, hx, hpos⟩ := Option.map_eq_some_iff.1 (h origin { pos := pos } rfl)
  refine ⟨x, ?_, hpos⟩
  rw [Plan.run, fromEach_accepted, hx]

theorem Plan.rejects_direct {e : Expr} (he : e.isRegular = true) (hpos : pos ≤ t.size)
    (h : e.Refuses t pos) : (Plan.direct e).Rejects t pos := by
  intro origin budget
  have hstart : Hit.pos { pos := pos } ≤ t.size := hpos
  rw [Plan.run, fromEach_accepted, (Expr.ends_eq_nil_iff origin he hstart).2 h]
  rfl

/-- A plan fails that begins with an assertion and something that does not match. -/
theorem Plan.rejects_after_assertion {a : Assertion} {e : Expr} {rest : Plan}
    (he : e.isRegular = true) (hpos : pos ≤ t.size) (h : e.Refuses t pos) :
    (Plan.seq (.direct (.assert a)) (.seq (.direct e) rest)).Rejects t pos := by
  intro origin budget
  have hnil : e.ends t origin { pos := pos } = [] := (Expr.ends_eq_nil_iff origin he hpos).2 h
  simp only [Plan.run, Expr.ends]
  split_ifs
  · simp only [fromEach, hnil]
  · rfl

section Shift

variable {p : Plan} {n : Nat}

/-- Shifted plans take the same. -/
theorem Plan.Takes.of_shift (hp : p.isPlain = true) (h : (p.shift n).Takes t pos stop) :
    p.Takes t pos stop := by
  intro origin budget
  obtain ⟨x, hrun, hx⟩ := h origin budget
  have hfollows : BodyFollows n (p.run t origin) ((p.shift n).run t origin) := run_shift hp
  have hshift := hfollows _ _ _ follows_accepted { pos := pos } budget
  obtain ⟨y, hy, rfl⟩ := Rule.exists_of_map_eq_matched (hshift.symm.trans hrun)
  exact ⟨y, hy, hx⟩

theorem Plan.Rejects.of_shift (hp : p.isPlain = true) (h : (p.shift n).Rejects t pos) :
    p.Rejects t pos := by
  intro origin budget
  have hfollows : BodyFollows n (p.run t origin) ((p.shift n).run t origin) := run_shift hp
  have hshift := hfollows _ _ _ follows_accepted { pos := pos } budget
  exact Rule.eq_failed_of_map_eq_failed (hshift.symm.trans (h origin budget))

end Shift

/-- A search that is matched directly is never given up. -/
theorem outcome_ne_givenUp {re : Regex} (h : re.isDirect = true) (t : Text) (pos : Nat) :
    re.outcome t pos ≠ .givenUp := by
  have hfrom (rounds p budget : Nat) : re.outcomeFrom t pos rounds p budget ≠ .givenUp := by
    induction rounds generalizing p budget with
    | zero => simp [outcomeFrom]
    | succ rounds ih =>
      obtain ⟨e, he⟩ : ∃ e, re.plan = .direct e := by
        unfold isDirect at h
        split at h
        · rename_i e he
          exact ⟨e, he⟩
        · cases h
      simp only [outcomeFrom, he, Plan.run, fromEach_accepted, h, if_true]
      cases (e.ends t pos { pos := p }).head? with
      | none => exact ih _ _
      | some x => simp
  exact hfrom _ _ _

end ModeStack.Regex

namespace ModeStack.Rule

open ModeStack.Regex

variable {t : Text} {pos stop : Nat}

/-! ## One pattern -/

section Pattern

variable {p : Pattern} {plan : Plan}

theorem Plays.takes (h : Plays p plan) (htakes : p.regex.plan.Takes t pos stop) :
    plan.Takes t pos stop := by
  obtain ⟨body, hplanned⟩ := h
  rw [hplanned.shifted] at htakes
  exact htakes.of_shift (Expr.isPlain_plan (Expr.isPlain_spread body.isPlain) hplanned.plan?)

theorem Plays.rejects (h : Plays p plan) (hrejects : p.regex.plan.Rejects t pos) :
    plan.Rejects t pos := by
  obtain ⟨body, hplanned⟩ := h
  rw [hplanned.shifted] at hrejects
  exact hrejects.of_shift (Expr.isPlain_plan (Expr.isPlain_spread body.isPlain) hplanned.plan?)

theorem Plays.matchAt_of_takes (h : Plays p plan) (hpos : pos ≤ t.size)
    (htakes : p.regex.plan.Takes t pos stop) : p.matchAt t pos = some stop := by
  obtain ⟨x, hrun, rfl⟩ := h.takes htakes 0 maxBacktracks
  obtain ⟨body, hplanned⟩ := h
  exact hplanned.matchAt_eq_some_iff.2 ⟨hpos, x, maxBacktracks, hrun, rfl⟩

theorem Plays.matchAt_of_rejects (h : Plays p plan) (hrejects : p.regex.plan.Rejects t pos) :
    p.matchAt t pos = none :=
  h.matchAt_of_failed (h.rejects hrejects 0 maxBacktracks)

theorem SelfContained.exists_plays {ignoreCase : Bool} {part : Part}
    (h : SelfContained ignoreCase part p) : ∃ plan, Plays p plan := by
  obtain ⟨m, -, plan, hplanned⟩ := exists_planned h.standalone
  exact ⟨plan, _, hplanned⟩

end Pattern

/-! ## Where a search begins -/

section Joined

variable {before : Nat} {body : Body} {rest : List Body} {captured : List Nat} {plans : List Plan}
  {origin : Nat} {p pa pb q : Plan} {a b : Expr} {h : Hit} {budget : Nat}

section Alternatives

variable (hp : (Expr.alt a b).plan captured false = .ok p) (ha : a.plan captured false = .ok pa)
  (hb : b.plan captured false = .ok pb)

include hp ha hb

/-- Of two alternatives the first that matches is taken. -/
theorem run_alt_of_matched {found : Hit} {left : Nat}
    (hmatched : pa.run t origin accepted h budget = .matched found left) :
    p.run t origin accepted h budget = .matched found left := by
  simp only [Expr.plan] at hp
  split_ifs at hp with hdirect
  · cases hp
    simp only [Expr.plan.isDirect, Expr.backtracks, Bool.not_or, Bool.not_false, Bool.true_or,
      Bool.and_true, Bool.and_eq_true, Bool.not_eq_true'] at hdirect
    rw [Expr.plan_of_not_backtracks hdirect.1] at ha
    cases ha
    simp only [Plan.run, fromEach_accepted, Expr.ends, head?_distinct, List.head?_append]
      at hmatched ⊢
    cases hhead : (a.ends t origin h).head? with
    | none => simp [hhead] at hmatched
    | some x => simpa [hhead] using hmatched
  · rw [ha, hb] at hp
    cases hp
    simp only [Plan.run, hmatched, Verdict.orElse]

/-- The second is tried where the first fails, at the cost of one at most. -/
theorem run_alt_of_failed {left : Nat}
    (hfailed : pa.run t origin accepted h budget = .failed (left + 1)) :
    ∃ rest, left ≤ rest ∧ p.run t origin accepted h budget = pb.run t origin accepted h rest := by
  simp only [Expr.plan] at hp
  split_ifs at hp with hdirect
  · cases hp
    simp only [Expr.plan.isDirect, Expr.backtracks, Bool.not_or, Bool.not_false, Bool.true_or,
      Bool.and_true, Bool.and_eq_true, Bool.not_eq_true'] at hdirect
    rw [Expr.plan_of_not_backtracks hdirect.1] at ha
    rw [Expr.plan_of_not_backtracks hdirect.2] at hb
    cases ha
    cases hb
    refine ⟨left + 1, Nat.le_succ left, ?_⟩
    simp only [Plan.run, fromEach_accepted, Expr.ends, head?_distinct, List.head?_append]
      at hfailed ⊢
    cases hhead : (a.ends t origin h).head? with
    | none =>
      simp only [hhead, Verdict.failed.injEq] at hfailed
      simp only [hfailed, Option.none_or]
    | some x => simp [hhead] at hfailed
  · rw [ha, hb] at hp
    cases hp
    exact ⟨left, le_rfl, by simp only [Plan.run, hfailed, Verdict.orElse]⟩

end Alternatives

/-- **Joined rules match where one of them takes something** and those before it reject the
position. -/
theorem run_joined_here (origin : Nat) {index : Nat}
    (hplans : List.Forall₂ (fun body p => body.plan? = .ok p) (body :: rest) plans)
    (hrefers : Refers captured before (body :: rest))
    (hq : (joinedExpr before body rest).spread.plan captured false = .ok q)
    (hp : plans[index]? = some p) (htakes : p.Takes t pos stop)
    (hrejects : ∀ j < index, ∀ p, plans[j]? = some p → p.Rejects t pos)
    (hbudget : index ≤ budget) :
    ∃ found left, q.run t origin accepted { pos := pos } budget = .matched found left := by
  induction rest generalizing before body plans index budget q with
  | nil =>
    cases hplans with
    | @cons _ p' _ _ hp' hrest =>
      cases hrest
      obtain rfl : index = 0 := by
        have hlt := (List.getElem?_eq_some_iff.1 hp).1
        simpa using hlt
      cases hp
      obtain ⟨x, hrun, -⟩ := htakes 0 budget
      exact ⟨_, budget, by rw [tried_part t origin hrefers hp' hq, hrun]; rfl⟩
  | cons body' rest ih =>
    cases hplans with
    | @cons _ p' _ plans hp' hrest =>
      rw [spread_joinedExpr] at hq
      obtain ⟨qa, hqa⟩ : ∃ qa, (partExpr before body).spread.plan captured false = .ok qa := by
        rw [spread_partExpr]
        exact exists_plan_group hrefers.agree hp'
      obtain ⟨qb, hqb⟩ := exists_plan_joined (exists_plan_of_forall₂ hrest) hrefers.tail
      have hpart := tried_part t origin hrefers hp' hqa pos budget
      cases index with
      | zero =>
        cases hp
        obtain ⟨x, hrun, -⟩ := htakes 0 budget
        rw [hrun] at hpart
        exact ⟨_, budget, run_alt_of_matched hq hqa hqb hpart⟩
      | succ index =>
        obtain ⟨budget, rfl⟩ := Nat.exists_eq_succ_of_ne_zero (Nat.ne_zero_of_lt hbudget)
        rw [hrejects 0 (Nat.succ_pos index) p' rfl 0] at hpart
        obtain ⟨left, hle, hrun⟩ := run_alt_of_failed hq hqa hqb hpart
        rw [hrun]
        refine ih hrest hrefers.tail hqb hp (fun j hj p hpj => ?_)
          ((Nat.le_of_succ_le_succ hbudget).trans hle)
        exact hrejects (j + 1) (Nat.succ_lt_succ hj) p hpj

end Joined

/-! ## Searches -/

/-- The pattern of a rule comes from one position to another at once. -/
def Part.Takes (ignoreCase : Bool) (t : Text) (pos stop : Nat) (part : Part) : Prop :=
  ∀ p, Pattern.compile ignoreCase part.source = .ok p → p.regex.plan.Takes t pos stop

/-- The pattern of a rule fails at a position at once. -/
def Part.Rejects (ignoreCase : Bool) (t : Text) (pos : Nat) (part : Part) : Prop :=
  ∀ p, Pattern.compile ignoreCase part.source = .ok p → p.regex.plan.Rejects t pos

/-- Whether the pattern of a rule is matched through the ends of the expression. -/
def Part.reads (ignoreCase : Bool) (part : Part) (e : Expr) : Bool :=
  (Pattern.evaluate ignoreCase part.source).toOption.any (·.regex.plan = .direct e)

theorem Part.plan_of_reads {ignoreCase : Bool} {part : Part} {e : Expr} {p : Pattern}
    (h : part.reads ignoreCase e = true) (hp : Pattern.compile ignoreCase part.source = .ok p) :
    p.regex.plan = .direct e := by
  rw [Part.reads, ← Pattern.compile_eq, hp] at h
  exact of_decide_eq_true h

theorem Part.takes_of_reads {ignoreCase : Bool} {part : Part} {e : Expr}
    (h : part.reads ignoreCase e = true) (he : e.Prefers t pos stop) :
    part.Takes ignoreCase t pos stop := by
  intro p hp
  rw [plan_of_reads h hp]
  exact Plan.takes_direct he

theorem Part.rejects_of_reads {ignoreCase : Bool} {part : Part} {e : Expr}
    (h : part.reads ignoreCase e = true) (he : e.isRegular = true) (hpos : pos ≤ t.size)
    (hno : e.Refuses t pos) : part.Rejects ignoreCase t pos := by
  intro p hp
  rw [plan_of_reads h hp]
  exact Plan.rejects_direct he hpos hno

theorem Part.rejects_of_not_mayBegin {ignoreCase : Bool} {part : Part} {e : Expr} {c : Char}
    (h : part.reads ignoreCase e = true) (he : e.isRegular = true) (hwidth : 0 < e.minWidth)
    (hc : t[pos]? = some c) (hno : e.mayBegin c = false) : part.Rejects ignoreCase t pos :=
  rejects_of_reads h he (Array.getElem?_eq_some_iff.1 hc).1.le
    (Expr.refuses_of_not_mayBegin he hwidth hc hno)

/-- Whether the pattern of a rule takes the words of a list and nothing else. -/
def Part.spells (ignoreCase : Bool) (part : Part) (ws : List (List Char)) : Bool :=
  (Pattern.evaluate ignoreCase part.source).toOption.any fun p =>
    match p.regex.plan with
    | .direct e => e.isRegular && e.isFree && e.words?.any fun us =>
      (us.all fun u => decide (u ∈ ws)) && ws.all fun w => decide (w ∈ us)
    | _ => false

theorem Part.exists_of_spells {ignoreCase : Bool} {part : Part} {ws : List (List Char)}
    (h : part.spells ignoreCase ws = true) : ∃ e, part.reads ignoreCase e = true ∧
      e.isRegular = true ∧ e.isFree = true ∧ ∀ w, w ∈ e.language ↔ w ∈ ws := by
  obtain ⟨p, hp, h⟩ := exists_of_toOption_any h
  split at h
  · rename_i e hplan
    simp only [Bool.and_eq_true, Option.any_eq_true, List.all_eq_true, decide_eq_true_eq] at h
    obtain ⟨⟨hregular, hfree⟩, us, hus, hsub, hsup⟩ := h
    refine ⟨e, ?_, hregular, hfree, fun w => ?_⟩
    · rw [Part.reads, hp]
      exact decide_eq_true hplan
    · rw [Expr.mem_language_iff hus]
      exact ⟨hsub w, hsup w⟩
  · cases h

section Spelled

variable {ignoreCase : Bool} {part : Part} {ws : List (List Char)} {w : List Char}
  (h : part.spells ignoreCase ws = true) (hpos : pos ≤ t.size)

include h hpos

/-- The only word that stands in the text is taken. -/
theorem Part.takes_of_spells (hw : w ∈ ws) (hshows : Shows t pos w)
    (honly : ∀ u ∈ ws, Shows t pos u → u = w) :
    part.Takes ignoreCase t pos (pos + w.length) := by
  obtain ⟨e, hreads, hregular, hfree, hlanguage⟩ := exists_of_spells h
  refine takes_of_reads hreads (Expr.prefers_of_unique hregular hpos
    (Expr.spans_of_mem hfree ((hlanguage w).2 hw) hshows) fun q hq => ?_)
  obtain ⟨u, hu, hshows', rfl⟩ := hq.exists_word
  rw [honly u ((hlanguage u).1 hu) hshows']

theorem Part.rejects_of_spells (hno : ∀ u ∈ ws, ¬Shows t pos u) :
    part.Rejects ignoreCase t pos := by
  obtain ⟨e, hreads, hregular, -, hlanguage⟩ := exists_of_spells h
  refine rejects_of_reads hreads hregular hpos fun q hq => ?_
  obtain ⟨u, hu, hshows, -⟩ := hq.exists_word
  exact hno u ((hlanguage u).1 hu) hshows

end Spelled

variable {ignoreCase : Bool} {clauses : List Clause} {ps : List Pattern} {s : RuleSet}
  {index start : Nat} {clause : Clause}

theorem SelfContained.matchAt_of_takes {part : Part} {p : Pattern}
    (h : SelfContained ignoreCase part p) (hpos : pos ≤ t.size)
    (htakes : part.Takes ignoreCase t pos stop) : p.matchAt t pos = some stop := by
  obtain ⟨plan, hplays⟩ := h.exists_plays
  exact hplays.matchAt_of_takes hpos (htakes p h.compiles)

theorem SelfContained.matchAt_of_rejects {part : Part} {p : Pattern}
    (h : SelfContained ignoreCase part p) (hrejects : part.Rejects ignoreCase t pos) :
    p.matchAt t pos = none := by
  obtain ⟨plan, hplays⟩ := h.exists_plays
  exact hplays.matchAt_of_rejects (hrejects p h.compiles)

section Patterns

variable (hrules : List.Forall₂ (fun clause p => SelfContained ignoreCase clause.part p) clauses ps)

include hrules

/-- A rule that takes something is the nearest if no rule does so before it. -/
theorem nearest_of_takes (hpos : pos ≤ start) (hstart : start ≤ t.size)
    (hclause : clauses[index]? = some clause)
    (htakes : clause.part.Takes ignoreCase t start stop)
    (hbefore : ∀ q, pos ≤ q → q < start → ∀ clause ∈ clauses, clause.part.Rejects ignoreCase t q)
    (hrejects : ∀ clause ∈ clauses.take index, clause.part.Rejects ignoreCase t start) :
    Nearest ps 0 t pos index ⟨start, stop⟩ where
  first_le := Nat.zero_le _
  pos_le := hpos
  matches_at := by
    obtain ⟨p, hp, hself⟩ := exists_getElem?_of_forall₂ hrules hclause
    exact ⟨p, hp, hself.matchAt_of_takes hstart htakes⟩
  nearest := by
    intro q hq hlt i p _ hp
    obtain ⟨clause', hclause', hself⟩ := exists_getElem?_of_forall₂' hrules hp
    exact hself.matchAt_of_rejects (hbefore q hq hlt _ (List.mem_of_getElem? hclause'))
  least := by
    intro i p _ hlt hp
    obtain ⟨clause', hclause', hself⟩ := exists_getElem?_of_forall₂' hrules hp
    refine hself.matchAt_of_rejects (hrejects clause' (List.mem_of_getElem? (i := i) ?_))
    rw [List.getElem?_take_of_lt hlt, hclause']

/-- The nearest match is found unless the search is given up. -/
theorem search_of_nearest {span : Span} (hbuild : RuleSet.build ignoreCase clauses = .ok s)
    (hdecided : ¬s.GivesUp 0 t pos) (hnearest : Nearest ps 0 t pos index span)
    (hclause : clauses[index]? = some clause) :
    s.search 0 t pos = some ⟨clause.rule, index, span⟩ := by
  rcases search_cases hrules hbuild 0 t pos with
    ⟨hgives, -⟩ | ⟨-, -, hno⟩ | ⟨-, found, clause', hfound, hother, hclause', hrule⟩
  · exact absurd hgives hdecided
  · exact absurd hno hnearest.not_noMatch
  · have hsame := hnearest.isLeast.unique hother.isLeast
    obtain ⟨hstart, hindex⟩ : span.start = found.span.start ∧ index = found.index := Prod.mk.inj hsame
    obtain ⟨p, hp, hstop⟩ := hnearest.matches_at
    obtain ⟨p', hp', hstop'⟩ := hother.matches_at
    rw [← hindex] at hp' hclause'
    cases hp.symm.trans hp'
    cases hclause.symm.trans hclause'
    rw [← hstart, hstop] at hstop'
    have hspan : found.span = span := by
      cases span
      cases hspan : found.span
      simp_all
    rw [hfound, hrule, hindex, ← hspan]

/-- A search is not given up where a rule takes something and those before it reject the
position. -/
theorem not_givesUp_here (hbuild : RuleSet.build ignoreCase clauses = .ok s) (hpos : pos ≤ t.size)
    (hclause : clauses[index]? = some clause) (htakes : clause.part.Takes ignoreCase t pos stop)
    (hrejects : ∀ clause ∈ clauses.take index, clause.part.Rejects ignoreCase t pos)
    (hindex : index ≤ maxBacktracks) : ¬s.GivesUp 0 t pos := by
  obtain ⟨ms, plans, hcast⟩ := exists_cast hrules
  have hlt := (List.getElem?_eq_some_iff.1 hclause).1
  obtain ⟨hclauses, -, hfrom⟩ := RuleSet.from?_of_build hbuild
  obtain ⟨⟨c₀, hc₀⟩, hfirst⟩ := hfrom 0 (Nat.zero_lt_of_lt hlt)
  obtain ⟨body, rest, c, hdrop, hc, hjoined⟩ :=
    exists_combine_drop hcast (Nat.zero_lt_of_lt hlt) hc₀
  have hplans := hcast.plan?
  rw [List.drop_zero] at hdrop
  rw [hdrop] at hplans
  obtain ⟨p, hp, hself⟩ := exists_getElem?_of_forall₂ hrules hclause
  obtain ⟨plan, hplan, hplays⟩ := exists_getElem?_of_forall₂ hcast.plays hp
  have hplanRejects (j : Nat) (hj : j < index) (plan' : Plan) (hplan' : plans[j]? = some plan') :
      plan'.Rejects t pos := by
    obtain ⟨p', hp', hplays'⟩ := exists_getElem?_of_forall₂' hcast.plays hplan'
    obtain ⟨clause', hclause', hself'⟩ := exists_getElem?_of_forall₂' hrules hp'
    refine hplays'.rejects (hrejects clause' (List.mem_of_getElem? (i := j) ?_) p' hself'.compiles)
    rw [List.getElem?_take_of_lt hj, hclause']
  rintro ⟨c', hc', hgiven⟩
  rw [hfirst, hc] at hc'
  cases hc'
  obtain ⟨rounds, hrounds⟩ : ∃ rounds, t.size + 1 - pos = rounds + 1 :=
    ⟨t.size - pos, Nat.succ_sub hpos⟩
  obtain ⟨found, left, hrun⟩ := run_joined_here pos hplans (refers_joined _) hjoined.plan hplan
    (hplays.takes (htakes p hself.compiles)) hplanRejects hindex
  simp [outcome, hrounds, outcomeFrom, hrun] at hgiven

end Patterns

section Rules

variable (hself : ∀ clause ∈ clauses, clause.part.isSelfContained ignoreCase = true)
  (hbuild : RuleSet.build ignoreCase clauses = .ok s)

include hself hbuild

/-- **What is found at the position itself**: the first rule that takes something, if those before
it reject the position at once. -/
theorem search_here (hpos : pos ≤ t.size) (hclause : clauses[index]? = some clause)
    (htakes : clause.part.Takes ignoreCase t pos stop)
    (hrejects : ∀ clause ∈ clauses.take index, clause.part.Rejects ignoreCase t pos)
    (hindex : index ≤ maxBacktracks) :
    s.search 0 t pos = some ⟨clause.rule, index, ⟨pos, stop⟩⟩ := by
  obtain ⟨ps, hrules⟩ := exists_patterns ignoreCase clauses (List.all_eq_true.2 hself)
  have hnearest := nearest_of_takes hrules le_rfl hpos hclause htakes
    (fun q hq hlt => absurd (hq.trans_lt hlt) (lt_irrefl _)) hrejects
  exact search_of_nearest hrules hbuild
    (not_givesUp_here hrules hbuild hpos hclause htakes hrejects hindex) hnearest hclause

/-- **What is found further on** by rules whose joined pattern is matched directly. -/
theorem search_onward_direct
    (hdirect : ((combine ignoreCase clauses).toOption.all (·.regex.isDirect)) = true)
    (hpos : pos ≤ start) (hstart : start ≤ t.size) (hclause : clauses[index]? = some clause)
    (htakes : clause.part.Takes ignoreCase t start stop)
    (hbefore : ∀ q, pos ≤ q → q < start → ∀ clause ∈ clauses, clause.part.Rejects ignoreCase t q)
    (hrejects : ∀ clause ∈ clauses.take index, clause.part.Rejects ignoreCase t start) :
    s.search 0 t pos = some ⟨clause.rule, index, ⟨start, stop⟩⟩ := by
  obtain ⟨ps, hrules⟩ := exists_patterns ignoreCase clauses (List.all_eq_true.2 hself)
  have hnearest := nearest_of_takes hrules hpos hstart hclause htakes hbefore hrejects
  refine search_of_nearest hrules hbuild ?_ hnearest hclause
  rintro ⟨c, hc, hgiven⟩
  have hlt := (List.getElem?_eq_some_iff.1 hclause).1
  rw [((RuleSet.from?_of_build hbuild).2.2 0 (Nat.zero_lt_of_lt hlt)).2, List.drop_zero] at hc
  rw [hc] at hdirect
  exact outcome_ne_givenUp hdirect t pos hgiven

end Rules

end ModeStack.Rule
