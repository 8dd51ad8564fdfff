import ModeStack.Proofs.Regex.Budget
import ModeStack.Proofs.Rule.Joined

/-!
# Which part of a joined pattern matches

At one position a joined pattern tries its parts in turn, and the first that matches wins. What a
part does there is what its plan does alone (`Plan.attempt`), however the parts before it have
spent the budget. `run_joined` says so of the plan of the joined pattern, and tells the winner from
the group that has captured it.
-/

namespace ModeStack.Regex

/-! ## Alternatives and groups -/

section Plans

variable {captured : List Nat} {t : Text} {origin : Nat}

/-- What needs no backtracking is matched directly, unless it is revisited. -/
theorem Expr.plan_of_not_backtracks {e : Expr} (h : e.backtracks captured = false) :
    e.plan captured false = .ok (.direct e) := by
  have hdirect : Expr.plan.isDirect captured e false = true := by
    simp [Expr.plan.isDirect, h]
  cases e with
  | seq | alt | group | rep => simp only [Expr.plan, hdirect, if_true]
  | ref | look | atomic => cases h
  | _ => rfl

theorem fromEach_accepted (hs : List Hit) (budget : Nat) :
    fromEach accepted hs budget =
      match hs.head? with
      | some h => .matched h budget
      | none => .failed budget := by
  match hs with
  | [] => rfl
  | [h] => rfl
  | h :: h' :: hs => rfl

theorem head?_distinct (hs : List Hit) : (distinct hs).head? = hs.head? := by
  match hs with
  | [] => rfl
  | [h] => rfl
  | h :: h' :: hs => rfl

/-- Of two alternatives the first that matches is taken, unless the search is given up. -/
theorem run_alt {a b : Expr} {p pa pb : Plan} (hp : (Expr.alt a b).plan captured false = .ok p)
    (ha : a.plan captured false = .ok pa) (hb : b.plan captured false = .ok pb) (h : Hit)
    (budget : Nat) :
    p.run t origin accepted h budget = .exhausted ∨
    (∃ found left, pa.run t origin accepted h budget = .matched found left ∧
      p.run t origin accepted h budget = .matched found left) ∨
    ∃ left, pa.run t origin accepted h budget = .failed left ∧ ∃ rest ≤ left,
      p.run t origin accepted h budget = pb.run t origin accepted h rest := by
  simp only [Expr.plan] at hp
  split_ifs at hp with hdirect
  · cases hp
    simp only [Expr.plan.isDirect, Expr.backtracks, Bool.not_or, Bool.not_false, Bool.true_or,
      Bool.and_true, Bool.and_eq_true, Bool.not_eq_true'] at hdirect
    rw [Expr.plan_of_not_backtracks hdirect.1] at ha
    rw [Expr.plan_of_not_backtracks hdirect.2] at hb
    cases ha
    cases hb
    simp only [Plan.run, fromEach_accepted, Expr.ends, head?_distinct, List.head?_append]
    cases (a.ends t origin h).head? with
    | some found => exact .inr (.inl ⟨found, budget, rfl, rfl⟩)
    | none => exact .inr (.inr ⟨budget, rfl, budget, le_rfl, rfl⟩)
  · rw [ha, hb] at hp
    cases hp
    simp only [Plan.run]
    cases pa.run t origin accepted h budget with
    | exhausted => exact .inl rfl
    | matched found left => exact .inr (.inl ⟨found, left, rfl, rfl⟩)
    | failed left =>
      cases left with
      | zero => exact .inl rfl
      | succ left => exact .inr (.inr ⟨left + 1, rfl, left, Nat.le_succ left, rfl⟩)

/-- A group of shifted expressions that nothing refers to runs like what is inside. -/
theorem run_group {captured' : List Nat} {index n : Nat} {e : Expr} {p q : Plan}
    (hplain : e.isPlain = true) (hagree : Expr.Agree n captured captured' e)
    (hindex : captured'.contains index = false) (hp : e.plan captured false = .ok p)
    (hq : (Expr.group index (e.shift n)).plan captured' false = .ok q) (pos budget : Nat) :
    q.run t origin accepted { pos := pos } budget =
      (p.run t 0 accepted { pos := pos } budget).map fun h => (h.shift n).capture index pos := by
  simp only [Expr.plan] at hq
  split_ifs at hq with hdirect
  · cases hq
    simp only [Expr.plan.isDirect, Expr.backtracks, hindex, Bool.false_or, Bool.not_false,
      Bool.true_or, Bool.and_true, Bool.not_eq_true', Expr.backtracks_shift hagree] at hdirect
    rw [Expr.plan_of_not_backtracks hdirect] at hp
    cases hp
    have hends : (e.shift n).ends t origin { pos := pos } =
        (e.ends t 0 { pos := pos }).map (Hit.shift n) :=
      ends_shift 0 origin hplain { pos := pos }
    simp only [Plan.run, Expr.ends, hends, List.map_map]
    exact fromEach_map follows_accepted _ budget
  · rw [Expr.plan_shift hagree, hp] at hq
    cases hq
    exact run_shift (Expr.isPlain_plan hplain hp) _ _ _ (fun _ _ => rfl) { pos := pos } budget

theorem exists_plan_group {captured' : List Nat} {index n : Nat} {e : Expr} {p : Plan}
    (hagree : Expr.Agree n captured captured' e) (hp : e.plan captured false = .ok p) :
    ∃ q, (Expr.group index (e.shift n)).plan captured' false = .ok q := by
  simp only [Expr.plan]
  split_ifs
  · exact ⟨_, rfl⟩
  · rw [Expr.plan_shift hagree, hp]
    exact ⟨_, rfl⟩

theorem exists_plan_of_group {captured' : List Nat} {index n : Nat} {e : Expr} {q : Plan}
    (hagree : Expr.Agree n captured captured' e)
    (hq : (Expr.group index (e.shift n)).plan captured' false = .ok q) :
    ∃ p, e.plan captured false = .ok p := by
  simp only [Expr.plan] at hq
  split_ifs at hq with hdirect
  · simp only [Expr.plan.isDirect, Expr.backtracks, Bool.not_or, Bool.not_false, Bool.true_or,
      Bool.and_true, Bool.and_eq_true, Bool.not_eq_true', Expr.backtracks_shift hagree] at hdirect
    exact ⟨_, Expr.plan_of_not_backtracks hdirect.2⟩
  · obtain ⟨p, hp, -⟩ := exists_of_bind_eq_ok hq
    rw [Expr.plan_shift hagree] at hp
    cases he : e.plan captured false with
    | ok p => exact ⟨p, rfl⟩
    | error err =>
      rw [he] at hp
      cases hp

theorem exists_plans_of_alt {a b : Expr} {p : Plan}
    (hp : (Expr.alt a b).plan captured false = .ok p) :
    (∃ pa, a.plan captured false = .ok pa) ∧ ∃ pb, b.plan captured false = .ok pb := by
  simp only [Expr.plan] at hp
  split_ifs at hp with hdirect
  · simp only [Expr.plan.isDirect, Expr.backtracks, Bool.not_or, Bool.not_false, Bool.true_or,
      Bool.and_true, Bool.and_eq_true, Bool.not_eq_true'] at hdirect
    exact ⟨⟨_, Expr.plan_of_not_backtracks hdirect.1⟩, _, Expr.plan_of_not_backtracks hdirect.2⟩
  · obtain ⟨pa, ha, hp⟩ := exists_of_bind_eq_ok hp
    obtain ⟨pb, hb, -⟩ := exists_of_bind_eq_ok hp
    exact ⟨⟨pa, ha⟩, pb, hb⟩

theorem exists_plan_alt {a b : Expr} {pa pb : Plan} (ha : a.plan captured false = .ok pa)
    (hb : b.plan captured false = .ok pb) :
    ∃ p, (Expr.alt a b).plan captured false = .ok p := by
  simp only [Expr.plan]
  split_ifs
  · exact ⟨_, rfl⟩
  · rw [ha, hb]
    exact ⟨_, rfl⟩

end Plans

/-- The plan of what a text means. -/
def Body.plan? (body : Body) : Except SyntaxError Plan :=
  body.expr.spread.plan body.expr.references false

/-- What a plan makes of a position, with the whole budget. -/
def Plan.attempt (p : Plan) (t : Text) (pos : Nat) : Verdict :=
  p.run t 0 accepted { pos := pos } maxBacktracks

/-- What a plan does within a part of the budget, it does within the whole. -/
theorem Plan.attempt_of_matched {p : Plan} {t : Text} {pos budget left : Nat} {h : Hit}
    (hbudget : budget ≤ maxBacktracks)
    (hrun : p.run t 0 accepted { pos := pos } budget = .matched h left) :
    ∃ left, p.attempt t pos = .matched h left := by
  have hmore := ((run_steady t 0 p accepted steadyFrom_accepted { pos := pos }).matched hrun).2
    (maxBacktracks - budget)
  rw [Nat.add_sub_cancel' hbudget] at hmore
  exact ⟨_, hmore⟩

theorem Plan.attempt_of_failed {p : Plan} {t : Text} {pos budget left : Nat}
    (hbudget : budget ≤ maxBacktracks)
    (hrun : p.run t 0 accepted { pos := pos } budget = .failed left) :
    left ≤ budget ∧ ∃ left, p.attempt t pos = .failed left := by
  obtain ⟨hle, hmore⟩ :=
    (run_steady t 0 p accepted steadyFrom_accepted { pos := pos }).failed hrun
  have hmax := hmore (maxBacktracks - budget)
  rw [Nat.add_sub_cancel' hbudget] at hmax
  exact ⟨hle, _, hmax⟩

end ModeStack.Regex

namespace ModeStack.Rule

open ModeStack.Regex

variable {before : Nat} {body : Body} {rest : List Body} {captured : List Nat}

/-! ## References of the parts -/

/-- Above the groups before, the listed groups are those that the parts refer to. -/
def Refers (captured : List Nat) (before : Nat) (bodies : List Body) : Prop :=
  ∀ i, before < i → (i ∈ captured ↔ i ∈ partReferences before bodies)

theorem Refers.agree (h : Refers captured before (body :: rest)) :
    Expr.Agree (before + 2) body.expr.references captured
      body.expr.spread := by
  intro i hi
  rw [Expr.captured_spread] at hi
  have hlt := body.captured_lt i hi
  rw [Bool.eq_iff_iff, List.contains_iff_mem, List.contains_iff_mem, h _ (by omega),
    partReferences, List.mem_append, List.mem_map]
  constructor
  · rintro (⟨j, hj, hji⟩ | hrest)
    · obtain rfl : j = i := Nat.add_right_cancel hji
      exact hj
    · have := (lt_of_mem_partReferences hrest).1
      omega
  · exact fun hi => .inl ⟨i, hi, rfl⟩

theorem Refers.wrapper (h : Refers captured before rest) :
    captured.contains (before + 1) = false := by
  rw [← Bool.not_eq_true, List.contains_iff_mem, h _ (Nat.lt_succ_self _)]
  intro hmem
  exact absurd (lt_of_mem_partReferences hmem).1 (lt_irrefl _)

theorem Refers.tail (h : Refers captured before (body :: rest)) :
    Refers captured (before + 1 + body.groups) rest := by
  intro i hi
  rw [h i (by omega), partReferences, List.mem_append, List.mem_map]
  refine or_iff_right ?_
  rintro ⟨j, hj, rfl⟩
  have := body.references_lt j hj
  omega

/-! ## The first part that matches -/

theorem spread_joinedExpr (before : Nat) (body body' : Body) (rest : List Body) :
    (joinedExpr before body (body' :: rest)).spread =
      .alt (partExpr before body).spread
        (joinedExpr (before + 1 + body.groups) body' rest).spread := rfl

theorem spread_partExpr (before : Nat) (body : Body) :
    (partExpr before body).spread =
      .group (before + 1) (body.expr.spread.shift (before + 2)) := by
  rw [partExpr, Expr.spread, Expr.spread_shift]

/-- Parts that have plans can be joined. -/
theorem exists_plan_joined (hplans : ∀ body' ∈ body :: rest, ∃ p, body'.plan? = .ok p)
    (hrefers : Refers captured before (body :: rest)) :
    ∃ p, (joinedExpr before body rest).spread.plan captured false = .ok p := by
  have hpart {before : Nat} {body : Body} {rest : List Body}
      (hrefers : Refers captured before (body :: rest))
      (hplan : ∃ p, body.plan? = .ok p) :
      ∃ p, (partExpr before body).spread.plan captured false = .ok p := by
    obtain ⟨p, hp⟩ := hplan
    rw [spread_partExpr]
    exact exists_plan_group hrefers.agree hp
  induction rest generalizing before body with
  | nil => exact hpart hrefers (hplans body List.mem_cons_self)
  | cons body' rest ih =>
    obtain ⟨pa, ha⟩ := hpart hrefers (hplans body List.mem_cons_self)
    obtain ⟨pb, hb⟩ :=
      ih (fun body' hbody' => hplans body' (List.mem_cons_of_mem _ hbody')) hrefers.tail
    rw [spread_joinedExpr]
    exact exists_plan_alt ha hb

/-- Parts that have been joined have plans. -/
theorem exists_plans_of_joined {q : Plan} (hrefers : Refers captured before (body :: rest))
    (hq : (joinedExpr before body rest).spread.plan captured false = .ok q) :
    ∃ plans, List.Forall₂ (fun body p => body.plan? = .ok p) (body :: rest) plans := by
  induction rest generalizing before body q with
  | nil =>
    have hq : (partExpr before body).spread.plan captured false = .ok q := hq
    rw [spread_partExpr] at hq
    obtain ⟨p, hp⟩ := exists_plan_of_group hrefers.agree hq
    exact ⟨[p], .cons hp .nil⟩
  | cons body' rest ih =>
    rw [spread_joinedExpr] at hq
    obtain ⟨⟨qa, ha⟩, qb, hb⟩ := exists_plans_of_alt hq
    rw [spread_partExpr] at ha
    obtain ⟨p, hp⟩ := exists_plan_of_group hrefers.agree ha
    obtain ⟨plans, hplans⟩ := ih hrefers.tail hb
    exact ⟨p :: plans, .cons hp hplans⟩

/-- The part with a certain index has won at a position, with a hit of the joined pattern. -/
structure Won (t : Text) (pos : Nat) (before : Nat) (bodies : List Body) (plans : List Plan)
    (h : Hit) (index : Nat) : Prop where
  /-- All groups captured are groups of the parts. -/
  above : ∀ c ∈ h.captures, before < c.group
  /-- The group around the part has captured what the part has matched. -/
  attempt : ∃ p found left wrapper, plans[index]? = some p ∧ p.attempt t pos = .matched found left ∧
    ∀ first, Combined.winner? h first (wrapperNumbers before bodies) =
      some (first + index, ⟨wrapper, pos, found.pos⟩)
  /-- No part before it matches. -/
  least : ∀ j < index, ∀ p, plans[j]? = some p → ∃ left, p.attempt t pos = .failed left

/-- What becomes of parts that are tried in turn: none matches, the first that matches wins, or
the search is given up. -/
def Tried (t : Text) (pos : Nat) (before : Nat) (bodies : List Body) (plans : List Plan) :
    Verdict → Prop
  | .exhausted => True
  | .failed _ => ∀ p ∈ plans, ∃ left, p.attempt t pos = .failed left
  | .matched h _ => ∃ index, Won t pos before bodies plans h index

section Tries

variable {t : Text} {pos budget left : Nat} {p : Plan} {plans : List Plan} {found h : Hit}

/-- The first part wins where it matches. -/
theorem Won.head (hattempt : p.attempt t pos = .matched found left) :
    Won t pos before (body :: rest) (p :: plans)
      ((found.shift (before + 2)).capture (before + 1) pos) 0 where
  above := by
    intro c hc
    rcases List.mem_cons.1 hc with rfl | hc
    · exact Nat.lt_succ_self before
    · obtain ⟨c', -, rfl⟩ := List.mem_map.1 hc
      show before < c'.group + (before + 2)
      omega
  attempt := by
    refine ⟨p, found, left, before + 1, rfl, hattempt, fun first => ?_⟩
    have hcapture : ((found.shift (before + 2)).capture (before + 1) pos).captureOf? (before + 1) =
        some ⟨before + 1, pos, found.pos⟩ := List.find?_cons_of_pos (by simp)
    rw [wrapperNumbers, Combined.winner?, hcapture]
    rfl
  least := fun j hj => absurd hj (Nat.not_lt_zero j)

/-- A later part wins where the first does not match. -/
theorem Won.tail {index : Nat} (h : Won t pos (before + 1 + body.groups) rest plans found index)
    (hattempt : p.attempt t pos = .failed left) :
    Won t pos before (body :: rest) (p :: plans) found (index + 1) where
  above := fun c hc => by
    have := h.above c hc
    omega
  attempt := by
    obtain ⟨p', hit, left, wrapper, hp', hmatched, hwinner⟩ := h.attempt
    refine ⟨p', hit, left, wrapper, hp', hmatched, fun first => ?_⟩
    have hcapture : found.captureOf? (before + 1) = none := by
      refine List.find?_eq_none.2 fun c hc hgroup => ?_
      have habove := h.above c hc
      have hgroup : c.group = before + 1 := of_decide_eq_true hgroup
      omega
    rw [wrapperNumbers, Combined.winner?, hcapture]
    show Combined.winner? found (first + 1) _ = _
    rw [hwinner (first + 1), Nat.add_assoc, Nat.add_comm 1 index]
  least := by
    intro j hj p' hp'
    cases j with
    | zero =>
      cases hp'
      exact ⟨left, hattempt⟩
    | succ j => exact h.least j (Nat.lt_of_succ_lt_succ hj) p' hp'

/-- What the later parts do, all do where the first part does not match. -/
theorem Tried.cons {v : Verdict} (h : Tried t pos (before + 1 + body.groups) rest plans v)
    (hattempt : p.attempt t pos = .failed left) :
    Tried t pos before (body :: rest) (p :: plans) v := by
  cases v with
  | exhausted => trivial
  | failed rest =>
    intro p' hp'
    rcases List.mem_cons.1 hp' with rfl | hp'
    · exact ⟨left, hattempt⟩
    · exact h p' hp'
  | matched found rest =>
    obtain ⟨index, hwon⟩ := h
    exact ⟨index + 1, hwon.tail hattempt⟩

theorem exists_of_map_eq_matched {v : Verdict} {f : Hit → Hit} (h : v.map f = .matched found left) :
    ∃ hit, v = .matched hit left ∧ found = f hit := by
  cases v with
  | matched hit rest =>
    cases h
    exact ⟨hit, rfl, rfl⟩
  | failed | exhausted => cases h

theorem eq_failed_of_map_eq_failed {v : Verdict} {f : Hit → Hit} (h : v.map f = .failed left) :
    v = .failed left := by
  cases v with
  | failed rest =>
    cases h
    rfl
  | matched | exhausted => cases h

theorem exists_plan_of_forall₂ (h : List.Forall₂ (fun body p => body.plan? = .ok p) rest plans) :
    ∀ body ∈ rest, ∃ p, body.plan? = .ok p := by
  induction h with
  | nil => simp
  | cons hp _ ih =>
    rintro body (_ | ⟨_, hbody⟩)
    · exact ⟨_, hp⟩
    · exact ih body hbody

/-- What a single part does. -/
theorem tried_part (t : Text) (origin : Nat) {q : Plan}
    (hrefers : Refers captured before (body :: rest)) (hp : body.plan? = .ok p)
    (hq : (partExpr before body).spread.plan captured false = .ok q) (pos budget : Nat) :
    q.run t origin accepted { pos := pos } budget =
      (p.run t 0 accepted { pos := pos } budget).map fun h =>
        (h.shift (before + 2)).capture (before + 1) pos := by
  rw [spread_partExpr] at hq
  exact run_group (Expr.isPlain_spread body.isPlain) hrefers.agree hrefers.wrapper hp hq
    pos budget

/-- **The first part that matches wins.** -/
theorem run_joined {origin : Nat} {q : Plan}
    (hplans : List.Forall₂ (fun body p => body.plan? = .ok p) (body :: rest) plans)
    (hrefers : Refers captured before (body :: rest))
    (hq : (joinedExpr before body rest).spread.plan captured false = .ok q)
    (hbudget : budget ≤ maxBacktracks) :
    Tried t pos before (body :: rest) plans (q.run t origin accepted { pos := pos } budget) := by
  induction rest generalizing before body plans budget q with
  | nil =>
    cases hplans with
    | @cons _ p _ _ hp hrest =>
      cases hrest
      rw [tried_part t origin hrefers hp hq]
      cases hrun : p.run t 0 accepted { pos := pos } budget with
      | exhausted => trivial
      | matched found left =>
        obtain ⟨left', hattempt⟩ := Plan.attempt_of_matched hbudget hrun
        exact ⟨0, .head hattempt⟩
      | failed left =>
        obtain ⟨-, hattempt⟩ := Plan.attempt_of_failed hbudget hrun
        intro p' hp'
        cases List.mem_singleton.1 hp'
        exact hattempt
  | cons body' rest ih =>
    cases hplans with
    | @cons _ p _ plans hp hrest =>
      rw [spread_joinedExpr] at hq
      obtain ⟨qa, hqa⟩ :
          ∃ qa, (partExpr before body).spread.plan captured false = .ok qa := by
        rw [spread_partExpr]
        exact exists_plan_group hrefers.agree hp
      obtain ⟨qb, hqb⟩ := exists_plan_joined (exists_plan_of_forall₂ hrest) hrefers.tail
      have hpart := tried_part t origin hrefers hp hqa pos budget
      rcases run_alt hq hqa hqb { pos := pos } budget with
        hrun | ⟨found, left, ha, hrun⟩ | ⟨left, ha, rest, hle, hrun⟩
      · rw [hrun]
        trivial
      · rw [hrun]
        rw [hpart] at ha
        obtain ⟨hit, hmatched, rfl⟩ := exists_of_map_eq_matched ha
        obtain ⟨left', hattempt⟩ := Plan.attempt_of_matched hbudget hmatched
        exact ⟨0, .head hattempt⟩
      · rw [hrun]
        rw [hpart] at ha
        obtain ⟨hleft, left', hattempt⟩ :=
          Plan.attempt_of_failed hbudget (eq_failed_of_map_eq_failed ha)
        exact (ih hrest hrefers.tail hqb ((hle.trans hleft).trans hbudget)).cons hattempt

end Tries

end ModeStack.Rule
