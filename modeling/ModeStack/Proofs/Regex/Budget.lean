import ModeStack.Proofs.Regex.Shift

/-!
# A verdict does not depend on the budget

A plan that reaches a verdict within its budget reaches the same one within a greater budget, and
has as much more left. So the budget matters in one way only: a search whose budget is too small
is given up. `outcome` tells the two ways apart in which a search finds nothing. Unless it is
given up, a search is decided, position by position, by what the plan does with the whole budget
(`failed_of_outcomeFrom_absent`, `matched_of_outcomeFrom_found`).
-/

namespace ModeStack.Regex

/-! ## Steady ways to match -/

/-- Any verdict stays the same within a greater budget, and no budget is gained. -/
structure Steady (run : Nat → Verdict) : Prop where
  matched : ∀ {budget left h}, run budget = .matched h left →
    left ≤ budget ∧ ∀ d, run (budget + d) = .matched h (left + d)
  failed : ∀ {budget left}, run budget = .failed left →
    left ≤ budget ∧ ∀ d, run (budget + d) = .failed (left + d)

theorem steady_matched (h : Hit) : Steady (.matched h) where
  matched := by
    intro budget left h' he
    cases he
    exact ⟨le_rfl, fun d => rfl⟩
  failed := by
    intro budget left he
    cases he

theorem steady_failed : Steady .failed where
  matched := by
    intro budget left h he
    cases he
  failed := by
    intro budget left he
    cases he
    exact ⟨le_rfl, fun d => rfl⟩

namespace Steady

variable {first second : Nat → Verdict}

/-- What a steady way to match leads on to, from both of its verdicts. -/
theorem bind (h : Steady first) (next : Verdict → Verdict)
    (hexhausted : next .exhausted = .exhausted)
    (hmatched : ∀ found, Steady fun budget => next (.matched found budget))
    (hfailed : Steady fun budget => next (.failed budget)) :
    Steady fun budget => next (first budget) where
  matched := by
    intro budget left found he
    cases hv : first budget with
    | exhausted =>
      rw [hv, hexhausted] at he
      cases he
    | matched between rest =>
      rw [hv] at he
      obtain ⟨hle, hmore⟩ := h.matched hv
      obtain ⟨hle', hmore'⟩ := (hmatched between).matched he
      exact ⟨hle'.trans hle, fun d => by rw [hmore d, hmore' d]⟩
    | failed rest =>
      rw [hv] at he
      obtain ⟨hle, hmore⟩ := h.failed hv
      obtain ⟨hle', hmore'⟩ := hfailed.matched he
      exact ⟨hle'.trans hle, fun d => by rw [hmore d, hmore' d]⟩
  failed := by
    intro budget left he
    cases hv : first budget with
    | exhausted =>
      rw [hv, hexhausted] at he
      cases he
    | matched between rest =>
      rw [hv] at he
      obtain ⟨hle, hmore⟩ := h.matched hv
      obtain ⟨hle', hmore'⟩ := (hmatched between).failed he
      exact ⟨hle'.trans hle, fun d => by rw [hmore d, hmore' d]⟩
    | failed rest =>
      rw [hv] at he
      obtain ⟨hle, hmore⟩ := h.failed hv
      obtain ⟨hle', hmore'⟩ := hfailed.failed he
      exact ⟨hle'.trans hle, fun d => by rw [hmore d, hmore' d]⟩

/-- Going back to a second way takes one from the budget. -/
theorem retry (h : Steady second) : Steady fun budget => (Verdict.failed budget).orElse second where
  matched := by
    intro budget left found he
    cases budget with
    | zero => cases he
    | succ budget =>
      obtain ⟨hle, hmore⟩ := h.matched he
      exact ⟨hle.trans (Nat.le_succ _), fun d => by rw [Nat.succ_add]; exact hmore d⟩
  failed := by
    intro budget left he
    cases budget with
    | zero => cases he
    | succ budget =>
      obtain ⟨hle, hmore⟩ := h.failed he
      exact ⟨hle.trans (Nat.le_succ _), fun d => by rw [Nat.succ_add]; exact hmore d⟩

theorem orElse (h : Steady first) (h' : Steady second) :
    Steady fun budget => (first budget).orElse second :=
  h.bind (·.orElse second) rfl steady_matched h'.retry

theorem choose {greedy : Bool} (h : Steady first) (h' : Steady second) :
    Steady (choose greedy first second) := by
  cases greedy
  · exact h'.orElse h
  · exact h.orElse h'

theorem ite {c : Prop} [Decidable c] (h : Steady first) (h' : Steady second) :
    Steady fun budget => if c then first budget else second budget := by
  by_cases hc : c
  · simpa only [hc, if_true] using h
  · simpa only [hc, if_false] using h'

end Steady

/-- Every hit is followed steadily. -/
def SteadyFrom (k : Continuation) : Prop := ∀ h, Steady (k h)

/-- Steady, whatever follows steadily. -/
def BodySteady (body : Continuation → Continuation) : Prop :=
  ∀ k, SteadyFrom k → SteadyFrom (body k)

theorem steadyFrom_accepted : SteadyFrom accepted := steady_matched

variable {k : Continuation} {body : Continuation → Continuation}

theorem steady_fromEach (hk : SteadyFrom k) (hs : List Hit) : Steady (fromEach k hs) := by
  induction hs with
  | nil => exact steady_failed
  | cons h hs ih =>
    cases hs with
    | nil => exact hk h
    | cons h' hs => exact (hk h).orElse ih

theorem steadyFrom_runCounted (hbody : BodySteady body) (hk : SteadyFrom k) {lo : Nat}
    {hi : Option Nat} {greedy : Bool} (rounds done : Nat) :
    SteadyFrom (runCounted body lo hi greedy k rounds done) := by
  induction rounds generalizing done with
  | zero => exact hk
  | succ rounds ih =>
    intro h
    have hmore := hbody _ (ih (done + 1)) h
    exact (hk h).ite (hmore.ite (hmore.choose (hk h)))

theorem steadyFrom_runNullable (hbody : BodySteady body) (hk : SteadyFrom k) {lo : Nat}
    {greedy : Bool} (rounds done : Nat) (last : Option Nat) :
    SteadyFrom (runNullable body lo greedy k rounds done last) := by
  induction rounds generalizing done last with
  | zero => exact hk
  | succ rounds ih =>
    intro h
    have hmore (last : Option Nat) := hbody _ (ih (done + 1) last) h
    exact (hk h).ite ((hmore last).ite ((hmore (some h.pos)).choose (hk h)))

theorem steady_afterLook (hk : SteadyFrom k) {negated : Bool} {h : Hit} {look : Nat → Verdict}
    (hlook : Steady look) : Steady fun budget => afterLook negated h k (look budget) := by
  refine hlook.bind (afterLook negated h k) rfl (fun found => ?_) ?_
  · cases negated
    · exact hk _
    · exact steady_failed
  · cases negated
    · exact steady_failed
    · exact hk h

/-- Goes on from what was matched. -/
def Verdict.goOn (k : Continuation) : Verdict → Verdict
  | matched found budget => k found budget
  | v => v

/-- **Plans run steadily.** -/
theorem run_steady (t : Text) (origin : Nat) (p : Plan) : BodySteady (p.run t origin) := by
  induction p with
  | direct e => exact fun k hk h => steady_fromEach hk _
  | seq a b iha ihb => exact fun k hk => iha _ (ihb k hk)
  | alt a b iha ihb => exact fun k hk h => (iha k hk h).orElse (ihb k hk h)
  | group index p ih => exact fun k hk h => ih _ (fun h' => hk _) h
  | rep p lo hi greedy nullable ih =>
    intro k hk h
    cases hi with
    | none =>
      cases nullable
      · exact steadyFrom_runCounted ih hk _ _ h
      · exact steadyFrom_runNullable ih hk _ _ _ h
    | some hi => exact steadyFrom_runCounted ih hk _ _ h
  | ref index ignoreCase =>
    intro k hk h
    show Steady fun budget => Plan.run t origin (.ref index ignoreCase) k h budget
    simp only [Plan.run]
    cases referenceEnd? t index ignoreCase h with
    | some pos => exact hk _
    | none => exact steady_failed
  | ahead negated p ih => exact fun k hk h => steady_afterLook hk (ih _ steadyFrom_accepted h)
  | behind negated width p ih =>
    intro k hk h
    exact (steady_afterLook hk (ih _ steadyFrom_accepted _)).ite
      (steady_afterLook hk steady_failed)
  | atomic p ih =>
    intro k hk h
    exact (ih _ steadyFrom_accepted h).bind (Verdict.goOn k) rfl hk steady_failed

/-! ## What becomes of a search -/

/-- What becomes of a search. -/
inductive Outcome where
  | found (start : Nat) (h : Hit)
  | absent
  /-- The budget was spent before the search was decided. -/
  | givenUp
  deriving DecidableEq

/-- The match that was found. -/
def Outcome.match? : Outcome → Option (Nat × Hit)
  | found start h => some (start, h)
  | _ => none

/-- What becomes of the search of `rounds` positions from `pos` on. -/
def outcomeFrom (re : Regex) (t : Text) (origin : Nat) : (rounds pos budget : Nat) → Outcome
  | 0, _, _ => .absent
  | rounds + 1, pos, budget =>
    match re.plan.run t origin accepted { pos := pos } budget with
    | .matched h _ => .found pos h
    | .exhausted => .givenUp
    | .failed budget =>
      if re.isDirect then re.outcomeFrom t origin rounds (pos + 1) budget
      else
        match budget with
        | 0 => .givenUp
        | budget + 1 => re.outcomeFrom t origin rounds (pos + 1) budget

/-- What becomes of the search from `pos` on. -/
def outcome (re : Regex) (t : Text) (pos : Nat) : Outcome :=
  re.outcomeFrom t pos (t.size + 1 - pos) pos maxBacktracks

variable {re : Regex} {t : Text} {origin : Nat}

theorem searchFrom_eq_match? (rounds pos budget : Nat) :
    re.searchFrom t origin rounds pos budget =
      (re.outcomeFrom t origin rounds pos budget).match? := by
  induction rounds generalizing pos budget with
  | zero => rfl
  | succ rounds ih =>
    simp only [searchFrom, outcomeFrom]
    cases re.plan.run t origin accepted { pos := pos } budget with
    | matched h left => rfl
    | exhausted => rfl
    | failed left =>
      dsimp only
      split_ifs
      · exact ih _ _
      · cases left with
        | zero => rfl
        | succ left => exact ih _ _

/-- A search gives the match that its outcome tells. -/
theorem search_eq_match? (pos : Nat) : re.search t pos = (re.outcome t pos).match? :=
  searchFrom_eq_match? _ _ _

theorem outcome_of_search {pos start : Nat} {h : Hit}
    (hsearch : re.search t pos = some (start, h)) :
    re.outcome t pos = .found start h := by
  rw [search_eq_match?] at hsearch
  cases houtcome : re.outcome t pos with
  | found start' h' =>
    rw [houtcome] at hsearch
    cases hsearch
    rfl
  | absent | givenUp =>
    rw [houtcome] at hsearch
    cases hsearch

/-- What the plan makes of a position with the whole budget. -/
def verdictAt (re : Regex) (t : Text) (origin pos : Nat) : Verdict :=
  re.plan.run t origin accepted { pos := pos } maxBacktracks

/-- One position: it decides the search, or the search goes on after it with less. -/
theorem outcomeFrom_succ (re : Regex) (t : Text) (origin rounds pos : Nat) {budget : Nat}
    (hbudget : budget ≤ maxBacktracks) :
    re.outcomeFrom t origin (rounds + 1) pos budget = .givenUp ∨
    (∃ h left, re.verdictAt t origin pos = .matched h left ∧
      re.outcomeFrom t origin (rounds + 1) pos budget = .found pos h) ∨
    ∃ left, re.verdictAt t origin pos = .failed left ∧ ∃ rest ≤ maxBacktracks,
      re.outcomeFrom t origin (rounds + 1) pos budget =
        re.outcomeFrom t origin rounds (pos + 1) rest := by
  have hsteady := run_steady t origin re.plan accepted steadyFrom_accepted { pos := pos }
  have hmax : budget + (maxBacktracks - budget) = maxBacktracks := Nat.add_sub_cancel' hbudget
  simp only [outcomeFrom]
  cases hv : re.plan.run t origin accepted { pos := pos } budget with
  | exhausted => exact .inl rfl
  | matched h left =>
    have hwhole := (hsteady.matched hv).2 (maxBacktracks - budget)
    rw [hmax] at hwhole
    exact .inr (.inl ⟨h, _, hwhole, rfl⟩)
  | failed left =>
    obtain ⟨hle, hmore⟩ := hsteady.failed hv
    have hwhole := hmore (maxBacktracks - budget)
    rw [hmax] at hwhole
    dsimp only
    split_ifs
    · exact .inr (.inr ⟨_, hwhole, left, hle.trans hbudget, rfl⟩)
    · cases left with
      | zero => exact .inl rfl
      | succ left => exact .inr (.inr ⟨_, hwhole, left, (Nat.le_of_succ_le hle).trans hbudget, rfl⟩)

/-- Where a search finds nothing and is not given up, the plan fails at every position. -/
theorem failed_of_outcomeFrom_absent {rounds pos budget : Nat} (hbudget : budget ≤ maxBacktracks)
    (h : re.outcomeFrom t origin rounds pos budget = .absent) {q : Nat} (hq : pos ≤ q)
    (hq' : q < pos + rounds) : ∃ left, re.verdictAt t origin q = .failed left := by
  induction rounds generalizing pos budget with
  | zero => omega
  | succ rounds ih =>
    rcases outcomeFrom_succ re t origin rounds pos hbudget with
      he | ⟨_, _, _, he⟩ | ⟨left, hv, rest, hrest, he⟩
    · simp [he] at h
    · simp [he] at h
    · rcases Nat.eq_or_lt_of_le hq with rfl | hlt
      · exact ⟨left, hv⟩
      · exact ih hrest (he ▸ h) hlt (by omega)

/-- What a search finds is what the plan matches with the whole budget, at the first position
at which it does not fail. -/
theorem matched_of_outcomeFrom_found {rounds pos budget start : Nat} {found : Hit}
    (hbudget : budget ≤ maxBacktracks)
    (h : re.outcomeFrom t origin rounds pos budget = .found start found) :
    pos ≤ start ∧ start < pos + rounds ∧
      (∃ left, re.verdictAt t origin start = .matched found left) ∧
      ∀ q, pos ≤ q → q < start → ∃ left, re.verdictAt t origin q = .failed left := by
  induction rounds generalizing pos budget with
  | zero => simp [outcomeFrom] at h
  | succ rounds ih =>
    rcases outcomeFrom_succ re t origin rounds pos hbudget with
      he | ⟨_, left, hv, he⟩ | ⟨left, hv, rest, hrest, he⟩
    · simp [he] at h
    · rw [he] at h
      cases h
      exact ⟨le_rfl, by omega, ⟨left, hv⟩, fun q hq hlt => by omega⟩
    · obtain ⟨hle, hlt, hmatched, hbefore⟩ := ih hrest (he ▸ h)
      refine ⟨by omega, by omega, hmatched, fun q hq hqs => ?_⟩
      rcases Nat.eq_or_lt_of_le hq with rfl | hlt
      · exact ⟨left, hv⟩
      · exact hbefore q hlt hqs

end ModeStack.Regex
