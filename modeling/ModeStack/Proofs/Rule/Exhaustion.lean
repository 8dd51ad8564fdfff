import ModeStack.Proofs.Rule.Naive

/-!
# Rules that do not match like one by one

A rule may be able to match each letter in two ways. Where it does not match in the end, all of the
`2 ^ n` ways to match `n` letters are tried (`costs_repeated`), and no budget lasts long. The search
is then given up at the first position, although another rule would match further on
(`givesUp_ambiguous`).

Renumbering takes no account of references with a leading zero (`exists_not_raised`).
-/

namespace ModeStack.Regex

/-- No match is found, and at least `cost` is taken from the budget. -/
def Costs (cost budget : Nat) (v : Verdict) : Prop :=
  v = .exhausted ∨ ∃ left, v = .failed left ∧ left + cost ≤ budget

namespace Costs

variable {cost cost' budget : Nat} {v : Verdict}

theorem failed (budget : Nat) : Costs 0 budget (.failed budget) := .inr ⟨budget, rfl, le_rfl⟩

theorem mono (h : Costs cost budget v) (hle : cost' ≤ cost) : Costs cost' budget v := by
  rcases h with h | ⟨left, h, hleft⟩
  · exact .inl h
  · exact .inr ⟨left, h, by omega⟩

/-- Going back to a second way adds to the cost. -/
theorem orElse {second : Nat → Verdict} (h : Costs cost budget v)
    (h' : ∀ left, Costs cost' left (second left)) :
    Costs (cost + cost' + 1) budget (v.orElse second) := by
  rcases h with rfl | ⟨left, rfl, hleft⟩
  · exact .inl rfl
  · cases left with
    | zero => exact .inl rfl
    | succ left =>
      rcases h' left with h' | ⟨rest, h', hrest⟩
      · exact .inl h'
      · exact .inr ⟨rest, h', by omega⟩

end Costs

section Ambiguous

variable {t : Text} {origin : Nat} {k : Continuation}

theorem run_char (t : Text) (origin : Nat) (k : Continuation) (c : Char) (h : Hit) (budget : Nat) :
    (Plan.direct (.char c false)).run t origin k h budget =
      if t[h.pos]? = some c then k (h.moveTo (h.pos + 1)) budget else .failed budget := by
  simp only [Plan.run, Expr.ends, Expr.step]
  cases t[h.pos]? with
  | none => rfl
  | some d =>
    by_cases hd : d = c
    · simp [hd, fromEach]
    · simp [hd, fromEach]

/-- The letter `a`, in two ways. -/
def twoWays : Plan :=
  .alt (.seq (.ahead false (.direct (.char 'a' false))) (.direct (.char 'a' false)))
    (.direct (.char 'a' false))

theorem run_twoWays (h : Hit) (budget : Nat) :
    twoWays.run t origin k h budget =
      if t[h.pos]? = some 'a' then
        (k (h.moveTo (h.pos + 1)) budget).orElse (k (h.moveTo (h.pos + 1)))
      else (Verdict.failed budget).orElse .failed := by
  show (afterLook false h ((Plan.direct (.char 'a' false)).run t origin k)
    ((Plan.direct (.char 'a' false)).run t origin accepted h budget)).orElse
      ((Plan.direct (.char 'a' false)).run t origin k h) = _
  have hsecond := funext (run_char t origin k 'a' h)
  rw [hsecond, run_char]
  split_ifs with ha
  · -- Looking ahead leads back to the hit itself.
    have hback : afterLook false h ((Plan.direct (.char 'a' false)).run t origin k)
        (accepted (h.moveTo (h.pos + 1)) budget) =
        (Plan.direct (.char 'a' false)).run t origin k h budget := rfl
    rw [hback, run_char, if_pos ha]
  · rfl

/-- A repetition costs at least what one more round costs, if what follows does not match. -/
theorem costs_round (hk : ∀ h budget, Costs 0 budget (k h budget))
    {body : Continuation → Continuation} {cost rounds done budget : Nat} {h : Hit}
    (hmore : Costs cost budget
      (body (runCounted body 1 none true k rounds (done + 1)) h budget)) :
    Costs cost budget (runCounted body 1 none true k (rounds + 1) done h budget) := by
  simp only [runCounted, reduceCtorEq, if_false]
  split_ifs
  · exact hmore
  · exact (hmore.orElse (hk h)).mono (by omega)

/-- Letters that can be taken in two ways each, followed by something else, cost twice as much for
each letter. -/
theorem costs_repeated (hk : ∀ h budget, Costs 0 budget (k h budget)) {count rounds : Nat}
    (hrounds : count < rounds) {h : Hit} (hletters : ∀ i < count, t[h.pos + i]? = some 'a')
    (hend : t[h.pos + count]? ≠ some 'a') (done budget : Nat) :
    Costs (2 ^ count) budget
      (runCounted (twoWays.run t origin) 1 none true k rounds done h budget) := by
  induction count generalizing rounds h done budget with
  | zero =>
    obtain ⟨rounds, rfl⟩ := Nat.exists_eq_succ_of_ne_zero (Nat.ne_zero_of_lt hrounds)
    have hhere : t[h.pos]? ≠ some 'a' := hend
    refine costs_round hk ?_
    rw [run_twoWays, if_neg hhere]
    exact (Costs.failed budget).orElse Costs.failed
  | succ count ih =>
    obtain ⟨rounds, rfl⟩ := Nat.exists_eq_succ_of_ne_zero (Nat.ne_zero_of_lt hrounds)
    have hletters' (i : Nat) (hi : i < count) :
        t[(h.moveTo (h.pos + 1)).pos + i]? = some 'a' := by
      have := hletters (i + 1) (Nat.succ_lt_succ hi)
      rwa [Nat.add_comm i 1, ← Nat.add_assoc] at this
    have hend' : t[(h.moveTo (h.pos + 1)).pos + count]? ≠ some 'a' := by
      rwa [Nat.add_comm count 1, ← Nat.add_assoc] at hend
    have hrest := ih (Nat.lt_of_succ_lt_succ hrounds) hletters' hend' (done + 1)
    have hhere : t[h.pos]? = some 'a' := hletters 0 (Nat.succ_pos count)
    refine costs_round hk ?_
    rw [run_twoWays, if_pos hhere]
    refine ((hrest budget).orElse hrest).mono ?_
    rw [Nat.pow_succ]
    omega

end Ambiguous

end ModeStack.Regex

namespace ModeStack.Rule

open ModeStack.Regex

/-- A rule that takes each `a` in two ways and asks for a `b` after them, and a rule for `z`. -/
def ambiguous : List Clause :=
  [⟨.opening 1, ⟨"(?:(?=a)a|a)+b", 0⟩⟩, ⟨.opening 2, ⟨"z", 0⟩⟩]

/-- Letters that the first rule takes, and one that only the second does. -/
def letters (count : Nat) : Text := (List.replicate count 'a' ++ ['z']).toArray

/-- The joined plan of the two rules. -/
def ambiguousPlan : Plan :=
  .alt (.group 1 (.seq (.rep twoWays 1 none true false) (.direct (.char 'b' false))))
    (.direct (.group 2 (.char 'z' false)))

theorem plan_ambiguous :
    (combine false ambiguous).toOption.map (·.regex.plan) = some ambiguousPlan := by
  decide +kernel

theorem getElem?_letters (count i : Nat) :
    (letters count)[i]? = if i < count then some 'a' else if i = count then some 'z' else none := by
  rw [letters, List.getElem?_toArray, List.getElem?_append, List.length_replicate,
    List.getElem?_replicate]
  split_ifs with hlt heq
  · rfl
  · rw [heq, Nat.sub_self]
    rfl
  · exact List.getElem?_eq_none (by simp; omega)

/-- At the first letter no budget that is less than `2 ^ count` is enough. -/
theorem run_ambiguous {count budget : Nat} (hbudget : budget < 2 ^ count) :
    ambiguousPlan.run (letters count) 0 accepted { pos := 0 } budget = .exhausted := by
  have hb (k : Continuation) (h : Hit) (budget : Nat) :
      Costs 0 budget ((Plan.direct (.char 'b' false)).run (letters count) 0 k h budget) := by
    rw [run_char, if_neg]
    · exact .failed budget
    · rw [getElem?_letters]
      split_ifs <;> simp
  have hsize : (letters count).size = count + 1 := by simp [letters]
  have hrun : Costs (2 ^ count) budget ((Plan.rep twoWays 1 none true false).run (letters count) 0
      ((Plan.direct (.char 'b' false)).run (letters count) 0 fun h => accepted (h.capture 1 0))
      { pos := 0 } budget) := by
    refine costs_repeated (hb _) ?_ (fun i hi => ?_) ?_ 0 budget
    · show count < 1 + ((letters count).size - 0) + 2
      omega
    · simp [getElem?_letters, hi]
    · simp [getElem?_letters]
  have hexhausted := hrun.resolve_right fun ⟨left, _, hleft⟩ => by omega
  show (((Plan.rep twoWays 1 none true false).run (letters count) 0
    ((Plan.direct (.char 'b' false)).run (letters count) 0 fun h => accepted (h.capture 1 0))
    { pos := 0 } budget).orElse _) = _
  rw [hexhausted]
  rfl

/-- **A search is given up** where one rule has spent the budget, whatever the others match. -/
theorem givesUp_ambiguous {s : RuleSet} (hs : RuleSet.build false ambiguous = .ok s) {count : Nat}
    (hcount : 20 ≤ count) : s.GivesUp 0 (letters count) 0 := by
  obtain ⟨-, -, hfrom⟩ := RuleSet.from?_of_build hs
  obtain ⟨⟨c, hc⟩, hfirst⟩ := hfrom 0 (by decide)
  rw [List.drop_zero, hc] at hfirst
  refine ⟨c, hfirst, ?_⟩
  have hplan : c.regex.plan = ambiguousPlan := by
    have := plan_ambiguous
    rw [hc] at this
    exact Option.some.inj this
  have hbudget : maxBacktracks < 2 ^ count :=
    Nat.lt_of_lt_of_le (by decide : maxBacktracks < 2 ^ 20)
      (Nat.pow_le_pow_right (by decide) hcount)
  have hrounds : (letters count).size + 1 - 0 = count + 1 + 1 := by simp [letters]
  rw [outcome, hrounds, outcomeFrom, hplan, run_ambiguous hbudget]

/-- The second of the two rules alone matches where the search of both is given up. -/
theorem exists_given_up : ∃ ps s,
    List.Forall₂ (fun clause p => SelfContained false clause.part p) ambiguous ps ∧
    RuleSet.build false ambiguous = .ok s ∧
    s.search 0 (letters 30) 0 = none ∧ ¬ NoMatch ps 0 (letters 30) 0 := by
  obtain ⟨ps, hps⟩ := exists_patterns false ambiguous (by decide +kernel)
  have hbuilds : (RuleSet.build false ambiguous).toOption.isSome = true := by decide +kernel
  have hmatch : ((Pattern.compile false "z").toOption.bind (·.matchAt (letters 30) 30)) =
      some 31 := by decide +kernel
  cases hbuild : RuleSet.build false ambiguous with
  | error err =>
    rw [hbuild] at hbuilds
    cases hbuilds
  | ok s =>
    refine ⟨ps, s, hps, rfl, RuleSet.search_of_givesUp (givesUp_ambiguous hbuild (by decide)), ?_⟩
    rcases hps with _ | ⟨_, _ | ⟨hz, _⟩⟩
    rw [hz.compiles] at hmatch
    intro hno
    have hnone := hno 30 (Nat.zero_le 30) 1 _ (Nat.zero_le 1) rfl
    exact absurd (hnone.symm.trans hmatch) (by simp)

/-- A rule that refers to its group by a number with a leading zero. -/
def zeroLed : List Clause := [⟨.ending, ⟨"(a|b)\\01", 1⟩⟩]

/-- A reference with a leading zero is not raised, so it means another group once the rule stands
in a joined pattern. -/
theorem exists_not_raised : ∃ p s, Pattern.compile false "(a|b)\\01" = .ok p ∧ p.groups = 1 ∧
    RuleSet.build false zeroLed = .ok s ∧
    s.search 0 #['b', 'b'] 0 = none ∧ p.matchAt #['b', 'b'] 0 = some 2 := by
  have halone : (Pattern.compile false "(a|b)\\01").toOption.map
      (fun p => (p.groups, p.matchAt #['b', 'b'] 0)) = some (1, some 2) := by decide +kernel
  have hjoined : (RuleSet.build false zeroLed).toOption.map
      (fun s => s.search 0 #['b', 'b'] 0) = some none := by decide +kernel
  cases hcompile : Pattern.compile false "(a|b)\\01" with
  | error err =>
    rw [hcompile] at halone
    cases halone
  | ok p =>
    cases hbuild : RuleSet.build false zeroLed with
    | error err =>
      rw [hbuild] at hjoined
      cases hjoined
    | ok s =>
      rw [hcompile] at halone
      rw [hbuild] at hjoined
      have halone := Prod.mk.inj (Option.some.inj halone)
      exact ⟨p, s, rfl, halone.1, rfl, Option.some.inj hjoined, halone.2⟩

/-- **Joined rules do not always match like the rules one by one**: a search may be given up where
a rule alone matches, and a reference with a leading zero is not raised. -/
theorem joined_search_differs :
    (∃ ps s, List.Forall₂ (fun clause p => SelfContained false clause.part p) ambiguous ps ∧
      RuleSet.build false ambiguous = .ok s ∧
      s.search 0 (letters 30) 0 = none ∧ ¬ NoMatch ps 0 (letters 30) 0) ∧
    ∃ p s, Pattern.compile false "(a|b)\\01" = .ok p ∧ p.groups = 1 ∧
      RuleSet.build false zeroLed = .ok s ∧
      s.search 0 #['b', 'b'] 0 = none ∧ p.matchAt #['b', 'b'] 0 = some 2 :=
  ⟨exists_given_up, exists_not_raised⟩

end ModeStack.Rule
