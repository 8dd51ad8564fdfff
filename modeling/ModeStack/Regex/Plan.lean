import ModeStack.Regex.Ends
import ModeStack.Regex.SyntaxError

/-!
# Backtracking

Expressions with references, look-around or atomic groups are matched by trying one way after
another. A `Plan` marks the parts that are matched `direct`ly, through the list of their ends,
and spells out the rest. `Plan.run` takes what has to follow as a continuation and gives a
`Verdict`. Every return to an earlier choice is paid from a budget; when the budget is spent the
search is given up.
-/

namespace ModeStack.Regex

open ModeStack.Text

/-! ## Plans -/

/-- How an expression is to be matched. -/
inductive Plan where
  /-- Through the list of its ends. -/
  | direct (e : Expr)
  | seq (a b : Plan)
  | alt (a b : Plan)
  | group (index : Nat) (p : Plan)
  /-- Repetition; `nullable` if what is repeated may take nothing. -/
  | rep (p : Plan) (lo : Nat) (hi : Option Nat) (greedy nullable : Bool)
  | ref (index : Nat) (ignoreCase : Bool)
  | ahead (negated : Bool) (p : Plan)
  /-- Looking behind for something of a fixed width. -/
  | behind (negated : Bool) (width : Nat) (p : Plan)
  | atomic (p : Plan)
  deriving DecidableEq, Repr

/-- The plan for an expression. With `revisited`, what follows may ask for another way to match,
so only an expression of a fixed width is matched directly. -/
def Expr.plan (captured : List Nat) : Expr → (revisited : Bool) → Except SyntaxError Plan
  | .seq a b, revisited =>
    if isDirect (.seq a b) revisited then .ok (.direct (.seq a b))
    else return .seq (← a.plan captured true) (← b.plan captured revisited)
  | .alt a b, revisited =>
    if isDirect (.alt a b) revisited then .ok (.direct (.alt a b))
    else return .alt (← a.plan captured revisited) (← b.plan captured revisited)
  | .group index e, revisited =>
    if isDirect (.group index e) revisited then .ok (.direct (.group index e))
    else return .group index (← e.plan captured revisited)
  | .rep e lo hi greedy, revisited =>
    if isDirect (.rep e lo hi greedy) revisited then .ok (.direct (.rep e lo hi greedy))
    else
      let single := lo = 0 && hi = some 1
      return .rep (← e.plan captured (revisited || !single || e.backtracks captured)) lo hi greedy
        (e.minWidth = 0)
  | .ref index ignoreCase, _ => .ok (.ref index ignoreCase)
  | .look .ahead negated e, _ => return .ahead negated (← e.plan captured false)
  | .look .behind negated e, _ =>
    match e.width? with
    | some width => return .behind negated width (← e.plan captured false)
    | none =>
      if e.backtracks captured then .error .unboundedLookBehind
      else .ok (.direct (.look .behind negated e))
  | .atomic e, _ => return .atomic (← e.plan captured false)
  | e, _ => .ok (.direct e)
where
  /-- Whether an expression can be matched directly. -/
  isDirect (e : Expr) (revisited : Bool) : Bool :=
    !e.backtracks captured && (!revisited || e.width?.isSome)

/-! ## Running a plan -/

/-- The outcome of running a plan, with the budget that is left. -/
inductive Verdict where
  | matched (h : Hit) (budget : Nat)
  | failed (budget : Nat)
  | exhausted
  deriving DecidableEq, Repr

/-- What is left to match after a hit, given a budget. -/
abbrev Continuation := Hit → Nat → Verdict

/-- Tries a second way if the first has failed, at the cost of one from the budget. -/
def Verdict.orElse (v : Verdict) (second : Nat → Verdict) : Verdict :=
  match v with
  | failed 0 => exhausted
  | failed (budget + 1) => second budget
  | v => v

/-- Two ways in order of preference: the first of them first if `greedy`. -/
def choose (greedy : Bool) (more less : Nat → Verdict) (budget : Nat) : Verdict :=
  if greedy then (more budget).orElse less else (less budget).orElse more

/-- Continues from the first of several hits from which that succeeds. -/
def fromEach (k : Continuation) : List Hit → Nat → Verdict
  | [], budget => .failed budget
  | [h], budget => k h budget
  | h :: hs, budget => (k h budget).orElse (fromEach k hs)

/-- Nothing is left to match. -/
def accepted : Continuation := .matched

/-- Repetition of something that takes at least one character, or at most `hi` times. `done`
repetitions have been made. -/
def runCounted (body : Continuation → Continuation) (lo : Nat) (hi : Option Nat) (greedy : Bool)
    (k : Continuation) : (rounds done : Nat) → Continuation
  | 0, _, h, budget => k h budget
  | rounds + 1, done, h, budget =>
    let more := body (runCounted body lo hi greedy k rounds (done + 1)) h
    if hi = some done then k h budget
    else if done < lo then more budget
    else choose greedy more (k h) budget

/-- Repetition of something that may take nothing. One that has taken nothing, from position
`last`, ends the repetition. -/
def runNullable (body : Continuation → Continuation) (lo : Nat) (greedy : Bool)
    (k : Continuation) : (rounds done : Nat) → (last : Option Nat) → Continuation
  | 0, _, _, h, budget => k h budget
  | rounds + 1, done, last, h, budget =>
    if done ≠ 0 && last = some h.pos then k h budget
    else if done < lo then
      body (runNullable body lo greedy k rounds (done + 1) last) h budget
    else
      let more := body (runNullable body lo greedy k rounds (done + 1) (some h.pos)) h
      choose greedy more (k h) budget

/-- Continues from `h` after looking around, keeping captures unless the condition is that
nothing is found. -/
def afterLook (negated : Bool) (h : Hit) (k : Continuation) : Verdict → Verdict
  | .matched found budget =>
    if negated then .failed budget else k (found.moveTo h.pos) budget
  | .failed budget => if negated then k h budget else .failed budget
  | .exhausted => .exhausted

/-- Runs a plan from a hit. -/
def Plan.run (t : Text) (origin : Nat) : Plan → Continuation → Continuation
  | direct e, k, h, budget => fromEach k (e.ends t origin h) budget
  | seq a b, k, h, budget => a.run t origin (b.run t origin k) h budget
  | alt a b, k, h, budget => (a.run t origin k h budget).orElse (b.run t origin k h)
  | group index p, k, h, budget =>
    p.run t origin (fun h' => k (h'.capture index h.pos)) h budget
  | rep p lo hi greedy nullable, k, h, budget =>
    let rounds := lo + (t.size - h.pos) + 2
    match hi, nullable with
    | none, true => runNullable (p.run t origin) lo greedy k rounds 0 none h budget
    | none, false => runCounted (p.run t origin) lo none greedy k rounds 0 h budget
    | some hi, _ => runCounted (p.run t origin) lo (some hi) greedy k (hi + 1) 0 h budget
  | ref index ignoreCase, k, h, budget =>
    match referenceEnd? t index ignoreCase h with
    | some pos => k (h.moveTo pos) budget
    | none => .failed budget
  | ahead negated p, k, h, budget =>
    afterLook negated h k (p.run t origin accepted h budget)
  | behind negated width p, k, h, budget =>
    if width ≤ h.pos then
      afterLook negated h k (p.run t origin accepted (h.moveTo (h.pos - width)) budget)
    else afterLook negated h k (.failed budget)
  | atomic p, k, h, budget =>
    match p.run t origin accepted h budget with
    | .matched found budget => k found budget
    | v => v

end ModeStack.Regex
