import ModeStack.Regex.Parser
import ModeStack.Regex.Plan

/-!
# Searching

A `Regex` is a pattern made ready for searching. `Regex.search` finds the first position, from
a given one on, at which the pattern matches, and the preferred match there. The text before
that position counts for assertions and look-behind.
-/

namespace ModeStack

/-- A pattern ready for searching. -/
structure Regex where
  plan : Regex.Plan
  /-- The number of capture groups. -/
  groups : Nat
  deriving Repr

namespace Regex

/-- A part of a text. -/
structure Span where
  start : Nat
  stop : Nat
  deriving DecidableEq, Repr

/-- Makes a pattern ready, or says why it is none. -/
def compile (pattern : String) : Except SyntaxError Regex := do
  let (e, groups) ← parse pattern
  return { plan := ← e.spread.plan e.references false, groups := groups }

/-- The number of times a search may return to an earlier choice, moving on to the next
position included. -/
def maxBacktracks : Nat := 1000000

/-- Whether matching never backtracks. -/
def isDirect (re : Regex) : Bool :=
  match re.plan with
  | .direct _ => true
  | _ => false

/-- Searches `rounds` positions from `pos` on. -/
def searchFrom (re : Regex) (t : Text) (origin : Nat) :
    (rounds pos budget : Nat) → Option (Nat × Hit)
  | 0, _, _ => none
  | rounds + 1, pos, budget =>
    match re.plan.run t origin accepted { pos := pos } budget with
    | .matched h _ => some (pos, h)
    | .exhausted => none
    | .failed budget =>
      if re.isDirect then re.searchFrom t origin rounds (pos + 1) budget
      else
        match budget with
        | 0 => none
        | budget + 1 => re.searchFrom t origin rounds (pos + 1) budget

/-- The first match from `pos` on: where it starts, and the hit it ends in. -/
def search (re : Regex) (t : Text) (pos : Nat) : Option (Nat × Hit) :=
  re.searchFrom t pos (t.size + 1 - pos) pos maxBacktracks

/-- The first match from `pos` on. -/
def find (re : Regex) (t : Text) (pos : Nat) : Option Span :=
  (re.search t pos).map fun (start, h) =>
    ⟨((h.captureOf? 0).map (·.start)).getD start, h.pos⟩

end Regex

end ModeStack
