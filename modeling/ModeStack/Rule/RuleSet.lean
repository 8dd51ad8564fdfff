import ModeStack.Pattern
import ModeStack.Rule.Alternation

/-!
# The rules of a mode

What can happen next inside a mode is a list of rules in order of priority: an illegal lexeme,
the end of the mode, the beginning of a child. A rule set joins their patterns into one
regular expression and finds the nearest match of any of them. When a match is rejected, the
search resumes at the same position with the later rules only.
-/

namespace ModeStack

open Regex (Span SyntaxError)

/-- What a rule stands for. -/
inductive Rule where
  | illegal
  | ending
  /-- The beginning of the compiled mode with this index. -/
  | opening (mode : Nat)
  deriving DecidableEq, Repr

namespace Rule

/-- A rule with its pattern. -/
structure Clause where
  rule : Rule
  part : Part
  deriving DecidableEq, Repr

/-- A match of a rule set. -/
structure Found where
  rule : Rule
  /-- The place of the rule in order of priority. -/
  index : Nat
  span : Span
  deriving DecidableEq, Repr

/-- The joined patterns of rules, and the group that wraps each. -/
structure Combined where
  regex : Regex
  wrappers : List Nat

/-- Joins the patterns of rules. -/
def combine (ignoreCase : Bool) (clauses : List Clause) : Except SyntaxError Combined := do
  let (source, wrappers) := alternation true (clauses.map (·.part))
  return { regex := ← Pattern.compileFlagged ignoreCase source, wrappers := wrappers }

namespace Combined

/-- The first group, of those listed from place `index` on, that has captured something. -/
def winner? (h : Regex.Hit) : (index : Nat) → List Nat → Option (Nat × Regex.Capture)
  | _, [] => none
  | index, wrapper :: wrappers =>
    match h.captureOf? wrapper with
    | some c => some (index, c)
    | none => winner? h (index + 1) wrappers

/-- The nearest match from `pos` on, as the place of its rule and its span. -/
def search (c : Combined) (t : Text) (pos : Nat) : Option (Nat × Span) := do
  let (_, h) ← c.regex.search t pos
  let (index, capture) ← winner? h 0 c.wrappers
  return (index, ⟨capture.start, capture.stop⟩)

end Combined

/-- The rules of a mode, joined. -/
structure RuleSet where
  clauses : Array Clause
  /-- All rules; nothing if there are none. -/
  full : Option Combined
  /-- The rules from the second on, from the third on, and so on, where they can be joined. -/
  suffixes : Array (Thunk (Option Combined))

namespace RuleSet

/-- No rules. -/
def none : RuleSet := ⟨#[], .none, #[]⟩

/-- Joins rules. -/
def build (ignoreCase : Bool) (clauses : List Clause) : Except SyntaxError RuleSet := do
  let full ← if clauses.isEmpty then pure .none else some <$> combine ignoreCase clauses
  let suffix (first : Nat) : Thunk (Option Combined) :=
    .mk fun _ => (combine ignoreCase (clauses.drop first)).toOption
  return {
    clauses := clauses.toArray
    full := full
    suffixes := ((List.range (clauses.length - 1)).map fun k => suffix (k + 1)).toArray }

/-- The number of rules. -/
def size (s : RuleSet) : Nat := s.clauses.size

/-- The joined rules from place `first` on. -/
def from? (s : RuleSet) (first : Nat) : Option Combined :=
  if first = 0 then s.full else s.suffixes[first - 1]?.bind (·.get)

/-- The nearest match of the rules from place `first` on. -/
def search (s : RuleSet) (first : Nat) (t : Text) (pos : Nat) : Option Found := do
  let combined ← s.from? first
  let (offset, span) ← combined.search t pos
  let clause ← s.clauses[first + offset]?
  return ⟨clause.rule, first + offset, span⟩

/-- The nearest match from `pos` on. After a rejection, a match of the rules from `resume` on
exactly at `pos` is preferred; failing that, the search goes on after the next character. -/
def find (s : RuleSet) (t : Text) (pos : Nat) (resume : Option Nat) : Option Found :=
  match resume with
  | some (first + 1) =>
    let onward := do s.search 0 t (← t.next? pos)
    match s.search (first + 1) t pos with
    | some found => if found.span.start = pos then some found else onward
    | .none => onward
  | _ => s.search 0 t pos

end RuleSet

end Rule

end ModeStack
