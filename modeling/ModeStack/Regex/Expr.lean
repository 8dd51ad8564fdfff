import ModeStack.Regex.CharSet

/-!
# Regular expressions

The expressions that patterns denote: characters, assertions, sequences, alternatives,
repetitions, capture groups, references to them, look-around and atomic groups. Besides the
type this module holds the three measures that decide how an expression is matched: the least
number of characters it takes (`minWidth`), the exact number where there is one (`width?`), and
whether it needs a backtracking search (`backtracks`).
-/

namespace ModeStack.Regex

/-- Conditions on a position that take no characters. -/
inductive Assertion where
  | textStart
  | textEnd
  /-- The end of the text, or before the newlines that end it. -/
  | lastLineEnd
  | lineStart
  | lineEnd
  | wordEdge
  | notWordEdge
  | wordStart
  | wordEnd
  deriving DecidableEq, Repr

/-- Where a look-around looks. -/
inductive Direction where
  | ahead
  | behind
  deriving DecidableEq, Repr

/-- Regular expressions. Groups carry their number, counted by opening parenthesis from 1. -/
inductive Expr where
  | empty
  | char (c : Char) (ignoreCase : Bool)
  /-- Any character; the newline only if `newline` is set. -/
  | any (newline : Bool)
  | set (s : CharSet) (ignoreCase : Bool)
  | assert (a : Assertion)
  | seq (a b : Expr)
  /-- The first alternative is preferred. -/
  | alt (a b : Expr)
  | group (index : Nat) (e : Expr)
  /-- At least `lo` and at most `hi` times; more are preferred if `greedy`. -/
  | rep (e : Expr) (lo : Nat) (hi : Option Nat) (greedy : Bool)
  /-- The text that a group has captured. -/
  | ref (index : Nat) (ignoreCase : Bool)
  | look (d : Direction) (negated : Bool) (e : Expr)
  /-- Only the preferred way to match is considered. -/
  | atomic (e : Expr)
  /-- The match is reported from here. -/
  | keep
  /-- The position at which the search started. -/
  | resume
  deriving DecidableEq, Repr

namespace Expr

/-- A sequence of expressions. -/
def ofSequence : List Expr → Expr
  | [] => empty
  | [e] => e
  | e :: es => seq e (ofSequence es)

/-- Alternatives, the first preferred. -/
def ofAlternatives : Expr → List Expr → Expr
  | e, [] => e
  | e, f :: fs => alt e (ofAlternatives f fs)

/-- The groups an expression refers to. -/
def references : Expr → List Nat
  | ref index _ => [index]
  | seq a b | alt a b => a.references ++ b.references
  | group _ e | rep e _ _ _ | look _ _ e | atomic e => e.references
  | _ => []

/-- The least number of characters a match takes. -/
def minWidth : Expr → Nat
  | char .. | any _ | set .. => 1
  | seq a b => a.minWidth + b.minWidth
  | alt a b => min a.minWidth b.minWidth
  | group _ e | atomic e => e.minWidth
  | rep e lo _ _ => e.minWidth * lo
  | _ => 0

/-- The number of characters every match takes, where this can be read off. -/
def width? : Expr → Option Nat
  | empty | assert _ | look .. | keep | resume => some 0
  | char .. | any _ | set .. => some 1
  | seq a b => do return (← a.width?) + (← b.width?)
  | alt a b => do
    let m ← a.width?
    let n ← b.width?
    if m = n then some m else none
  | group _ e | atomic e => e.width?
  | rep e lo hi _ => do
    let n ← e.width?
    if hi = some lo then some (n * lo) else none
  | ref .. => none

/-- Whether matching must be able to go back over an earlier choice for a reason other than
the length of the match. `captured` lists the groups whose text is referred to. -/
def backtracks (captured : List Nat) : Expr → Bool
  | seq a b | alt a b => a.backtracks captured || b.backtracks captured
  | group index e => captured.contains index || e.backtracks captured
  | rep e _ _ _ => e.backtracks captured
  | ref .. | look .. | atomic _ | keep | resume => true
  | _ => false

/-- Looking behind for alternatives is looking behind for each, since they may differ in
width. -/
def spreadBehind (negated : Bool) : Expr → Expr
  | alt a b =>
    if negated then seq (spreadBehind true a) (spreadBehind true b)
    else alt (spreadBehind false a) (spreadBehind false b)
  | e => look .behind negated e

/-- Applies `spreadBehind` to every look-behind. -/
def spread : Expr → Expr
  | seq a b => seq a.spread b.spread
  | alt a b => alt a.spread b.spread
  | group index e => group index e.spread
  | rep e lo hi greedy => rep e.spread lo hi greedy
  | look .ahead negated e => look .ahead negated e.spread
  | look .behind negated e => spreadBehind negated e.spread
  | atomic e => atomic e.spread
  | e => e

end Expr

end ModeStack.Regex
