import ModeStack.Regex.Search

/-!
# Patterns of a grammar

A pattern is a regular expression together with its text. Every pattern is compiled so that `^`
and `$` match at line ends, and ignoring case if its grammar does.
-/

namespace ModeStack

open Regex (Span SyntaxError)

/-- A compiled regular expression with its text. -/
structure Pattern where
  source : String
  regex : Regex
  deriving Repr

namespace Pattern

/-- The text that is compiled for a pattern: its own, inside a group with the shared flags. -/
def flagged (ignoreCase : Bool) (source : String) : String :=
  (if ignoreCase then "(?mi)" else "(?m)") ++ "(?:" ++ source ++ ")"

/-- Compiles a regular expression with the flags that all patterns share. -/
def compileFlagged (ignoreCase : Bool) (source : String) : Except SyntaxError Regex :=
  Regex.compile (flagged ignoreCase source)

/-- Compiles a pattern. -/
def compile (ignoreCase : Bool) (source : String) : Except SyntaxError Pattern := do
  return { source := source, regex := ← compileFlagged ignoreCase source }

/-- The number of capture groups of a pattern. -/
def groups (p : Pattern) : Nat := p.regex.groups

/-- The text of a pattern between slashes. -/
def display (p : Pattern) : String := "/" ++ p.source ++ "/"

/-- The first match from `pos` on. -/
def find (p : Pattern) (t : Text) (pos : Nat) : Option Span :=
  p.regex.find t pos

/-- The end of a match that starts exactly at `pos`. -/
def matchAt (p : Pattern) (t : Text) (pos : Nat) : Option Nat :=
  match p.find t pos with
  | some span => if span.start = pos then some span.stop else none
  | none => none

end Pattern

end ModeStack
