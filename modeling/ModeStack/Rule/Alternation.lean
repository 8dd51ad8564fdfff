import ModeStack.Rule.Renumber

/-!
# Joining patterns

`alternation` joins patterns into one that matches where any of them does, the first preferred.
With `capture`, each is wrapped in a capture group, by whose number the one that matched can be
told; otherwise the wrapping groups do not capture.
-/

namespace ModeStack.Rule

/-- A pattern to be joined: its text and the number of its groups. -/
structure Part where
  source : String
  groups : Nat
  deriving DecidableEq, Repr

/-- The number of groups of several parts. -/
def groupCount : List Part → Nat
  | [] => 0
  | part :: parts => part.groups + groupCount parts

/-- The wrapped parts and the numbers of the groups that wrap them, where `before` groups
precede. -/
def wrapped (capture : Bool) : (before : Nat) → List Part → List String × List Nat
  | _, [] => ([], [])
  | before, part :: parts =>
    let own := if capture then before + 1 else before
    let text := (if capture then "(" else "(?:") ++ renumber part.source own ++ ")"
    let (texts, wrappers) := wrapped capture (own + part.groups) parts
    (text :: texts, if capture then own :: wrappers else wrappers)

/-- The joined text and, with `capture`, the number of the group that wraps each part. -/
def alternation (capture : Bool) (parts : List Part) : String × List Nat :=
  let (texts, wrappers) := wrapped capture 0 parts
  (String.intercalate "|" texts, wrappers)

end ModeStack.Rule
