import ModeStack.Pattern
import ModeStack.Proofs.Text.Utf8

/-!
# Evaluating patterns

What a pattern compiles to is decided by evaluation. `Pattern.evaluate` compiles as
`Pattern.compile` does, but from the characters that `Text.charactersOf` reads, so that the kernel
can evaluate it on long patterns.
-/

namespace ModeStack

open Text (charactersOf charactersOf_eq)
open Regex (SyntaxError Expr)

/-- The expression that a pattern with these characters denotes, and the number of its groups. -/
def Regex.parseCharacters (cs : List Char) : Except SyntaxError (Expr × Nat) := do
  let (e, r) ← (expression maxDepth).run { rest := cs }
  if !r.rest.isEmpty then throw .unopenedGroup
  if e.references.all fun index => 1 ≤ index && index ≤ r.groups then return (e, r.groups)
  else throw .unknownGroup

theorem Regex.parse_eq (source : String) :
    parse source = parseCharacters (charactersOf source) := by
  rw [charactersOf_eq]
  rfl

namespace Pattern

/-- The characters that are compiled for a pattern with the given ones. -/
def flaggedCharacters (ignoreCase : Bool) (cs : List Char) : List Char :=
  '(' :: '?' :: 'm' :: (if ignoreCase then ['i', ')'] else [')']) ++
    '(' :: '?' :: ':' :: cs ++ [')']

theorem charactersOf_flagged (ignoreCase : Bool) (source : String) :
    charactersOf (flagged ignoreCase source) =
      flaggedCharacters ignoreCase (charactersOf source) := by
  rw [charactersOf_eq, charactersOf_eq]
  cases ignoreCase <;> simp [flagged, flaggedCharacters]

/-- Compiles a pattern from its characters. -/
def evaluate (ignoreCase : Bool) (source : String) : Except SyntaxError Pattern := do
  let (e, groups) ← Regex.parseCharacters (flaggedCharacters ignoreCase (charactersOf source))
  let plan ← e.spread.plan e.references false
  return { source := source, regex := { plan := plan, groups := groups } }

theorem compile_eq (ignoreCase : Bool) (source : String) :
    compile ignoreCase source = evaluate ignoreCase source := by
  unfold compile compileFlagged Regex.compile evaluate
  rw [Regex.parse_eq, charactersOf_flagged]
  simp only [bind_assoc, pure_bind]

end Pattern

end ModeStack
