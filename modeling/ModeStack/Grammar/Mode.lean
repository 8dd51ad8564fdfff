import ModeStack.Grammar.Definition
import ModeStack.Rule.RuleSet

/-!
# Compiled modes

A compiled mode is what a definition becomes when its patterns are compiled, its children are
found and its rules are joined. Compiled modes refer to each other by index.
-/

namespace ModeStack.Grammar

/-- A condition that a match of an opening pattern has to meet. -/
inductive Guard where
  | always
  /-- The match must not follow a dot directly. -/
  | notAfterDot
  deriving DecidableEq, Repr

/-- Whether a match at `start` meets the condition. -/
def Guard.allows (t : Text) (start : Nat) : Guard → Bool
  | always => true
  | notAfterDot => start = 0 || t[start - 1]? ≠ some '.'

/-- A compiled mode. -/
structure Mode where
  /-- The definition it comes from. -/
  source : ModeId
  scope : Option String
  /-- Its own closing pattern. -/
  closing : Option Pattern
  guard : Guard
  keywords : Option Keyword.Table
  wordPattern : Pattern
  relevance : Nat
  flags : Flags
  /-- The mode that opens when it ends. -/
  starts : Option Nat
  rules : Rule.RuleSet

/-- A mode that does nothing. -/
def Mode.inert : Mode where
  source := 0
  scope := none
  closing := none
  guard := .always
  keywords := none
  wordPattern := ⟨"", ⟨.direct .empty, 0⟩⟩
  relevance := 0
  flags := {}
  starts := none
  rules := .none

end ModeStack.Grammar
