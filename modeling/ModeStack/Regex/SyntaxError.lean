/-!
# Why a pattern is refused
-/

namespace ModeStack.Regex

/-- The reasons for which a pattern does not denote a regular expression. -/
inductive SyntaxError where
  | unclosedGroup
  | unopenedGroup
  | tooDeeplyNested
  | unclosedComment
  | unclosedSet
  | invalidSet
  | reversedRange
  | nothingToRepeat
  | reversedBounds
  | invalidEscape
  | invalidCodePoint
  | unknownProperty
  | invalidName
  | unknownName
  | unknownGroup
  /-- Numbered references do not mix with named groups. -/
  | mixedReferences
  | invalidFlags
  | unboundedLookBehind
  deriving DecidableEq, Repr

end ModeStack.Regex
