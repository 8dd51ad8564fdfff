import ModeStack.Regex.Search

/-!
# Tokens and reports

A scan cuts a text into tokens, each with the label in force over its span, and ends with a
report for language detection.
-/

namespace ModeStack.Scan

open ModeStack.Regex (Span)

/-- A labelled part of a text. Text outside every labelled mode has no scope. -/
structure Token where
  scope : Option String
  span : Span
  deriving DecidableEq, Repr

namespace Token

/-- The text of a token. -/
def text (token : Token) (t : Text) : String :=
  t.between token.span.start token.span.stop

/-- Where a token starts, in bytes. -/
def byteStart (token : Token) (t : Text) : Nat := t.byteOffset token.span.start

/-- Where a token ends, in bytes. -/
def byteStop (token : Token) (t : Text) : Nat := t.byteOffset token.span.stop

end Token

/-- The tokens for a span, none if it is empty. -/
def tokensFor (scope : Option String) (start stop : Nat) : List Token :=
  if start < stop then [⟨scope, ⟨start, stop⟩⟩] else []

/-- What a scan says about a text. -/
structure Report where
  relevance : Nat
  /-- Whether an illegal lexeme was found, and the rest left without scopes. -/
  illegal : Bool
  deriving DecidableEq, Repr

/-- The score by which grammars are ranked; a text with an illegal lexeme is not in the
language. -/
def Report.score (r : Report) : Nat :=
  if r.illegal then 0 else r.relevance

end ModeStack.Scan
