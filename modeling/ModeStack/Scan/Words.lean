import ModeStack.Keyword.Table
import ModeStack.Pattern
import ModeStack.Scan.Token

/-!
# Classifying words

When a piece of text is emitted, the words in it are looked up in the keyword table of the mode.
Classified words become tokens of their class, and what lies between them, hidden and unknown
words included, keeps the scope of the mode. `split` gives the tokens and the words to be
scored, in order.
-/

namespace ModeStack.Scan

open ModeStack.Regex (Span)

/-- A piece of text cut into tokens, and the words in it that score. -/
structure Split where
  tokens : List Token
  words : List (String × Nat)
  deriving DecidableEq, Repr

/-- How the words of a piece of text are classified. -/
structure Classifier where
  table : Keyword.Table
  pattern : Pattern
  /-- The scope of what is not classified. -/
  scope : Option String

namespace Classifier

/-- Cuts `piece`, which starts at `base` in the whole text, from `pos` on; what lies between
`plain` and `pos` is not yet part of a token. The search moves on with every match, so `rounds`
may be one more than the number of characters left. -/
def splitFrom (c : Classifier) (piece : Text) (base : Nat) : (rounds plain pos : Nat) → Split
  | 0, plain, _ => ⟨tokensFor c.scope (base + plain) (base + piece.size), []⟩
  | rounds + 1, plain, pos =>
    match c.pattern.find piece pos with
    | none => ⟨tokensFor c.scope (base + plain) (base + piece.size), []⟩
    | some ⟨start, stop⟩ =>
      if stop ≤ start then
        match piece.next? start with
        | some next => c.splitFrom piece base rounds plain next
        | none => ⟨tokensFor c.scope (base + plain) (base + piece.size), []⟩
      else
        let word := piece.between start stop
        match c.table.classify word with
        | none => c.splitFrom piece base rounds plain stop
        | some found =>
          let scored := (c.table.key word, found.weight)
          if found.isHidden then
            let rest := c.splitFrom piece base rounds plain stop
            ⟨rest.tokens, scored :: rest.words⟩
          else
            let rest := c.splitFrom piece base rounds stop stop
            ⟨tokensFor c.scope (base + plain) (base + start)
                ++ ⟨some found.cls, ⟨base + start, base + stop⟩⟩ :: rest.tokens,
              scored :: rest.words⟩

/-- Cuts the part of a text between two positions. -/
def split (c : Classifier) (t : Text) (span : Span) : Split :=
  let piece := t.extract span.start span.stop
  c.splitFrom piece span.start (piece.size + 1) 0 0

end Classifier

end ModeStack.Scan
