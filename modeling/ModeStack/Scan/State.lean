import ModeStack.Grammar.Basic
import ModeStack.Keyword.Score
import ModeStack.Scan.Words

/-!
# The state of a scan

A scan keeps a stack of open modes with the root at the bottom, a cursor, and the position up to
which tokens have been emitted. Text between that position and the cursor is pending; it is
emitted by `flush` in the mode on top of the stack.
-/

namespace ModeStack

/-- A text to be scanned with a grammar. -/
structure Scan where
  grammar : Grammar
  text : Text
  /-- Whether illegal lexemes are taken as plain text. -/
  ignoreIllegals : Bool := false

namespace Scan

open ModeStack.Regex (Span)

/-- The match that was acted on last. -/
structure LastMatch where
  opening : Bool
  pos : Nat
  deriving DecidableEq, Repr

/-- The state of a scan. -/
structure State where
  /-- The open modes, by index, the innermost first. -/
  stack : List Nat
  cursor : Nat := 0
  /-- The position up to which tokens have been emitted. -/
  flushed : Nat := 0
  /-- The rule with which to resume after a rejected match. -/
  resume : Option Nat := none
  last : Option LastMatch := none
  /-- The number of steps in which the cursor stood still. -/
  stalled : Nat := 0
  closed : Bool := false
  /-- Tokens emitted and not yet taken. -/
  queue : List Token := []
  score : Keyword.Score := {}
  illegal : Bool := false
  deriving DecidableEq, Repr

namespace State

/-- The number of open modes. -/
def depth (s : State) : Nat := s.stack.length

/-- The report so far. -/
def report (s : State) : Report := ⟨s.score.total, s.illegal⟩

end State

/-- The state at the start of a text. -/
def start (_scan : Scan) : State := { stack := [Grammar.root] }

/-- The innermost open mode. -/
def top (scan : Scan) (s : State) : Grammar.Mode :=
  scan.grammar.mode (s.stack.headD Grammar.root)

/-- The scope of the nearest open mode that has one and is not structural only. -/
def scopeOf (scan : Scan) (stack : List Nat) : Option String :=
  let labelled := stack.find? fun index =>
    let mode := scan.grammar.mode index
    mode.scope.isSome && !mode.flags.skip
  labelled.bind fun index => (scan.grammar.mode index).scope

/-- Emits the pending text up to a position in the innermost mode. -/
def flush (scan : Scan) (s : State) (upto : Nat) : State :=
  if upto ≤ s.flushed then s
  else
    let mode := scan.top s
    let scope := scan.scopeOf s.stack
    let span : Span := ⟨s.flushed, upto⟩
    match mode.keywords with
    | none => { s with flushed := upto, queue := s.queue ++ [⟨scope, span⟩] }
    | some table =>
      let split := ({ table := table, pattern := mode.wordPattern, scope := scope }
        : Classifier).split scan.text span
      { s with
        flushed := upto
        queue := s.queue ++ split.tokens
        score := split.words.foldl (fun score (word, weight) => score.addKeyword word weight)
          s.score }

/-- Emits the rest of the text in the innermost mode and ends the scan. -/
def close (scan : Scan) (s : State) : State :=
  { scan.flush s scan.text.size with cursor := scan.text.size, closed := true }

/-- Emits the rest of the text without a scope and ends the scan. -/
def abandon (scan : Scan) (s : State) : State :=
  { s with
    queue := s.queue ++ tokensFor none s.flushed scan.text.size
    flushed := scan.text.size
    cursor := scan.text.size
    closed := true }

/-- Leaves the character at a position pending and moves on; at the end of the text, ends the
scan. -/
def passChar (scan : Scan) (s : State) (pos : Nat) : State :=
  match scan.text.next? pos with
  | some next => { s with cursor := next }
  | none => scan.close s

/-- Leaves a lexeme pending as plain text. -/
def passLexeme (scan : Scan) (s : State) (span : Span) : State :=
  if span.stop ≤ span.start then scan.passChar s span.start
  else { s with cursor := span.stop }

end Scan

end ModeStack
