import ModeStack.Regex.Expr
import ModeStack.Regex.SyntaxError

/-!
# Reading from a pattern

The state in which a pattern is read: the characters left, the flags in force and the groups
opened so far. Besides, the small things that are read everywhere: white space and comments,
numbers, and names of groups.
-/

namespace ModeStack.Regex

open ModeStack.Text

/-! ## Parser state -/

/-- The flags of a pattern. -/
structure Flags where
  ignoreCase : Bool := false
  /-- `^` and `$` match at line ends. -/
  multiLine : Bool := false
  /-- `.` matches the newline too. -/
  dotAll : Bool := false
  /-- Repetitions prefer fewer, and `?` after them prefers more. -/
  swapGreed : Bool := false
  /-- White space and `#` comments mean nothing. -/
  verbose : Bool := false
  deriving DecidableEq, Repr

/-- What is left to read, and what has been read so far that matters to it. -/
structure Reading where
  rest : List Char
  flags : Flags := {}
  /-- The number of groups opened. -/
  groups : Nat := 0
  /-- The names of groups, the latest first. -/
  names : List (String × Nat) := []
  /-- Whether a group was referred to as `\N`. -/
  numbered : Bool := false

/-- Parsers read from the front of the pattern and may refuse it. -/
abbrev Parser := StateT Reading (Except SyntaxError)

/-- What is left to read. -/
def remaining : Parser (List Char) := return (← get).rest

/-- Continues with `rest`. -/
def continueAt (rest : List Char) : Parser Unit :=
  modify fun r => { r with rest := rest }

/-! ## White space and comments -/

/-- What is being skipped. -/
inductive Skipping where
  | space
  /-- A comment up to the end of the line. -/
  | line
  /-- A comment up to the closing parenthesis. -/
  | comment

/-- Skips comments `(?#...)` and, in verbose mode, white space and comments to the line end. -/
def skipped (verbose : Bool) : Skipping → List Char → Except SyntaxError (List Char)
  | .space, '(' :: '?' :: '#' :: rest => skipped verbose .comment rest
  | .space, c :: rest =>
    if verbose && c = '#' then skipped verbose .line rest
    else if verbose && (c = ' ' || c = '\n' || c = '\r' || c = '\t') then
      skipped verbose .space rest
    else .ok (c :: rest)
  | .line, c :: rest => skipped verbose (if c = '\n' then .space else .line) rest
  | .comment, ')' :: rest => skipped verbose .space rest
  | .comment, '\\' :: _ :: rest => skipped verbose .comment rest
  | .comment, _ :: rest => skipped verbose .comment rest
  | .comment, [] => .error .unclosedComment
  | _, [] => .ok []

/-- Skips what means nothing. -/
def skip : Parser Unit := do
  let r ← get
  continueAt (← skipped r.flags.verbose .space r.rest)

/-! ## Numbers and names -/

/-- The number written by decimal digits. -/
def decimalValue (digits : List Char) : Nat :=
  digits.foldl (fun n c => 10 * n + (c.toNat - '0'.toNat)) 0

/-- Reads a decimal number of 64 bits from the front. -/
def decimal? (cs : List Char) : Option (Nat × List Char) :=
  let digits := cs.takeWhile isAsciiDigit
  let n := decimalValue digits
  if digits.isEmpty || 18446744073709551616 ≤ n then none else some (n, cs.dropWhile isAsciiDigit)

/-- Characters of group names. -/
def isNameChar (c : Char) : Bool :=
  isAlphanumeric c || c = '_'

/-- Reads a name up to `close`. -/
def name (close : Char) : Parser String := do
  let cs ← remaining
  let letters := cs.takeWhile isNameChar
  match cs.dropWhile isNameChar with
  | c :: rest =>
    if c = close && !letters.isEmpty then
      continueAt rest
      return String.ofList letters
    else throw .invalidName
  | [] => throw .invalidName

/-- Reads a reference by name, by number or, counting back from the latest group, by negative
number, up to `close`. -/
def namedReference (close : Char) : Parser Expr := do
  let backwards ← match ← remaining with
    | '-' :: rest => do
      continueAt rest
      pure true
    | _ => pure false
  let id ← name close
  let r ← get
  let index ←
    if backwards then
      match decimal? id.toList with
      | some (n, []) => if n ≤ r.groups then pure (r.groups + 1 - n) else throw .unknownGroup
      | _ => throw .unknownName
    else
      match r.names.lookup id, decimal? id.toList with
      | some index, _ => pure index
      | none, some (n, []) => pure n
      | none, _ => throw .unknownName
  return .ref index r.flags.ignoreCase

end ModeStack.Regex
