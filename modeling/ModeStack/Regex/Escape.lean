import ModeStack.Regex.Bracket
import ModeStack.Regex.Reading

/-!
# Escapes

What a backslash means: a control character, a code point, a set of characters, a condition on
the position, a reference to a group, or the character after it. Inside brackets, an escape has
to mean a character or a set of them.
-/

namespace ModeStack.Regex

open ModeStack.Text

/-- Reads a code point: exactly `count` hexadecimal digits, or one to eight in braces. -/
def codePoint (count : Nat) : Parser Char := do
  let cs ← remaining
  let digits := cs.take count
  let (digits, rest) ←
    if digits.length = count && digits.all isHexDigit then pure (digits, cs.drop count)
    else match cs with
      | '\x7b' :: more =>
        let digits := more.takeWhile isHexDigit
        match more.dropWhile isHexDigit with
        | '\x7d' :: rest =>
          if digits.isEmpty || 8 < digits.length then throw .invalidCodePoint
          else pure (digits, rest)
        | _ => throw .invalidCodePoint
      | _ => throw .invalidCodePoint
  continueAt rest
  let n := hexValue digits
  if n.isValidChar then return Char.ofNat n else throw .invalidCodePoint

/-- Reads the name of a property after `\p` or `\P`. -/
def property (negated : Bool) : Parser CharSet := do
  let id ← match ← remaining with
    | '\x7b' :: more =>
      match more.dropWhile (· ≠ '\x7d') with
      | _ :: rest => do
        continueAt rest
        pure (more.takeWhile (· ≠ '\x7d'))
      | [] => throw .unknownProperty
    | c :: rest => do
      continueAt rest
      pure [c]
    | [] => throw .invalidEscape
  let (negated, id) := match id with
    | '^' :: id => (!negated, id)
    | _ => (negated, id)
  match Property.ofUnicodeName (String.ofList id) with
  | some p => return .bracket negated (.named p false)
  | none => throw .unknownProperty

/-- The escapes that mean one control character. -/
def controlEscape? : Char → Option Char
  | 'a' => some '\x07'
  | 'b' => some '\x08'
  | 'f' => some '\x0c'
  | 'n' => some '\n'
  | 'r' => some '\r'
  | 't' => some '\t'
  | 'v' => some '\x0b'
  | 'e' => some '\x1b'
  | _ => none

/-- The escapes that mean a set of characters. -/
def setEscape? : Char → Option CharSet
  | 'd' => some (.named .digit false)
  | 'D' => some (.named .digit true)
  | 's' => some (.named .blank false)
  | 'S' => some (.named .blank true)
  | 'w' => some (.named .word false)
  | 'W' => some (.named .word true)
  | 'h' => some (.named .hexDigit false)
  | 'H' => some (.named .hexDigit true)
  | _ => none

/-- The escapes that mean a condition on the position. -/
def assertionEscape? : Char → Option Expr
  | 'A' => some (.assert .textStart)
  | 'z' => some (.assert .textEnd)
  | 'Z' => some (.assert .lastLineEnd)
  | 'b' => some (.assert .wordEdge)
  | 'B' => some (.assert .notWordEdge)
  | '<' => some (.assert .wordStart)
  | '>' => some (.assert .wordEnd)
  | 'K' => some .keep
  | 'G' => some .resume
  | 'O' => some (.any true)
  | _ => none

/-- Letters that stand for themselves inside brackets, where they mean nothing else. -/
def isPlainInBracket (c : Char) : Bool :=
  c = 'k' || c = 'A' || c = 'z' || c = 'B' || c = 'K' || c = 'G'

/-- Reads an escape that means the same inside and outside brackets, after `\` and `c`. -/
def commonEscape (c : Char) : Parser Expr := do
  let fold := (← get).flags.ignoreCase
  match setEscape? c with
  | some s => return .set s fold
  | none =>
    match c with
    | 'x' => return .char (← codePoint 2) fold
    | 'u' => return .char (← codePoint 4) fold
    | 'U' => return .char (← codePoint 8) fold
    | 'p' => return .set (← property false) fold
    | 'P' => return .set (← property true) fold
    | _ =>
      match controlEscape? c with
      | some control => return .char control false
      | none => if isAsciiLetter c then throw .invalidEscape else return .char c false

/-- Reads an escape outside brackets, after the backslash. -/
def escape : Parser Expr := do
  match ← remaining with
  | [] => throw .invalidEscape
  | c :: rest =>
    if isAsciiDigit c then
      match decimal? (c :: rest) with
      | some (n, rest) =>
        modify fun r => { r with rest := rest, numbered := true }
        return .ref n (← get).flags.ignoreCase
      | none => throw .unknownGroup
    else
      continueAt rest
      match c, rest with
      | 'k', '\'' :: rest => do
        continueAt rest
        namedReference '\''
      | 'k', '<' :: rest => do
        continueAt rest
        namedReference '>'
      | 'k', _ => throw .invalidName
      | 'b', '\x7b' :: _ => throw .invalidEscape
      | _, _ =>
        match assertionEscape? c with
        | some e => return e
        | none => commonEscape c

/-- Reads an escape inside brackets, after the backslash. -/
def bracketEscape : Parser Bracket.Atom := do
  match ← remaining with
  | [] => throw .invalidEscape
  | c :: rest =>
    continueAt rest
    if isAsciiDigit c then throw .invalidSet
    else if isPlainInBracket c then return .bare c
    else
      match ← commonEscape c with
      | .char c _ => return .ofEscaped c
      | .set s _ => return .set s
      | _ => throw .invalidSet

end ModeStack.Regex
