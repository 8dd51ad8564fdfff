import ModeStack.Regex.CharSet
import ModeStack.Regex.SyntaxError

/-!
# Bracketed character sets

The notation inside `[...]`: ranges, nested brackets, `[:name:]`, and the operators `&&`, `--`
and `~~`, which associate to the left and bind weaker than juxtaposition. Escapes have been
resolved beforehand, so a bracket is read from `Atom`s, which tell a character with its special
meaning from one that stands for itself.
-/

namespace ModeStack.Regex.Bracket

open ModeStack.Text

/-- What stands between brackets. -/
inductive Atom where
  /-- A character as written, with any special meaning it has. -/
  | bare (c : Char)
  /-- A character that stands for itself. -/
  | quoted (c : Char)
  /-- A set written as one escape, such as `\w`. -/
  | set (s : CharSet)
  deriving DecidableEq, Repr

/-- Whether an escaped character has a special meaning that the escape takes away. -/
def isSpecial (c : Char) : Bool :=
  "\\.+*?()|[]\x7b\x7d^$#&-~".toList.contains c

/-- An escaped character. -/
def Atom.ofEscaped (c : Char) : Atom :=
  if isSpecial c then .quoted c else .bare c

/-- The operators on sets. -/
inductive Operator where
  | inter
  | diff
  | symDiff
  deriving DecidableEq, Repr

def Operator.apply : Operator → CharSet → CharSet → CharSet
  | inter, a, b => .inter a b
  | diff, a, b => .diff a b
  | symDiff, a, b => .symDiff a b

/-- An operator whose right side is still being read. -/
abbrev Pending := Option (Operator × CharSet)

/-- The set read so far, given what was read since the pending operator. -/
def Pending.close : Pending → CharSet → CharSet
  | none, s => s
  | some (op, lhs), s => op.apply lhs s

/-- Reads what may follow `[`: a negation, hyphens, and a bracket that stands for itself. Gives
the negation, the characters read as themselves, and the rest. -/
def opening (atoms : List Atom) : Bool × CharSet × List Atom :=
  let (negated, atoms) := match atoms with
    | .bare '^' :: rest => (true, rest)
    | _ => (false, atoms)
  match atoms with
  | .bare '-' :: _ => (negated, .single '-', atoms.dropWhile (· = .bare '-'))
  | .bare ']' :: rest => (negated, .single ']', rest)
  | _ => (negated, .none, atoms)

/-- The characters of the atoms up to the first that is not a character or is `:`. -/
def nameOf : List Atom → List Char × List Atom
  | .bare c :: rest =>
    if c = ':' then ([], .bare c :: rest)
    else
      let (name, rest) := nameOf rest
      (c :: name, rest)
  | atoms => ([], atoms)

/-- Reads `:name:]` or `:^name:]`, after the opening bracket. -/
def asciiName? (atoms : List Atom) : Option (CharSet × List Atom) :=
  match atoms with
  | .bare ':' :: rest =>
    let (negated, rest) := match rest with
      | .bare '^' :: rest => (true, rest)
      | _ => (false, rest)
    match nameOf rest with
    | (name, .bare ':' :: .bare ']' :: rest) =>
      (Property.ofAsciiName (String.ofList name)).map fun p => (.named p negated, rest)
    | _ => none
  | _ => none

/-- The character an atom stands for, if it is one. -/
def Atom.char? : Atom → Option Char
  | bare c | quoted c => some c
  | set _ => none

/-- The set an atom stands for. -/
def Atom.toSet : Atom → CharSet
  | bare c | quoted c => .single c
  | set s => s

/-- The range between two atoms, which must be characters in ascending order. -/
def range (a b : Atom) : Except SyntaxError CharSet :=
  match a.char?, b.char? with
  | some lo, some hi => if lo ≤ hi then .ok (.range lo hi) else .error .reversedRange
  | _, _ => .error .invalidSet

/-- Reads the items of a bracket up to the `]` that closes it. `pending` is the operator before
them and `read` what precedes them since. Each round takes at least one atom. -/
def items : (rounds : Nat) → Pending → (read : CharSet) → List Atom →
    Except SyntaxError (CharSet × List Atom)
  | 0, _, _, _ => .error .unclosedSet
  | _, _, _, [] => .error .unclosedSet
  | _ + 1, pending, read, .bare ']' :: rest => .ok (pending.close read, rest)
  | rounds + 1, pending, read, .bare '[' :: rest =>
    match asciiName? rest with
    | some (s, rest) => items rounds pending (read.add s) rest
    | none => do
      let (negated, first, rest) := opening rest
      let (inner, rest) ← items rounds none first rest
      items rounds pending (read.add (.bracket negated inner)) rest
  | rounds + 1, pending, read, .bare '&' :: .bare '&' :: rest =>
    items rounds (some (.inter, pending.close read)) .none rest
  | rounds + 1, pending, read, .bare '-' :: .bare '-' :: rest =>
    items rounds (some (.diff, pending.close read)) .none rest
  | rounds + 1, pending, read, .bare '~' :: .bare '~' :: rest =>
    items rounds (some (.symDiff, pending.close read)) .none rest
  | rounds + 1, pending, read, a :: rest =>
    match rest with
    | .bare '-' :: .bare ']' :: _ | .bare '-' :: .bare '-' :: _ =>
      items rounds pending (read.add a.toSet) rest
    | .bare '-' :: b :: rest => do
      let s ← range a b
      items rounds pending (read.add s) rest
    | _ => items rounds pending (read.add a.toSet) rest

/-- Reads a whole bracket from what follows its `[`; nothing may follow its `]`. -/
def read (atoms : List Atom) : Except SyntaxError CharSet := do
  let (negated, first, rest) := opening atoms
  let (inner, rest) ← items (rest.length + 1) none first rest
  if rest.isEmpty then return .bracket negated inner else throw .invalidSet

end ModeStack.Regex.Bracket
