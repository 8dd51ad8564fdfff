import ModeStack.Regex.Escape

/-!
# Reading patterns

`parse` turns the text of a pattern into an expression and the number of its groups. Groups nest
less than `maxDepth` deep, and `expression` recurses on that depth.

A flag set by `(?i)` and the like stays in force until the enclosing `(?...:...)` group closes;
capture groups, look-around and atomic groups do not bound it.
-/

namespace ModeStack.Regex

open ModeStack.Text

/-! ## Brackets -/

/-- Collects the atoms of a bracket up to the `]` that closes it. `open` counts the brackets
open inside it. -/
def bracketAtoms : (rounds opened : Nat) → (read : List Bracket.Atom) →
    Parser (List Bracket.Atom)
  | 0, _, _ => throw .unclosedSet
  | rounds + 1, opened, read => do
    match ← remaining with
    | [] => throw .unclosedSet
    | '\\' :: rest =>
      continueAt rest
      let atom ← bracketEscape
      bracketAtoms rounds opened (atom :: read)
    | '[' :: rest =>
      continueAt rest
      bracketAtoms rounds (opened + 1) (.bare '[' :: read)
    | ']' :: rest =>
      continueAt rest
      match opened with
      | 0 => return (.bare ']' :: read).reverse
      | opened + 1 => bracketAtoms rounds opened (.bare ']' :: read)
    | c :: rest =>
      continueAt rest
      bracketAtoms rounds opened (.bare c :: read)

/-- Reads a bracketed set after its `[`. A `]` that comes first, or after `^`, stands for
itself. -/
def bracket : Parser Expr := do
  let cs ← remaining
  let (read, rest) := match cs with
    | '^' :: ']' :: rest => ([.bare ']', .bare '^'], rest)
    | '^' :: rest => ([.bare '^'], rest)
    | ']' :: rest => ([.bare ']'], rest)
    | _ => ([], cs)
  continueAt rest
  let atoms ← bracketAtoms (rest.length + 1) 0 read
  let s ← Bracket.read atoms
  return .set s (← get).flags.ignoreCase

/-! ## Groups -/

/-- Reads the parenthesis that closes a group. -/
def closeGroup : Parser Unit := do
  skip
  match ← remaining with
  | ')' :: rest => continueAt rest
  | _ => throw .unclosedGroup

/-- Reads the inside of a group and its closing parenthesis. -/
def closed (inner : Parser Expr) : Parser Expr := do
  let e ← inner
  closeGroup
  return e

/-- Opens a capture group and gives its number. -/
def openGroup : Parser Nat := do
  modify fun r => { r with groups := r.groups + 1 }
  return (← get).groups

/-- Reads a named capture group after the character that opens its name. -/
def namedGroup (inner : Parser Expr) (close : Char) : Parser Expr := do
  let index ← openGroup
  let id ← name close
  modify fun r => { r with names := (id, index) :: r.names }
  return .group index (← closed inner)

/-- The flags after one flag letter. -/
def Flags.set? (flags : Flags) (letter : Char) (on : Bool) : Option Flags :=
  match letter with
  | 'i' => some { flags with ignoreCase := on }
  | 'm' => some { flags with multiLine := on }
  | 's' => some { flags with dotAll := on }
  | 'U' => some { flags with swapGreed := on }
  | 'x' => some { flags with verbose := on }
  | 'u' => if on then some flags else none
  | _ => none

/-- Reads flag letters and what they apply to: the rest of the enclosing group after `)`, or the
group itself after `:`. `outer` are the flags to return to. -/
def flagLetters (inner : Parser Expr) (outer : Flags) :
    (rounds : Nat) → (on bare : Bool) → Parser Expr
  | 0, _, _ => throw .unclosedGroup
  | rounds + 1, on, bare => do
    skip
    match ← remaining with
    | [] => throw .unclosedGroup
    | ')' :: rest =>
      if bare then throw .invalidFlags
      continueAt rest
      return .empty
    | ':' :: rest =>
      if bare && !on then throw .invalidFlags
      continueAt rest
      let e ← closed inner
      modify fun r => { r with flags := outer }
      return e
    | '-' :: rest =>
      if !on then throw .invalidFlags
      continueAt rest
      flagLetters inner outer rounds false bare
    | c :: rest =>
      match (← get).flags.set? c on with
      | some flags =>
        modify fun r => { r with rest := rest, flags := flags }
        flagLetters inner outer rounds on false
      | none => throw .invalidFlags

/-- Reads a group after its opening parenthesis. -/
def group (inner : Parser Expr) : Parser Expr := do
  skip
  match ← remaining with
  | '?' :: '=' :: rest => do
    continueAt rest
    return .look .ahead false (← closed inner)
  | '?' :: '!' :: rest => do
    continueAt rest
    return .look .ahead true (← closed inner)
  | '?' :: '<' :: '=' :: rest => do
    continueAt rest
    return .look .behind false (← closed inner)
  | '?' :: '<' :: '!' :: rest => do
    continueAt rest
    return .look .behind true (← closed inner)
  | '?' :: '<' :: rest | '?' :: 'P' :: '<' :: rest => do
    continueAt rest
    namedGroup inner '>'
  | '?' :: '\'' :: rest => do
    continueAt rest
    namedGroup inner '\''
  | '?' :: 'P' :: '=' :: rest => do
    continueAt rest
    namedReference ')'
  | '?' :: '>' :: rest => do
    continueAt rest
    return .atomic (← closed inner)
  | '?' :: rest => do
    continueAt rest
    flagLetters inner (← get).flags (rest.length + 1) true true
  | _ => do
    let index ← openGroup
    return .group index (← closed inner)

/-! ## Atoms, repetitions and sequences -/

/-- Reads one atom; nothing if a repetition sign comes first. -/
def atom (group : Parser Expr) : Parser Expr := do
  let r ← get
  match r.rest with
  | [] => return .empty
  | '.' :: rest => do
    continueAt rest
    return .any r.flags.dotAll
  | '^' :: rest => do
    continueAt rest
    return .assert (if r.flags.multiLine then .lineStart else .textStart)
  | '$' :: rest => do
    continueAt rest
    return .assert (if r.flags.multiLine then .lineEnd else .textEnd)
  | '(' :: rest => do
    continueAt rest
    group
  | '\\' :: rest => do
    continueAt rest
    escape
  | '[' :: rest => do
    continueAt rest
    bracket
  | c :: rest => do
    if c = '+' || c = '*' || c = '?' then return .empty
    continueAt rest
    return .char c r.flags.ignoreCase

/-- Bounds of a repetition. -/
structure Bounds where
  lo : Nat
  hi : Option Nat

/-- Reads the inside of braces as bounds: `n`, `n,`, `,m` or `n,m`. -/
def bounds? (verbose : Bool) (cs : List Char) : Option (Bounds × List Char) := do
  let gap (cs : List Char) : Option (List Char) := (skipped verbose .space cs).toOption
  let cs ← gap cs
  let (lo, cs) ← match cs with
    | ',' :: _ => some (0, cs)
    | _ => decimal? cs
  match ← gap cs with
  | '\x7d' :: rest => some (⟨lo, some lo⟩, rest)
  | ',' :: rest =>
    let rest ← gap rest
    let (hi, rest) := match decimal? rest with
      | some (hi, rest) => (some hi, rest)
      | none => (none, rest)
    match ← gap rest with
    | '\x7d' :: rest => some (⟨lo, hi⟩, rest)
    | _ => none
  | _ => none

/-- Reads a repetition sign, if there is one. -/
def repetition? : Parser (Option Bounds) := do
  let r ← get
  match r.rest with
  | '?' :: rest => do
    continueAt rest
    return some ⟨0, some 1⟩
  | '*' :: rest => do
    continueAt rest
    return some ⟨0, none⟩
  | '+' :: rest => do
    continueAt rest
    return some ⟨1, none⟩
  | '\x7b' :: rest =>
    match bounds? r.flags.verbose rest with
    | some (b, rest) => do
      continueAt rest
      return some b
    | none => return none
  | _ => return none

/-- Whether an expression can be repeated: it must not be a bare condition. -/
def isRepeatable : Expr → Bool
  | .empty | .assert _ | .look .. => false
  | _ => true

/-- The largest bound a repetition may have. -/
def maxBound : Nat := 4294967295

/-- Whether bounds are in order and in range. -/
def Bounds.isValid (b : Bounds) : Bool :=
  b.lo ≤ maxBound && (b.hi.all fun hi => b.lo ≤ hi && hi ≤ maxBound)

/-- Takes a character off the front, if it comes next. -/
def accept (c : Char) : Parser Bool := do
  match ← remaining with
  | d :: rest =>
    if c = d then
      continueAt rest
      return true
    else return false
  | [] => return false

/-- Reads an atom and the repetition after it, possibly lazy or possessive. -/
def piece (group : Parser Expr) : Parser Expr := do
  let e ← atom group
  skip
  match ← repetition? with
  | none => return e
  | some b =>
    if !isRepeatable e then throw .nothingToRepeat
    if !b.isValid then throw .reversedBounds
    skip
    let lazy ← accept '?'
    let greedy := lazy == (← get).flags.swapGreed
    let possessive ← accept '+'
    let repeated := .rep e b.lo b.hi greedy
    return if possessive then .atomic repeated else repeated

/-- Reads pieces up to `|`, `)` or the end of the pattern. -/
def pieces (group : Parser Expr) : (rounds : Nat) → Parser (List Expr)
  | 0 => return []
  | rounds + 1 => do
    skip
    match ← remaining with
    | [] | '|' :: _ | ')' :: _ => return []
    | _ => do
      let e ← piece group
      let es ← pieces group rounds
      return if e = .empty then es else e :: es

/-- Reads a sequence of pieces. -/
def sequence (group : Parser Expr) : Parser Expr := do
  return .ofSequence (← pieces group ((← remaining).length + 1))

/-- Reads the alternatives after the first. -/
def alternatives (group : Parser Expr) : (rounds : Nat) → Parser (List Expr)
  | 0 => return []
  | rounds + 1 => do
    if ← accept '|' then
      let e ← sequence group
      let es ← alternatives group rounds
      return e :: es
    else return []

/-- Reads alternatives separated by `|`. A pattern without any must not mix named groups with
numbered references. -/
def alternation (group : Parser Expr) : Parser Expr := do
  let e ← sequence group
  let es ← alternatives group ((← remaining).length + 1)
  let r ← get
  if es.isEmpty && r.numbered && !r.names.isEmpty then throw .mixedReferences
  return .ofAlternatives e es

/-- Reads an expression in which groups nest less than `depth` deep. -/
def expression : (depth : Nat) → Parser Expr
  | 0 => throw .tooDeeplyNested
  | depth + 1 =>
    alternation (if depth = 0 then throw .tooDeeplyNested else group (expression depth))

/-- Groups nest less deep than this. -/
def maxDepth : Nat := 64

/-- The expression a pattern denotes and the number of its groups. Groups referred to must
exist. -/
def parse (pattern : String) : Except SyntaxError (Expr × Nat) := do
  let (e, r) ← (expression maxDepth).run { rest := pattern.toList }
  if !r.rest.isEmpty then throw .unopenedGroup
  if e.references.all fun index => 1 ≤ index && index ≤ r.groups then return (e, r.groups)
  else throw .unknownGroup

end ModeStack.Regex
