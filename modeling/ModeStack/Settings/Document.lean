import ModeStack.Text.Properties

/-!
# Settings documents

Settings are written in TOML: lines `key = value` under table headers, with dotted and quoted
keys, strings in four forms, integers, booleans, arrays and inline tables. `Document.read` gives
the tree of tables. The kinds of value that no setting can hold, floating-point numbers, dates
and arrays of tables, are refused with everything else that is not well-formed.
-/

namespace ModeStack.Document

open ModeStack.Text

/-! ## Values -/

/-- How a table came about, which decides how it may be extended. -/
inductive Origin where
  /-- Written out as a value; complete. -/
  | inline
  /-- By a dotted key; extended by further ones. -/
  | dotted
  /-- By the header of a table inside it. -/
  | implied
  /-- By its own header. -/
  | header
  deriving DecidableEq, Repr

/-- A value. Tables list their keys in the order of the document. -/
inductive Value where
  | string (s : String)
  | integer (n : Int)
  | boolean (b : Bool)
  | array (items : List Value)
  | table (origin : Origin) (entries : List (String × Value))

abbrev Entries := List (String × Value)

namespace Entries

/-- Replaces the value of a key. -/
def replace (es : Entries) (key : String) (v : Value) : Entries :=
  es.map fun (k, old) => if k = key then (k, v) else (k, old)

/-- Sets the value at a dotted key, which must be new. -/
def insert : (path : List String) → Value → Entries → Option Entries
  | [], _, _ => none
  | [key], v, es => if (es.lookup key).isSome then none else some (es ++ [(key, v)])
  | key :: path, v, es =>
    match es.lookup key with
    | none => do return es ++ [(key, .table .dotted (← insert path v []))]
    | some (.table .dotted inner) => do
      return es.replace key (.table .dotted (← insert path v inner))
    | some _ => none

/-- Opens the table of a header. -/
def openTable : (path : List String) → Entries → Option Entries
  | [], _ => none
  | [key], es =>
    match es.lookup key with
    | none => some (es ++ [(key, .table .header [])])
    | some (.table .implied inner) => some (es.replace key (.table .header inner))
    | some _ => none
  | key :: path, es =>
    match es.lookup key with
    | none => do return es ++ [(key, .table .implied (← openTable path []))]
    | some (.table .inline _) => none
    | some (.table origin inner) => do
      return es.replace key (.table origin (← openTable path inner))
    | some _ => none

/-- Changes the entries of the table at a path. -/
def update (f : Entries → Option Entries) : (path : List String) → Entries → Option Entries
  | [], es => f es
  | key :: path, es =>
    match es.lookup key with
    | some (.table origin inner) => do
      return es.replace key (.table origin (← update f path inner))
    | _ => none

end Entries

/-! ## Characters -/

/-- Readers take characters off the front and may refuse the document. -/
abbrev Reader := StateT (List Char) Option

def refuse {α : Type} : Reader α := fun _ => none

/-- Characters that stand nowhere in a document: controls other than tab and line ends. -/
def isForbidden (c : Char) : Bool :=
  (c.toNat < 32 && c ≠ '\t') || c.toNat = 127

/-- Takes a character off the front, if it comes next. -/
def accept (c : Char) : Reader Bool := do
  match ← get with
  | d :: rest =>
    if c = d then
      set rest
      return true
    else return false
  | [] => return false

/-- Takes the given character off the front. -/
def expect (c : Char) : Reader Unit := do
  if !(← accept c) then refuse

/-- Skips spaces and tabs. -/
def skipBlanks : Reader Unit :=
  modify fun cs => cs.dropWhile fun c => c = ' ' || c = '\t'

/-- Takes a line end off the front, if one comes next. -/
def acceptNewline : Reader Bool := do
  match ← get with
  | '\n' :: rest | '\r' :: '\n' :: rest =>
    set rest
    return true
  | _ => return false

/-- Skips a comment, if one comes next, up to the line end. -/
def skipComment : Reader Unit := do
  if ← accept '#' then
    modify fun cs => cs.dropWhile fun c => !isForbidden c

/-- Skips blanks, comments and line ends. -/
def skipLines : (rounds : Nat) → Reader Unit
  | 0 => return ()
  | rounds + 1 => do
    skipBlanks
    skipComment
    if ← acceptNewline then skipLines rounds

/-- Skips all blanks, comments and line ends that come next. -/
def skipSpace : Reader Unit := do
  skipLines ((← get).length + 1)

/-! ## Strings -/

/-- Reads exactly `count` hexadecimal digits as a character. -/
def codePoint (count : Nat) : Reader Char := do
  let cs ← get
  let digits := cs.take count
  let n := hexValue digits
  if digits.length = count && digits.all isHexDigit && n.isValidChar then
    set (cs.drop count)
    return Char.ofNat n
  else refuse

/-- Reads an escape after the backslash. -/
def escape : Reader Char := do
  match ← get with
  | [] => refuse
  | c :: rest =>
    set rest
    match c with
    | 'b' => return '\x08'
    | 't' => return '\t'
    | 'n' => return '\n'
    | 'f' => return '\x0c'
    | 'r' => return '\r'
    | 'e' => return '\x1b'
    | '"' => return '"'
    | '\\' => return '\\'
    | 'x' => codePoint 2
    | 'u' => codePoint 4
    | 'U' => codePoint 8
    | _ => refuse

/-- Reads a string on one line up to its closing quote. -/
def lineString (quote : Char) (escapes : Bool) : (rounds : Nat) → Reader (List Char)
  | 0 => refuse
  | rounds + 1 => do
    match ← get with
    | [] => refuse
    | c :: rest =>
      set rest
      if c = quote then return []
      else if escapes && c = '\\' then
        let c ← escape
        return c :: (← lineString quote escapes rounds)
      else if isForbidden c then refuse
      else return c :: (← lineString quote escapes rounds)

/-- Skips blanks and line ends, at least one of the latter, after a backslash in a block. -/
def skipFolded : Reader Unit := do
  let cs ← get
  let isGap (c : Char) : Bool := c = ' ' || c = '\t' || c = '\n' || c = '\r'
  if (cs.takeWhile isGap).contains '\n' then set (cs.dropWhile isGap) else refuse

/-- Reads a string over several lines up to three closing quotes; one or two more before them
belong to the string. -/
def blockString (quote : Char) (escapes : Bool) : (rounds : Nat) → Reader (List Char)
  | 0 => refuse
  | rounds + 1 => do
    let cs ← get
    let quotes := cs.takeWhile (· = quote)
    if 5 < quotes.length then refuse
    else if 3 ≤ quotes.length then
      set (cs.dropWhile (· = quote))
      return quotes.drop 3
    else
      match cs with
      | [] => refuse
      | '\r' :: '\n' :: rest =>
        set rest
        return '\n' :: (← blockString quote escapes rounds)
      | c :: rest =>
        set rest
        if escapes && c = '\\' then
          match rest with
          | ' ' :: _ | '\t' :: _ | '\n' :: _ | '\r' :: _ =>
            skipFolded
            blockString quote escapes rounds
          | _ =>
            let c ← escape
            return c :: (← blockString quote escapes rounds)
        else if isForbidden c && c ≠ '\n' then refuse
        else return c :: (← blockString quote escapes rounds)

/-- Reads a string of either form after its first quote. -/
def string (quote : Char) : Reader String := do
  let escapes := quote = '"'
  let cs ← get
  match cs with
  | q :: r :: rest =>
    if q = quote && r = quote then
      set rest
      let _ ← acceptNewline
      return String.ofList (← blockString quote escapes (rest.length + 1))
    else return String.ofList (← lineString quote escapes (cs.length + 1))
  | _ => return String.ofList (← lineString quote escapes (cs.length + 1))

/-! ## Keys -/

def isBareKeyChar (c : Char) : Bool :=
  isAsciiLetter c || isAsciiDigit c || c = '_' || c = '-'

/-- Reads one part of a key. -/
def simpleKey : Reader String := do
  let cs ← get
  match cs with
  | '"' :: rest =>
    set rest
    return String.ofList (← lineString '"' true (rest.length + 1))
  | '\'' :: rest =>
    set rest
    return String.ofList (← lineString '\'' false (rest.length + 1))
  | _ =>
    let key := cs.takeWhile isBareKeyChar
    if key.isEmpty then refuse
    set (cs.dropWhile isBareKeyChar)
    return String.ofList key

/-- Reads the parts of a dotted key, with blanks around the dots. -/
def dottedKey : (rounds : Nat) → Reader (List String)
  | 0 => refuse
  | rounds + 1 => do
    skipBlanks
    let first ← simpleKey
    skipBlanks
    if ← accept '.' then return first :: (← dottedKey rounds) else return [first]

/-- Reads a key. -/
def key : Reader (List String) := do
  dottedKey ((← get).length + 1)

/-! ## Numbers -/

/-- The digits of a number in a base, with single underscores between them. -/
def digits? (base : Nat) (cs : List Char) : Option Nat :=
  let isDigit (c : Char) : Bool := isHexDigit c && hexDigitValue c < base
  let rec go (value : Nat) (afterDigit : Bool) : List Char → Option Nat
    | [] => if afterDigit then some value else none
    | c :: cs =>
      if isDigit c then go (base * value + hexDigitValue c) true cs
      else if c = '_' && afterDigit && !cs.isEmpty then go value false cs
      else none
  go 0 false cs

/-- The value of a decimal number without sign, which has no leading zeros. -/
def decimal? (cs : List Char) : Option Nat :=
  match cs with
  | '0' :: _ :: _ => none
  | _ => digits? 10 cs

/-- The value of an integer of 64 bits. -/
def integer? (cs : List Char) : Option Int := do
  let n : Int ← match cs with
    | '0' :: 'x' :: digits => (digits? 16 digits).map Int.ofNat
    | '0' :: 'o' :: digits => (digits? 8 digits).map Int.ofNat
    | '0' :: 'b' :: digits => (digits? 2 digits).map Int.ofNat
    | '+' :: digits => (decimal? digits).map Int.ofNat
    | '-' :: digits => (decimal? digits).map fun n => -Int.ofNat n
    | digits => (decimal? digits).map Int.ofNat
  if -9223372036854775808 ≤ n && n ≤ 9223372036854775807 then some n else none

/-- Reads a word that is a boolean or an integer. -/
def scalar : Reader Value := do
  let isWordChar (c : Char) : Bool := isBareKeyChar c || c = '+' || c = '.' || c = ':'
  let cs ← get
  let word := cs.takeWhile isWordChar
  set (cs.dropWhile isWordChar)
  if word = "true".toList then return .boolean true
  else if word = "false".toList then return .boolean false
  else
    match integer? word with
    | some n => return .integer n
    | none => refuse

/-! ## Arrays and tables -/

/-- Reads items separated by commas up to a closing character. -/
def items {α : Type} (item : Reader α) (close : Char) : (rounds : Nat) → Reader (List α)
  | 0 => refuse
  | rounds + 1 => do
    skipSpace
    if ← accept close then return []
    let first ← item
    skipSpace
    if ← accept ',' then return first :: (← items item close rounds)
    expect close
    return [first]

/-- Reads a key and its value. -/
def pair (value : Reader Value) : Reader (List String × Value) := do
  let path ← key
  expect '='
  skipBlanks
  return (path, ← value)

/-- Collects the pairs of an inline table. -/
def collect (pairs : List (List String × Value)) : Option Entries :=
  pairs.foldlM (fun es (path, v) => Entries.insert path v es) []

/-- Reads a value in which arrays and tables nest less than `depth` deep. -/
def value : (depth : Nat) → Reader Value
  | 0 => refuse
  | depth + 1 => do
    let cs ← get
    match cs with
    | '"' :: rest =>
      set rest
      return .string (← string '"')
    | '\'' :: rest =>
      set rest
      return .string (← string '\'')
    | '[' :: rest =>
      set rest
      return .array (← items (value depth) ']' (rest.length + 1))
    | '\x7b' :: rest =>
      set rest
      let pairs ← items (pair (value depth)) '\x7d' (rest.length + 1)
      match collect pairs with
      | some es => return .table .inline es
      | none => refuse
    | _ => scalar

/-! ## Documents -/

/-- Arrays and tables nest less deep than this. -/
def maxDepth : Nat := 80

/-- Reads what may follow on a line. -/
def endOfLine : Reader Unit := do
  skipBlanks
  skipComment
  if !(← acceptNewline) && !(← get).isEmpty then refuse

/-- Reads the lines of a document into `es`, below the table at `current`. -/
def lines : (rounds : Nat) → (current : List String) → Entries → Reader Entries
  | 0, _, es => return es
  | rounds + 1, current, es => do
    skipSpace
    match ← get with
    | [] => return es
    | '[' :: rest =>
      set rest
      let path ← key
      expect ']'
      endOfLine
      match es.openTable path with
      | some es => lines rounds path es
      | none => refuse
    | _ =>
      let (path, v) ← pair (value maxDepth)
      endOfLine
      match es.update (Entries.insert path v) current with
      | some es => lines rounds current es
      | none => refuse

/-- Reads a document, which may start with a byte-order mark. -/
def read (text : String) : Option Entries :=
  let cs := match text.toList with
    | '\ufeff' :: rest => rest
    | cs => cs
  match (lines (cs.length + 1) [] []).run cs with
  | some (es, []) => some es
  | _ => none

end ModeStack.Document
