/-!
# Sets of code points

A property of characters is kept as a sorted list of code point ranges, written as text in the
manner of the Unicode data files (`30-39 5f`, lower-case hexadecimal), and looked up by binary
search in `lastAtMost`.
-/

namespace ModeStack.Text

/-! ## Hexadecimal digits -/

/-- The digits used in the tables: `0` to `9` and lower-case `a` to `f`. -/
def isTableDigit (c : Char) : Bool :=
  ('0' ≤ c && c ≤ '9') || ('a' ≤ c && c ≤ 'f')

/-- Hexadecimal digits of either case. -/
def isHexDigit (c : Char) : Bool :=
  isTableDigit c || ('A' ≤ c && c ≤ 'F')

/-- The value of a hexadecimal digit, of either case; other characters count as 0. -/
def hexDigitValue (c : Char) : Nat :=
  if '0' ≤ c && c ≤ '9' then c.toNat - '0'.toNat
  else if 'a' ≤ c && c ≤ 'f' then c.toNat - 'a'.toNat + 10
  else if 'A' ≤ c && c ≤ 'F' then c.toNat - 'A'.toNat + 10
  else 0

/-- The number written by a sequence of hexadecimal digits. -/
def hexValue (digits : List Char) : Nat :=
  digits.foldl (fun n c => 16 * n + hexDigitValue c) 0

/-! ## Entries of a table -/

/-- The entries of a line, as separated by single spaces. -/
def entriesOf : List Char → List (List Char)
  | [] => [[]]
  | ' ' :: cs => [] :: entriesOf cs
  | c :: cs =>
    match entriesOf cs with
    | entry :: entries => (c :: entry) :: entries
    | [] => [[c]]

/-- The entries of several lines. -/
def entriesOfLines (lines : List String) : List (List Char) :=
  lines.flatMap fun line => entriesOf line.toList

/-! ## Binary search -/

/-- Searches `entries[lo...hi]` for the last key at most `x`. The keys before `lo` are at most
`x` and those from `hi` on exceed it; each round halves the gap. -/
def lastAtMostWithin {α : Type} (entries : Array (Nat × α)) (x : Nat) :
    (rounds lo hi : Nat) → Option (Nat × α)
  | 0, lo, _ => if lo = 0 then none else entries[lo - 1]?
  | rounds + 1, lo, hi =>
    if hi ≤ lo then
      if lo = 0 then none else entries[lo - 1]?
    else
      let mid := (lo + hi) / 2
      match entries[mid]? with
      | none => none
      | some (key, _) =>
        if key ≤ x then lastAtMostWithin entries x rounds (mid + 1) hi
        else lastAtMostWithin entries x rounds lo mid

/-- The last entry, in an array sorted by key, whose key is at most `x`. -/
def lastAtMost {α : Type} (entries : Array (Nat × α)) (x : Nat) : Option (Nat × α) :=
  lastAtMostWithin entries x (entries.size + 1) 0 entries.size

/-! ## Sets -/

/-- A set of code points: closed ranges, as (first, last), sorted and disjoint. -/
structure CodePoints where
  ranges : Array (Nat × Nat)

namespace CodePoints

/-- Reads lines of ranges such as `30-39 5f`. -/
def ofLines (lines : List String) : CodePoints where
  ranges := ((entriesOfLines lines).map fun entry =>
    let first := entry.takeWhile isTableDigit
    let last := (entry.dropWhile isTableDigit).drop 1
    (hexValue first, if last.isEmpty then hexValue first else hexValue last)).toArray

/-- Whether a character belongs to the set. -/
def contains (s : CodePoints) (c : Char) : Bool :=
  match lastAtMost s.ranges c.toNat with
  | some (_, last) => c.toNat ≤ last
  | none => false

end CodePoints

end ModeStack.Text
