import ModeStack.Text.Lowercase

/-!
# Keyword tables

A keyword table assigns words to classes, such as `keyword` or `literal`, with the score that
seeing the word is worth. Tables are written as entries `word` or `word|weight` under class
names; a later entry for a word replaces an earlier one. A table that ignores case compares
words in lower case.
-/

namespace ModeStack.Keyword

open ModeStack.Text

/-! ## Entries -/

/-- The largest weight of an entry, of 32 bits. -/
def maxWeight : Nat := 4294967295

/-- Reads a weight: decimal digits with at most one plus sign before them. -/
def weight? (cs : List Char) : Option Nat :=
  let digits := match cs with
    | '+' :: rest => rest
    | _ => cs
  let n := digits.foldl (fun n c => 10 * n + (c.toNat - '0'.toNat)) 0
  if digits.isEmpty || !digits.all isAsciiDigit || maxWeight < n then none else some n

/-- Words that are common to many languages and say little about any of them. -/
def commonWords : List String :=
  ["of", "and", "for", "in", "not", "or", "if", "then", "parent", "list", "value"]

/-- The weight of an entry that gives none. -/
def defaultWeight (word : String) : Nat :=
  if commonWords.contains (lowercase word) then 0 else 1

/-- Reads an entry as a word and its weight. -/
def readEntry (entry : String) : Option (String × Nat) :=
  let cs := entry.toList
  match cs.dropWhile (· ≠ '|') with
  | _ :: weight => (weight? weight).map fun n => (String.ofList (cs.takeWhile (· ≠ '|')), n)
  | [] => some (entry, defaultWeight entry)

/-! ## Tables -/

/-- What is known of a word: its class, by number, and its weight. Classes are numbered with
sixteen bits. -/
structure Entry where
  cls : UInt16
  weight : Nat
  deriving DecidableEq, Repr

/-- The result of looking up a word. -/
structure Classification where
  cls : String
  weight : Nat
  deriving DecidableEq, Repr

/-- Hidden classes, whose names start with an underscore, are scored but shown as plain text. -/
def Classification.isHidden (c : Classification) : Bool :=
  c.cls.toList.head? = some '_'

/-- Words with their entries, each word once. -/
abbrev Entries := List (String × Entry)

/-- Sets the entry of a word, replacing the one it had. -/
def Entries.insert : Entries → String → Entry → Entries
  | [], word, entry => [(word, entry)]
  | (w, e) :: rest, word, entry =>
    if w = word then (word, entry) :: rest else (w, e) :: Entries.insert rest word entry

/-- A keyword table. -/
structure Table where
  entries : Entries := []
  /-- The names of the classes, by number. -/
  classes : Array String := #[]
  ignoreCase : Bool := false
  deriving DecidableEq, Repr

namespace Table

/-- The form of a word that the table compares. -/
def key (table : Table) (word : String) : String :=
  if table.ignoreCase then lowercase word else word

/-- Looks up a word. -/
def classify (table : Table) (word : String) : Option Classification :=
  (table.entries.lookup (table.key word)).map fun entry =>
    ⟨table.classes.getD entry.cls.toNat "", entry.weight⟩

/-- The number of words. -/
def size (table : Table) : Nat := table.entries.length

/-- The same words, compared in lower case. -/
def folded (table : Table) : Table where
  entries := table.entries.foldl (fun es (word, entry) => es.insert (lowercase word) entry) []
  classes := table.classes
  ignoreCase := true

/-- The table as a grammar uses it: folded, if the grammar ignores case and the table does
not. -/
def forGrammar (table : Table) (ignoreCase : Bool) : Table :=
  if ignoreCase && !table.ignoreCase then table.folded else table

end Table

/-! ## Writing tables -/

/-- A table being written. Words are folded when it is finished, so it does not matter when it
is decided whether case counts. -/
structure Draft where
  words : Array (String × Entry) := #[]
  classes : Array String := #[]
  ignoreCase : Bool := false
  /-- The first entry that could not be read. -/
  fault : Option String := none

namespace Draft

/-- The number of a class and the classes with it among them. -/
def numberOf (classes : Array String) (cls : String) : Nat × Array String :=
  match classes.findIdx? (· = cls) with
  | some index => (index, classes)
  | none => (classes.size, classes.push cls)

/-- Adds one entry to a numbered class. Entries without a word are left out. -/
def addEntry (draft : Draft) (cls : UInt16) (entry : String) : Draft :=
  match readEntry entry with
  | none => { draft with fault := draft.fault.or (some entry) }
  | some (word, weight) =>
    if word.isEmpty then draft
    else { draft with words := draft.words.push (word, ⟨cls, weight⟩) }

/-- Adds entries to a class. -/
def add (draft : Draft) (cls : String) (entries : List String) : Draft :=
  let (number, classes) := numberOf draft.classes cls
  entries.foldl (·.addEntry number.toUInt16 ·) { draft with classes := classes }

/-- Decides whether case counts. -/
def ignoringCase (draft : Draft) (yes : Bool) : Draft :=
  { draft with ignoreCase := yes }

/-- Finishes a table, or gives the first entry that could not be read. -/
def finish (draft : Draft) : Except String Table :=
  match draft.fault with
  | some entry => .error entry
  | none =>
    let form (word : String) := if draft.ignoreCase then lowercase word else word
    .ok {
      entries := draft.words.foldl (fun es (word, entry) => es.insert (form word) entry) []
      classes := draft.classes
      ignoreCase := draft.ignoreCase }

end Draft

end ModeStack.Keyword
