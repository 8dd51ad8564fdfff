import ModeStack.Language.Python
import ModeStack.Scan.Stream

/-!
# Languages by name, and detection

A catalog holds grammars in the order in which they were registered. They are found by name or
alias, the earliest first. `Catalog.detect` scans a text with every candidate and ranks the
candidates by score, those registered earlier first among equals.
-/

namespace ModeStack

/-- The place of a language in its catalog. -/
abbrev LanguageId := Nat

namespace LanguageId

/-- The number that never stands for a language. -/
def invalid : LanguageId := 4294967295

def isValid (id : LanguageId) : Bool := id ≠ invalid

/-- A language as shown in messages. -/
def display (id : LanguageId) : String := s!"#{id}"

end LanguageId

/-- Registered grammars. -/
structure Catalog where
  grammars : Array Grammar := #[]

namespace Catalog

/-- The reasons for which a language is not found. -/
inductive Error where
  | unknownLanguage (name : String)
  deriving DecidableEq, Repr

def Error.message : Error → String
  | unknownLanguage name => "unknown language: " ++ name

/-- Registers a grammar and gives its place. -/
def register (c : Catalog) (g : Grammar) : LanguageId × Catalog :=
  (c.grammars.size, { grammars := c.grammars.push g })

/-- The catalog of the languages that come with the library. -/
def builtin : Except Grammar.Error Catalog := do
  let python ← Language.Python.grammar
  return (({} : Catalog).register python).2

/-- The number of languages. -/
def size (c : Catalog) : Nat := c.grammars.size

/-- The grammar at a place. -/
def get? (c : Catalog) (id : LanguageId) : Option Grammar := c.grammars[id]?

/-- The first language that answers to a name. -/
def find? (c : Catalog) (name : String) : Option LanguageId :=
  c.grammars.findIdx? (·.answersTo name)

/-- The language that answers to a name and its grammar. -/
def lookup (c : Catalog) (name : String) : Except Error (LanguageId × Grammar) :=
  match c.find? name with
  | none => .error (.unknownLanguage name)
  | some id =>
    match c.get? id with
    | none => .error (.unknownLanguage name)
    | some g => .ok (id, g)

/-- All languages, in order of registration. -/
def languages (c : Catalog) : List (LanguageId × Grammar) :=
  c.grammars.toList.zipIdx.map fun (g, id) => (id, g)

/-! ## Highlighting -/

/-- The tokens of a text in a language. -/
structure Highlighted where
  language : LanguageId
  tokens : List Scan.Token
  report : Scan.Report

/-- Scans a text with the grammar that answers to a name. -/
def highlight (c : Catalog) (name : String) (t : Text) (ignoreIllegals : Bool) :
    Except Error Highlighted := do
  let (id, g) ← c.lookup name
  let (tokens, report) := Scan.run { grammar := g, text := t, ignoreIllegals := ignoreIllegals }
  return { language := id, tokens := tokens, report := report }

/-! ## Detection -/

/-- Which languages are considered, and how sure detection must be. -/
structure DetectOptions where
  /-- The names of the languages to choose from; if empty, all that take part in detection. -/
  languages : List String := []
  /-- A best score below this is no detection. -/
  minRelevance : Nat := 0
  deriving DecidableEq, Repr

/-- The language that fits best. -/
structure Detection where
  language : LanguageId
  relevance : Nat
  /-- The runner-up and its score, if there was another candidate. -/
  secondBest : Option (LanguageId × Nat)
  deriving DecidableEq, Repr

/-- Whether a language is a candidate. -/
def isCandidate (c : Catalog) (options : DetectOptions) (id : LanguageId) : Bool :=
  if options.languages.isEmpty then (c.get? id).any (·.autoDetect)
  else options.languages.any fun name => c.find? name = some id

/-- The candidates, in order of registration. -/
def candidates (c : Catalog) (options : DetectOptions) : List LanguageId :=
  (List.range c.size).filter (c.isCandidate options)

/-- The score of a language on a text. -/
def scoreOf (c : Catalog) (t : Text) (id : LanguageId) : Nat :=
  match c.get? id with
  | some g => (g.relevance t).score
  | none => 0

/-- Whether one scored language ranks before another, or beside it. -/
def ranksBefore (a b : LanguageId × Nat) : Bool :=
  b.2 < a.2 || (a.2 = b.2 && a.1 ≤ b.1)

/-- The candidates with their scores, the best first. -/
def ranking (c : Catalog) (t : Text) (options : DetectOptions) : List (LanguageId × Nat) :=
  ((c.candidates options).map fun id => (id, c.scoreOf t id)).mergeSort ranksBefore

/-- The language that fits a text best, if any does well enough. -/
def detect (c : Catalog) (t : Text) (options : DetectOptions) : Option Detection :=
  match c.ranking t options with
  | [] => none
  | (language, relevance) :: others =>
    if relevance = 0 || relevance < options.minRelevance then none
    else some ⟨language, relevance, others.head?⟩

end Catalog

end ModeStack
