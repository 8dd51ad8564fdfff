import ModeStack.Grammar.Error
import ModeStack.Grammar.Mode
import ModeStack.Text.Properties

/-!
# Expanding definitions into modes

Starting from the root, every definition that can be reached becomes one or more compiled
modes: one for each of its variants, and, if it ends with its parent, one for each list of
terminators it inherits. A mode's terminators are its own closing pattern and, if it ends with
its parent, those of the parent, each once. Modes are staged in the order in which they are
reached and found again by their `Key`, so references in a circle meet a mode already staged.

`expand` stages all modes, `clausesOf` lists the rules of each, and `finish` compiles them.
-/

namespace ModeStack.Grammar

open ModeStack.Regex (SyntaxError)
open ModeStack.Rule (Part Clause)
open ModeStack.Text (isBlank)

/-! ## Staged modes -/

/-- The opening pattern of a mode that declares none. -/
def implicitOpening : String := "\\B|\\b"

/-- The closing pattern of a mode that declares none and does not end with its parent. -/
def implicitClosing : String := "\\B|\\b"

/-- The pattern of words where none is declared. -/
def defaultWordPattern : String := "\\w+"

/-- What tells staged modes apart: the definition, the variant, and the terminators if the mode
ends with its parent. -/
structure Key where
  source : ModeId
  variant : Option Nat
  terminators : List String
  deriving DecidableEq, Repr

/-- A mode whose own patterns are compiled but whose children are not yet known. -/
structure Staged where
  source : ModeId
  /-- The definition, with the variant merged in. -/
  definition : Definition
  /-- The opening pattern; the root has none. -/
  opening : Option Part
  guard : Guard
  closing : Option Pattern
  terminators : List Part
  /-- The terminators of the mode from which this one was first reached. -/
  parentTerminators : List Part

/-- The modes staged so far, and where each key is found. -/
structure Stage where
  staged : Array Staged := #[]
  index : List (Key × Nat) := []

/-- The children of a staged mode and the mode it starts, by index. -/
structure Links where
  children : List Nat
  starts : Option Nat

/-- What is compiled: definitions under a name. -/
structure Source where
  name : String
  definitions : Array Definition
  ignoreCase : Bool

namespace Source

/-- Compiles a pattern of a mode. -/
def pattern (src : Source) (mode : ModeId) (role : Role) (source : String) :
    Except Error Pattern :=
  (Pattern.compile src.ignoreCase source).mapError (.invalidPattern src.name mode role source)

/-- Checks that the root is there and ends with the text only, and that every reference is to a
definition. -/
def validate (src : Source) (root : ModeId) : Except Error Unit := do
  match src.definitions[root]? with
  | none => throw (.missingRoot src.name)
  | some d =>
    if d.closing.isSome || !d.variants.isEmpty || d.flags.endsWithParent then
      throw (.invalidRoot src.name)
  let dangling (d : Definition) : Option ModeId :=
    d.references.find? (src.definitions.size ≤ ·)
  let faults := src.definitions.toList.zipIdx.filterMap fun (d, mode) =>
    (dangling d).map fun missing => (mode, missing)
  match faults with
  | (mode, missing) :: _ => throw (.unknownMode src.name mode missing)
  | [] => return ()

/-- The definition at a place, with a variant merged in. -/
def resolve (src : Source) (id : ModeId) (variant : Option Nat) : Definition :=
  let base := src.definitions.getD id {}
  match variant.bind (base.variants[·]?) with
  | some v => base.merged v
  | none => base

/-! ## Staging -/

/-- The closing pattern of a mode, declared or implicit. -/
def closingOf (d : Definition) : Option String :=
  match d.closing with
  | some source => some source
  | none => if d.flags.endsWithParent then none else some implicitClosing

/-- The terminators a mode inherits. -/
def inherited (d : Definition) (parent : List Part) : List Part :=
  if d.flags.endsWithParent then
    parent.filter fun part => closingOf d ≠ some part.source
  else []

/-- The key of a mode reached from a parent with the given terminators. -/
def keyOf (id : ModeId) (variant : Option Nat) (d : Definition) (parent : List Part) : Key where
  source := id
  variant := variant
  terminators :=
    if d.flags.endsWithParent then
      (closingOf d).toList ++ (inherited d parent).map (·.source)
    else []

/-- The words of a text, as separated by white space. -/
def wordsOf (s : String) : List String :=
  let close (word : List Char) (words : List String) : List String :=
    if word.isEmpty then words else String.ofList word :: words
  let (word, words) := s.toList.foldr
    (fun c (word, words) => if isBlank c then ([], close word words) else (c :: word, words))
    (([], []) : List Char × List String)
  close word words

/-- A word as a pattern that matches it and nothing else. -/
def literalPattern (word : String) : String :=
  let special := "\\.+*?()|[]\x7b\x7d^$#".toList
  String.ofList (word.toList.flatMap fun c => if special.contains c then ['\\', c] else [c])

/-- The pattern of opening words: any of them, as a whole word, not before a dot. -/
def openingWordsPattern (words : List String) : String :=
  "\\b(?:" ++ String.intercalate "|" (words.map literalPattern) ++ ")(?!\\.)(?=\\b|\\s)"

/-- The opening words as a table, for a mode without keywords of its own. -/
def openingWordsTable (words : List String) : Except Error Keyword.Table :=
  (({} : Keyword.Draft).add "keyword" words).finish.mapError .invalidKeyword

/-- The opening pattern of a mode and its guard, and the definition with what opening words
imply: keywords, and no relevance. -/
def openingOf (d : Definition) : Except Error (String × Guard × Definition) := do
  match d.openingWords with
  | none => return (d.opening.getD implicitOpening, .always, d)
  | some text =>
    let words := wordsOf text
    let keywords ← match d.keywords with
      | some table => pure table
      | none => openingWordsTable words
    return (openingWordsPattern words, .notAfterDot,
      { d with keywords := some keywords, relevance := d.relevance.or (some 0) })

/-- Stages the root, whose opening and closing are those of the text. -/
def stageRoot (src : Source) (root : ModeId) : Stage where
  staged := #[{
    source := root
    definition := src.definitions.getD root {}
    opening := none
    guard := .always
    closing := none
    terminators := []
    parentTerminators := [] }]

/-- Compiles what a mode declares itself. -/
def compileStaged (src : Source) (id : ModeId) (d : Definition) (parent : List Part) :
    Except Error Staged := do
  let (openingSource, guard, resolved) ← openingOf d
  let opening ← src.pattern id .opening openingSource
  let closing ← match closingOf d with
    | some source => some <$> src.pattern id .closing source
    | none => pure none
  let own := closing.toList.map fun p => { source := p.source, groups := p.groups : Part }
  return {
    source := id
    definition := resolved
    opening := some { source := openingSource, groups := opening.groups }
    guard := guard
    closing := closing
    terminators := own ++ inherited d parent
    parentTerminators := parent }

/-- Finds a mode reached from a parent with the given terminators, or stages it. -/
def stage (src : Source) (st : Stage) (id : ModeId) (variant : Option Nat) (parent : List Part) :
    Except Error (Nat × Stage) := do
  let d := src.resolve id variant
  let key := keyOf id variant d parent
  match st.index.lookup key with
  | some index => return (index, st)
  | none =>
    let mode ← src.compileStaged id d parent
    let index := st.staged.size
    return (index, { staged := st.staged.push mode, index := (key, index) :: st.index })

/-! ## Linking -/

/-- The definitions that a child stands for, one for each variant. -/
def variantsOf (src : Source) (id : ModeId) : List (Option Nat) :=
  match (src.definitions.getD id {}).variants.length with
  | 0 => [none]
  | n => (List.range n).map some

/-- Stages modes one after another. -/
def stageEach (src : Source) (parent : List Part) :
    Stage → List (ModeId × Option Nat) → Except Error (List Nat × Stage)
  | st, [] => return ([], st)
  | st, (id, variant) :: rest => do
    let (index, st) ← src.stage st id variant parent
    let (indices, st) ← stageEach src parent st rest
    return (index :: indices, st)

/-- Stages the children of the mode at `self`. -/
def stageChildren (src : Source) (self : Nat) (parent : List Part) :
    Stage → List Child → Except Error (List Nat × Stage)
  | st, [] => return ([], st)
  | st, .self :: rest => do
    let (indices, st) ← stageChildren src self parent st rest
    return (self :: indices, st)
  | st, .mode id :: rest => do
    let (expanded, st) ← src.stageEach parent st ((src.variantsOf id).map (id, ·))
    let (indices, st) ← stageChildren src self parent st rest
    return (expanded ++ indices, st)

/-- Stages the children of a mode and the mode it starts. The latter ends with the parent of the
mode, if at all. -/
def link (src : Source) (st : Stage) (self : Nat) (mode : Staged) :
    Except Error (Links × Stage) := do
  let (children, st) ← src.stageChildren self mode.terminators st mode.definition.contains
  match mode.definition.starts with
  | none => return (⟨children, none⟩, st)
  | some id =>
    let (index, st) ← src.stage st id none mode.parentTerminators
    return (⟨children, some index⟩, st)

/-- Links the staged modes from place `done` on until all are linked. -/
def linkFrom (src : Source) : (rounds done : Nat) → Stage → Except Error (List Links × Stage)
  | 0, _, st => return ([], st)
  | rounds + 1, done, st =>
    match st.staged[done]? with
    | none => return ([], st)
    | some mode => do
      let (links, st) ← src.link st done mode
      let (rest, st) ← linkFrom src rounds (done + 1) st
      return (links :: rest, st)

/-- The number of modes that definitions stand for, with each variant and without. -/
def formCount : List Definition → Nat
  | [] => 0
  | d :: ds => d.variants.length + 1 + formCount ds

/-- More than the number of keys there can be: a definition with a variant, and a list of
terminators in which none occurs twice. -/
def maxModes (src : Source) : Nat :=
  let forms := formCount src.definitions.toList
  (forms + 1) * Nat.pow (forms + 2) (forms + 1) + 1

/-- Stages and links all modes that can be reached from the root. -/
def expand (src : Source) (root : ModeId) : Except Error (List Links × Stage) :=
  src.linkFrom src.maxModes 0 (src.stageRoot root)

/-! ## Rules -/

/-- The rules of a mode: the illegal pattern, the terminators, and the children. -/
def clausesOf (src : Source) (st : Stage) (mode : Staged) (children : List Nat) :
    Except Error (List Clause) := do
  let illegal ← match mode.definition.illegal with
    | none => pure []
    | some source => do
      let p ← src.pattern mode.source .illegal source
      pure [⟨.illegal, ⟨source, p.groups⟩⟩]
  let ending : List Clause :=
    if mode.terminators.isEmpty then []
    else
      [⟨.ending, ⟨(Rule.alternation false mode.terminators).1,
        Rule.groupCount mode.terminators⟩⟩]
  let openings : List Clause := children.filterMap fun index =>
    (st.staged[index]?.bind (·.opening)).map fun part => ⟨.opening index, part⟩
  return illegal ++ ending ++ openings

/-- Compiles a staged mode. -/
def finish (src : Source) (mode : Staged) (links : Links) (clauses : List Clause) :
    Except Error Mode := do
  let d := mode.definition
  let wordPattern ← src.pattern mode.source .word (d.wordPattern.getD defaultWordPattern)
  let rules ← (Rule.RuleSet.build src.ignoreCase clauses).mapError
    (.notCombinable src.name mode.source)
  return {
    source := mode.source
    scope := d.scope
    closing := mode.closing
    guard := mode.guard
    keywords := d.keywords.map (·.forGrammar src.ignoreCase)
    wordPattern := wordPattern
    relevance := d.relevance.getD 1
    flags := d.flags
    starts := links.starts
    rules := rules }

/-! ## Compilation -/

/-- The compiled modes, the root first, and the illegal pattern of the root. -/
structure Compiled where
  modes : Array Mode
  illegal : Option Pattern

/-- Compiles every mode that can be reached from the root. -/
def compile (src : Source) (root : ModeId) : Except Error Compiled := do
  src.validate root
  let (links, st) ← src.expand root
  let rootIllegal := (src.definitions.getD root {}).illegal
  let illegal ← match rootIllegal with
    | some source => some <$> src.pattern root .illegal source
    | none => pure none
  let linked := st.staged.toList.zip links
  let clauses ← linked.mapM fun (mode, links) => src.clausesOf st mode links.children
  let modes ← (linked.zip clauses).mapM fun ((mode, links), clauses) =>
    src.finish mode links clauses
  return { modes := modes.toArray, illegal := illegal }

end Source

end ModeStack.Grammar
