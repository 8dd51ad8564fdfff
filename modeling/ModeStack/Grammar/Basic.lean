import ModeStack.Grammar.Expansion
import ModeStack.Text.Fold

/-!
# Grammars

A `Grammar.Draft` collects mode definitions; `Draft.build` compiles them into a `Grammar`, which
answers to its name and aliases and from which texts are scanned.
-/

namespace ModeStack

/-- A compiled grammar. The root is the mode at index 0. -/
structure Grammar where
  name : String
  aliases : List String
  ignoreCase : Bool
  /-- Whether detection takes the grammar into account. -/
  autoDetect : Bool
  /-- The illegal pattern of the root. -/
  illegal : Option Pattern
  modes : Array Grammar.Mode

namespace Grammar

/-- A grammar being written. -/
structure Draft where
  name : String
  aliases : List String := []
  ignoreCase : Bool := false
  autoDetect : Bool := true
  definitions : Array Definition := #[]
  root : Option ModeId := none

namespace Draft

/-- Adds a definition and gives its place. -/
def add (draft : Draft) (d : Definition) : ModeId × Draft :=
  (draft.definitions.size, { draft with definitions := draft.definitions.push d })

/-- Adds the root. -/
def addRoot (draft : Draft) (d : Definition) : Draft :=
  let (id, draft) := draft.add d
  { draft with root := some id }

/-- Changes a definition added before. -/
def update (draft : Draft) (id : ModeId) (f : Definition → Definition) : Draft :=
  { draft with definitions := draft.definitions.modify id f }

/-- The definition at a place. -/
def definition? (draft : Draft) (id : ModeId) : Option Definition :=
  draft.definitions[id]?

/-- Checks and compiles the definitions. -/
def build (draft : Draft) : Except Error Grammar := do
  match draft.root with
  | none => throw (.missingRoot draft.name)
  | some root =>
    let compiled ← Source.compile ⟨draft.name, draft.definitions, draft.ignoreCase⟩ root
    return {
      name := draft.name
      aliases := draft.aliases
      ignoreCase := draft.ignoreCase
      autoDetect := draft.autoDetect
      illegal := compiled.illegal
      modes := compiled.modes }

end Draft

/-- The index of the root. -/
def root : Nat := 0

/-- The mode at an index. -/
def mode (g : Grammar) (index : Nat) : Mode :=
  g.modes.getD index .inert

/-- The number of compiled modes. -/
def modeCount (g : Grammar) : Nat := g.modes.size

/-- Whether the grammar goes by a name, up to the case of ASCII letters. -/
def answersTo (g : Grammar) (name : String) : Bool :=
  Text.equalUpToAsciiCase g.name name || g.aliases.any (Text.equalUpToAsciiCase · name)

end Grammar

end ModeStack
