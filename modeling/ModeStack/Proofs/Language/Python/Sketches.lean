import ModeStack.Language.Python
import ModeStack.Proofs.Grammar.Sketch

/-!
# The modes of Python numbers and strings

The modes of the Python grammar that numerals and simple strings are scanned with, written out
(`sketches`): the root, which opens a mode by the first of many patterns that matches, the modes of
the seven patterns for numbers, those of the six openings of a string on one line without
substitutions, and the one of an escaped character.
-/

namespace ModeStack.Language.Python

open ModeStack.Grammar
open ModeStack.Rule (Clause Part)

def numberParts : List Part := numberPatterns.zipWith Rule.Part.mk [13, 8, 3, 1, 1, 1, 2]

/-- What opens strings. -/
def stringParts : List Part :=
  [⟨plainMark ++ "'''", 1⟩, ⟨plainMark ++ "\"\"\"", 1⟩,
   ⟨formatMark ++ "'''", 1⟩, ⟨formatMark ++ "\"\"\"", 1⟩,
   ⟨"([uU]|[rR])'", 1⟩, ⟨"([uU]|[rR])\"", 1⟩,
   ⟨"([bB]|[bB][rR]|[rR][bB])'", 1⟩, ⟨"([bB]|[bB][rR]|[rR][bB])\"", 1⟩,
   ⟨formatMark ++ "'", 1⟩, ⟨formatMark ++ "\"", 1⟩,
   ⟨"'", 0⟩, ⟨"\"", 0⟩]

def ifPart : Part := ⟨"\\b(?:if)(?!\\.)(?=\\b|\\s)", 0⟩

/-- What opens the modes of the root. -/
def openings : List Part :=
  ⟨"^(>>>|\\.\x7b3\x7d) ", 1⟩ :: (numberParts ++ ⟨"\\bself\\b", 0⟩ :: ifPart :: (stringParts ++
    [⟨"#\\s*type:\\s*", 0⟩, ⟨"#", 0⟩, ⟨"\\b(?:def)(?!\\.)(?=\\b|\\s)", 0⟩,
     ⟨"\\b(?:class)(?!\\.)(?=\\b|\\s)", 0⟩, ⟨"^[\\t ]*@", 0⟩, ⟨"\\b(print|exec)\\(", 1⟩]))

/-- The mode at a place is opened by the pattern at that place. -/
def rootClauses : List Clause :=
  ⟨.illegal, ⟨"(</|->|\\?)|=>", 1⟩⟩ ::
    openings.mapIdx fun index part => ⟨.opening (index + 1), part⟩

/-- The end of a mode without a closing pattern. -/
def emptyEnding : Clause := ⟨.ending, ⟨"(?:\\B|\\b)", 0⟩⟩

/-- The mode of an escaped character. -/
def escapeMode : Nat := 29

def escapeOpening : Clause := ⟨.opening escapeMode, ⟨"\\\\[\\s\\S]", 0⟩⟩

def newlineClause : Clause := ⟨.illegal, ⟨"\\n", 0⟩⟩

def quoteClause (quote : Char) : Clause := ⟨.ending, ⟨"(?:" ++ String.singleton quote ++ ")", 0⟩⟩

/-- The rules of a string, by its quote and by whether a newline is illegal in it. -/
def stringClauses (quote : Char) (oneLine : Bool) : List Clause :=
  (if oneLine then [newlineClause] else []) ++ [quoteClause quote, escapeOpening]

def rootSketch : Sketch where
  closing := none
  classifies := true
  clauses := rootClauses

def numberSketch : Sketch where
  scope := some "number"
  clauses := [emptyEnding]

def stringSketch (quote : Char) (oneLine : Bool) : Sketch where
  scope := some "string"
  closing := some (String.singleton quote)
  clauses := stringClauses quote oneLine

def escapeSketch : Sketch where
  clauses := [emptyEnding]

/-- The modes of strings on one line. -/
def stringModes : List (Nat × Char × Bool) :=
  [(15, '\'', false), (16, '"', false), (17, '\'', false), (18, '"', false), (21, '\'', true),
   (22, '"', true)]

/-- What is said of the modes. -/
def sketches : List (Nat × Sketch) :=
  (root, rootSketch) :: (escapeMode, escapeSketch) ::
    ((List.range' 2 7).map (·, numberSketch) ++
      stringModes.map fun (mode, quote, oneLine) => (mode, stringSketch quote oneLine))

/-- Whether the modes of a draft are as they are sketched here, and all have the same pattern of
words. -/
def isDrawn (draft : Draft) : Bool :=
  let drawn := draft.sketches
  (sketches.all fun (mode, sketch) => drawn[mode]? = some (some sketch)) &&
    drawn.all fun sketch? => sketch?.all (·.wordPattern = defaultWordPattern)

end ModeStack.Language.Python
