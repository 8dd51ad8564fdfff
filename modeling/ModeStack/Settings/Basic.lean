import ModeStack.Language.Catalog
import ModeStack.Settings.Document
import ModeStack.Settings.File

/-!
# Settings

What the user can set, section by section: how texts are scanned, how languages are detected,
and how large a text may be. Everything has a default, and unknown keys are refused. A section
may also be written as an array of its fields in order.
-/

namespace ModeStack

/-- The settings of the program. -/
structure Settings where
  /-- Section `scan`: take illegal lexemes as plain text. -/
  ignoreIllegals : Bool := false
  /-- Section `detect`. -/
  detect : Catalog.DetectOptions := {}
  /-- Section `input`: the largest text that is scanned, in bytes. -/
  maxBytes : Nat := 16 * 1024 * 1024
  deriving DecidableEq, Repr

namespace Settings

open ModeStack.Document (Value Entries)

/-! ## Fields -/

def readBool : Value → Option Bool
  | .boolean b => some b
  | _ => none

/-- Reads a number from 0 to `max`. -/
def readNat (max : Nat) : Value → Option Nat
  | .integer n => if 0 ≤ n && n.toNat ≤ max then some n.toNat else none
  | _ => none

def readString : Value → Option String
  | .string s => some s
  | _ => none

def readStrings : Value → Option (List String)
  | .array vs => vs.mapM readString
  | _ => none

/-- Sets one field of the settings from a value. -/
abbrev Setter := Settings → Value → Option Settings

def setIgnoreIllegals : Setter := fun s v => do
  return { s with ignoreIllegals := ← readBool v }

def setLanguages : Setter := fun s v => do
  return { s with detect := { s.detect with languages := ← readStrings v } }

def setMinRelevance : Setter := fun s v => do
  return { s with detect := { s.detect with minRelevance := ← readNat 4294967295 v } }

def setMaxBytes : Setter := fun s v => do
  return { s with maxBytes := ← readNat 18446744073709551615 v }

/-! ## Sections -/

/-- The sections and their fields, in order. -/
def sections : List (String × List (String × Setter)) :=
  [("scan", [("ignore_illegals", setIgnoreIllegals)]),
   ("detect", [("languages", setLanguages), ("min_relevance", setMinRelevance)]),
   ("input", [("max_bytes", setMaxBytes)])]

/-- Reads a section written as a table. -/
def readTable (fields : List (String × Setter)) (s : Settings) (es : Entries) : Option Settings :=
  es.foldlM (fun s (key, v) => do (← fields.lookup key) s v) s

/-- Reads a section written as an array of fields; those that are missing keep their
defaults. -/
def readArray (fields : List (String × Setter)) (s : Settings) (vs : List Value) :
    Option Settings :=
  (fields.zip vs).foldlM (fun s ((_, setter), v) => setter s v) s

/-- Reads a section. -/
def readSection (s : Settings) (name : String) (v : Value) : Option Settings := do
  let fields ← sections.lookup name
  match v with
  | .table _ es => readTable fields s es
  | .array vs => readArray fields s vs
  | _ => none

/-- Reads settings from the text of a document, if all of it makes sense. -/
def read (text : String) : Option Settings := do
  (← Document.read text).foldlM (fun s (name, v) => readSection s name v) {}

/-! ## Loading -/

/-- The reasons for which settings cannot be loaded. -/
inductive Error where
  | unreadable (path : String) (fault : File.Fault)
  | malformed
  deriving DecidableEq, Repr

def Error.message : Error → String
  | unreadable path fault => s!"I/O error reading {path}: " ++ fault.message
  | malformed => "invalid configuration: "

/-- Reads settings from the text of a document. -/
def parse (text : String) : Except Error Settings :=
  match read text with
  | some s => .ok s
  | none => .error .malformed

/-- Loads settings from a file. -/
def load (path : String) (file : File) : Except Error Settings :=
  match file.readText with
  | .error fault => .error (.unreadable path fault)
  | .ok text => parse text

/-- Loads settings from a file, or takes the defaults if there is none. -/
def loadOrDefault (path : String) (file : File) : Except Error Settings :=
  match file with
  | .absent => .ok {}
  | file => load path file

end Settings

end ModeStack
