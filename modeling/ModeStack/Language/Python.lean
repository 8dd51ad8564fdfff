import ModeStack.Language.Shared

/-!
# The Python grammar

Python 3 with what is still met of Python 2 (`u` strings, `L` suffixes), interactive prompts,
format strings with substitutions, annotations and type comments.
-/

namespace ModeStack.Language.Python

open ModeStack.Grammar

/-! ## Words -/

def reservedWords : List String :=
  ["and", "as", "assert", "async", "await", "break", "class", "continue", "def", "del", "elif",
   "else", "except", "finally", "for", "from", "global", "if", "import", "in", "is", "lambda",
   "nonlocal|10", "not", "or", "pass", "raise", "return", "try", "while", "with", "yield"]

def builtIns : List String :=
  ["__import__", "abs", "all", "any", "ascii", "bin", "bool", "breakpoint", "bytearray", "bytes",
   "callable", "chr", "classmethod", "compile", "complex", "delattr", "dict", "dir", "divmod",
   "enumerate", "eval", "exec", "filter", "float", "format", "frozenset", "getattr", "globals",
   "hasattr", "hash", "help", "hex", "id", "input", "int", "isinstance", "issubclass", "iter",
   "len", "list", "locals", "map", "max", "memoryview", "min", "next", "object", "oct", "open",
   "ord", "pow", "print", "property", "range", "repr", "reversed", "round", "set", "setattr",
   "slice", "sorted", "staticmethod", "str", "sum", "super", "tuple", "type", "vars", "zip",
   "Dict", "List", "Any", "Union", "Optional", "Tuple", "Set", "TypeVar", "Generic", "Protocol",
   "Callable", "Type", "NoReturn", "ClassVar", "Final"]

def literals : List String :=
  ["__debug__", "Ellipsis", "False", "None", "NotImplemented", "True"]

/-- The words of the language, by class. -/
def keywords : Except String Keyword.Table :=
  ((((({} : Keyword.Draft).add "keyword" reservedWords).add "built_in" builtIns).add
    "literal" literals)).finish

/-! ## Patterns -/

/-- What may precede the quotes of a string without substitutions. -/
def plainMark : String := "([uU]|[bB]|[rR]|[bB][rR]|[rR][bB])?"

/-- What precedes the quotes of a format string. -/
def formatMark : String := "([fF][rR]|[rR][fF]|[fF])"

/-- Digits, with single underscores between them. -/
def digits : String := "[0-9](_?[0-9])*"

/-- Capitalised identifiers, which annotations take for types. -/
def typeNamePattern : String := "\\b[A-Z][a-zA-Z0-9_]*\\b"

/-- A number with a point. -/
def pointFloat : String :=
  "(\\b(" ++ digits ++ "))?\\.(" ++ digits ++ ")|\\b(" ++ digits ++ ")\\."

/-- The forms of a number: floats, integers in every base, and imaginary numbers. -/
def numberPatterns : List String :=
  ["(\\b(" ++ digits ++ ")|(" ++ pointFloat ++ "))[eE][+-]?(" ++ digits ++ ")[jJ]?\\b",
   "(" ++ pointFloat ++ ")[jJ]?",
   "\\b([1-9](_?[0-9])*|0+(_?0)*)[lLjJ]?\\b",
   "\\b0[bB](_?[01])+[lL]?\\b",
   "\\b0[oO](_?[0-7])+[lL]?\\b",
   "\\b0[xX](_?[0-9a-fA-F])+[lL]?\\b",
   "\\b(" ++ digits ++ ")[jJ]\\b"]

/-- A number. -/
def number : Definition where
  scope := some "number"
  relevance := some 0
  variants := numberPatterns.map fun p => { opening := some p }

/-- A string with the given delimiters. -/
def stringVariant (opening closing : String) (contains : List Child) (relevance : Option Nat) :
    Definition where
  opening := some opening
  closing := some closing
  contains := contains
  relevance := relevance

/-- The strings, by mark and quotes. -/
def string (escape prompt doubledBrace substitution : ModeId) : Definition where
  scope := some "string"
  contains := [.mode escape]
  variants :=
    let block : List Child := [.mode escape, .mode prompt]
    let formatBlock : List Child := block ++ [.mode doubledBrace, .mode substitution]
    let format : List Child := [.mode escape, .mode doubledBrace, .mode substitution]
    [stringVariant (plainMark ++ "'''") "'''" block (some 10),
     stringVariant (plainMark ++ "\"\"\"") "\"\"\"" block (some 10),
     stringVariant (formatMark ++ "'''") "'''" formatBlock none,
     stringVariant (formatMark ++ "\"\"\"") "\"\"\"" formatBlock none,
     stringVariant "([uU]|[rR])'" "'" [] (some 10),
     stringVariant "([uU]|[rR])\"" "\"" [] (some 10),
     stringVariant "([bB]|[bB][rR]|[rR][bB])'" "'" [] none,
     stringVariant "([bB]|[bB][rR]|[rR][bB])\"" "\"" [] none,
     stringVariant (formatMark ++ "'") "'" format none,
     stringVariant (formatMark ++ "\"") "\"" format none,
     aposString escape,
     quoteString escape]

/-! ## The grammar -/

/-- The modes of the grammar, with the words of the language. -/
def draft (words : Keyword.Table) : Draft :=
  let d : Draft := { name := "python", aliases := ["py", "gyp", "ipython"] }
  let (shared, d) := Shared.register d
  let (prompt, d) := d.add { scope := some "meta", opening := some "^(>>>|\\.\x7b3\x7d) " }
  let (doubledBrace, d) := d.add { opening := some "\\\x7b\\\x7b", relevance := some 0 }
  let (substitution, d) := d.add {
    scope := some "subst", opening := some "\\\x7b", closing := some "\\\x7d"
    keywords := some words, illegal := some "#" }
  let (string, d) := d.add (string shared.escape prompt doubledBrace substitution)
  let (number, d) := d.add number
  let d := d.update substitution fun s =>
    { s with contains := [.mode string, .mode number, .mode prompt, .self] }
  let (typeName, d) := d.add { scope := some "built_in", opening := some typeNamePattern }
  let (separator, d) := d.add { opening := some "\\s*,\\s*", relevance := some 0 }
  let (typeHint, d) := d.add {
    scope := some "type", opening := some "\\[", closing := some "\\]"
    contains := [.self, .mode typeName, .mode separator, .mode number, .mode string]
    relevance := some 10 }
  let (paramType, d) := d.add {
    opening := some ":\\s*", closing := some "(?=(,|\\)))", keywords := some words
    contains := [.mode typeName, .mode typeHint], relevance := some 10 }
  let (params, d) := d.add {
    scope := some "params"
    variants := [
      { opening := some "\\(\\s*\\)", flags := { skip := true } },
      { opening := some "\\(", closing := some "\\)", keywords := some words
        contains := [.self, .mode prompt, .mode number, .mode string, .mode shared.hashComment,
          .mode paramType]
        flags := { excludeBegin := true, excludeEnd := true } }] }
  let (returnType, d) := d.add {
    opening := some "->", keywords := some words
    contains := [.mode typeName, .mode typeHint], relevance := some 10
    flags := { endsWithParent := true } }
  let (header, d) := d.add {
    variants := [
      { scope := some "function", openingWords := some "def" },
      { scope := some "class", openingWords := some "class" }]
    closing := some ":", illegal := some "[$\x7b=;\\n,]"
    contains := [.mode shared.title, .mode params, .mode returnType] }
  let (decorator, d) := d.add {
    scope := some "meta", opening := some "^[\\t ]*@", closing := some "(?=#)|$"
    contains := [.mode number, .mode params, .mode string] }
  let (call, d) := d.add { opening := some "\\b(print|exec)\\(" }
  let (typeComment, d) := d.add {
    scope := some "comment", opening := some "#\\s*type:\\s*", closing := some "$"
    contains := [.mode typeName, .mode typeHint], relevance := some 10 }
  let (selfWord, d) := d.add { opening := some "\\bself\\b" }
  let (ifWord, d) := d.add { openingWords := some "if", relevance := some 0 }
  d.addRoot {
    keywords := some words, illegal := some "(</|->|\\?)|=>"
    contains := [.mode prompt, .mode number, .mode selfWord, .mode ifWord, .mode string,
      -- before the plain comments, which would always win otherwise
      .mode typeComment, .mode shared.hashComment, .mode header, .mode decorator, .mode call] }

/-- The Python grammar. -/
def grammar : Except Grammar.Error Grammar := do
  let words ← keywords.mapError .invalidKeyword
  (draft words).build

end ModeStack.Language.Python
