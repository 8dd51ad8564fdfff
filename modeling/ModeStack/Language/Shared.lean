import ModeStack.Grammar.Basic

/-!
# Modes shared between languages

Strings, escapes, comments and titles that grammars have in common. Each is a definition, to be
added to a grammar or used as a variant; `Shared.register` adds the usual ones.
-/

namespace ModeStack.Language

open ModeStack.Grammar

/-- An identifier, which may start with an underscore. -/
def identifierPattern : String := "[a-zA-Z_]\\w*"

/-- The tags picked out of comments. -/
def tagPattern : String := "(TODO|FIXME|NOTE|BUG|OPTIMIZE|HACK|XXX):"

/-- Three English-looking words in a row, which comments have and code has not. -/
def prosePattern : String :=
  "[ ]+((?:I|a|is|so|us|[tT][oO]|at|if|in|it|on|[A-Za-z]+['](d|ve|re|ll|t|s|n)|" ++
  "[A-Za-z]+[-][a-z]+|[A-Za-z][a-z]\x7b2,\x7d)[.]?[:]?([.][ ]|[ ]))\x7b3\x7d"

/-- A backslash and any character. -/
def escape : Definition where
  opening := some "\\\\[\\s\\S]"
  relevance := some 0

/-- A string on one line between the given quotes, with backslash escapes. -/
def lineString (quote : String) (escape : ModeId) : Definition where
  scope := some "string"
  opening := some quote
  closing := some quote
  illegal := some "\\n"
  contains := [.mode escape]

/-- A string on one line between single quotes. -/
def aposString (escape : ModeId) : Definition := lineString "'" escape

/-- A string on one line between double quotes. -/
def quoteString (escape : ModeId) : Definition := lineString "\"" escape

/-- A tag in a comment. Blanks before it belong to the comment. -/
def tag : Definition where
  scope := some "doctag"
  opening := some ("[ ]*(?=" ++ tagPattern ++ ")")
  closing := some tagPattern
  relevance := some 0
  flags := { excludeBegin := true }

/-- A run of prose in a comment. -/
def prose : Definition where
  opening := some prosePattern

/-- Adds what a comment contains, and gives the comment for the caller to add. -/
def comment (draft : Draft) (opening closing : String) : Definition × Draft :=
  let (tagId, draft) := draft.add tag
  let (proseId, draft) := draft.add prose
  ({ scope := some "comment"
     opening := some opening
     closing := some closing
     contains := [.mode tagId, .mode proseId] }, draft)

/-- An identifier labelled as a title, such as the name of a function. -/
def title : Definition where
  scope := some "title"
  opening := some identifierPattern
  relevance := some 0

/-- Where the shared modes are found in a grammar. -/
structure Shared where
  escape : ModeId
  aposString : ModeId
  quoteString : ModeId
  hashComment : ModeId
  title : ModeId

/-- Adds the shared modes to a grammar. -/
def Shared.register (draft : Draft) : Shared × Draft :=
  let (escapeId, draft) := draft.add Language.escape
  let (aposId, draft) := draft.add (Language.aposString escapeId)
  let (quoteId, draft) := draft.add (Language.quoteString escapeId)
  let (hashComment, draft) := comment draft "#" "$"
  let (commentId, draft) := draft.add hashComment
  let (titleId, draft) := draft.add Language.title
  ({ escape := escapeId, aposString := aposId, quoteString := quoteId
     hashComment := commentId, title := titleId }, draft)

end ModeStack.Language
