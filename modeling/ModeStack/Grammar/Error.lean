import ModeStack.Grammar.Definition
import ModeStack.Regex.SyntaxError
import ModeStack.Text.Quoted

/-!
# Why a grammar is refused
-/

namespace ModeStack.Grammar

open ModeStack.Regex (SyntaxError)

/-- What a pattern of a mode is for. -/
inductive Role where
  | opening
  | closing
  | illegal
  | word
  deriving DecidableEq, Repr

/-- A role as shown in messages. -/
def Role.display : Role → String
  | opening => "begin"
  | closing => "end"
  | illegal => "illegal"
  | word => "keyword pattern"

/-- The reasons for which a grammar cannot be built. -/
inductive Error where
  /-- A pattern is not a regular expression. -/
  | invalidPattern (grammar : String) (mode : ModeId) (role : Role) (pattern : String)
      (cause : SyntaxError)
  /-- Patterns that are fine by themselves cannot be joined. -/
  | notCombinable (grammar : String) (mode : ModeId) (cause : SyntaxError)
  | missingRoot (grammar : String)
  /-- The root ends with the text only. -/
  | invalidRoot (grammar : String)
  | unknownMode (grammar : String) (mode missing : ModeId)
  /-- The weight of a keyword entry is not a number. -/
  | invalidKeyword (entry : String)
  deriving DecidableEq, Repr

/-- The message for an error. -/
def Error.message : Error → String
  | invalidPattern grammar mode role pattern _ =>
    s!"grammar {Text.quoted grammar}: invalid {role.display} pattern /{pattern}/ in mode "
      ++ mode.display
  | notCombinable grammar mode _ =>
    s!"grammar {Text.quoted grammar}: failed to combine patterns of mode {mode.display}"
  | missingRoot grammar => s!"grammar {Text.quoted grammar} has no root mode"
  | invalidRoot grammar =>
    s!"grammar {Text.quoted grammar}: root mode may not declare end, variants or ends_with_parent"
  | unknownMode grammar mode missing =>
    s!"grammar {Text.quoted grammar}: mode {mode.display} refers to unknown mode "
      ++ missing.display
  | invalidKeyword entry =>
    s!"invalid keyword entry {Text.quoted entry}: relevance must be a non-negative integer"

end ModeStack.Grammar
