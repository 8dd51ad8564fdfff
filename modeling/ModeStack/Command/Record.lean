import ModeStack.Command.Arguments
import ModeStack.Scan.Token
import ModeStack.Text.Quoted

/-!
# Records

Tokens are printed one to a line, as JSON objects or in columns.
-/

namespace ModeStack.Command

open ModeStack.Scan (Token)
open ModeStack.Text (quoted hexDigits)

/-! ## JSON -/

/-- Pads on the left to a width. -/
def padLeft (width : Nat) (fill : Char) (cs : List Char) : List Char :=
  List.replicate (width - cs.length) fill ++ cs

/-- Pads on the right to a width. -/
def padRight (width : Nat) (fill : Char) (cs : List Char) : List Char :=
  cs ++ List.replicate (width - cs.length) fill

/-- A character inside a JSON string. -/
def jsonChar (c : Char) : List Char :=
  match c with
  | '"' => ['\\', '"']
  | '\\' => ['\\', '\\']
  | '\x08' => ['\\', 'b']
  | '\x0c' => ['\\', 'f']
  | '\n' => ['\\', 'n']
  | '\r' => ['\\', 'r']
  | '\t' => ['\\', 't']
  | c => if c.toNat < 32 then ['\\', 'u'] ++ padLeft 4 '0' (hexDigits c.toNat) else [c]

/-- A JSON string. -/
def jsonString (s : String) : String :=
  String.ofList (['"'] ++ s.toList.flatMap jsonChar ++ ['"'])

/-! ## Records -/

/-- What is printed of a token; positions in bytes. -/
structure Record where
  scope : Option String
  start : Nat
  stop : Nat
  text : String
  deriving DecidableEq, Repr

/-- The record of a token. -/
def Record.ofToken (t : Text) (token : Token) : Record where
  scope := token.scope
  start := token.byteStart t
  stop := token.byteStop t
  text := token.text t

/-- A record as a JSON object. -/
def Record.json (r : Record) : String :=
  let scope := match r.scope with
    | some s => jsonString s
    | none => "null"
  "\x7b\"scope\":" ++ scope ++ ",\"start\":" ++ toString r.start ++ ",\"end\":" ++ toString r.stop
    ++ ",\"text\":" ++ jsonString r.text ++ "\x7d"

/-- A record in columns: start, end, scope, and the text in quotes. -/
def Record.row (r : Record) : String :=
  String.ofList (
    padLeft 6 ' ' (toString r.start).toList ++ [' '] ++ padLeft 6 ' ' (toString r.stop).toList
      ++ [' ', ' '] ++ padRight 12 ' ' (r.scope.getD "-").toList ++ [' ']) ++ quoted r.text

/-- A record in the given format. -/
def Record.line (r : Record) : Format → String
  | .json => r.json
  | .table => r.row

/-- Tokens of a text, one to a line. -/
def tokenLines (t : Text) (tokens : List Token) (format : Format) : String :=
  String.join (tokens.map fun token => (Record.ofToken t token).line format ++ "\n")

end ModeStack.Command
