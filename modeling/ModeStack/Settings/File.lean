import ModeStack.Text.Utf8

/-!
# Files as the program finds them

A path leads to nothing, to a directory or to bytes. What goes wrong when it is read is a
`File.Fault`, with the wording of the operating system.
-/

namespace ModeStack

/-- What a path leads to. -/
inductive File where
  | absent
  | directory
  | bytes (content : ByteArray)

namespace File

/-- The reasons for which a file cannot be read as text. -/
inductive Fault where
  | notFound
  | isDirectory
  | notText
  deriving DecidableEq, Repr

def Fault.message : Fault → String
  | notFound => "No such file or directory (os error 2)"
  | isDirectory => "Is a directory (os error 21)"
  | notText => "stream did not contain valid UTF-8"

/-- Reads a file as text. -/
def readText : File → Except Fault String
  | absent => .error .notFound
  | directory => .error .isDirectory
  | bytes content =>
    match Text.decodeUtf8 content with
    | .ok t => .ok (String.ofList t.toList)
    | .error _ => .error .notText

end File

end ModeStack
