/-!
# Texts and positions

A text is an array of characters, and a position in it counts the characters before it, so
every position lies between two characters. Offsets in bytes of the UTF-8 form appear only
where positions are reported: `byteOffset` and its inverse `position?`.
-/

namespace ModeStack

/-- A text, character by character. -/
abbrev Text := Array Char

namespace Text

def ofString (s : String) : Text := s.toList.toArray

/-- The part of a text from one position to another, as a string. -/
def between (t : Text) (start stop : Nat) : String :=
  String.ofList (t.extract start stop).toList

/-- The number of bytes of a sequence of characters in UTF-8. -/
def byteSize : List Char → Nat
  | [] => 0
  | c :: cs => c.utf8Size + byteSize cs

/-- The offset in bytes of a position. -/
def byteOffset (t : Text) (pos : Nat) : Nat :=
  byteSize (t.extract 0 pos).toList

/-- The number of characters from the front that take exactly `bytes` bytes. -/
def countBytes? : (bytes : Nat) → List Char → Option Nat
  | 0, _ => some 0
  | _ + 1, [] => none
  | bytes + 1, c :: cs =>
    if c.utf8Size ≤ bytes + 1 then (countBytes? (bytes + 1 - c.utf8Size) cs).map (· + 1) else none

/-- The position at an offset in bytes, if a character starts or the text ends there. -/
def position? (t : Text) (offset : Nat) : Option Nat :=
  countBytes? offset t.toList

/-- The position after the character at `pos`, or none at the end of the text. -/
def next? (t : Text) (pos : Nat) : Option Nat :=
  if pos < t.size then some (pos + 1) else none

end Text

end ModeStack
