import ModeStack.Text.Basic

/-!
# Reading UTF-8

`decodeUtf8` turns bytes into characters, or says where the first sequence of bytes that is not
a character starts: one that is cut off by the end of the input, or one that is wrong after a
number of bytes.
-/

namespace ModeStack.Text

/-- What is wrong with a sequence of bytes. -/
inductive Utf8Error where
  /-- `length` bytes from `start` on begin no character. -/
  | invalid (length start : Nat)
  /-- The input ends inside the character that starts at `start`. -/
  | incomplete (start : Nat)
  deriving DecidableEq, Repr

def Utf8Error.message : Utf8Error → String
  | invalid length start => s!"invalid utf-8 sequence of {length} bytes from index {start}"
  | incomplete start => s!"incomplete utf-8 byte sequence from index {start}"

/-- The range that the second byte of a character must be in, given the first. -/
def secondByteRange (first : Nat) : Nat × Nat :=
  if first = 0xe0 then (0xa0, 0xbf)
  else if first = 0xed then (0x80, 0x9f)
  else if first = 0xf0 then (0x90, 0xbf)
  else if first = 0xf4 then (0x80, 0x8f)
  else (0x80, 0xbf)

/-- The number of bytes after the first, and the bits of the first; nothing if no character
starts with it. -/
def leadByte? (first : Nat) : Option (Nat × Nat) :=
  if first < 0x80 then some (0, first)
  else if first < 0xc2 then none
  else if first < 0xe0 then some (1, first - 0xc0)
  else if first < 0xf0 then some (2, first - 0xe0)
  else if first < 0xf5 then some (3, first - 0xf0)
  else none

/-- Reads `count` further bytes of the character that starts at `start`, of which `read` bytes
and the bits `value` are known. The next byte must be in `range`. -/
def continuation (start : Nat) : (count read value : Nat) → (range : Nat × Nat) → List UInt8 →
    Except Utf8Error (Nat × List UInt8)
  | 0, _, value, _, bytes => .ok (value, bytes)
  | _ + 1, _, _, _, [] => .error (.incomplete start)
  | count + 1, read, value, (lo, hi), b :: bytes =>
    if lo ≤ b.toNat && b.toNat ≤ hi then
      continuation start count (read + 1) (64 * value + (b.toNat - 0x80)) (0x80, 0xbf) bytes
    else .error (.invalid read start)

/-- Decodes bytes from offset `start` on. Each round takes at least one byte. -/
def decodeFrom : (rounds start : Nat) → List UInt8 → Except Utf8Error (List Char)
  | 0, _, _ => .ok []
  | _, _, [] => .ok []
  | rounds + 1, start, b :: bytes =>
    match leadByte? b.toNat with
    | none => .error (.invalid 1 start)
    | some (count, bits) => do
      let (value, bytes) ← continuation start count 1 bits (secondByteRange b.toNat) bytes
      let rest ← decodeFrom rounds (start + count + 1) bytes
      return Char.ofNat value :: rest

/-- Decodes a sequence of bytes. -/
def decodeUtf8 (bytes : ByteArray) : Except Utf8Error Text :=
  (decodeFrom (bytes.size + 1) 0 bytes.toList).map List.toArray

end ModeStack.Text
