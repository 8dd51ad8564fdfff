/-!
# Renumbering references

When patterns are joined into one, the groups of a pattern are preceded by those of the patterns
before it, and its references `\N` have to be raised by their number. `renumber` does so in one
pass over the text of a pattern, with a small machine that knows whether it is inside brackets,
after a backslash or within a number. References inside brackets are left alone.
-/

namespace ModeStack.Rule

/-- Where the machine stands. -/
inductive Position where
  /-- Between characters, inside brackets or not. -/
  | plain (inBracket : Bool)
  /-- After a backslash. -/
  | escaped (inBracket : Bool)
  /-- Within the number of a reference, of which `value` has been read. -/
  | number (value : Nat)
  deriving DecidableEq, Repr

namespace Position

/-- A reference to a group. -/
def reference (index : Nat) : List Char :=
  '\\' :: Nat.toDigits 10 index

def digitValue (c : Char) : Nat := c.toNat - '0'.toNat

/-- What is written for a character read between others, and where the machine stands then. -/
def stepPlain (inBracket : Bool) (c : Char) : List Char × Position :=
  if c = '\\' then ([], escaped inBracket)
  else if c = '[' && !inBracket then ([c], plain true)
  else if c = ']' && inBracket then ([c], plain false)
  else ([c], plain inBracket)

/-- What is written for a character read, and where the machine stands then. -/
def step (offset : Nat) : Position → Char → List Char × Position
  | plain inBracket, c => stepPlain inBracket c
  | escaped inBracket, c =>
    if !inBracket && '1' ≤ c && c ≤ '9' then ([], number (digitValue c))
    else (['\\', c], plain inBracket)
  | number value, c =>
    if '0' ≤ c && c ≤ '9' then ([], number (10 * value + digitValue c))
    else
      let (written, next) := stepPlain false c
      (reference (value + offset) ++ written, next)

/-- What is written at the end of the text. -/
def finish (offset : Nat) : Position → List Char
  | plain _ => []
  | escaped _ => ['\\']
  | number value => reference (value + offset)

/-- What the machine writes for a text. -/
def run (offset : Nat) : Position → List Char → List Char
  | p, [] => p.finish offset
  | p, c :: cs => (p.step offset c).1 ++ run offset (p.step offset c).2 cs

end Position

/-- Raises the references of a pattern by `offset`. -/
def renumber (source : String) (offset : Nat) : String :=
  if offset = 0 || !source.toList.contains '\\' then source
  else String.ofList (Position.run offset (.plain false) source.toList)

end ModeStack.Rule
