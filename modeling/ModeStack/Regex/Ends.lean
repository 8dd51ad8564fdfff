import ModeStack.Regex.Expr
import ModeStack.Text.Basic

/-!
# Where an expression can end

`Expr.ends` lists the ways in which an expression matches from a position: the position each
ends at and the groups it captures, the preferred way first, one way for each end. For an
expression without references this is all there is to know about it, because what follows it
depends on the end alone; the list is never longer than the text, however ambiguous the
expression.
-/

namespace ModeStack.Regex

open ModeStack.Text

/-! ## Positions and captures -/

/-- What a group has captured. -/
structure Capture where
  group : Nat
  start : Nat
  stop : Nat
  deriving DecidableEq, Repr

/-- A position reached, with the captures made on the way, the latest first. -/
structure Hit where
  pos : Nat
  captures : List Capture := []
  deriving DecidableEq, Repr

namespace Hit

/-- Moves to another position. -/
def moveTo (h : Hit) (pos : Nat) : Hit := { h with pos := pos }

/-- Records a capture that ends here. -/
def capture (h : Hit) (group start : Nat) : Hit :=
  { h with captures := ⟨group, start, h.pos⟩ :: h.captures }

/-- The latest capture of a group. -/
def captureOf? (h : Hit) (group : Nat) : Option Capture :=
  h.captures.find? (·.group = group)

end Hit

/-- Leaves out hits at a position that an earlier one has reached, given those `seen` before. -/
def distinctFrom (seen : List Nat) : List Hit → List Hit
  | [] => []
  | h :: hs =>
    if seen.contains h.pos then distinctFrom seen hs
    else h :: distinctFrom (h.pos :: seen) hs

/-- The first hit at each position. -/
def distinct : List Hit → List Hit
  | [] => []
  | [h] => [h]
  | hs => distinctFrom [] hs

/-! ## Assertions and references -/

/-- Whether a word character follows the position. -/
def wordAt (t : Text) (pos : Nat) : Bool :=
  match t[pos]? with
  | some c => isWord c
  | none => false

/-- Whether a word character precedes the position. -/
def wordBefore (t : Text) (pos : Nat) : Bool :=
  pos ≠ 0 && wordAt t (pos - 1)

/-- Whether an assertion holds at a position. -/
def Assertion.holds (t : Text) (pos : Nat) : Assertion → Bool
  | textStart => pos = 0
  | textEnd => pos = t.size
  | lastLineEnd => (t.extract pos t.size).all (· = '\n')
  | lineStart => pos = 0 || t[pos - 1]? = some '\n'
  | lineEnd => pos = t.size || t[pos]? = some '\n'
  | wordEdge => wordBefore t pos != wordAt t pos
  | notWordEdge => wordBefore t pos == wordAt t pos
  | wordStart => !wordBefore t pos && wordAt t pos
  | wordEnd => wordBefore t pos && !wordAt t pos

/-- Whether `part` occurs up to case anywhere in a sequence of characters. -/
def occursUpToCase (part : List Char) : List Char → Bool
  | [] => part.isEmpty
  | c :: cs => startsUpToCase part (c :: cs) || occursUpToCase part cs
where
  /-- Whether `part` stands up to case at the front. -/
  startsUpToCase : List Char → List Char → Bool
    | [], _ => true
    | _ :: _, [] => false
    | p :: part, c :: cs => sameUpToCase p c && startsUpToCase part cs

/-- Whether `found` stands for the captured text `wanted`. Up to case, texts of the same number
of bytes are compared: ASCII texts letter by letter, others by occurrence. -/
def refersTo (ignoreCase : Bool) (wanted found : List Char) : Bool :=
  wanted = found ||
    (ignoreCase &&
      if found.all isAscii then wanted.map asciiLower = found.map asciiLower
      else occursUpToCase wanted found)

/-- The position after a repetition of the text that a group has captured. -/
def referenceEnd? (t : Text) (index : Nat) (ignoreCase : Bool) (h : Hit) : Option Nat := do
  let c ← h.captureOf? index
  let wanted := (t.extract c.start c.stop).toList
  let count ← countBytes? (byteSize wanted) (t.extract h.pos (h.pos + byteSize wanted)).toList
  let found := (t.extract h.pos (h.pos + count)).toList
  if refersTo ignoreCase wanted found then some (h.pos + count) else none

/-! ## Repetition -/

/-- Extends `found`, hits in reverse order, by those that repeating `body` any number of times
leads to from a hit. A repetition that takes nothing is not tried again. Positions grow, so
`rounds` may be the number of characters left. -/
def repeated (body : Hit → List Hit) (greedy : Bool) : (rounds : Nat) → List Hit → Hit → List Hit
  | 0, found, h => if found.any (·.pos = h.pos) then found else h :: found
  | rounds + 1, found, h =>
    if found.any (·.pos = h.pos) then found
    else
      let further := (body h).filter (·.pos ≠ h.pos)
      if greedy then h :: further.foldl (repeated body greedy rounds) found
      else further.foldl (repeated body greedy rounds) (h :: found)

/-- Repetition at least once. A first repetition that takes nothing ends it. -/
def repeatedOnce (body : Hit → List Hit) (greedy : Bool) (size : Nat) (h : Hit) : List Hit :=
  let grow (found : List Hit) (first : Hit) : List Hit :=
    if first.pos = h.pos then
      if found.any (·.pos = h.pos) then found else first :: found
    else repeated body greedy (size - first.pos) found first
  ((body h).foldl grow []).reverse

/-- The states of `repeatedUpTo`: (repetitions left, position) pairs explored, and the hits
found in reverse order. -/
abbrev Explored := List (Nat × Nat) × List Hit

/-- Records a hit unless its position has been found. -/
def Explored.add (s : Explored) (h : Hit) : Explored :=
  if s.2.any (·.pos = h.pos) then s else (s.1, h :: s.2)

/-- Extends what was explored by repeating `body` at most `left` times from a hit. -/
def repeatedUpTo (body : Hit → List Hit) (greedy : Bool) : (left : Nat) → Explored → Hit → Explored
  | 0, s, h => s.add h
  | left + 1, s, h =>
    if s.1.contains (left + 1, h.pos) then s
    else
      let s : Explored := ((left + 1, h.pos) :: s.1, s.2)
      if greedy then ((body h).foldl (repeatedUpTo body greedy left) s).add h
      else (body h).foldl (repeatedUpTo body greedy left) (s.add h)

/-- Repetition exactly `count` times, from each of several hits. -/
def repeatedExactly (body : Hit → List Hit) : (count : Nat) → List Hit → List Hit
  | 0, hs => hs
  | _, [] => []
  | count + 1, h :: hs =>
    repeatedExactly body count (distinct ((h :: hs).flatMap body))

/-- Repetition between bounds, from a hit. -/
def repetitions (body : Hit → List Hit) (lo : Nat) (hi : Option Nat) (greedy : Bool) (size : Nat)
    (h : Hit) : List Hit :=
  match hi with
  | some hi =>
    let optional (h : Hit) : List Hit := (repeatedUpTo body greedy (hi - lo) ([], []) h).2.reverse
    distinct ((repeatedExactly body lo [h]).flatMap optional)
  | none =>
    match lo with
    | 0 =>
      let some := repeatedOnce body greedy size h
      distinct (if greedy then some ++ [h] else h :: some)
    | lo + 1 =>
      distinct ((repeatedExactly body lo [h]).flatMap (repeatedOnce body greedy size))

/-! ## Ends -/

namespace Expr

/-- A single character that satisfies a predicate. -/
def step (t : Text) (p : Char → Bool) (h : Hit) : List Hit :=
  match t[h.pos]? with
  | some c => if p c then [h.moveTo (h.pos + 1)] else []
  | none => []

/-- The ways in which an expression matches from a hit, the preferred first, one for each end.
`origin` is where the search started. -/
def ends (t : Text) (origin : Nat) : Expr → Hit → List Hit
  | empty, h => [h]
  | char c false, h => step t (· = c) h
  | char c true, h => step t (sameUpToCase c) h
  | any newline, h => step t (fun c => newline || c ≠ '\n') h
  | set s ignoreCase, h => step t (s.contains ignoreCase) h
  | assert a, h => if a.holds t h.pos then [h] else []
  | seq a b, h =>
    match a.ends t origin h with
    | [] => []
    | [h'] => b.ends t origin h'
    | hs => distinct (hs.flatMap (b.ends t origin))
  | alt a b, h => distinct (a.ends t origin h ++ b.ends t origin h)
  | group index e, h => (e.ends t origin h).map fun h' => h'.capture index h.pos
  | rep e lo hi greedy, h => repetitions (e.ends t origin) lo hi greedy t.size h
  | ref index ignoreCase, h =>
    match referenceEnd? t index ignoreCase h with
    | some pos => [h.moveTo pos]
    | none => []
  | look .ahead negated e, h =>
    match e.ends t origin h, negated with
    | h' :: _, false => [h'.moveTo h.pos]
    | [], true => [h]
    | _, _ => []
  | look .behind negated e, h =>
    let found := (List.range (h.pos + 1)).any fun start =>
      (e.ends t origin (h.moveTo start)).any (·.pos = h.pos)
    if found = negated then [] else [h]
  | atomic e, h => (e.ends t origin h).take 1
  | keep, h => [h.capture 0 h.pos]
  | resume, h => if h.pos = origin then [h] else []

end Expr

end ModeStack.Regex
