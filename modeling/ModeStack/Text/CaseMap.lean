import ModeStack.Text.CodePoints

/-!
# Maps between characters of different case

A case map sends runs of code points to runs of code points. It is written as text: `41-5a>61`
sends `41` to `61`, `42` to `62` and so on, and `100-12e/2>101` does so for every second code
point. `CaseMap.apply` maps one character, `CaseMap.preimages` finds what is mapped to it.
-/

namespace ModeStack.Text

/-- A run of a case map: the code points from its key up to `last` in steps of `step` go to
`target` onwards. -/
structure CaseRun where
  last : Nat
  step : Nat
  target : Nat

/-- Runs sorted by their first code point. -/
structure CaseMap where
  runs : Array (Nat × CaseRun)

namespace CaseMap

/-- Reads one run. -/
def readRun (entry : List Char) : Nat × CaseRun :=
  let number (cs : List Char) : Nat × List Char :=
    (hexValue (cs.takeWhile isTableDigit), cs.dropWhile isTableDigit)
  let (first, rest) := number entry
  let (last, rest) := match rest with
    | '-' :: more => number more
    | _ => (first, rest)
  let (step, rest) := match rest with
    | '/' :: more => number more
    | _ => (1, rest)
  (first, ⟨last, step, (number (rest.drop 1)).1⟩)

/-- Reads lines of runs. -/
def ofLines (lines : List String) : CaseMap :=
  ⟨((entriesOfLines lines).map readRun).toArray⟩

/-- The image of a character, itself if no run covers it. -/
def apply (m : CaseMap) (c : Char) : Char :=
  match lastAtMost m.runs c.toNat with
  | some (first, run) =>
    if c.toNat ≤ run.last && (c.toNat - first) % run.step = 0 then
      Char.ofNat (run.target + (c.toNat - first))
    else c
  | none => c

/-- The characters that some run sends to `c`. -/
def preimages (m : CaseMap) (c : Char) : List Char :=
  m.runs.toList.filterMap fun (first, run) =>
    let source := first + (c.toNat - run.target)
    if run.target ≤ c.toNat && source ≤ run.last && (c.toNat - run.target) % run.step = 0 then
      some (Char.ofNat source)
    else none

end CaseMap

end ModeStack.Text
