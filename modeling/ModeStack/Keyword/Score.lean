/-!
# Scores

A scan collects a score that says how well a grammar fits a text: modes and keywords add their
weights. A keyword counts only the first `maxHits` times, so that one repeated word does not
decide, and the score stops at `maxScore`.
-/

namespace ModeStack.Keyword

/-- How often one word is scored. -/
def maxHits : Nat := 7

/-- The largest score, of 32 bits. -/
def maxScore : Nat := 4294967295

/-- How often words have been seen. -/
abbrev Hits := List (String × Nat)

/-- The number of times a word has been seen. -/
def Hits.count (hits : Hits) (word : String) : Nat :=
  (hits.lookup word).getD 0

/-- Counts a word once more. -/
def Hits.add : Hits → String → Hits
  | [], word => [(word, 1)]
  | (w, n) :: rest, word =>
    if w = word then (w, n + 1) :: rest else (w, n) :: Hits.add rest word

/-- The score of a scan so far. -/
structure Score where
  total : Nat := 0
  hits : Hits := []
  deriving DecidableEq, Repr

namespace Score

/-- Adds a weight, up to the largest score. -/
def gain (score : Score) (weight : Nat) : Score :=
  { score with total := min maxScore (score.total + weight) }

/-- Scores a mode that was opened. -/
def addMode (score : Score) (weight : Nat) : Score :=
  score.gain weight

/-- Whether seeing a word now would be scored. -/
def counts (score : Score) (word : String) : Bool :=
  score.hits.count word < maxHits

/-- Scores a keyword that was seen, unless it has been seen too often. -/
def addKeyword (score : Score) (word : String) (weight : Nat) : Score :=
  let scored := if score.counts word then score.gain weight else score
  { scored with hits := score.hits.add word }

end Score

end ModeStack.Keyword
