import ModeStack.Scan.Step

/-!
# The stream of tokens

Tokens are taken one at a time: `next` takes the first in the queue, and steps only when the
queue is empty. `rest` takes all that remain.
-/

namespace ModeStack.Scan

/-- The number of steps within which a scan emits a token or ends: the cursor stands still for
at most `maxStalled` of them before each character. -/
def maxSteps (scan : Scan) (s : State) : Nat :=
  (scan.text.size - s.cursor + 1) * (maxStalled + 2)

/-- Steps until there is a token in the queue or the scan has ended. -/
def advance (scan : Scan) : (rounds : Nat) → State → State
  | 0, s => s
  | rounds + 1, s =>
    if s.queue.isEmpty && !s.closed then advance scan rounds (scan.step s) else s

/-- Takes the next token. -/
def next (scan : Scan) (s : State) : Option Token × State :=
  let s := scan.advance (scan.maxSteps s) s
  match s.queue with
  | token :: queue => (some token, { s with queue := queue })
  | [] => (none, s)

/-- Takes at most `count` tokens. -/
def take (scan : Scan) : (count : Nat) → State → List Token × State
  | 0, s => ([], s)
  | count + 1, s =>
    match scan.next s with
    | (some token, s) =>
      let (tokens, s) := take scan count s
      (token :: tokens, s)
    | (none, s) => ([], s)

/-- Takes all tokens that remain. No token is empty, so there are no more than characters; the
last attempt finds the scan at its end. -/
def rest (scan : Scan) (s : State) : List Token × State :=
  scan.take (scan.text.size + 1) s

/-- The tokens of the whole text and the report. -/
def run (scan : Scan) : List Token × Report :=
  let (tokens, s) := scan.rest scan.start
  (tokens, s.report)

end ModeStack.Scan

namespace ModeStack.Grammar

/-- The report on a text, for detection. -/
def relevance (g : Grammar) (t : Text) : Scan.Report :=
  (Scan.run { grammar := g, text := t }).2

end ModeStack.Grammar
