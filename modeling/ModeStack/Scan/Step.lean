import ModeStack.Scan.State

/-!
# One step of a scan

A step finds the nearest match of the innermost mode's rules and acts on it. An illegal lexeme
ends the scan; the end of a mode emits its text and closes it, with the parents it ends; the
beginning of a child emits the pending text and opens the child; and where nothing matches, the
rest of the text belongs to the innermost mode. A scan whose cursor stands still for more than
`maxStalled` steps is abandoned.
-/

namespace ModeStack.Scan

open ModeStack.Regex (Span)

/-- The number of steps for which the cursor may stand still. -/
def maxStalled : Nat := 10000

/-! ## Opening a mode -/

/-- Rejects a match of the rule at place `index`: the later rules are tried at the same
position, or its character is passed if there are none. -/
def reject (scan : Scan) (s : State) (index : Nat) (span : Span) : State :=
  if (scan.top s).rules.size ≤ index + 1 then scan.passChar s span.start
  else { s with cursor := span.start, resume := some (index + 1) }

/-- Emits pending text before a mode opens and moves the cursor as its flags say. -/
def enter (scan : Scan) (s : State) (mode : Grammar.Mode) (span : Span) : State :=
  if mode.flags.skip then { s with cursor := span.stop }
  else
    let s :=
      if mode.flags.excludeBegin then { scan.flush s span.stop with cursor := span.stop }
      else
        { scan.flush s span.start with
          cursor := if mode.flags.returnBegin then span.start else span.stop }
    { s with score := s.score.addMode mode.relevance }

/-- Acts on a match of the rule at place `index`, which opens `child`. -/
def openMode (scan : Scan) (s : State) (child index : Nat) (span : Span) : State :=
  let mode := scan.grammar.mode child
  if mode.guard.allows scan.text span.start then
    let s := scan.enter s mode span
    { s with stack := child :: s.stack }
  else scan.reject s index span

/-! ## Closing modes -/

/-- From a mode that ends, the outermost that ends with it: parents follow as long as the flags
say so, up to but without the root. Gives it and what stays open. -/
def outermost (g : Grammar) (mode : Nat) : (below : List Nat) → Nat × List Nat
  | parent :: grandparent :: below =>
    if (g.mode mode).flags.endsParent then outermost g parent (grandparent :: below)
    else (mode, parent :: grandparent :: below)
  | below => (mode, below)

/-- Of the modes on a stack, the outermost that an end at `pos` closes, and what stays open. The
end may be that of a parent if the modes inside end with it. The root never ends. -/
def ending? (g : Grammar) (t : Text) (pos : Nat) : (stack : List Nat) → Option (Nat × List Nat)
  | index :: parent :: below =>
    let mode := g.mode index
    if mode.closing.any fun p => (p.matchAt t pos).isSome then
      some (outermost g index (parent :: below))
    else if mode.flags.endsWithParent then ending? g t pos (parent :: below)
    else none
  | _ => none

/-- Emits the text of the innermost mode when it ends and moves the cursor as its flags say. -/
def leave (scan : Scan) (s : State) (span : Span) : State :=
  let flags := (scan.top s).flags
  if flags.skip then { s with cursor := span.stop }
  else if flags.returnEnd then { scan.flush s span.start with cursor := span.start }
  else if flags.excludeEnd then { scan.flush s span.start with cursor := span.stop }
  else { scan.flush s span.stop with cursor := span.stop }

/-- Opens the mode that another starts when it ends. -/
def startNext (scan : Scan) (s : State) (ended : Nat) : State :=
  match (scan.grammar.mode ended).starts with
  | none => s
  | some next =>
    let mode := scan.grammar.mode next
    { s with
      stack := next :: s.stack
      score := if mode.flags.skip then s.score else s.score.addMode mode.relevance }

/-- Acts on a match of a terminator. If no open mode ends there, it is plain text. -/
def closeModes (scan : Scan) (s : State) (span : Span) : State :=
  match ending? scan.grammar scan.text span.start s.stack with
  | none => scan.passLexeme s span
  | some (ended, below) => scan.startNext { scan.leave s span with stack := below } ended

/-! ## Steps -/

/-- Acts on an illegal lexeme. -/
def illegalLexeme (scan : Scan) (s : State) (span : Span) : State :=
  if scan.ignoreIllegals then scan.passLexeme s span
  else scan.abandon { s with illegal := true }

/-- Acts on a match. -/
def act (scan : Scan) (s : State) (found : Rule.Found) : State :=
  match found.rule with
  | .opening child => scan.openMode s child found.index found.span
  | .illegal => scan.illegalLexeme s found.span
  | .ending => scan.closeModes s found.span

/-- Whether a match is an empty end where a mode has just opened, which would open the same mode
forever. -/
def isVacuousEnd (s : State) (found : Rule.Found) : Bool :=
  found.span.stop ≤ found.span.start && found.rule = .ending
    && s.last = some ⟨true, found.span.start⟩

/-- Whether a rule opens a mode. -/
def isOpening : Rule → Bool
  | .opening _ => true
  | _ => false

/-- Counts a step that has left the cursor at or before `before`, and abandons a scan that has
stood still for too long. -/
def countStall (scan : Scan) (s : State) (before : Nat) : State :=
  if !s.closed && s.cursor ≤ before then
    let s := { s with stalled := s.stalled + 1 }
    if maxStalled < s.stalled then scan.abandon s else s
  else { s with stalled := 0 }

/-- One step of a scan. -/
def step (scan : Scan) (s : State) : State :=
  let found? := (scan.top s).rules.find scan.text s.cursor s.resume
  let s := { s with resume := none }
  match found? with
  | none => scan.close s
  | some found =>
    if isVacuousEnd s found then scan.passChar s found.span.start
    else
      let s' := { s with last := some ⟨isOpening found.rule, found.span.start⟩ }
      scan.countStall (scan.act s' found) s.cursor

end ModeStack.Scan
