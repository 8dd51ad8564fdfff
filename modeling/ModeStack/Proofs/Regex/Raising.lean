import ModeStack.Proofs.Regex.Anywhere

/-!
# Patterns with their references raised

A reference to a group is written by its number, as in `\1`, or by its name. `raisedExpression`
reads a pattern as `expression` does, except that an atom `\N` refers to another group, by a given
offset, where a condition on the text from it on says so. References by name are left alone, also
where the name is a number, and so are numbers that begin with a zero.

Both are `expressionBy`, which reads a pattern given how its atoms are read.
-/

namespace ModeStack.Regex

/-! ## Expressions -/

namespace Expr

/-- The expression with references to other groups. -/
def mapReferences (f : Nat → Nat) : Expr → Expr
  | ref index ignoreCase => ref (f index) ignoreCase
  | seq a b => seq (a.mapReferences f) (b.mapReferences f)
  | alt a b => alt (a.mapReferences f) (b.mapReferences f)
  | group index e => group index (e.mapReferences f)
  | rep e lo hi greedy => rep (e.mapReferences f) lo hi greedy
  | look d negated e => look d negated (e.mapReferences f)
  | atomic e => atomic (e.mapReferences f)
  | e => e

/-- The expression with its references raised. -/
def raise (offset : Nat) (e : Expr) : Expr := e.mapReferences (· + offset)

/-- The expression without the numbers of its references. -/
def anonymous (e : Expr) : Expr := e.mapReferences fun _ => 0

variable {f : Nat → Nat} {e : Expr}

theorem mapReferences_id (e : Expr) : e.mapReferences id = e := by
  induction e with
  | seq a b iha ihb | alt a b iha ihb => rw [mapReferences, iha, ihb]
  | group _ e ih | rep e _ _ _ ih | look _ _ e ih | atomic e ih => rw [mapReferences, ih]
  | _ => rfl

theorem mapReferences_eq_empty_iff : e.mapReferences f = empty ↔ e = empty := by
  cases e <;> simp [mapReferences]

theorem isRepeatable_mapReferences (f : Nat → Nat) (e : Expr) :
    isRepeatable (e.mapReferences f) = isRepeatable e := by
  cases e <;> rfl

theorem mapReferences_ofSequence (f : Nat → Nat) (es : List Expr) :
    (ofSequence es).mapReferences f = ofSequence (es.map (mapReferences f)) := by
  induction es with
  | nil => rfl
  | cons e es ih =>
    cases es with
    | nil => rfl
    | cons e' es => exact congrArg (seq (e.mapReferences f)) ih

theorem mapReferences_ofAlternatives (f : Nat → Nat) (e : Expr) (es : List Expr) :
    (ofAlternatives e es).mapReferences f =
      ofAlternatives (e.mapReferences f) (es.map (mapReferences f)) := by
  induction es generalizing e with
  | nil => rfl
  | cons e' es ih => exact congrArg (alt (e.mapReferences f)) (ih e')

theorem references_ofSequence (es : List Expr) :
    (ofSequence es).references = es.flatMap references := by
  induction es with
  | nil => rfl
  | cons e es ih =>
    cases es with
    | nil => simp [ofSequence]
    | cons e' es =>
      rw [List.flatMap_cons, ← ih]
      rfl

theorem references_ofAlternatives (e : Expr) (es : List Expr) :
    (ofAlternatives e es).references = e.references ++ es.flatMap references := by
  induction es generalizing e with
  | nil => simp [ofAlternatives]
  | cons e' es ih =>
    rw [List.flatMap_cons, ← ih]
    rfl

end Expr

/-! ## Reading by atoms -/

/-- Reads what may follow the sign of a repetition. -/
def withBounds (e : Expr) (b : Bounds) : Parser Expr := do
  skip
  let lazy ← accept '?'
  let greedy := lazy == (← get).flags.swapGreed
  let possessive ← accept '+'
  return if possessive then .atomic (.rep e b.lo b.hi greedy) else .rep e b.lo b.hi greedy

/-- Reads the repetition of an atom. -/
def withRepetition (e : Expr) : Parser Expr := do
  skip
  match ← repetition? with
  | none => return e
  | some b =>
    if !isRepeatable e then throw .nothingToRepeat
    else if !b.isValid then throw .reversedBounds
    else withBounds e b

section Readers

variable (readAtom : Parser Expr)

/-- Reads pieces up to `|`, `)` or the end of the pattern. -/
def piecesBy : (rounds : Nat) → Parser (List Expr)
  | 0 => return []
  | rounds + 1 => do
    skip
    if isStop (next (← remaining)) then return []
    else do
      let e ← readAtom >>= withRepetition
      let es ← piecesBy rounds
      return if e = .empty then es else e :: es

/-- Reads a sequence of pieces. -/
def sequenceBy : Parser Expr := do
  return .ofSequence (← piecesBy readAtom ((← remaining).length + 1))

/-- Reads the alternatives after the first. -/
def alternativesBy : (rounds : Nat) → Parser (List Expr)
  | 0 => return []
  | rounds + 1 => do
    if ← accept '|' then
      let e ← sequenceBy readAtom
      let es ← alternativesBy rounds
      return e :: es
    else return []

/-- Reads alternatives separated by `|`. -/
def alternationBy : Parser Expr := do
  let e ← sequenceBy readAtom
  let es ← alternativesBy readAtom ((← remaining).length + 1)
  let r ← get
  if es.isEmpty && r.numbered && !r.names.isEmpty then throw .mixedReferences
  else return .ofAlternatives e es

end Readers

section Alternatives

variable {readAtom : Parser Expr} {r : Reading} {rounds : Nat} {cs : List Char}

theorem alternativesBy_bar (hr : r.rest = '|' :: cs) :
    alternativesBy readAtom (rounds + 1) r = (do
      let e ← sequenceBy readAtom
      let es ← alternativesBy readAtom rounds
      return e :: es : Parser (List Expr)) (r.withRest cs) := by
  conv_lhs => unfold alternativesBy
  rw [parser_bind_of_ok (accept_of_cons hr)]
  rfl

theorem alternativesBy_end (hr : r.rest.head? ≠ some '|') :
    alternativesBy readAtom (rounds + 1) r = .ok ([], r) := by
  unfold alternativesBy
  rw [parser_bind_of_ok (accept_of_head?_ne hr)]
  rfl

end Alternatives

/-- Reads a group, unless it nests too deep. -/
def groupWithin (depth : Nat) (inner : Parser Expr) : Parser Expr :=
  if depth = 0 then throw .tooDeeplyNested else group inner

/-- Reads an expression in which groups nest less than `depth` deep, given how an atom is read if
it is known how groups are. -/
def expressionBy (readAtom : Parser Expr → Parser Expr) : (depth : Nat) → Parser Expr
  | 0 => throw .tooDeeplyNested
  | depth + 1 => alternationBy (readAtom (groupWithin depth (expressionBy readAtom depth)))

/-- Whether a reference by number comes next, of which the first digit is not zero. -/
def isNumbered : List Char → Bool
  | '\\' :: c :: _ => Rule.Position.isLeading c
  | _ => false

/-- Reads an atom. A reference by number is raised where `raises` says so. -/
def raisedAtom (offset : Nat) (raises : List Char → Bool) (group : Parser Expr) : Parser Expr := do
  let cs ← remaining
  let e ← atom group
  return if isNumbered cs && raises cs then e.raise offset else e

/-- Reads an expression, with its references by number raised where `raises` says so. -/
def raisedExpression (offset : Nat) (raises : List Char → Bool) : (depth : Nat) → Parser Expr :=
  expressionBy (raisedAtom offset raises)

theorem piece_eq (g : Parser Expr) : piece g = atom g >>= withRepetition := rfl

theorem piecesBy_atom (g : Parser Expr) (rounds : Nat) :
    piecesBy (atom g) rounds = pieces g rounds := by
  induction rounds with
  | zero => rfl
  | succ rounds ih =>
    funext r
    cases hskip : skip r with
    | error e =>
      unfold piecesBy pieces
      rw [parser_bind_of_error hskip, parser_bind_of_error hskip]
    | ok x =>
      obtain ⟨u, r₁⟩ := x
      rw [piecesBy, ih, ← piece_eq, parser_bind_of_ok hskip, bind_remaining,
        pieces_skip hskip (skip_skip hskip)]
      cases hstop : isStop (next r₁.rest) with
      | true => exact (pieces_stop hstop).symm
      | false => exact (pieces_more (skip_skip hskip) hstop).symm

theorem sequenceBy_atom (g : Parser Expr) : sequenceBy (atom g) = sequence g := by
  simp only [sequenceBy, sequence, piecesBy_atom]

theorem alternativesBy_atom (g : Parser Expr) (rounds : Nat) :
    alternativesBy (atom g) rounds = alternatives g rounds := by
  induction rounds with
  | zero => rfl
  | succ rounds ih => rw [alternativesBy, alternatives, ih, sequenceBy_atom]

/-- Patterns are read by their atoms. -/
theorem expressionBy_atom (depth : Nat) : expressionBy atom depth = expression depth := by
  induction depth with
  | zero => rfl
  | succ depth ih =>
    simp only [expressionBy, expression, groupWithin, ih, alternationBy, alternation,
      sequenceBy_atom, alternativesBy_atom]
    rfl

/-- By an offset of zero nothing is raised. -/
theorem raisedExpression_zero (raises : List Char → Bool) (depth : Nat) :
    raisedExpression 0 raises depth = expression depth := by
  have hatom : raisedAtom 0 raises = atom := by
    funext g
    simp only [raisedAtom, Expr.raise, Nat.add_zero, ← Function.id_def, Expr.mapReferences_id,
      ite_self, bind_pure]
    rfl
  rw [raisedExpression, hatom, expressionBy_atom]

end ModeStack.Regex
