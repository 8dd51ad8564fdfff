import ModeStack.Proofs.Regex.Moved

/-!
# What flags have no part in

Flags decide what the parts of a pattern mean, but not what its parts are: only verbose mode changes
how far anything is read. `Blind` says of two parsers that they do the same from states that differ
in other flags alone, up to what flags decide (`Expr.shape`). It is kept by the ways in which
parsers are put together, and holds of each part of the parser in turn.

Main result: `expression_blind`.
-/

namespace ModeStack.Regex

open ModeStack.Text

/-- The expression under no flags. -/
def Expr.shape : Expr → Expr
  | char c _ => char c false
  | any _ => any false
  | set s _ => set s false
  | assert .lineStart => assert .textStart
  | assert .lineEnd => assert .textEnd
  | seq a b => seq a.shape b.shape
  | alt a b => alt a.shape b.shape
  | group index e => group index e.shape
  | rep e lo hi _ => rep e.shape lo hi true
  | ref index _ => ref index false
  | look d negated e => look d negated e.shape
  | atomic e => atomic e.shape
  | e => e

/-- The state under no flags but verbose mode. -/
def Reading.bare (r : Reading) : Reading := { r with flags := { verbose := r.flags.verbose } }

/-- From states that differ in flags other than verbose mode, two parsers do the same, up to what
flags decide. -/
def Blind {α β : Type} (p q : Parser α) (f : α → β) : Prop :=
  ∀ r s : Reading, r.bare = s.bare →
    (p r).map (Prod.map f Reading.bare) = (q s).map (Prod.map f Reading.bare)

section Rules

variable {α β γ δ : Type} {p q : Parser α} {f : α → β} {r s : Reading}

theorem rest_of_bare (h : r.bare = s.bare) : r.rest = s.rest := congrArg (·.rest) h

theorem verbose_of_bare (h : r.bare = s.bare) : r.flags.verbose = s.flags.verbose :=
  congrArg (·.flags.verbose) h

theorem groups_of_bare (h : r.bare = s.bare) : r.groups = s.groups := congrArg (·.groups) h

theorem names_of_bare (h : r.bare = s.bare) : r.names = s.names := congrArg (·.names) h

theorem numbered_of_bare (h : r.bare = s.bare) : r.numbered = s.numbered := congrArg (·.numbered) h

theorem bare_withRest (h : r.bare = s.bare) (cs : List Char) :
    (r.withRest cs).bare = (s.withRest cs).bare :=
  congrArg (·.withRest cs) h

namespace Blind

theorem pure {a b : α} (h : f a = f b) : Blind (pure a) (pure b) f := by
  intro r s hrs
  simp only [pure_apply, Except.map, Prod.map, h, hrs]

theorem throw (e : SyntaxError) : Blind (throw e) (throw e) f := fun _ _ _ => rfl

theorem bind {g : γ → δ} {k l : α → Parser γ} (hp : Blind p q f)
    (hk : ∀ a b, f a = f b → Blind (k a) (l b) g) : Blind (p >>= k) (q >>= l) g := by
  intro r s hrs
  have hpq := hp r s hrs
  cases hpr : p r with
  | error e =>
    cases hqs : q s with
    | error e' =>
      rw [hpr, hqs] at hpq
      rw [parser_bind_of_error hpr, parser_bind_of_error hqs, Except.error.inj hpq]
    | ok y =>
      rw [hpr, hqs] at hpq
      cases hpq
  | ok x =>
    cases hqs : q s with
    | error e' =>
      rw [hpr, hqs] at hpq
      cases hpq
    | ok y =>
      rw [hpr, hqs] at hpq
      obtain ⟨hvalue, hbare⟩ := Prod.mk.inj (Except.ok.inj hpq)
      rw [parser_bind_of_ok hpr, parser_bind_of_ok hqs]
      exact hk x.1 y.1 hvalue x.2 y.2 hbare

theorem get : Blind get get Reading.bare := fun _ _ hrs => by
  simp only [MonadState.get, getThe, MonadStateOf.get, StateT.get, Pure.pure, Except.pure,
    Except.map, Prod.map, hrs]

theorem modify {g h : Reading → Reading} (hgh : ∀ r s, r.bare = s.bare → (g r).bare = (h s).bare) :
    Blind (modify g) (modify h) id := fun r s hrs =>
  congrArg (fun t => Except.ok ((), t)) (hgh r s hrs)

theorem continueAt (cs : List Char) : Blind (continueAt cs) (continueAt cs) id :=
  modify fun _ _ hrs => bare_withRest hrs cs

theorem lift (x : Except SyntaxError α) : Blind (liftM x) (liftM x) id := by
  intro r s hrs
  cases x with
  | error e => rfl
  | ok a => exact congrArg (fun t => Except.ok (a, t)) hrs

/-- A parser that looks at what is left to read, and at nothing else. -/
theorem of_eq {F : Bool → List Char → Except SyntaxError (α × List Char)}
    (h : ∀ r, p r = (F r.flags.verbose r.rest).map fun x => (x.1, r.withRest x.2)) :
    Blind p p id := by
  intro r s hrs
  rw [h, h, verbose_of_bare hrs, rest_of_bare hrs]
  cases F s.flags.verbose s.rest with
  | error e => rfl
  | ok x => exact congrArg (fun t => Except.ok (x.1, t)) (bare_withRest hrs x.2)

theorem ite {c : Prop} [Decidable c] {p' q' : Parser α} (hp : Blind p q f)
    (hq : Blind p' q' f) : Blind (if c then p else p') (if c then q else q') f := by
  split_ifs
  · exact hp
  · exact hq

theorem map (h : Blind p q f) {g : α → γ} {k : γ → δ} {l : α → γ}
    (hg : ∀ a b, f a = f b → k (g a) = k (l b)) :
    Blind (do return g (← p)) (do return l (← q)) k :=
  h.bind fun a b hab => .pure (hg a b hab)

end Blind

theorem remaining_blind : Blind remaining remaining id := by
  refine Blind.get.bind fun r s hrs => .pure ?_
  exact rest_of_bare hrs

end Rules

/-! ## Characters, names and references -/

theorem skip_blind : Blind skip skip id := by
  refine .of_eq (F := fun v cs => (skipped v .space cs).map fun rest => ((), rest)) fun r => ?_
  unfold skip
  rw [bind_get]
  cases skipped r.flags.verbose .space r.rest <;> rfl

theorem name_blind (close : Char) : Blind (name close) (name close) id := by
  refine .of_eq (F := fun _ cs => (nameUpTo? close cs).elim (.error .invalidName) .ok) fun r => ?_
  rw [name_eq]
  cases nameUpTo? close r.rest <;> rfl

theorem accept_blind (c : Char) : Blind (accept c) (accept c) id := by
  unfold accept
  refine remaining_blind.bind fun cs cs' hcs => ?_
  obtain rfl : cs = cs' := hcs
  split
  · exact .ite ((Blind.continueAt _).bind fun _ _ _ => .pure rfl) (.pure rfl)
  · exact .pure rfl

theorem repetition?_blind : Blind repetition? repetition? id := by
  refine .of_eq (F := fun v cs => (optionally (sign? v) cs).elim (.error .nothingToRepeat) .ok)
    fun r => ?_
  rw [repetition?_eq]
  cases optionally (sign? r.flags.verbose) r.rest <;> rfl

theorem codePoint_blind (count : Nat) : Blind (codePoint count) (codePoint count) id := by
  refine .of_eq (F := fun _ cs => (hexDigits? count cs).elim (.error .invalidCodePoint) fun x =>
    if (hexValue x.1).isValidChar then .ok (Char.ofNat (hexValue x.1), x.2)
    else .error .invalidCodePoint) fun r => ?_
  rw [codePoint_eq]
  cases hexDigits? count r.rest with
  | none => rfl
  | some x =>
    simp only [Option.elim]
    split_ifs <;> rfl

theorem property_blind (negated : Bool) : Blind (property negated) (property negated) id := by
  refine .of_eq (F := fun _ cs => (propertyName? cs).elim
    (.error (if cs = [] then .invalidEscape else .unknownProperty))
    fun x => (propertyOf negated x.1).map fun s => (s, x.2)) fun r => ?_
  rw [property_eq]
  cases propertyName? r.rest with
  | none => rfl
  | some x => cases hx : propertyOf negated x.1 <;> simp [hx, Except.map]

theorem namedReference_blind (close : Char) :
    Blind (namedReference close) (namedReference close) Expr.shape := by
  unfold namedReference
  refine remaining_blind.bind fun cs cs' hcs => ?_
  obtain rfl : cs = cs' := hcs
  dsimp only
  split
  · simp only [pure_bind, if_true]
    refine (Blind.continueAt _).bind fun _ _ _ => (name_blind close).bind fun id id' hid => ?_
    obtain rfl : id = id' := hid
    refine Blind.get.bind fun r s hrs => ?_
    rw [groups_of_bare hrs]
    split
    · exact .ite (.pure rfl) (.throw _)
    · exact .throw _
  · simp only [pure_bind, Bool.false_eq_true, if_false]
    refine (name_blind close).bind fun id id' hid => ?_
    obtain rfl : id = id' := hid
    refine Blind.get.bind fun r s hrs => ?_
    rw [names_of_bare hrs]
    split
    · exact .pure rfl
    · exact .pure rfl
    · exact .throw _

/-! ## Escapes and brackets -/

theorem commonEscape_blind (c : Char) : Blind (commonEscape c) (commonEscape c) Expr.shape := by
  unfold commonEscape
  refine Blind.get.bind fun r s hrs => ?_
  dsimp only
  split
  · exact .pure rfl
  · split
    · exact (codePoint_blind 2).map fun a b h => congrArg (Expr.char · false) h
    · exact (codePoint_blind 4).map fun a b h => congrArg (Expr.char · false) h
    · exact (codePoint_blind 8).map fun a b h => congrArg (Expr.char · false) h
    · exact (property_blind false).map fun a b h => congrArg (Expr.set · false) h
    · exact (property_blind true).map fun a b h => congrArg (Expr.set · false) h
    · split
      · exact .pure rfl
      · exact .ite (.throw _) (.pure rfl)

theorem escape_blind : Blind escape escape Expr.shape := by
  unfold escape
  refine remaining_blind.bind fun cs cs' hcs => ?_
  obtain rfl : cs = cs' := hcs
  split
  · exact .throw _
  · refine .ite ?_ ?_
    · split
      · rename_i rest _
        exact (Blind.modify fun r s hrs => congrArg (fun t : Reading =>
          { t with rest := rest, numbered := true }) hrs).bind fun _ _ _ =>
            Blind.get.bind fun r s hrs => .pure rfl
      · exact .throw _
    · refine (Blind.continueAt _).bind fun _ _ _ => ?_
      split
      · exact (Blind.continueAt _).bind fun _ _ _ => namedReference_blind _
      · exact (Blind.continueAt _).bind fun _ _ _ => namedReference_blind _
      · exact .throw _
      · exact .throw _
      · split
        · exact .pure rfl
        · exact commonEscape_blind _

theorem atomOf_shape (e : Expr) : atomOf e.shape = atomOf e := by
  cases e with
  | assert a => cases a <;> rfl
  | _ => rfl

theorem bracketEscape_blind : Blind bracketEscape bracketEscape id := by
  unfold bracketEscape
  refine remaining_blind.bind fun cs cs' hcs => ?_
  obtain rfl : cs = cs' := hcs
  split
  · exact .throw _
  · refine (Blind.continueAt _).bind fun _ _ _ => .ite (.throw _) (.ite (.pure rfl) ?_)
    refine (commonEscape_blind _).bind fun e e' he => ?_
    show Blind (atomOf e) (atomOf e') id
    rw [← atomOf_shape e, he, atomOf_shape]
    cases e' <;> first | exact .pure rfl | exact .throw _

theorem bracketAtoms_blind (rounds opened : Nat) (read : List Bracket.Atom) :
    Blind (bracketAtoms rounds opened read) (bracketAtoms rounds opened read) id := by
  induction rounds generalizing opened read with
  | zero => exact .throw _
  | succ rounds ih =>
    unfold bracketAtoms
    refine remaining_blind.bind fun cs cs' hcs => ?_
    obtain rfl : cs = cs' := hcs
    split
    · exact .throw _
    · refine (Blind.continueAt _).bind fun _ _ _ => bracketEscape_blind.bind fun a b hab => ?_
      obtain rfl : a = b := hab
      exact ih _ _
    · exact (Blind.continueAt _).bind fun _ _ _ => ih _ _
    · refine (Blind.continueAt _).bind fun _ _ _ => ?_
      cases opened with
      | zero => exact .pure rfl
      | succ opened => exact ih _ _
    · exact (Blind.continueAt _).bind fun _ _ _ => ih _ _

theorem bracket_blind : Blind bracket bracket Expr.shape := by
  unfold bracket
  refine remaining_blind.bind fun cs cs' hcs => ?_
  obtain rfl : cs = cs' := hcs
  dsimp only
  refine (Blind.continueAt _).bind fun _ _ _ => (bracketAtoms_blind _ _ _).bind fun a b hab => ?_
  obtain rfl : a = b := hab
  refine (Blind.lift (Bracket.read a)).bind fun set set' hset => ?_
  obtain rfl : set = set' := hset
  exact Blind.get.bind fun r s hrs => .pure rfl

/-! ## Groups -/

theorem closeGroup_blind : Blind closeGroup closeGroup id := by
  unfold closeGroup
  refine skip_blind.bind fun _ _ _ => remaining_blind.bind fun cs cs' hcs => ?_
  obtain rfl : cs = cs' := hcs
  split
  · exact .continueAt _
  · exact .throw _

theorem openGroup_blind : Blind openGroup openGroup id := by
  unfold openGroup
  exact (Blind.modify fun r s hrs =>
    congrArg (fun t : Reading => { t with groups := t.groups + 1 }) hrs).bind fun _ _ _ =>
      Blind.get.bind fun r s hrs => .pure (groups_of_bare hrs)

theorem verbose_set? {flags flags' : Flags} (hflags : flags.verbose = flags'.verbose) (c : Char)
    (on : Bool) : (flags.set? c on).map (·.verbose) = (flags'.set? c on).map (·.verbose) := by
  unfold Flags.set?
  split <;> simp [hflags, apply_ite]

theorem bare_withFlags {r s : Reading} {flags flags' : Flags} (hrs : r.bare = s.bare)
    (hflags : flags.verbose = flags'.verbose) :
    ({ r with flags := flags } : Reading).bare = ({ s with flags := flags' } : Reading).bare := by
  show ({ r.bare with flags := { verbose := flags.verbose } } : Reading) =
    { s.bare with flags := { verbose := flags'.verbose } }
  rw [hrs, hflags]

section Inner

variable {inner : Parser Expr} (h : Blind inner inner Expr.shape)

include h

theorem closed_blind : Blind (closed inner) (closed inner) Expr.shape := by
  unfold closed
  exact h.bind fun a b hab => closeGroup_blind.bind fun _ _ _ => .pure hab

theorem bounded_blind {flags flags' : Flags} (hflags : flags.verbose = flags'.verbose) :
    Blind (bounded inner flags) (bounded inner flags') Expr.shape := by
  unfold bounded
  exact (closed_blind h).bind fun a b hab =>
    (Blind.modify fun r s hrs => bare_withFlags hrs hflags).bind fun _ _ _ => .pure hab

theorem namedGroup_blind (close : Char) :
    Blind (namedGroup inner close) (namedGroup inner close) Expr.shape := by
  unfold namedGroup
  refine openGroup_blind.bind fun index index' hindex => ?_
  obtain rfl : index = index' := hindex
  refine (name_blind close).bind fun id id' hid => ?_
  obtain rfl : id = id' := hid
  refine (Blind.modify fun r s hrs => congrArg (fun t : Reading =>
    { t with names := (id, index) :: t.names }) hrs).bind fun _ _ _ => ?_
  exact (closed_blind h).map fun a b hab => congrArg (Expr.group index) hab

theorem flagLetters_blind {flags flags' : Flags} (hflags : flags.verbose = flags'.verbose)
    (rounds : Nat) (on bare : Bool) :
    Blind (flagLetters inner flags rounds on bare) (flagLetters inner flags' rounds on bare)
      Expr.shape := by
  induction rounds generalizing on bare with
  | zero => exact .throw _
  | succ rounds ih =>
    have hbounded := bounded_blind h hflags
    unfold flagLetters
    refine skip_blind.bind fun _ _ _ => remaining_blind.bind fun cs cs' hcs => ?_
    obtain rfl : cs = cs' := hcs
    split
    · exact .throw _
    · cases bare
      · exact (Blind.continueAt _).bind fun _ _ _ => .pure rfl
      · exact .throw _
    · cases bare
      · exact (Blind.continueAt _).bind fun _ _ _ => hbounded
      · cases on
        · exact .throw _
        · exact (Blind.continueAt _).bind fun _ _ _ => hbounded
    · cases on
      · exact .throw _
      · exact (Blind.continueAt _).bind fun _ _ _ => ih _ _
    · rename_i c rest _ _ _
      refine Blind.get.bind fun r s hrs => ?_
      have hset := verbose_set? (verbose_of_bare hrs) c on
      cases hr : r.flags.set? c on with
      | none =>
        cases hs : s.flags.set? c on with
        | none => exact .throw _
        | some set' =>
          rw [hr, hs] at hset
          cases hset
      | some set =>
        cases hs : s.flags.set? c on with
        | none =>
          rw [hr, hs] at hset
          cases hset
        | some set' =>
          rw [hr, hs] at hset
          exact (Blind.modify fun r s hrs =>
            bare_withFlags (bare_withRest hrs rest) (Option.some.inj hset)).bind fun _ _ _ => ih _ _

theorem group_blind : Blind (group inner) (group inner) Expr.shape := by
  unfold group
  refine skip_blind.bind fun _ _ _ => remaining_blind.bind fun cs cs' hcs => ?_
  obtain rfl : cs = cs' := hcs
  have hlook (d : Direction) (negated : Bool) : Blind (do return .look d negated (← closed inner))
      (do return .look d negated (← closed inner)) Expr.shape :=
    (closed_blind h).map fun a b hab => congrArg (Expr.look d negated) hab
  split
  case h_9 =>
    exact (Blind.continueAt _).bind fun _ _ _ =>
      (closed_blind h).map fun a b hab => congrArg Expr.atomic hab
  case h_10 =>
    exact (Blind.continueAt _).bind fun _ _ _ => Blind.get.bind fun r s hrs =>
      flagLetters_blind h (verbose_of_bare hrs) _ _ _
  case h_11 =>
    refine openGroup_blind.bind fun index index' hindex => ?_
    obtain rfl : index = index' := hindex
    exact (closed_blind h).map fun a b hab => congrArg (Expr.group index) hab
  all_goals refine (Blind.continueAt _).bind fun _ _ _ => ?_
  · exact hlook _ _
  · exact hlook _ _
  · exact hlook _ _
  · exact hlook _ _
  · exact namedGroup_blind h _
  · exact namedGroup_blind h _
  · exact namedGroup_blind h _
  · exact namedReference_blind _

end Inner

/-! ## Atoms, repetitions and sequences -/

theorem isRepeatable_shape (e : Expr) : isRepeatable e.shape = isRepeatable e := by
  cases e with
  | assert a => cases a <;> rfl
  | _ => rfl

theorem Expr.shape_eq_empty_iff {e : Expr} : e.shape = .empty ↔ e = .empty := by
  constructor
  · intro h
    cases e with
    | empty => rfl
    | assert a => cases a <;> cases h
    | _ => cases h
  · rintro rfl
    rfl

theorem Expr.references_shape (e : Expr) : e.shape.references = e.references := by
  induction e with
  | seq a b iha ihb | alt a b iha ihb =>
    show a.shape.references ++ b.shape.references = a.references ++ b.references
    rw [iha, ihb]
  | group _ e ih | rep e _ _ _ ih | look _ _ e ih | atomic e ih => exact ih
  | assert a => cases a <;> rfl
  | _ => rfl

theorem shape_ofSequence {es es' : List Expr} (h : es.map Expr.shape = es'.map Expr.shape) :
    (Expr.ofSequence es).shape = (Expr.ofSequence es').shape := by
  suffices hmap : ∀ es : List Expr,
      (Expr.ofSequence es).shape = Expr.ofSequence (es.map Expr.shape) by
    rw [hmap, hmap, h]
  intro es
  induction es with
  | nil => rfl
  | cons e es ih =>
    cases es with
    | nil => rfl
    | cons f fs => exact congrArg (Expr.seq e.shape) ih

theorem shape_ofAlternatives {e e' : Expr} {es es' : List Expr} (he : e.shape = e'.shape)
    (h : es.map Expr.shape = es'.map Expr.shape) :
    (Expr.ofAlternatives e es).shape = (Expr.ofAlternatives e' es').shape := by
  suffices hmap : ∀ (e : Expr) (es : List Expr),
      (Expr.ofAlternatives e es).shape = Expr.ofAlternatives e.shape (es.map Expr.shape) by
    rw [hmap, hmap, he, h]
  intro e es
  induction es generalizing e with
  | nil => rfl
  | cons f fs ih => exact congrArg (Expr.alt e.shape) (ih f)

section Parts

variable {g : Parser Expr} (h : Blind g g Expr.shape)

include h

theorem atom_blind : Blind (atom g) (atom g) Expr.shape := by
  unfold atom
  refine Blind.get.bind fun r s hrs => ?_
  rw [rest_of_bare hrs]
  have hline (a b : Assertion) (hab : (Expr.assert a).shape = (Expr.assert b).shape)
      (l m : Bool) : (Expr.assert (if l then a else b)).shape =
        (Expr.assert (if m then a else b)).shape := by
    cases l <;> cases m <;> simp [hab]
  split
  · exact .pure rfl
  · exact (Blind.continueAt _).bind fun _ _ _ => .pure rfl
  · exact (Blind.continueAt _).bind fun _ _ _ => .pure (hline .lineStart .textStart rfl _ _)
  · exact (Blind.continueAt _).bind fun _ _ _ => .pure (hline .lineEnd .textEnd rfl _ _)
  · exact (Blind.continueAt _).bind fun _ _ _ => h
  · exact (Blind.continueAt _).bind fun _ _ _ => escape_blind
  · exact (Blind.continueAt _).bind fun _ _ _ => bracket_blind
  · exact .ite (.pure rfl) ((Blind.continueAt _).bind fun _ _ _ => .pure rfl)

theorem piece_blind : Blind (piece g) (piece g) Expr.shape := by
  unfold piece
  refine (atom_blind h).bind fun e e' he => skip_blind.bind fun _ _ _ =>
    repetition?_blind.bind fun sign sign' hsign => ?_
  obtain rfl : sign = sign' := hsign
  cases sign with
  | none => exact .pure he
  | some b =>
    have hrepeatable : isRepeatable e = isRepeatable e' := by
      rw [← isRepeatable_shape, he, isRepeatable_shape]
    dsimp only
    rw [hrepeatable]
    have hrest : Blind
        (do skip; let lazy ← accept '?'; let greedy := lazy == (← get).flags.swapGreed
            let possessive ← accept '+'; let repeated := Expr.rep e b.lo b.hi greedy
            return if possessive then .atomic repeated else repeated)
        (do skip; let lazy ← accept '?'; let greedy := lazy == (← get).flags.swapGreed
            let possessive ← accept '+'; let repeated := Expr.rep e' b.lo b.hi greedy
            return if possessive then .atomic repeated else repeated) Expr.shape := by
      refine skip_blind.bind fun _ _ _ => (accept_blind '?').bind fun lazy lazy' hlazy =>
        Blind.get.bind fun r s hrs => (accept_blind '+').bind fun poss poss' hposs => .pure ?_
      obtain rfl : poss = poss' := hposs
      cases poss with
      | true => exact congrArg (fun e : Expr => Expr.atomic (.rep e b.lo b.hi true)) he
      | false => exact congrArg (fun e : Expr => Expr.rep e b.lo b.hi true) he
    cases isRepeatable e' with
    | false => exact .throw _
    | true =>
      cases b.isValid with
      | false => exact .throw _
      | true => exact hrest

theorem pieces_blind (rounds : Nat) : Blind (pieces g rounds) (pieces g rounds)
    (List.map Expr.shape) := by
  induction rounds with
  | zero => exact .pure rfl
  | succ rounds ih =>
    unfold pieces
    refine skip_blind.bind fun _ _ _ => remaining_blind.bind fun cs cs' hcs => ?_
    obtain rfl : cs = cs' := hcs
    split
    · exact .pure rfl
    · exact .pure rfl
    · exact .pure rfl
    · refine (piece_blind h).bind fun e e' he => ih.bind fun es es' hes => .pure ?_
      have hempty : e = .empty ↔ e' = .empty := by
        rw [← Expr.shape_eq_empty_iff, he, Expr.shape_eq_empty_iff]
      simp only [hempty]
      split_ifs
      · exact hes
      · rw [List.map_cons, List.map_cons, he, hes]

theorem sequence_blind : Blind (sequence g) (sequence g) Expr.shape := by
  unfold sequence
  refine remaining_blind.bind fun cs cs' hcs => ?_
  obtain rfl : cs = cs' := hcs
  exact (pieces_blind h _).map fun _ _ => shape_ofSequence

theorem alternatives_blind (rounds : Nat) : Blind (alternatives g rounds) (alternatives g rounds)
    (List.map Expr.shape) := by
  induction rounds with
  | zero => exact .pure rfl
  | succ rounds ih =>
    unfold alternatives
    refine (accept_blind '|').bind fun bar bar' hbar => ?_
    obtain rfl : bar = bar' := hbar
    refine .ite ?_ (.pure rfl)
    refine (sequence_blind h).bind fun e e' he => ih.bind fun es es' hes => .pure ?_
    rw [List.map_cons, List.map_cons, he, hes]

theorem alternation_blind : Blind (alternation g) (alternation g) Expr.shape := by
  unfold alternation
  refine (sequence_blind h).bind fun e e' he => remaining_blind.bind fun cs cs' hcs => ?_
  obtain rfl : cs = cs' := hcs
  refine (alternatives_blind h _).bind fun es es' hes => Blind.get.bind fun r s hrs => ?_
  have hisEmpty : es.isEmpty = es'.isEmpty := by
    simpa using congrArg List.isEmpty hes
  rw [hisEmpty, numbered_of_bare hrs, names_of_bare hrs]
  exact .ite (.throw _) (.pure (shape_ofAlternatives he hes))

end Parts

/-- **Flags have no part in what the parts of a pattern are.** -/
theorem expression_blind (depth : Nat) :
    Blind (expression depth) (expression depth) Expr.shape := by
  induction depth with
  | zero => exact .throw _
  | succ depth ih => exact alternation_blind (.ite (.throw _) (group_blind ih))

/-- What is read under some flags is read under others too. -/
theorem exists_expression_of_bare {depth : Nat} {r r₁ s : Reading} {e : Expr}
    (hread : expression depth r = .ok (e, r₁)) (hrs : r.bare = s.bare) :
    ∃ e' s₁, expression depth s = .ok (e', s₁) ∧ e'.shape = e.shape ∧ s₁.bare = r₁.bare := by
  have hblind := expression_blind depth r s hrs
  rw [hread] at hblind
  cases hs : expression depth s with
  | error err =>
    rw [hs] at hblind
    cases hblind
  | ok x =>
    rw [hs] at hblind
    obtain ⟨hshape, hbare⟩ := Prod.mk.inj (Except.ok.inj hblind)
    exact ⟨x.1, x.2, rfl, hshape.symm, hbare.symm⟩

end ModeStack.Regex
