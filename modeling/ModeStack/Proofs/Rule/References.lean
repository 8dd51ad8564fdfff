import ModeStack.Proofs.Regex.Movable
import ModeStack.Proofs.Regex.Renumbered

/-!
# What renumbering does to the meaning of a pattern

A pattern that has been renumbered means what it meant before, but for the numbers of its
references. Which references are raised can be told exactly: those of which the number does not
begin with a zero, where the renumbering machine counts itself outside brackets
(`ReadRaised.exact`). Wherever a reference is read, it should be outside brackets; but it takes a
bracket in a comment for the beginning of a set. Where no comment leaves a bracket open, no
reference is missed for that reason (`ReadRaised.raised`).

Main result: `renumber_raises`.
-/

namespace ModeStack.Rule

open ModeStack.Regex

variable {source text written : String} {offset groups : Nat} {ignoreCase : Bool} {e e' : Expr}

/-- Reads all of a text as a pattern. The groups referred to need not exist. -/
def readWhole (read : Parser Expr) (text : String) : Except SyntaxError (Expr × Nat) := do
  let (e, r) ← read.run { rest := text.toList }
  if !r.rest.isEmpty then throw .unopenedGroup
  else return (e, r.groups)

theorem readWhole_eq_ok_iff {read : Parser Expr} : readWhole read text = .ok (e, groups) ↔
    ∃ r, read { rest := text.toList } = .ok (e, r) ∧ r.rest = [] ∧ r.groups = groups := by
  constructor
  · intro h
    obtain ⟨⟨e', r⟩, hread, h⟩ := exists_of_bind_eq_ok h
    dsimp only at h
    split_ifs at h with hrest
    cases h
    exact ⟨r, hread, by simpa using hrest, rfl⟩
  · rintro ⟨r, hread, hrest, rfl⟩
    have hrun : read.run { rest := text.toList } = .ok (e, r) := hread
    rw [readWhole, hrun]
    show (if !r.rest.isEmpty then _ else _) = _
    rw [hrest]
    rfl

/-- A pattern is a text that can be read and refers to its own groups only. -/
theorem parse_eq_ok_iff : parse text = .ok (e, groups) ↔
    readWhole (expression maxDepth) text = .ok (e, groups) ∧
      ∀ index ∈ e.references, 1 ≤ index ∧ index ≤ groups := by
  rw [readWhole_eq_ok_iff]
  constructor
  · intro h
    cases hread : expression maxDepth { rest := text.toList } with
    | error err =>
      rw [parse_of_error hread] at h
      cases h
    | ok x =>
      obtain ⟨e', r⟩ := x
      rw [parse_of_expression hread] at h
      split_ifs at h with hrest hreferences
      cases h
      exact ⟨⟨r, rfl, by simpa using hrest, rfl⟩, by simpa using hreferences⟩
  · rintro ⟨⟨r, hread, hrest, rfl⟩, hreferences⟩
    rw [parse_of_expression hread, hrest, if_neg (by simp), if_pos (by simpa using hreferences)]

/-- What is read where the references of a pattern have been raised in its text. -/
structure ReadRaised (offset : Nat) (source written : String) (e e' : Expr) (groups : Nat) :
    Prop where
  /-- What is written can be read, and has as many groups. -/
  reads : readWhole (expression maxDepth) written = .ok (e', groups)
  /-- Nothing changes but the numbers of references. -/
  anonymous : e'.anonymous = e.anonymous
  /-- A reference `\N` is raised where the machine counts itself outside brackets. -/
  exact : readWhole (raisedExpression offset (standsOutside source.toList) maxDepth) source =
    .ok (e', groups)
  /-- If no comment leaves a bracket open, every reference `\N` is raised. -/
  raised : commentsClose source.toList = true →
    readWhole (raisedExpression offset (fun _ => true) maxDepth) source = .ok (e', groups)
  /-- If no reference is written otherwise, all are raised. -/
  raise : commentsClose source.toList = true → refersPlainly source.toList = true →
    e' = e.raise offset

/-- A pattern and what renumbering writes are read in step, whichever condition tells where the
machine raises references. -/
theorem exists_readWhole {raises : List Char → Bool} (hraises : Locates text.toList raises)
    (h : readWhole (expression maxDepth) text = .ok (e, groups))
    (hsmall : ∀ index ∈ e.references, index + offset < 18446744073709551616) :
    ∃ e', readWhole (expression maxDepth) (renumber text offset) = .ok (e', groups) ∧
      readWhole (raisedExpression offset raises maxDepth) text = .ok (e', groups) ∧
      Apart ⟨text.toList, offset, raises, hraises⟩ .expr e e' := by
  obtain ⟨r, hread, hrest, hgroups⟩ := readWhole_eq_ok_iff.1 h
  have hstart : Shadows ⟨text.toList, offset, raises, hraises⟩ { rest := text.toList }
      { rest := (renumber text offset).toList } := by
    refine ⟨rfl, fun hverbose => (Bool.false_ne_true hverbose).elim, false, Stands.start, ?_⟩
    exact renumber_eq_raised text offset
  obtain ⟨-, e', s, hraised, hwritten, hs, hapart⟩ :=
    expression_tracks _ maxDepth _ _ hstart e r hread hsmall
  have hrest' : s.rest = [] := by
    have hbeside := hs.beside
    rw [hrest] at hbeside
    exact hbeside.nil
  exact ⟨e', readWhole_eq_ok_iff.2 ⟨s, hwritten, hrest', hs.groups_eq.trans hgroups⟩,
    readWhole_eq_ok_iff.2 ⟨r, hraised, hrest, hgroups⟩, hapart⟩

theorem exists_readRaised (h : parse text = .ok (e, groups))
    (hsmall : ∀ index ∈ e.references, index + offset < 18446744073709551616) :
    ∃ e', ReadRaised offset text (renumber text offset) e e' groups := by
  have hread := (parse_eq_ok_iff.1 h).1
  obtain ⟨e', hwritten, hexact, hapart⟩ :=
    exists_readWhole (locates_standsOutside text.toList) hread hsmall
  -- Where no comment leaves a bracket open, the machine is outside brackets at every reference.
  have hraised (hclose : commentsClose text.toList = true) :
      readWhole (raisedExpression offset (fun _ => true) maxDepth) text = .ok (e', groups) ∧
        (refersPlainly text.toList = true → e' = e.raise offset) := by
    obtain ⟨e'', hwritten', hall, hapart'⟩ :=
      exists_readWhole (locates_of_commentsClose hclose) hread hsmall
    rw [hwritten] at hwritten'
    cases hwritten'
    exact ⟨hall, hapart'.raised fun _ => rfl⟩
  exact ⟨e', hwritten, hapart.anonymous, hexact, fun hclose => (hraised hclose).1,
    fun hclose => (hraised hclose).2⟩

/-- Behind the shared flags, a pattern is renumbered as it is alone. -/
theorem renumber_flagged (ignoreCase : Bool) (source : String) (offset : Nat) :
    renumber (Pattern.flagged ignoreCase source) offset =
      Pattern.flagged ignoreCase (renumber source offset) := by
  have hordinary : (flagText ignoreCase).all isOrdinary = true := by
    cases ignoreCase <;> rfl
  have hflags (cs : List Char) : raised offset (flagText ignoreCase ++ cs) =
      flagText ignoreCase ++ raised offset cs :=
    Position.run_append_of_ordinary (List.all_eq_true.1 hordinary) false
  rw [← String.toList_inj, renumber_eq_raised, toList_flagged, toList_flagged, renumber_eq_raised,
    raised_cons (by decide) (by decide), raised_cons (by decide) (by decide), hflags,
    raised_opening, raised_close]
  rfl

/-- What is compiled can be read as a pattern. -/
theorem exists_parse_of_compile {re : Regex} (h : Regex.compile text = .ok re) :
    ∃ e, parse text = .ok (e, re.groups) := by
  obtain ⟨⟨e, groups⟩, hparse, h⟩ := exists_of_bind_eq_ok h
  obtain ⟨plan, -, h⟩ := exists_of_bind_eq_ok h
  cases h
  exact ⟨e, hparse⟩

/-- **Renumbering raises references**, and changes nothing else in what a pattern means, alone and
behind the flags that all patterns share. No number may get too large to be read. -/
theorem renumber_raises (source : String) (offset : Nat) :
    (∀ re, Regex.compile source = .ok re → ∃ e, parse source = .ok (e, re.groups) ∧
      ((∀ index ∈ e.references, index + offset < 18446744073709551616) →
        ∃ e', ReadRaised offset source (renumber source offset) e e' re.groups)) ∧
    ∀ ignoreCase p, Pattern.compile ignoreCase source = .ok p →
      ∃ e, parse (Pattern.flagged ignoreCase source) = .ok (e, p.groups) ∧
        ((∀ index ∈ e.references, index + offset < 18446744073709551616) →
          ∃ e', ReadRaised offset (Pattern.flagged ignoreCase source)
            (Pattern.flagged ignoreCase (renumber source offset)) e e' p.groups) := by
  refine ⟨fun re h => ?_, fun ignoreCase p h => ?_⟩
  · obtain ⟨e, hparse⟩ := exists_parse_of_compile h
    exact ⟨e, hparse, exists_readRaised hparse⟩
  · obtain ⟨re, hre, h⟩ := exists_of_bind_eq_ok h
    cases h
    obtain ⟨e, hparse⟩ := exists_parse_of_compile hre
    refine ⟨e, hparse, fun hsmall => ?_⟩
    rw [← renumber_flagged]
    exact exists_readRaised hparse hsmall

/-- A pattern with a set, escapes, comments and references. -/
def annotated : String := "(a)[\\]b]\\\\(?x) \\1 # (]\n(?#c)\\1"

theorem annotated_renumber_raises :
    renumber annotated 2 = "(a)[\\]b]\\\\(?x) \\3 # (]\n(?#c)\\3" ∧
    ∃ e, parse (Pattern.flagged false annotated) = .ok (e, 1) ∧
      readWhole (expression maxDepth) (Pattern.flagged false (renumber annotated 2)) =
        .ok (e.raise 2, 1) := by
  refine ⟨by decide +kernel, ?_⟩
  have hcompiles : (Pattern.compile false annotated).toOption.map (·.groups) = some 1 := by
    decide +kernel
  cases hcompile : Pattern.compile false annotated with
  | error err =>
    rw [hcompile] at hcompiles
    cases hcompiles
  | ok p =>
    have hgroups : p.groups = 1 := by
      rw [hcompile] at hcompiles
      exact Option.some.inj hcompiles
    obtain ⟨e, hparse, hread⟩ := (renumber_raises annotated 2).2 false p hcompile
    rw [hgroups] at hparse hread
    obtain ⟨e', hraised⟩ := hread fun index hindex => by
      have hle := ((parse_eq_ok_iff.1 hparse).2 index hindex).2
      omega
    have he' : e' = e.raise 2 := hraised.raise (by decide +kernel) (by decide +kernel)
    exact ⟨e, hparse, he' ▸ hraised.reads⟩

/-- A reference behind a bracket in a comment is not raised, and neither is one of which the number
begins with a zero. -/
theorem missed_references :
    ((Pattern.compile false "(a|b)(?#[)\\1").toOption.map (·.groups) = some 1 ∧
      renumber "(a|b)(?#[)\\1" 1 = "(a|b)(?#[)\\1" ∧
      (parse "(a|b)(?#[)\\1").toOption.map (·.1.references) = some [1]) ∧
    (Pattern.compile false "(a|b)\\01").toOption.map (·.groups) = some 1 ∧
    renumber "(a|b)\\01" 1 = "(a|b)\\01" ∧
    (parse "(a|b)\\01").toOption.map (·.1.references) = some [1] := by
  decide +kernel

end ModeStack.Rule
