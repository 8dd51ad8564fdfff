import ModeStack.Pattern
import ModeStack.Proofs.Regex.Anywhere
import ModeStack.Proofs.Regex.Shape

/-!
# Patterns that mean the same anywhere

A `Movable` is the text of a pattern together with what it means wherever it stands: an expression
whose groups are numbered from 0 on, and the conditions under which it is read. Every tame text
that is a pattern of its own is one (`exists_movable`).

`parse_flagged_of_ok` reads the text under the flags that all patterns share.
-/

namespace ModeStack.Regex

open ModeStack.Text

/-! ## Groups numbered from 0 -/

namespace Expr

/-- The expression with every number of a group lowered by one. -/
def lower : Expr → Expr
  | seq a b => seq a.lower b.lower
  | alt a b => alt a.lower b.lower
  | group index e => group (index - 1) e.lower
  | rep e lo hi greedy => rep e.lower lo hi greedy
  | ref index ignoreCase => ref (index - 1) ignoreCase
  | look d negated e => look d negated e.lower
  | atomic e => atomic e.lower
  | e => e

variable {e : Expr}

theorem shift_lower (hcaptured : ∀ i ∈ e.captured, 0 < i) (href : ∀ i ∈ e.references, 0 < i)
    (n : Nat) : e.lower.shift (n + 1) = e.shift n := by
  have hnumber {i : Nat} (hi : 0 < i) : i - 1 + (n + 1) = i + n := by omega
  induction e with
  | seq a b iha ihb | alt a b iha ihb =>
    simp only [captured, references, List.mem_append] at hcaptured href
    simp only [lower, shift, iha (fun i hi => hcaptured i (.inl hi)) fun i hi => href i (.inl hi),
      ihb (fun i hi => hcaptured i (.inr hi)) fun i hi => href i (.inr hi)]
  | group index e ih =>
    simp only [captured, List.mem_cons] at hcaptured
    simp only [lower, shift, hnumber (hcaptured index (.inl rfl)),
      ih (fun i hi => hcaptured i (.inr hi)) href]
  | rep e _ _ _ ih | look _ _ e ih | atomic e ih => simp only [lower, shift, ih hcaptured href]
  | ref index ignoreCase =>
    simp only [lower, shift, hnumber (href index List.mem_cons_self)]
  | _ => rfl

theorem captured_lower (hplain : e.isPlain = true) :
    e.lower.captured = e.captured.map (· - 1) := by
  induction e with
  | seq a b iha ihb | alt a b iha ihb =>
    rw [isPlain, Bool.and_eq_true] at hplain
    rw [lower, captured, captured, iha hplain.1, ihb hplain.2, List.map_append]
  | group _ e ih => rw [lower, captured, captured, ih hplain, List.map_cons]
  | rep e _ _ _ ih | look _ _ e ih | atomic e ih => exact ih hplain
  | keep => cases hplain
  | _ => rfl

theorem references_lower : e.lower.references = e.references.map (· - 1) := by
  induction e with
  | seq a b iha ihb | alt a b iha ihb =>
    rw [lower, references, references, iha, ihb, List.map_append]
  | group _ e ih | rep e _ _ _ ih | look _ _ e ih | atomic e ih => exact ih
  | _ => rfl

theorem isPlain_lower : e.lower.isPlain = e.isPlain := by
  induction e with
  | seq a b iha ihb | alt a b iha ihb => rw [lower, isPlain, isPlain, iha, ihb]
  | group _ e ih | rep e _ _ _ ih | look _ _ e ih | atomic e ih => exact ih
  | _ => rfl

end Expr

/-! ## Movable patterns -/

/-- What a pattern means, with its groups numbered from 0 on. -/
structure Body where
  expr : Expr
  /-- The number of its groups. -/
  groups : Nat
  isPlain : expr.isPlain = true
  captured_lt : ∀ i ∈ expr.captured, i < groups
  references_lt : ∀ i ∈ expr.references, i < groups

/-- The flags in force after a text that is read under certain flags. -/
def flagsAfter (flags : Flags) (cs : List Char) : Flags :=
  match expression maxDepth { rest := cs, flags := flags } with
  | .ok (_, r) => r.flags
  | .error _ => flags

/-- The text of a pattern that means the same wherever it stands outside verbose mode, apart from
what flags decide. -/
structure Movable where
  text : List Char
  /-- The number of its groups. -/
  groups : Nat
  /-- The names of groups in it. -/
  names : List (String × Nat)
  /-- Whether it refers to groups. -/
  numbered : Bool
  /-- What it means, depending on the flags in force. -/
  body : Flags → Body
  calm : calm .outside false [] text = true
  next_ne : next text ≠ '?'
  groups_body : ∀ flags, (body flags).groups = groups
  reads : ∀ flags : Flags, flags.verbose = false →
    Reads (fun c => expression c.depth) { rest := text, flags := flags }
      { rest := [], flags := flagsAfter flags text, groups := groups, names := names,
        numbered := numbered }
      fun c => (body flags).expr.shift (c.offset + 1)

namespace Movable

/-- The state in which the text is read alone. -/
def start (m : Movable) (flags : Flags) : Reading := { rest := m.text, flags := flags }

/-- The state after the text has been read alone. -/
def stop (m : Movable) (flags : Flags) : Reading where
  rest := []
  flags := flagsAfter flags m.text
  groups := m.groups
  names := m.names
  numbered := m.numbered

/-- The text is accepted in a context. -/
def Fits (m : Movable) (flags : Flags) (c : Context) : Prop :=
  expression c.depth (c.place (m.start flags)) =
    .ok ((m.body flags).expr.shift (c.offset + 1), c.place (m.stop flags))

variable {m : Movable} {flags : Flags} {c c' : Context}

/-- No comment stands in front of the text. -/
theorem uncommented (m : Movable) (c : Context) : Uncommented false (c.put false m.text) :=
  (uncommented_of_calm m.calm).put

theorem Fits.mono (h : m.Fits flags c) (hflags : flags.verbose = false) (hc : c'.Roomier c) :
    m.Fits flags c' :=
  (m.reads flags hflags).mono hc h

/-- The text leaves the flags as they are. -/
def Steady (m : Movable) : Prop :=
  ∀ flags : Flags, flags.verbose = false → flagsAfter flags m.text = flags

theorem error_of_not_fits (h : ¬ m.Fits flags c) (hflags : flags.verbose = false) :
    ∃ err, expression c.depth (c.place (m.start flags)) = .error err :=
  ((m.reads flags hflags).run c).resolve_left h

end Movable

/-- A pattern does not begin with a repetition. -/
theorem expression_repeat {r : Reading} {c : Char} {cs : List Char} (hc : isRepeat c = true)
    (hrest : r.rest = c :: cs) (depth : Nat) :
    expression (depth + 1) r = .error .nothingToRepeat := by
  have hstop : isStop (next r.rest) = false := by
    rw [hrest]
    rcases cases_of_isRepeat hc with rfl | rfl | rfl <;> rfl
  rw [expression, alternation]
  refine parser_bind_of_error ?_
  rw [sequence, bind_remaining]
  refine parser_bind_of_error ?_
  rw [pieces_more (skip_repeat hc hrest) hstop]
  exact parser_bind_of_error (piece_repeat hc hrest)

/-- Reading a pattern succeeds where all of it is read and the groups referred to exist. -/
theorem parse_of_expression {source : String} {e : Expr} {r : Reading}
    (h : expression maxDepth { rest := source.toList } = .ok (e, r)) :
    parse source = if !r.rest.isEmpty then .error .unopenedGroup
      else if e.references.all fun index => 1 ≤ index && index ≤ r.groups then .ok (e, r.groups)
      else .error .unknownGroup := by
  have hrun : (expression maxDepth).run { rest := source.toList } = .ok (e, r) := h
  rw [parse, hrun]
  by_cases hrest : (!r.rest.isEmpty) = true
  · rw [if_pos hrest]
    exact if_pos hrest
  · rw [if_neg hrest]
    exact if_neg hrest

theorem parse_of_error {source : String} {err : SyntaxError}
    (h : expression maxDepth { rest := source.toList } = .error err) :
    parse source = .error err := by
  have hrun : (expression maxDepth).run { rest := source.toList } = .error err := h
  rw [parse, hrun]
  rfl

/-- What a calm text means under certain flags, if it is a pattern of its own under none. -/
theorem exists_body {cs : List Char} {e : Expr} {r : Reading}
    (hcalm : calm .outside false [] cs = true)
    (hread : expression maxDepth { rest := cs } = .ok (e, r)) (hrest : r.rest = [])
    (href : ∀ i ∈ e.references, 1 ≤ i ∧ i ≤ r.groups) (flags : Flags)
    (hverbose : flags.verbose = false) :
    ∃ body : Body, body.groups = r.groups ∧
      Reads (fun c => expression c.depth) { rest := cs, flags := flags }
        { r with rest := [], flags := flagsAfter flags cs }
        fun c => body.expr.shift (c.offset + 1) := by
  have hbare : ({ rest := cs } : Reading).bare =
      ({ rest := cs, flags := flags } : Reading).bare := by
    rw [Reading.bare, Reading.bare, hverbose]
  obtain ⟨e₁, r₁, hread₁, hshape, hbare₁⟩ := exists_expression_of_bare hread hbare
  have hr : Alone [] { rest := cs, flags := flags } := by
    rw [Alone, hverbose]
    exact hcalm
  obtain ⟨value, hreads, hmoves⟩ := expression_sim maxDepth 0 hr _ _ hread₁
  have hgroups := groups_of_bare hbare₁
  have hstop : r₁ = { r with rest := [], flags := flagsAfter flags cs } := by
    have hflags : flagsAfter flags cs = r₁.flags := by
      rw [flagsAfter, hread₁]
    rw [hflags, ← hgroups, ← names_of_bare hbare₁, ← numbered_of_bare hbare₁, ← hrest,
      ← rest_of_bare hbare₁]
  have href : ∀ i ∈ e₁.references, 1 ≤ i ∧ i ≤ r.groups := by
    rw [← Expr.references_shape, hshape, Expr.references_shape]
    exact href
  have hcaptured : ∀ i ∈ e₁.captured, 0 < i ∧ i ≤ r.groups := by
    rw [← hgroups]
    exact hmoves.fit.captured
  have hlower := Expr.shift_lower (fun i hi => (hcaptured i hi).1) fun i hi => (href i hi).1
  refine ⟨⟨e₁.lower, r.groups, ?_, ?_, ?_⟩, rfl, ?_⟩
  · rw [Expr.isPlain_lower]
    exact hmoves.fit.isPlain
  · rw [Expr.captured_lower hmoves.fit.isPlain]
    intro i hi
    obtain ⟨j, hj, rfl⟩ := List.mem_map.1 hi
    have := hcaptured j hj
    omega
  · rw [Expr.references_lower]
    intro i hi
    obtain ⟨j, hj, rfl⟩ := List.mem_map.1 hi
    have := href j hj
    omega
  · rw [← hstop]
    simp only [hlower]
    rw [← hmoves.value_eq]
    exact hreads

/-- A calm text that is a pattern of its own is movable. -/
theorem exists_movable {source : String} {e : Expr} {groups : Nat}
    (hcalm : calm .outside false [] source.toList = true)
    (hparse : parse source = .ok (e, groups)) :
    ∃ m : Movable, m.text = source.toList ∧ m.groups = groups := by
  obtain ⟨⟨a, r⟩, hread, -⟩ := exists_of_bind_eq_ok hparse
  have hread : expression maxDepth { rest := source.toList } = .ok (a, r) := hread
  rw [parse_of_expression hread] at hparse
  split_ifs at hparse with hrest href
  cases hparse
  simp only [Bool.not_eq_true', Bool.not_eq_false, List.isEmpty_iff] at hrest
  simp only [List.all_eq_true, Bool.and_eq_true, decide_eq_true_eq] at href
  choose body hgroups hreads using exists_body hcalm hread hrest href
  refine ⟨{
    text := source.toList
    groups := r.groups
    names := r.names
    numbered := r.numbered
    -- What the text means in verbose mode does not matter.
    body := fun flags => body { flags with verbose := false } rfl
    calm := hcalm
    next_ne := fun hnext => ?_
    groups_body := fun flags => hgroups _ _
    reads := fun flags hverbose => ?_ }, rfl, rfl⟩
  · obtain ⟨cs, hcs⟩ := exists_of_next hnext (by decide)
    have herror : expression maxDepth { rest := source.toList } = _ :=
      expression_repeat (by decide) hcs 63
    rw [herror] at hread
    cases hread
  · obtain ⟨ignoreCase, multiLine, dotAll, swapGreed, verbose⟩ := flags
    obtain rfl : verbose = false := hverbose
    exact hreads _ rfl

/-- A tame text leaves flags alone. -/
theorem flagsAfter_of_tame {flags : Flags} {cs : List Char} (hverbose : flags.verbose = false)
    (htame : tame none cs = true) : flagsAfter flags cs = flags := by
  unfold flagsAfter
  split
  · rename_i e r hread
    have hr : Alone [] { rest := cs, flags := flags } := by
      have hcalm : calm (.of none) false [] cs = true := calm_of_tame (by simp) htame
      rw [Alone, hverbose]
      exact hcalm
    obtain ⟨value, -, hmoves⟩ := expression_sim maxDepth 0 hr _ _ hread
    exact (hmoves.keeps hverbose htame).2
  · rfl

/-! ## The shared flags -/

/-- The flags that all patterns share. -/
def sharedFlags (ignoreCase : Bool) : Flags := { ignoreCase := ignoreCase, multiLine := true }

/-- The state in which the inside of a flagged pattern is read. -/
def flaggedStart (ignoreCase : Bool) (cs : List Char) : Reading where
  rest := cs ++ [')']
  flags := sharedFlags ignoreCase

/-- The letters of the shared flags, with the parenthesis after them. -/
def flagText (ignoreCase : Bool) : List Char := if ignoreCase then "mi)".toList else "m)".toList

theorem toList_flagged (ignoreCase : Bool) (source : String) :
    (Pattern.flagged ignoreCase source).toList =
      '(' :: '?' :: (flagText ignoreCase ++ '(' :: '?' :: ':' :: (source.toList ++ [')'])) := by
  cases ignoreCase <;> simp [Pattern.flagged, flagText]

theorem group_flagText (p : Parser Expr) (ignoreCase : Bool) (cs : List Char) :
    group p { rest := '?' :: (flagText ignoreCase ++ cs) } =
      .ok (.empty, { rest := cs, flags := sharedFlags ignoreCase }) := by
  cases ignoreCase <;> rfl

/-- Where neither a repetition nor a comment follows, a piece is an atom. -/
theorem piece_of_atom {p : Parser Expr} {s s₁ : Reading} {e : Expr}
    (hatom : atom p s = .ok (e, s₁)) (hskip : skip s₁ = .ok ((), s₁))
    (hnext : ['?', '*', '+', '\x7b'].contains (next s₁.rest) = false) :
    piece p s = .ok (e, s₁) := by
  have hnone : repetition? s₁ = .ok (none, s₁) := by
    rw [repetition?, bind_get]
    generalize s₁.rest = cs at hnext
    split
    · cases hnext
    · cases hnext
    · cases hnext
    · cases hnext
    · rfl
  rw [piece, parser_bind_of_ok hatom, parser_bind_of_ok hskip, parser_bind_of_ok hnone]
  rfl

theorem piece_of_error {p : Parser Expr} {s : Reading} {err : SyntaxError}
    (hatom : atom p s = .error err) : piece p s = .error err :=
  parser_bind_of_error hatom

section Flagged

variable {ignoreCase : Bool} {cs : List Char} {p : Parser Expr}

/-- What is left to read after the flags. -/
def afterFlags (ignoreCase : Bool) (cs : List Char) : Reading where
  rest := '(' :: '?' :: ':' :: (cs ++ [')'])
  flags := sharedFlags ignoreCase

theorem skip_afterFlags :
    skip (afterFlags ignoreCase cs) = .ok ((), afterFlags ignoreCase cs) := by
  refine skip_of_uncommented ⟨?_, fun h => (Bool.false_ne_true h).elim⟩
  simp [afterFlags, Reading.afterGap, Regex.afterGap, sharedFlags, Reading.withRest]

theorem atom_afterFlags : atom (group p) (afterFlags ignoreCase cs) =
    bounded p (sharedFlags ignoreCase) (flaggedStart ignoreCase cs) := by
  rw [atom_group rfl]
  exact group_flags rfl

/-- The state in which a flagged pattern is read. -/
def beforeFlags (ignoreCase : Bool) (cs : List Char) : Reading where
  rest := '(' :: '?' :: (flagText ignoreCase ++ (afterFlags ignoreCase cs).rest)

/-- The flags come first and mean nothing by themselves. -/
theorem sequence_flagged : sequence (group p) (beforeFlags ignoreCase cs) = (do
    let es ← pieces (group p) (beforeFlags ignoreCase cs).rest.length
    return .ofSequence es : Parser Expr) (afterFlags ignoreCase cs) := by
  have hskip : skip (beforeFlags ignoreCase cs) = .ok ((), beforeFlags ignoreCase cs) := by
    refine skip_of_uncommented ⟨?_, fun h => (Bool.false_ne_true h).elim⟩
    cases ignoreCase <;>
      simp [beforeFlags, flagText, Reading.afterGap, Regex.afterGap, Reading.withRest]
  have hpiece : piece (group p) (beforeFlags ignoreCase cs) =
      .ok (.empty, afterFlags ignoreCase cs) := by
    refine piece_of_atom ?_ skip_afterFlags rfl
    rw [atom_group rfl]
    exact group_flagText p ignoreCase _
  rw [sequence, bind_remaining]
  show (pieces (group p) _ _ >>= fun x => _) = _
  rw [pieces_more hskip rfl, parser_bind_of_ok hpiece]
  simp only [if_true, bind_pure]
  rfl

/-- The state after a flagged pattern. What flags its inside has left does not matter. -/
def afterFlagged (ignoreCase : Bool) (s : Reading) : Reading :=
  { s with rest := [], flags := sharedFlags ignoreCase }

/-- A flagged pattern is its inside. -/
theorem sequence_flagged_of_ok {e : Expr} {s : Reading}
    (h : p (flaggedStart ignoreCase cs) = .ok (e, s)) (hrest : s.rest = [')']) :
    sequence (group p) (beforeFlags ignoreCase cs) = .ok (e, afterFlagged ignoreCase s) := by
  have hskip : skip s = .ok ((), s) := by
    refine skip_stop ?_
    rw [hrest]
    rfl
  have hclosed : closed p (flaggedStart ignoreCase cs) = .ok (e, s.withRest []) := by
    rw [closed, parser_bind_of_ok h, parser_bind_of_ok (closeGroup_close hskip hrest)]
    rfl
  have hinner : bounded p (sharedFlags ignoreCase) (flaggedStart ignoreCase cs) =
      .ok (e, afterFlagged ignoreCase s) := by
    rw [bounded, parser_bind_of_ok hclosed]
    rfl
  have hskip' : skip (afterFlagged ignoreCase s) = .ok ((), afterFlagged ignoreCase s) :=
    skip_stop rfl
  have hpiece : piece (group p) (afterFlags ignoreCase cs) =
      .ok (e, afterFlagged ignoreCase s) :=
    piece_of_atom (atom_afterFlags.trans hinner) hskip' rfl
  have hpieces (rounds : Nat) : pieces (group p) (rounds + 2) (afterFlags ignoreCase cs) =
      .ok (if e = .empty then [] else [e], afterFlagged ignoreCase s) := by
    rw [pieces_more skip_afterFlags rfl, parser_bind_of_ok hpiece,
      parser_bind_of_ok (pieces_stop rfl)]
    rfl
  rw [sequence_flagged]
  refine (parser_bind_of_ok (hpieces (flagText ignoreCase ++ _).length)).trans ?_
  by_cases he : e = .empty
  · simp [he, Expr.ofSequence, pure_apply]
  · simp [he, Expr.ofSequence, pure_apply]

theorem sequence_flagged_of_error {err : SyntaxError}
    (h : p (flaggedStart ignoreCase cs) = .error err) :
    sequence (group p) (beforeFlags ignoreCase cs) = .error err := by
  have hinner : bounded p (sharedFlags ignoreCase) (flaggedStart ignoreCase cs) = .error err :=
    parser_bind_of_error (parser_bind_of_error h)
  have hpiece : piece (group p) (afterFlags ignoreCase cs) = .error err :=
    piece_of_error (atom_afterFlags.trans hinner)
  rw [sequence_flagged]
  refine parser_bind_of_error ?_
  show pieces (group p) (_ + 1 + 1) _ = _
  rw [pieces_more skip_afterFlags rfl]
  exact parser_bind_of_error hpiece

/-- The state in which a flagged pattern is read. -/
theorem start_flagged (ignoreCase : Bool) (source : String) :
    ({ rest := (Pattern.flagged ignoreCase source).toList } : Reading) =
      beforeFlags ignoreCase source.toList := by
  rw [toList_flagged]
  rfl

/-- **A flagged pattern means what its inside means.** It is refused if it mixes names and numbers
or refers to a group that does not exist. -/
theorem parse_flagged_of_ok {source : String} {e : Expr} {s : Reading}
    (h : expression 63 (flaggedStart ignoreCase source.toList) = .ok (e, s))
    (hrest : s.rest = [')']) :
    parse (Pattern.flagged ignoreCase source) =
      if s.numbered && !s.names.isEmpty then .error .mixedReferences
      else if e.references.all fun index => 1 ≤ index && index ≤ s.groups then .ok (e, s.groups)
      else .error .unknownGroup := by
  have hsequence := sequence_flagged_of_ok h hrest
  have haccept : accept '|' (afterFlagged ignoreCase s) = .ok (false, afterFlagged ignoreCase s) :=
    accept_of_head?_ne (by simp [afterFlagged])
  have hexpression : expression maxDepth { rest := (Pattern.flagged ignoreCase source).toList } =
      if s.numbered && !s.names.isEmpty then .error .mixedReferences
      else .ok (e, afterFlagged ignoreCase s) := by
    rw [start_flagged]
    show alternation (group (expression 63)) _ = _
    have halternatives : alternatives (group (expression 63)) 1 (afterFlagged ignoreCase s) =
        .ok ([], afterFlagged ignoreCase s) := by
      unfold alternatives
      rw [parser_bind_of_ok haccept]
      rfl
    rw [alternation, parser_bind_of_ok hsequence, bind_remaining]
    refine (parser_bind_of_ok halternatives).trans ?_
    rw [bind_get]
    show (if (s.numbered && !s.names.isEmpty) = true then _ else _ : Parser Expr) _ = _
    split_ifs
    · rfl
    · rfl
  by_cases hmixed : (s.numbered && !s.names.isEmpty) = true
  · rw [if_pos hmixed] at hexpression ⊢
    exact parse_of_error hexpression
  · rw [if_neg hmixed] at hexpression ⊢
    exact parse_of_expression hexpression

theorem parse_flagged_of_error {source : String} {err : SyntaxError}
    (h : expression 63 (flaggedStart ignoreCase source.toList) = .error err) :
    parse (Pattern.flagged ignoreCase source) = .error err := by
  refine parse_of_error ?_
  rw [start_flagged]
  exact parser_bind_of_error (sequence_flagged_of_error h)

end Flagged

/-- The place of a pattern that is compiled for itself. -/
def Context.whole : Context where
  offset := 0
  names := []
  numbered := false
  depth := 63
  after := []

/-- A movable text compiled for itself means the same. -/
theorem of_parse_flagged {m : Movable} {source : String} {ignoreCase : Bool} {e : Expr} {n : Nat}
    (hm : m.text = source.toList)
    (h : parse (Pattern.flagged ignoreCase source) = .ok (e, n)) :
    e = (m.body (sharedFlags ignoreCase)).expr.shift 1 ∧ n = m.groups := by
  have hstart : Context.whole.place (m.start (sharedFlags ignoreCase)) =
      flaggedStart ignoreCase source.toList := by
    simp [Context.place, Context.whole, Movable.start, flaggedStart, Context.tail,
      Rule.raised_zero, hm]
  by_cases hfits : m.Fits (sharedFlags ignoreCase) .whole
  · rw [Movable.Fits, hstart] at hfits
    rw [parse_flagged_of_ok hfits rfl] at h
    split_ifs at h
    cases h
    exact ⟨rfl, rfl⟩
  · obtain ⟨err, herror⟩ := Movable.error_of_not_fits hfits rfl
    rw [hstart] at herror
    rw [parse_flagged_of_error herror] at h
    cases h

end ModeStack.Regex
