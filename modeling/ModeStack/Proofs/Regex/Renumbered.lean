import ModeStack.Proofs.Regex.Tracked

/-!
# Whole patterns read in step

A group contains a pattern, and a pattern consists of pieces that may be groups. If what groups
contain is read in step (`Tracks`), so are groups (`group_tracks`), atoms, pieces and alternatives;
so by induction on how deep groups nest, whole patterns are.

The text that renumbering writes may be longer, so it is read in more rounds. Rounds are never used
up.

Main result: `expression_tracks`.
-/

namespace ModeStack.Regex

open ModeStack.Text

variable {x : Renumbering} {r s : Reading} {c : Char} {cs : List Char} {p q p' : Parser Expr}

/-- From any two states that lie beside each other, what is read is tracked. -/
def InStep (x : Renumbering) (p q p' : Parser Expr) : Prop :=
  ∀ r s, Shadows x r s → Tracks x r.rest.length .expr p q p' r s

/-! ## The inside of a group -/

theorem closeGroup_tracks (h : Shadows x r s) :
    Tracks x r.rest.length .none closeGroup closeGroup closeGroup r s := by
  unfold closeGroup
  refine (skip_tracks h).bind_same fun _ r₁ s₁ hs₁ hlength => .remaining ?_
  by_cases hhead : r₁.rest.head? = some ')'
  · obtain ⟨cs, hr⟩ := List.head?_eq_some_iff.1 hhead
    obtain ⟨t, hs, hnext⟩ := hs₁.cons hr (by decide)
    rw [hr, hs]
    refine (Tracks.pure hnext ?_ (.refl fun _ => rfl)).congr rfl rfl rfl
    rw [hr] at hlength
    exact (Nat.le_succ _).trans hlength
  · refine .of_error (e := .unclosedGroup) ?_
    generalize r₁.rest = cs at hhead
    split
    · exact absurd rfl hhead
    · rfl

theorem closed_tracks (hp : InStep x p q p') : InStep x (closed p) (closed q) (closed p') := by
  intro r s h
  unfold closed
  refine (hp r s h).bind (fun a => .bind fun _ => .pure id) fun a b r₁ s₁ hvalue hs₁ hlength => ?_
  exact ((closeGroup_tracks hs₁).mono hlength).bind_same
    fun _ r₂ s₂ hs₂ hlength₂ => .pure hs₂ hlength₂ hvalue

theorem bounded_tracks {flags : Flags} (hflags : flags.verbose = true → 'x' ∈ x.source)
    (hp : InStep x p q p') : InStep x (bounded p flags) (bounded q flags) (bounded p' flags) := by
  intro r s h
  unfold bounded
  refine (closed_tracks hp r s h).bind (fun a => .bind fun _ => .pure id)
    fun a b r₁ s₁ hvalue hs₁ hlength => ?_
  exact ((Tracks.modify hs₁ (fun _ _ => rfl) hflags).mono hlength).bind_same
    fun _ r₂ s₂ hs₂ hlength₂ => .pure hs₂ hlength₂ hvalue

theorem openGroup_tracks (h : Shadows x r s) :
    Tracks x r.rest.length .none openGroup openGroup openGroup r s := by
  unfold openGroup
  refine (Tracks.modify h (fun _ _ => rfl) h.verbose).bind_same
    fun _ r₁ s₁ hs₁ hlength => .get ?_
  rw [hs₁.groups_eq]
  exact .pure hs₁ hlength (.refl fun _ => rfl)

theorem capture_tracks (hp : InStep x p q p') :
    InStep x (do return .group (← openGroup) (← closed p))
      (do return .group (← openGroup) (← closed q))
      (do return .group (← openGroup) (← closed p')) := by
  intro r s h
  refine (openGroup_tracks h).bind_same fun index r₁ s₁ hs₁ hlength => ?_
  exact ((closed_tracks hp r₁ s₁ hs₁).mono hlength).map (fun _ _ => rfl) fun _ => rfl

theorem namedGroup_tracks {close : Char} (hclose : close ≠ '\\' ∧ close ≠ '[')
    (hp : InStep x p q p') :
    InStep x (namedGroup p close) (namedGroup q close) (namedGroup p' close) := by
  intro r s h
  unfold namedGroup
  refine (openGroup_tracks h).bind_same fun index r₁ s₁ hs₁ hlength => ?_
  refine ((name_tracks hclose hs₁).mono hlength).bind_same fun id r₂ s₂ hs₂ hlength₂ => ?_
  refine ((Tracks.modify hs₂ (fun _ _ => rfl) hs₂.verbose).mono hlength₂).bind_same
    fun _ r₃ s₃ hs₃ hlength₃ => ?_
  exact ((closed_tracks hp r₃ s₃ hs₃).mono hlength₃).map (fun _ _ => rfl) fun _ => rfl

/-! ## The beginning of a group -/

theorem exists_more_rounds {rounds rounds' : Nat} (h : rounds + 1 ≤ rounds') :
    ∃ more, rounds' = more + 1 ∧ rounds ≤ more :=
  ⟨rounds' - 1, by omega, by omega⟩

/-- Flag letters, of which only an `x` makes white space count for nothing. -/
theorem flagLetters_tracks {flags : Flags} {rounds rounds' : Nat} {on bare : Bool}
    (hflags : flags.verbose = true → 'x' ∈ x.source) (hp : InStep x p q p') (h : Shadows x r s)
    (hle : rounds ≤ rounds') :
    Tracks x r.rest.length .expr (flagLetters p flags rounds on bare)
      (flagLetters q flags rounds on bare) (flagLetters p' flags rounds' on bare) r s := by
  induction rounds generalizing r s rounds' on bare with
  | zero => exact .of_error rfl
  | succ rounds ih =>
    obtain ⟨more, rfl, hmore⟩ := exists_more_rounds hle
    refine .after_skip h (fun herror => ?_) (fun h₁ h₂ => flagLetters_skip h₁ h₂)
      (fun h₁ h₂ => flagLetters_skip h₁ h₂) (fun h₁ h₂ => flagLetters_skip h₁ h₂)
      fun r₁ s₁ hs₁ hskip hskip' hlength => ?_
    · unfold flagLetters
      exact parser_bind_of_error herror
    cases hr : r₁.rest with
    | nil => exact .of_error (flagLetters_nil hskip hr)
    | cons c cs =>
      have hshorter : cs.length ≤ r.rest.length := by
        rw [hr] at hlength
        exact (Nat.le_succ _).trans hlength
      by_cases hclose : c = ')'
      · subst hclose
        obtain ⟨t, hs, hnext⟩ := hs₁.cons hr (by decide)
        cases bare with
        | true => exact .of_error (flagLetters_close hskip hr)
        | false =>
          exact (Tracks.pure (a := .empty) hnext hshorter (.refl fun _ => rfl)).congr
            (flagLetters_close hskip hr) (flagLetters_close hskip hr) (flagLetters_close hskip' hs)
      by_cases hcolon : c = ':'
      · subst hcolon
        obtain ⟨t, hs, hnext⟩ := hs₁.cons hr (by decide)
        cases hbare : bare && !on with
        | true => exact .of_error (by rw [flagLetters_colon hskip hr, hbare]; rfl)
        | false =>
          refine ((bounded_tracks hflags hp _ _ hnext).mono hshorter).congr ?_ ?_ ?_
          · rw [flagLetters_colon hskip hr, hbare]
            rfl
          · rw [flagLetters_colon hskip hr, hbare]
            rfl
          · rw [flagLetters_colon hskip' hs, hbare]
            rfl
      by_cases hminus : c = '-'
      · subst hminus
        obtain ⟨t, hs, hnext⟩ := hs₁.cons hr (by decide)
        cases on with
        | false => exact .of_error (flagLetters_minus hskip hr)
        | true =>
          exact ((ih hnext hmore).mono hshorter).congr (flagLetters_minus hskip hr)
            (flagLetters_minus hskip hr) (flagLetters_minus hskip' hs)
      cases hset : r₁.flags.set? c on with
      | none =>
        exact .of_error (by rw [flagLetters_letter hskip hr hclose hcolon hminus, hset]; rfl)
      | some set =>
        have hquiet := isQuiet_iff.1 (isQuiet_of_set? hset)
        obtain ⟨t, hs, hnext⟩ := hs₁.cons hr ⟨hquiet.1.1, hquiet.1.2.1⟩
        have hverbose : set.verbose = true → 'x' ∈ x.source := by
          rw [Flags.verbose_of_set? hset]
          split_ifs with hletter
          · intro _
            have hsuffix := hs₁.beside.suffix
            rw [hr, hletter] at hsuffix
            exact hsuffix.subset List.mem_cons_self
          · exact hs₁.verbose
        have hchanged :=
          hnext.change (k := fun r => { r with flags := set }) (fun _ _ => rfl) hverbose
        have htail : Tracks x cs.length .expr (flagLetters p flags rounds on false)
            (flagLetters q flags rounds on false) (flagLetters p' flags more on false) _ _ :=
          ih hchanged hmore
        refine (htail.mono hshorter).congr ?_ ?_ ?_
        · rw [flagLetters_letter hskip hr hclose hcolon hminus, hset]
          rfl
        · rw [flagLetters_letter hskip hr hclose hcolon hminus, hset]
          rfl
        · rw [flagLetters_letter hskip' hs hclose hcolon hminus, hs₁.flags_eq, hset]
          rfl

theorem Opener.read_tracks (o : Opener) (hp : InStep x p q p')
    (hreference : o = .reference → refersPlainly x.source = false) :
    InStep x (o.read p) (o.read q) (o.read p') := by
  intro r s h
  cases o with
  | look d negated => exact (closed_tracks hp r s h).map (fun _ _ => rfl) fun _ => rfl
  | atomic => exact (closed_tracks hp r s h).map (fun _ _ => rfl) fun _ => rfl
  | angled => exact namedGroup_tracks (by decide) hp r s h
  | lettered => exact namedGroup_tracks (by decide) hp r s h
  | quoted => exact namedGroup_tracks (by decide) hp r s h
  | reference => exact namedReference_tracks (hreference rfl) (by decide) h

/-- A group that sets no flags, from its `?` on. -/
theorem openedGroup_tracks (o : Opener) (hp : InStep x p q p') (h : Shadows x r s)
    (hr : r.rest = '?' :: (o.text ++ cs)) (hfits : o.Fits cs) :
    Tracks x r.rest.length .expr (group p) (group q) (group p') r s := by
  have hreference : o = .reference → refersPlainly x.source = false := by
    rintro rfl
    exact refersPlainly_named (hr ▸ h.beside.suffix)
  obtain ⟨t, hs, hafter⟩ := h.cons hr (by decide)
  obtain ⟨rest, rfl, hnext⟩ := hafter.beside.append fun c hc =>
    have hquiet := isQuiet_iff.1 (List.all_eq_true.1 o.all_isQuiet_text c hc)
    ⟨hquiet.1.1, hquiet.1.2.1⟩
  have hfits' : o.Fits rest := by
    rw [Opener.Fits, hnext.next_eq]
    exact hfits
  refine ((o.read_tracks hp hreference _ _ (h.withRest hnext)).mono ?_).congr
    (group_opener o hr hfits) (group_opener o hr hfits) (group_opener o hs hfits')
  rw [hr]
  simp only [Reading.withRest, List.length_cons, List.length_append]
  omega

/-- After `?P` a group or a reference is named. -/
theorem group_misnamed (hr : r.rest = '?' :: 'P' :: cs) (hname : next cs ≠ '<')
    (hreference : next cs ≠ '=') : group p r = .error .invalidFlags := by
  have hskip : skip (r.withRest ('P' :: cs)) = .ok ((), r.withRest ('P' :: cs)) :=
    skip_of_next rfl (show 'P' ≠ '#' by decide) (show 'P' ≠ '(' by decide)
  have hletters : flagLetters p r.flags (cs.length + 2) true true (r.withRest ('P' :: cs)) =
      .error .invalidFlags :=
    flagLetters_letter hskip rfl (by decide) (by decide) (by decide)
  rw [group, parser_bind_of_ok (skip_question hr), bind_remaining]
  generalize r.rest = cs' at hr
  split
  case h_6 => exact absurd (List.cons.inj (List.cons.inj hr).2).2 fun h => hname (h ▸ rfl)
  case h_8 => exact absurd (List.cons.inj (List.cons.inj hr).2).2 fun h => hreference (h ▸ rfl)
  case h_10 =>
    cases hr
    exact hletters
  case h_11 hother => exact absurd hr (hother _)
  all_goals simp at hr

/-- A group that begins with `?`. -/
theorem questionGroup_tracks (hp : InStep x p q p') (h : Shadows x r s) (hr : r.rest = '?' :: cs) :
    Tracks x r.rest.length .expr (group p) (group q) (group p') r s := by
  cases hletters : "=!<P'>".toList.contains (next cs) with
  | false =>
    obtain ⟨t, hs, hnext⟩ := h.cons hr (by decide)
    have hletters' : "=!<P'>".toList.contains (next t) = false := by
      have hnext_eq : next t = next cs := hnext.beside.next_eq
      rw [hnext_eq]
      exact hletters
    have hread : Tracks x cs.length .expr (flagLetters p r.flags (cs.length + 1) true true)
        (flagLetters q r.flags (cs.length + 1) true true)
        (flagLetters p' r.flags (t.length + 1) true true) (r.withRest cs) (s.withRest t) :=
      flagLetters_tracks h.verbose hp hnext (Nat.succ_le_succ hnext.beside.length_le)
    refine (hread.mono ?_).congr (group_letters hr hletters) (group_letters hr hletters) ?_
    · rw [hr]
      exact Nat.le_succ _
    · rw [group_letters hs hletters', h.flags_eq]
  | true =>
    obtain ⟨o, rest, rfl, hfits⟩ | ⟨rest, rfl, hname, hreference⟩ := exists_opener hletters
    · exact openedGroup_tracks o hp h hr hfits
    · exact .of_error (group_misnamed hr hname hreference)

theorem group_tracks (hp : InStep x p q p') : InStep x (group p) (group q) (group p') := by
  intro r s h
  refine .after_skip h (fun herror => ?_) (fun h₁ h₂ => group_skip h₁ h₂)
    (fun h₁ h₂ => group_skip h₁ h₂) (fun h₁ h₂ => group_skip h₁ h₂)
    fun r₁ s₁ hs₁ hskip hskip' hlength => .mono ?_ hlength
  · unfold group
    exact parser_bind_of_error herror
  by_cases hquestion : next r₁.rest = '?'
  · obtain ⟨cs, hr⟩ := exists_of_next hquestion (by decide)
    exact questionGroup_tracks hp hs₁ hr
  · have hquestion' : next s₁.rest ≠ '?' := by
      rw [hs₁.beside.next_eq]
      exact hquestion
    exact (capture_tracks hp r₁ s₁ hs₁).congr (group_capture hskip hquestion)
      (group_capture hskip hquestion) (group_capture hskip' hquestion')

/-! ## Atoms and repetitions -/

section Pieces

variable {g gRaised g' : Parser Expr} {rounds rounds' : Nat}

/-- An atom, unless a repetition comes first. -/
theorem atom_tracks (hg : InStep x g gRaised g') (h : Shadows x r s) (hr : r.rest = c :: cs)
    (hc : isRepeat c = false) :
    Tracks x cs.length .expr (atom g) (raisedAtom x.offset x.raises gRaised) (atom g') r s := by
  by_cases hgroup : c = '('
  · subst hgroup
    obtain ⟨t, hs, hnext⟩ := h.cons hr (by decide)
    have hnumbered : isNumbered r.rest = false := by
      rw [hr]
      rfl
    exact (hg _ _ hnext).congr (atom_group hr)
      ((raisedAtom_of_not_numbered hnumbered).trans (atom_group hr)) (atom_group hs)
  by_cases hescape : c = '\\'
  · subst hescape
    cases cs with
    | nil => exact .of_error (atom_escape hr)
    | cons d cs =>
      cases hd : isAsciiDigit d with
      | true => exact (atom_reference_tracks h hr hd).mono (Nat.le_succ _)
      | false => exact (atom_escape_tracks h hr hd).mono (Nat.le_succ _)
  by_cases hopen : c = '['
  · subst hopen
    exact atom_bracket_tracks h hr
  by_cases hany : c = '.'
  · subst hany
    exact atom_single_tracks h hr (by decide) (v := fun flags => .any flags.dotAll)
      (fun _ _ => rfl) fun p s rest hs => atom_any hs
  by_cases hstart : c = '^'
  · subst hstart
    exact atom_single_tracks h hr (by decide)
      (v := fun flags => .assert (if flags.multiLine then .lineStart else .textStart))
      (fun _ _ => rfl) fun p s rest hs => atom_start hs
  by_cases hend : c = '$'
  · subst hend
    exact atom_single_tracks h hr (by decide)
      (v := fun flags => .assert (if flags.multiLine then .lineEnd else .textEnd))
      (fun _ _ => rfl) fun p s rest hs => atom_end hs
  · have hsign : isSign c = false := by
      simp only [isRepeat, Bool.or_eq_false_iff, decide_eq_false_iff_not] at hc
      simp [isSign, hany, hstart, hend, hgroup, hescape, hopen, hc]
    exact atom_single_tracks h hr ⟨hescape, hopen⟩ (v := fun flags => .char c flags.ignoreCase)
      (fun _ _ => rfl) fun p s rest hs => atom_char hsign hs

theorem withRepetition_yields (e : Expr) :
    Yields (withRepetition e) fun e' => e'.references = e.references := by
  refine .bind fun _ => .bind fun sign => ?_
  cases sign with
  | none => exact .pure rfl
  | some b =>
    refine .ite (.throw _) (.ite (.throw _) ?_)
    refine .bind fun _ => .bind fun lazy => .bind fun _ => .bind fun possessive => ?_
    cases possessive with
    | true => exact .pure rfl
    | false => exact .pure rfl

theorem withBounds_tracks {e e' : Expr} (b : Bounds) (hvalue : Apart x .expr e e')
    (h : Shadows x r s) :
    Tracks x r.rest.length .expr (withBounds e b) (withBounds e' b) (withBounds e' b) r s := by
  unfold withBounds
  refine (skip_tracks h).bind_same fun _ r₁ s₁ hs₁ hlength₁ => ?_
  refine ((accept_tracks (by decide) hs₁).mono hlength₁).bind_same
    fun lazy r₂ s₂ hs₂ hlength₂ => .get ?_
  rw [hs₂.flags_eq]
  refine ((accept_tracks (by decide) hs₂).mono hlength₂).bind_same
    fun possessive r₃ s₃ hs₃ hlength₃ => ?_
  have hrep : Apart x .expr (.rep e b.lo b.hi (lazy == r₂.flags.swapGreed))
      (.rep e' b.lo b.hi (lazy == r₂.flags.swapGreed)) :=
    hvalue.map (g := fun e => Expr.rep e b.lo b.hi (lazy == r₂.flags.swapGreed)) fun _ _ => rfl
  cases possessive with
  | true => exact .pure hs₃ hlength₃ (hrep.map (g := Expr.atomic) fun _ _ => rfl)
  | false => exact .pure hs₃ hlength₃ hrep

theorem withRepetition_tracks {e e' : Expr} (hvalue : Apart x .expr e e') (h : Shadows x r s) :
    Tracks x r.rest.length .expr (withRepetition e) (withRepetition e') (withRepetition e')
      r s := by
  have hrepeatable : isRepeatable e' = isRepeatable e := by
    have hsame := congrArg isRepeatable hvalue.anonymous
    simpa only [View.expr, Expr.isRepeatable_mapReferences] using hsame
  unfold withRepetition
  rw [hrepeatable]
  refine (skip_tracks h).bind_same fun _ r₁ s₁ hs₁ hlength₁ => ?_
  refine ((repetition?_tracks hs₁).mono hlength₁).bind_same fun sign r₂ s₂ hs₂ hlength₂ => ?_
  cases sign with
  | none => exact .pure hs₂ hlength₂ hvalue
  | some b => exact .check _ (.check _ ((withBounds_tracks b hvalue hs₂).mono hlength₂))

/-- An atom with the repetition after it. -/
theorem piece_tracks (hg : InStep x g gRaised g') (h : Shadows x r s) (hr : r.rest = c :: cs) :
    Tracks x cs.length .expr (atom g >>= withRepetition)
      (raisedAtom x.offset x.raises gRaised >>= withRepetition)
      (atom g' >>= withRepetition) r s := by
  cases hc : isRepeat c with
  | true => exact .of_error (piece_repeat hc hr)
  | false =>
    refine (atom_tracks hg h hr hc).bind (fun e r₁ e' r₂ hread hsmall => ?_)
      fun e e' r₁ s₁ hvalue hs₁ hlength => (withRepetition_tracks hvalue hs₁).mono hlength
    have hreferences : e'.references = e.references := withRepetition_yields e r₁ e' r₂ hread
    refine Small.of_subset hsmall ?_
    show e.references ⊆ e'.references
    rw [hreferences]
    exact List.Subset.refl _

/-! ## Sequences and alternatives -/

theorem Apart.cons {e e' : Expr} {es es' : List Expr} (hvalue : Apart x .expr e e')
    (hvalues : Apart x .exprs es es') : Apart x .exprs (e :: es) (e' :: es') where
  anonymous := congrArg₂ List.cons hvalue.anonymous hvalues.anonymous
  raised := fun hall hplainly =>
    congrArg₂ List.cons (hvalue.raised hall hplainly) (hvalues.raised hall hplainly)

theorem Apart.eq_empty_iff {e e' : Expr} (hvalue : Apart x .expr e e') :
    e' = .empty ↔ e = .empty := by
  have hsame : e'.anonymous = e.anonymous := hvalue.anonymous
  have hempty (e : Expr) : e.anonymous = .empty ↔ e = .empty := Expr.mapReferences_eq_empty_iff
  rw [← hempty e', hsame, hempty]

/-- Where nothing is read, nothing is added to a sequence. -/
theorem references_unlessEmpty (e : Expr) (es : List Expr) :
    View.exprs.references (if e = .empty then es else e :: es) =
      e.references ++ View.exprs.references es := by
  split_ifs with hempty
  · rw [hempty]
    rfl
  · exact List.flatMap_cons

/-- Pieces are read in step, if there are rounds enough to read all of them. -/
theorem pieces_tracks (hg : InStep x g gRaised g') (h : Shadows x r s)
    (hrounds : r.rest.length < rounds) (hle : rounds ≤ rounds') :
    Tracks x r.rest.length .exprs (piecesBy (atom g) rounds)
      (piecesBy (raisedAtom x.offset x.raises gRaised) rounds)
      (piecesBy (atom g') rounds') r s := by
  induction rounds generalizing r s rounds' with
  | zero => exact absurd hrounds (Nat.not_lt_zero _)
  | succ rounds ih =>
    obtain ⟨more, rfl, hmore⟩ := exists_more_rounds hle
    unfold piecesBy
    refine (skip_tracks h).bind_same fun _ r₁ s₁ hs₁ hlength₁ => .remaining ?_
    rw [hs₁.beside.next_eq]
    cases hstop : isStop (next r₁.rest) with
    | true => exact .pure hs₁ hlength₁ (.refl fun _ => rfl)
    | false =>
      obtain ⟨c, cs, hr⟩ : ∃ c cs, r₁.rest = c :: cs := by
        cases hr : r₁.rest with
        | nil =>
          rw [hr] at hstop
          cases hstop
        | cons c cs => exact ⟨c, cs, rfl⟩
      rw [hr, List.length_cons] at hlength₁
      refine (piece_tracks hg hs₁ hr).bind (fun e => ?_) fun e e' r₂ s₂ hvalue hs₂ hlength₂ => ?_
      · refine .bind fun es => .pure fun hsmall => Small.of_subset hsmall ?_
        rw [references_unlessEmpty]
        exact List.subset_append_left _ _
      · refine ((ih hs₂ (by omega) hmore).mono (by omega)).bind (fun es => ?_)
          fun es es' r₃ s₃ hvalues hs₃ hlength₃ => .pure hs₃ hlength₃ ?_
        · refine .pure fun hsmall => Small.of_subset hsmall ?_
          rw [references_unlessEmpty]
          exact List.subset_append_right _ _
        · by_cases hempty : e = .empty
          · rw [if_pos hempty, if_pos (hvalue.eq_empty_iff.2 hempty)]
            exact hvalues
          · rw [if_neg hempty, if_neg (mt hvalue.eq_empty_iff.1 hempty)]
            exact hvalue.cons hvalues

theorem sequence_tracks (hg : InStep x g gRaised g') :
    InStep x (sequenceBy (atom g)) (sequenceBy (raisedAtom x.offset x.raises gRaised))
      (sequenceBy (atom g')) := by
  intro r s h
  unfold sequenceBy
  exact .remaining ((pieces_tracks hg h (Nat.lt_succ_self _)
    (Nat.succ_le_succ h.beside.length_le)).map Expr.mapReferences_ofSequence
      Expr.references_ofSequence)

/-- Alternatives are read in step, if there are rounds enough to read all of them. -/
theorem alternatives_tracks (hg : InStep x g gRaised g') (h : Shadows x r s)
    (hrounds : r.rest.length < rounds) (hle : rounds ≤ rounds') :
    Tracks x r.rest.length .exprs (alternativesBy (atom g) rounds)
      (alternativesBy (raisedAtom x.offset x.raises gRaised) rounds)
      (alternativesBy (atom g') rounds') r s := by
  induction rounds generalizing r s rounds' with
  | zero => exact absurd hrounds (Nat.not_lt_zero _)
  | succ rounds ih =>
    obtain ⟨more, rfl, hmore⟩ := exists_more_rounds hle
    by_cases hbar : r.rest.head? = some '|'
    · obtain ⟨cs, hr⟩ := List.head?_eq_some_iff.1 hbar
      obtain ⟨t, hs, hnext⟩ := h.cons hr (by decide)
      rw [hr, List.length_cons] at hrounds
      refine Tracks.congr (r := r.withRest cs) (s := s.withRest t) ?_ (alternativesBy_bar hr)
        (alternativesBy_bar hr) (alternativesBy_bar hs)
      refine (sequence_tracks hg _ _ hnext).bind (fun e => ?_)
        fun e e' r₁ s₁ hvalue hs₁ hlength₁ => ?_
      · refine .bind fun es => .pure fun hsmall => Small.of_subset hsmall ?_
        exact List.subset_append_left _ _
      · replace hlength₁ : r₁.rest.length ≤ cs.length := hlength₁
        refine ((ih hs₁ (by omega) hmore).mono ?_).bind (fun es => ?_)
          fun es es' r₂ s₂ hvalues hs₂ hlength₂ => .pure hs₂ hlength₂ (hvalue.cons hvalues)
        · rw [hr, List.length_cons]
          omega
        · refine .pure fun hsmall => Small.of_subset hsmall ?_
          exact List.subset_append_right _ _
    · have hbar' : s.rest.head? ≠ some '|' := by
        rw [h.beside.head?_eq]
        exact hbar
      exact (Tracks.pure h le_rfl (.refl fun _ => rfl)).congr (alternativesBy_end hbar)
        (alternativesBy_end hbar) (alternativesBy_end hbar')

theorem alternation_tracks (hg : InStep x g gRaised g') :
    InStep x (alternationBy (atom g)) (alternationBy (raisedAtom x.offset x.raises gRaised))
      (alternationBy (atom g')) := by
  intro r s h
  unfold alternationBy
  refine (sequence_tracks hg r s h).bind (fun e => ?_) fun e e' r₁ s₁ hvalue hs₁ hlength₁ =>
    .remaining ?_
  · refine .bind fun _ => .bind fun es => .bind fun _ => .ite (.throw _) (.pure fun hsmall => ?_)
    refine Small.of_subset hsmall ?_
    show e.references ⊆ (Expr.ofAlternatives e es).references
    rw [Expr.references_ofAlternatives]
    exact List.subset_append_left _ _
  · refine ((alternatives_tracks hg hs₁ (Nat.lt_succ_self _)
      (Nat.succ_le_succ hs₁.beside.length_le)).mono hlength₁).bind (fun es => ?_)
        fun es es' r₂ s₂ hvalues hs₂ hlength₂ => .get ?_
    · refine .bind fun _ => .ite (.throw _) (.pure fun hsmall => ?_)
      refine Small.of_subset hsmall ?_
      show es.flatMap Expr.references ⊆ (Expr.ofAlternatives e es).references
      rw [Expr.references_ofAlternatives]
      exact List.subset_append_right _ _
    · have hempty : es'.isEmpty = es.isEmpty := by
        have hsame := congrArg List.isEmpty hvalues.anonymous
        simpa only [View.exprs, List.isEmpty_map] using hsame
      rw [hempty, hs₂.numbered_eq, hs₂.names_eq]
      refine .check _ (.pure hs₂ hlength₂ ?_)
      exact hvalue.map₂ hvalues Expr.mapReferences_ofAlternatives

end Pieces

/-- **Patterns are read in step**: as they are, with their references raised, and as renumbering
writes them. -/
theorem expression_tracks (x : Renumbering) (depth : Nat) :
    InStep x (expression depth) (raisedExpression x.offset x.raises depth) (expression depth) := by
  rw [← expressionBy_atom]
  induction depth with
  | zero => exact fun r s h => .throw _
  | succ depth ih =>
    refine alternation_tracks fun r s h => ?_
    unfold groupWithin
    exact .check _ (group_tracks ih r s h)

end ModeStack.Regex
