import ModeStack.Proofs.Regex.Groups
import ModeStack.Proofs.Rule.Renumbering

/-!
# A text beside its renumbered form

A pattern and what the renumbering machine writes for it can be read side by side. `Beside` relates
what is left of the one to what is left of the other: the machine stands between characters, inside
brackets or not (`Stands`). Outside brackets it stands outside, unless a comment has left a bracket
open (`commentsClose`). Characters are the same on both sides, except for the numbers of references
(`Beside.reference`).
-/

namespace ModeStack.Regex

open ModeStack.Text
open ModeStack.Rule (Position opens raised)

variable {source : List Char} {offset : Nat} {p p' : Position} {inBracket v : Bool} {c : Char}
  {cs t u w : List Char}

/-! ## Comments that leave no bracket open -/

/-- Whether the machine counts itself outside brackets behind what is skipped at the front. -/
def closesComments (verbose : Bool) (cs : List Char) : Bool :=
  (skipped verbose .space cs).toOption.all fun rest => !opens (cs.take (cs.length - rest.length))

/-- Whether no comment leaves a bracket open. If an `x` occurs, a comment may begin with `#`. -/
def commentsClose (source : List Char) : Bool :=
  source.tails.all fun cs =>
    closesComments false cs && (!source.contains 'x' || closesComments true cs)

theorem opens_skipped {rest : List Char} (h : commentsClose source = true)
    (hv : v = true → 'x' ∈ source) (hcs : w ++ rest <:+ source)
    (hskip : (skipped v .space (w ++ rest)).toOption = some rest) : opens w = false := by
  rw [commentsClose, List.all_eq_true] at h
  have hboth := h _ ((List.mem_tails ..).2 hcs)
  simp only [Bool.and_eq_true, Bool.or_eq_true, Bool.not_eq_true', List.contains_eq_mem,
    decide_eq_false_iff_not] at hboth
  have hcloses : closesComments v (w ++ rest) = true := by
    cases v with
    | false => exact hboth.1
    | true => exact hboth.2.resolve_left (not_not_intro (hv rfl))
  rw [closesComments, hskip] at hcloses
  simpa using hcloses

/-! ## Where the machine stands -/

/-- Behind a text, the machine goes on as from between characters, as far as others follow. -/
def Continues (p : Position) (w cs : List Char) (inBracket : Bool) : Prop :=
  ∀ u, u <+: cs → (p.after (w ++ u)).isInBracket = ((Position.plain inBracket).after u).isInBracket

theorem continues_of_after (h : p.after w = .plain inBracket) : Continues p w cs inBracket := by
  intro u _
  rw [Position.after_append, h]

/-- Behind a number, the machine is outside brackets. -/
theorem continues_number {value : Nat} {ds : List Char} (hds : ∀ d ∈ ds, isAsciiDigit d = true)
    (hcs : ∀ d ∈ cs.head?, isAsciiDigit d = false) : Continues (.number value) ds cs false := by
  intro u hu
  induction ds generalizing value with
  | nil =>
    cases u with
    | nil => rfl
    | cons c u =>
      obtain ⟨rest, rfl⟩ := hu
      rw [List.nil_append, Position.after_number_cons (hcs c rfl)]
  | cons d ds ih =>
    rw [List.cons_append, Position.after_cons,
      Position.step_number_of_digit (hds d List.mem_cons_self)]
    exact ih fun e he => hds e (List.mem_cons_of_mem _ he)

/-- What is left of a text is read by the machine from between characters. -/
structure Stands (source : List Char) (inBracket : Bool) (cs : List Char) : Prop where
  split : ∃ w, source = w ++ cs ∧ Continues (.plain false) w cs inBracket
  closed : commentsClose source = true → inBracket = false

/-- Whether the machine counts itself outside brackets behind what precedes the rest of a text. -/
def standsOutside (source cs : List Char) : Bool :=
  !opens (source.take (source.length - cs.length))

namespace Stands

theorem start : Stands source false source where
  split := ⟨[], rfl, fun _ _ => rfl⟩
  closed := fun _ => rfl

theorem suffix (h : Stands source inBracket cs) : cs <:+ source := by
  obtain ⟨w, hw, -⟩ := h.split
  exact ⟨w, hw.symm⟩

theorem standsOutside_eq (h : Stands source inBracket cs) :
    standsOutside source cs = !inBracket := by
  obtain ⟨w, rfl, hgo⟩ := h.split
  have hlength : (w ++ cs).length - cs.length = w.length := by simp
  have hw := hgo [] List.nil_prefix
  rw [List.append_nil] at hw
  rw [standsOutside, hlength, List.take_left, opens, hw]
  rfl

/-- Past a part of the text. -/
theorem move {b : Bool} {rest : List Char} (h : Stands source inBracket (u ++ rest))
    (hgo : Continues (.plain inBracket) u rest b)
    (hclosed : commentsClose source = true → inBracket = false → b = false) :
    Stands source b rest := by
  obtain ⟨⟨w, hw, hbefore⟩, hbracket⟩ := h
  refine ⟨⟨w ++ u, by rw [hw, List.append_assoc], fun x hx => ?_⟩,
    fun hclose => hclosed hclose (hbracket hclose)⟩
  rw [List.append_assoc, hbefore _ ((List.prefix_append_right_inj u).2 hx)]
  exact hgo x hx

/-- Past a reference that the machine raises. -/
theorem reference {d : Char} {ds : List Char} (h : Stands source false ('\\' :: d :: (ds ++ cs)))
    (hd : Position.isLeading d = true) (hds : ∀ e ∈ ds, isAsciiDigit e = true)
    (hcs : ∀ e ∈ cs.head?, isAsciiDigit e = false) : Stands source false cs := by
  refine h.move (u := '\\' :: d :: ds) (fun u hu => ?_) fun _ => id
  have hstep : (Position.escaped false).step 0 d = ([], .number (Position.digitValue d)) :=
    Position.step_escaped_of_leading hd
  show (((Position.escaped false).step 0 d).2.after (ds ++ u)).isInBracket = _
  rw [hstep]
  exact continues_number hds hcs u hu

/-- Past an escape that the machine copies. -/
theorem escape (h : Stands source inBracket ('\\' :: c :: cs))
    (hc : inBracket = true ∨ Position.isLeading c = false) : Stands source inBracket cs :=
  h.move (u := ['\\', c])
    (fun _ _ => congrArg Position.isInBracket (Position.after_escaped_cons hc)) fun _ => id

end Stands

/-- A condition on the rest of a text tells where the machine counts itself outside brackets. -/
def Locates (source : List Char) (outside : List Char → Bool) : Prop :=
  ∀ inBracket cs, Stands source inBracket cs → outside cs = !inBracket

theorem locates_standsOutside (source : List Char) : Locates source (standsOutside source) :=
  fun _ _ h => h.standsOutside_eq

/-- Between characters the machine is outside brackets, if no comment leaves one open. -/
theorem locates_of_commentsClose (h : commentsClose source = true) :
    Locates source fun _ => true := by
  intro inBracket cs hstands
  rw [hstands.closed h]
  rfl

/-! ## Characters -/

/-- The second text is what the machine writes for the first, which is left of a text. -/
structure Beside (source : List Char) (offset : Nat) (cs t : List Char) : Prop where
  exists_stands : ∃ inBracket, Stands source inBracket cs ∧
    t = Position.run offset (.plain inBracket) cs

namespace Beside

theorem suffix (h : Beside source offset cs t) : cs <:+ source := by
  obtain ⟨inBracket, hstands, -⟩ := h.exists_stands
  exact hstands.suffix

theorem nil (h : Beside source offset [] t) : t = [] := by
  obtain ⟨inBracket, -, ht⟩ := h.exists_stands
  exact ht

theorem head?_eq (h : Beside source offset cs t) : t.head? = cs.head? := by
  obtain ⟨inBracket, -, rfl⟩ := h.exists_stands
  exact Position.head?_run

theorem next_eq (h : Beside source offset cs t) : next t = next cs := by
  rw [next, h.head?_eq, next]

theorem length_le (h : Beside source offset cs t) : cs.length ≤ t.length := by
  obtain ⟨inBracket, -, rfl⟩ := h.exists_stands
  exact Position.length_le_length_plain offset cs inBracket

/-- All characters but those that begin an escape or a bracket are copied. -/
theorem cons (h : Beside source offset (c :: cs) t) (hc : c ≠ '\\' ∧ c ≠ '[') :
    ∃ t', t = c :: t' ∧ Beside source offset cs t' := by
  obtain ⟨inBracket, hstands, rfl⟩ := h.exists_stands
  refine ⟨_, Position.run_cons hc.1, _, hstands.move (u := [c])
    (continues_of_after (Position.after_plain_cons hc.1)) fun _ hfalse => ?_, rfl⟩
  rw [hfalse, Position.bracketAfter, if_neg hc.2, ite_self]

theorem append (h : Beside source offset (w ++ cs) t) (hw : ∀ c ∈ w, c ≠ '\\' ∧ c ≠ '[') :
    ∃ t', t = w ++ t' ∧ Beside source offset cs t' := by
  induction w generalizing t with
  | nil => exact ⟨t, rfl, h⟩
  | cons c w ih =>
    obtain ⟨t', rfl, hnext⟩ := h.cons (hw c List.mem_cons_self)
    obtain ⟨t'', rfl, hrest⟩ := ih hnext fun d hd => hw d (List.mem_cons_of_mem _ hd)
    exact ⟨t'', rfl, hrest⟩

/-- An escape that does not begin like a reference is copied. -/
theorem escape (h : Beside source offset ('\\' :: c :: cs) t)
    (hc : Position.isLeading c = false) :
    ∃ t', t = '\\' :: c :: t' ∧ Beside source offset cs t' := by
  obtain ⟨inBracket, hstands, rfl⟩ := h.exists_stands
  exact ⟨_, Position.run_escape (.inr hc), inBracket, hstands.escape (.inr hc), rfl⟩

/-- Behind a bracket the machine is outside again. -/
theorem bracket {rest : List Char} (h : Beside source offset ('[' :: cs) t) (hcs : cs = w ++ rest)
    (hw : (Position.plain true).after w = .plain false) :
    t = '[' :: Position.run offset (.plain true) cs ∧
      Beside source offset rest (Position.run offset (.plain false) rest) := by
  obtain ⟨inBracket, hstands, rfl⟩ := h.exists_stands
  subst hcs
  refine ⟨Position.run_cons (by decide), false, hstands.move (u := '[' :: w)
    (continues_of_after ?_) fun _ _ => rfl, rfl⟩
  exact (Position.after_plain_cons (by decide)).trans hw

/-- Characters of a kind end at the same place. -/
theorem dropWhile {f : Char → Bool} (hf : f '\\' = false ∧ f '[' = false)
    (h : Beside source offset cs t) :
    t.takeWhile f = cs.takeWhile f ∧ Beside source offset (cs.dropWhile f) (t.dropWhile f) := by
  induction cs generalizing t with
  | nil =>
    obtain rfl := h.nil
    exact ⟨rfl, h⟩
  | cons c cs ih =>
    cases hc : f c with
    | true =>
      have hcopied : c ≠ '\\' ∧ c ≠ '[' := by
        constructor <;> rintro rfl <;> simp [hf] at hc
      obtain ⟨t', rfl, hnext⟩ := h.cons hcopied
      simpa [hc] using ih hnext
    | false =>
      obtain ⟨t', rfl⟩ := List.head?_eq_some_iff.1 h.head?_eq
      simpa [hc] using h

end Beside

/-! ## White space and comments -/

/-- Where the machine may stand while something is skipped. -/
def Skipping.Allows : Skipping → Position → Prop
  | space, p => ∃ inBracket, p = .plain inBracket
  | line, _ => True
  | comment, p => ∀ inBracket, p ≠ .escaped inBracket

theorem Skipping.allows_plain (mode : Skipping) (inBracket : Bool) :
    mode.Allows (.plain inBracket) := by
  cases mode with
  | space => exact ⟨inBracket, rfl⟩
  | line => trivial
  | comment => exact fun _ h => by cases h

theorem Skipping.allows_number {mode : Skipping} (hmode : mode ≠ .space) (value : Nat) :
    mode.Allows (.number value) := by
  cases mode with
  | space => exact absurd rfl hmode
  | line => trivial
  | comment => exact fun _ h => by cases h

/-- Inside comments, digits are skipped. -/
theorem skipped_digits {mode : Skipping} (hmode : mode ≠ .space) {ds : List Char}
    (hds : ∀ d ∈ ds, isAsciiDigit d = true) : skipped v mode (ds ++ cs) = skipped v mode cs := by
  induction ds with
  | nil => rfl
  | cons d ds ih =>
    have hd := hds d List.mem_cons_self
    have hne (c : Char) (hc : isAsciiDigit c = false) : d ≠ c := by
      rintro rfl
      rw [hc] at hd
      cases hd
    rw [← ih fun e he => hds e (List.mem_cons_of_mem _ he), List.cons_append]
    cases mode with
    | space => exact absurd rfl hmode
    | line => simp [skipped, hne '\n' (by decide)]
    | comment => simp [skipped, hne ')' (by decide), hne '\\' (by decide)]

/-- Inside comments, references are skipped. -/
theorem skipped_reference {mode : Skipping} (hmode : mode ≠ .space) (value : Nat) :
    skipped v mode (Position.reference value ++ cs) = skipped v mode cs := by
  have hdigits := isAsciiDigit_of_mem_toDigits (n := value)
  refine Eq.trans ?_ (skipped_digits hmode hdigits)
  rw [Position.reference]
  cases mode with
  | space => exact absurd rfl hmode
  | line => simp [skipped]
  | comment =>
    obtain ⟨d, ds, hds⟩ := List.exists_cons_of_ne_nil (Nat.toDigits_ne_nil (b := 10) (n := value))
    rw [hds] at hdigits ⊢
    rw [skipped_digits (by simp) hdigits]
    simp only [List.cons_append, skipped]
    exact skipped_digits (by simp) fun e he => hdigits e (List.mem_cons_of_mem _ he)

/-- The same is skipped in a text and in what the machine writes for it from a position on. -/
def SkipsAlike (offset : Nat) (v : Bool) (mode : Skipping) (p : Position) (cs : List Char) : Prop :=
  Option.Rel (fun rest rest' => ∃ w inBracket, cs = w ++ rest ∧ Continues p w rest inBracket ∧
      rest' = Position.run offset (.plain inBracket) rest)
    (skipped v mode cs).toOption (skipped v mode (Position.run offset p cs)).toOption

section Skipped

variable {mode mode' : Skipping}

theorem SkipsAlike.of {cs' : List Char} (h : SkipsAlike offset v mode' p' cs') (hcs : cs = u ++ cs')
    (hafter : ∀ w, w <+: cs' → (p.after (u ++ w)).isInBracket = (p'.after w).isInBracket)
    (hskip : skipped v mode cs = skipped v mode' cs')
    (hrun : skipped v mode (Position.run offset p cs) =
      skipped v mode' (Position.run offset p' cs')) : SkipsAlike offset v mode p cs := by
  rw [SkipsAlike, hskip, hrun]
  rw [SkipsAlike] at h
  generalize (skipped v mode' cs').toOption = left,
    (skipped v mode' (Position.run offset p' cs')).toOption = right at h
  cases h with
  | none => exact .none
  | some hrest =>
    obtain ⟨w, inBracket, rfl, hgo, hrest'⟩ := hrest
    refine .some ⟨u ++ w, inBracket, by rw [hcs, List.append_assoc], fun x hx => ?_, hrest'⟩
    rw [List.append_assoc, hafter _ ((List.prefix_append_right_inj w).2 hx)]
    exact hgo x hx

/-- After a character. -/
theorem SkipsAlike.step (h : SkipsAlike offset v mode' (p.step offset c).2 cs)
    (hskip : skipped v mode (c :: cs) = skipped v mode' cs)
    (hrun : ∀ t, skipped v mode ((p.step offset c).1 ++ t) = skipped v mode' t) :
    SkipsAlike offset v mode p (c :: cs) := by
  refine h.of (u := [c]) rfl (fun w _ => ?_) hskip (hrun _)
  rw [Position.step_snd]
  rfl

/-- After a character between others. -/
theorem SkipsAlike.copied (hc : c ≠ '\\')
    (h : ∀ inBracket, SkipsAlike offset v mode' (.plain inBracket) cs)
    (hskip : ∀ cs, skipped v mode (c :: cs) = skipped v mode' cs) :
    SkipsAlike offset v mode (.plain inBracket) (c :: cs) := by
  have hstep : (Position.plain inBracket).step offset c =
      ([c], .plain (Position.bracketAfter inBracket c)) := Position.stepPlain_of_ne hc
  refine .step ?_ (hskip cs) fun t => ?_
  · rw [hstep]
    exact h _
  · rw [hstep]
    exact hskip t

variable {value : Nat}

/-- After a number, a comment goes on in the same way. -/
theorem SkipsAlike.number (hmode : mode ≠ .space) (hcs : ∀ d ∈ cs.head?, isAsciiDigit d = false)
    (h : SkipsAlike offset v mode (.plain false) cs) :
    SkipsAlike offset v mode (.number value) cs := by
  refine h.of (u := []) rfl (continues_number (by simp) hcs) rfl ?_
  rw [Position.run_number_of_not_digit hcs, skipped_reference hmode]

theorem SkipsAlike.digit (hmode : mode ≠ .space) (hc : isAsciiDigit c = true)
    (h : SkipsAlike offset v mode (.number (10 * value + Position.digitValue c)) cs) :
    SkipsAlike offset v mode (.number value) (c :: cs) := by
  have hstep : (Position.number value).step offset c = _ := Position.step_number_of_digit hc
  have hskip : skipped v mode ([c] ++ cs) = skipped v mode cs :=
    skipped_digits hmode (by simpa using hc)
  refine .step ?_ hskip fun t => ?_
  · rw [hstep]
    exact h
  · rw [hstep]
    rfl

/-- A comment up to the line end goes on. -/
theorem skipsAlike_line (ih : ∀ p, (if c = '\n' then Skipping.space else .line).Allows p →
    SkipsAlike offset v (if c = '\n' then .space else .line) p cs) (p : Position) :
    SkipsAlike offset v .line p (c :: cs) := by
  have hskip (cs : List Char) :
      skipped v .line (c :: cs) = skipped v (if c = '\n' then .space else .line) cs := by
    rw [skipped]
  have hplain (inBracket : Bool) : SkipsAlike offset v .line (.plain inBracket) (c :: cs) := by
    by_cases hc : c = '\\'
    · subst hc
      exact .step (ih (.escaped inBracket) trivial) (hskip cs) fun t => rfl
    · exact .copied hc (fun inBracket => ih _ (Skipping.allows_plain _ inBracket)) hskip
  have hdigit (hc : isAsciiDigit c = true) :
      (if c = '\n' then Skipping.space else .line) = .line := by
    have hne : c ≠ '\n' := by
      rintro rfl
      cases hc
    rw [if_neg hne]
  cases p with
  | plain inBracket => exact hplain inBracket
  | escaped inBracket =>
    by_cases hc : inBracket = true ∨ Position.isLeading c = false
    · have hstep : (Position.escaped inBracket).step offset c = _ :=
        Position.step_escaped_of_not_leading hc
      refine .step ?_ (hskip cs) fun t => ?_
      · rw [hstep]
        exact ih _ (Skipping.allows_plain _ inBracket)
      · rw [hstep]
        exact hskip t
    · obtain ⟨rfl, hlead⟩ : inBracket = false ∧ Position.isLeading c = true := by simpa using hc
      have hstep : (Position.escaped false).step offset c = _ :=
        Position.step_escaped_of_leading hlead
      rw [hdigit (Position.isAsciiDigit_of_isLeading hlead)] at hskip ih
      refine .step ?_ (hskip cs) fun t => ?_
      · rw [hstep]
        exact ih _ trivial
      · rw [hstep]
        rfl
  | number value =>
    by_cases hc : isAsciiDigit c = true
    · rw [hdigit hc] at ih
      exact .digit (by simp) hc (ih _ trivial)
    · exact .number (by simp) (by simpa using hc) (hplain false)

/-- Inside a comment in parentheses, a character is read after the number before it, if any. -/
theorem SkipsAlike.comment (hp : Skipping.comment.Allows p)
    (hplain : ∀ inBracket, SkipsAlike offset v .comment (.plain inBracket) cs)
    (hdigit : ∀ value d ds, cs = d :: ds → isAsciiDigit d = true →
      SkipsAlike offset v .comment (.number value) ds) : SkipsAlike offset v .comment p cs := by
  cases p with
  | plain inBracket => exact hplain inBracket
  | escaped inBracket => exact absurd rfl (hp inBracket)
  | number value =>
    by_cases hcs : ∀ d ∈ cs.head?, isAsciiDigit d = false
    · exact .number (by simp) hcs (hplain false)
    · obtain ⟨d, hd, hdig⟩ : ∃ d ∈ cs.head?, isAsciiDigit d = true := by simpa using hcs
      obtain ⟨ds, rfl⟩ := List.head?_eq_some_iff.1 hd
      exact .digit (by simp) hdig (hdigit _ d ds rfl hdig)

/-- An escape in a comment is skipped, and the digits that follow it. -/
theorem skipsAlike_commentEscape
    (ih : ∀ p, Skipping.comment.Allows p → SkipsAlike offset v .comment p cs) (inBracket : Bool) :
    SkipsAlike offset v .comment (.plain inBracket) ('\\' :: c :: cs) := by
  have hskip (cs : List Char) : skipped v .comment ('\\' :: c :: cs) = skipped v .comment cs := by
    rw [skipped]
  by_cases hc : inBracket = true ∨ Position.isLeading c = false
  · refine (ih (.plain inBracket) (Skipping.allows_plain _ _)).of (u := ['\\', c]) rfl
      (fun w _ => ?_) (hskip cs) ?_
    · exact congrArg Position.isInBracket (Position.after_escaped_cons hc)
    · rw [Position.run_escape hc]
      exact hskip _
  · obtain ⟨rfl, hlead⟩ : inBracket = false ∧ Position.isLeading c = true := by simpa using hc
    have hstep (offset : Nat) : (Position.escaped false).step offset c = _ :=
      Position.step_escaped_of_leading hlead
    have hnumber := ih (.number (Position.digitValue c)) (Skipping.allows_number (by simp) _)
    refine hnumber.of (u := ['\\', c]) rfl (fun w _ => ?_) (hskip cs) ?_
    · show (((Position.escaped false).step 0 c).2.after w).isInBracket = _
      rw [hstep]
    · show skipped v .comment (Position.run offset (.escaped false) (c :: cs)) = _
      rw [Position.run, hstep]
      rfl

/-- Any other character in a comment is skipped. -/
theorem skipsAlike_commentOther (hclose : c ≠ ')')
    (hescape : ∀ d ds, c = '\\' → cs = d :: ds → False)
    (ih : ∀ p, Skipping.comment.Allows p → SkipsAlike offset v .comment p cs)
    (hp : Skipping.comment.Allows p) : SkipsAlike offset v .comment p (c :: cs) := by
  refine .comment hp (fun inBracket => ?_) fun value d ds hcs hd => ?_
  · by_cases hc : c = '\\'
    · -- A backslash ends the text.
      subst hc
      obtain rfl : cs = [] := by
        cases cs with
        | nil => rfl
        | cons d ds => exact (hescape d ds rfl rfl).elim
      exact .none
    · refine .copied hc (fun inBracket => ih _ (Skipping.allows_plain _ inBracket)) fun cs => ?_
      rw [skipped]
      · exact hclose
      · exact fun d ds hc' => absurd hc' hc
  · cases hcs
    exact ih _ (Skipping.allows_number (by simp) value)

/-- Nothing is skipped in front of a character, on both sides. -/
theorem skipsAlike_stop (hgroup : ∀ rest, c = '(' → cs = '?' :: '#' :: rest → False)
    (hline : ¬ (v && c = '#') = true)
    (hgap : ¬ (v && (c = ' ' || c = '\n' || c = '\r' || c = '\t')) = true) (inBracket : Bool) :
    SkipsAlike offset v .space (.plain inBracket) (c :: cs) := by
  have hhead : (Position.run offset (.plain inBracket) (c :: cs)).head? = some c :=
    Position.head?_run
  obtain ⟨t, ht⟩ := List.head?_eq_some_iff.1 hhead
  have hgroup' : ∀ rest, c = '(' → t = '?' :: '#' :: rest → False := by
    rintro rest rfl rfl
    rw [Position.run_cons (by decide)] at ht
    have hfirst := congrArg List.head? (List.cons.inj ht).2
    rw [Position.head?_run] at hfirst
    obtain ⟨cs₁, rfl⟩ := List.head?_eq_some_iff.1 hfirst
    rw [Position.run_cons (by decide)] at ht
    have hsecond := congrArg List.head? (List.cons.inj (List.cons.inj ht).2).2
    rw [Position.head?_run] at hsecond
    obtain ⟨cs₂, rfl⟩ := List.head?_eq_some_iff.1 hsecond
    exact hgroup cs₂ rfl rfl
  rw [SkipsAlike, ht, skipped, skipped, if_neg hline, if_neg hgap, if_neg hline, if_neg hgap]
  · exact .some ⟨[], inBracket, rfl, fun _ _ => rfl, ht.symm⟩
  · exact hgroup'
  · exact hgroup

/-- At the end of the text, nothing is left to skip. -/
theorem skipsAlike_nil (hmode : mode ≠ .comment) (hp : mode.Allows p) :
    SkipsAlike offset v mode p [] := by
  have hskip : skipped v mode [] = .ok [] ∧
      skipped v mode (Position.run offset p []) = .ok [] := by
    cases mode with
    | comment => exact absurd rfl hmode
    | space =>
      obtain ⟨inBracket, rfl⟩ := hp
      exact ⟨rfl, rfl⟩
    | line =>
      refine ⟨rfl, ?_⟩
      cases p with
      | plain inBracket => rfl
      | escaped inBracket => rfl
      | number value =>
        have hreference : skipped v .line (Position.reference (value + offset) ++ []) =
            skipped v .line [] := skipped_reference (by simp) _
        rwa [List.append_nil] at hreference
  rw [SkipsAlike, hskip.1, hskip.2]
  refine .some ⟨[], p.isInBracket, rfl, fun u hu => ?_, rfl⟩
  obtain rfl := List.prefix_nil.1 hu
  rfl

end Skipped

/-- The same is skipped on both sides, wherever the machine stands in a comment. -/
theorem skipped_run {mode : Skipping} (hp : mode.Allows p) : SkipsAlike offset v mode p cs := by
  fun_induction skipped v mode cs generalizing p with
  | case1 rest ih =>
    obtain ⟨inBracket, rfl⟩ := hp
    refine (ih (Skipping.allows_plain _ inBracket)).of (u := ['(', '?', '#']) rfl
      (fun w _ => rfl) (by rw [skipped]) ?_
    show skipped v .space ('(' :: '?' :: '#' :: Position.run offset (.plain inBracket) rest) = _
    rw [skipped]
  | case2 c rest hgroup hline ih =>
    obtain ⟨inBracket, rfl⟩ := hp
    obtain ⟨rfl, rfl⟩ : v = true ∧ c = '#' := by simpa using hline
    exact .copied (by decide) (fun inBracket => ih trivial) fun cs => by simp [skipped]
  | case3 c rest hgroup hline hgap ih =>
    obtain ⟨inBracket, rfl⟩ := hp
    have hc : c ≠ '\\' ∧ c ≠ '(' := by
      constructor <;> rintro rfl <;> simp at hgap
    refine .copied hc.1 (fun inBracket => ih (Skipping.allows_plain _ _)) fun cs => ?_
    rw [skipped, if_neg hline, if_pos hgap]
    exact fun _ hopen => absurd hopen hc.2
  | case4 c rest hgroup hline hgap =>
    obtain ⟨inBracket, rfl⟩ := hp
    exact skipsAlike_stop hgroup hline hgap inBracket
  | case5 c rest ih => exact skipsAlike_line (fun p => ih) p
  | case6 rest ih =>
    refine .comment hp (fun inBracket => ?_) fun value d ds hcs hd => by cases hcs; cases hd
    exact .copied (by decide) (fun inBracket => ih (Skipping.allows_plain _ _)) fun cs => by
      rw [skipped]
  | case7 c rest ih =>
    exact .comment hp (skipsAlike_commentEscape fun p => ih)
      fun value d ds hcs hd => by cases hcs; cases hd
  | case8 c rest hclose hescape ih =>
    exact skipsAlike_commentOther hclose hescape (fun p => ih) hp
  | case9 => exact .comment hp (fun inBracket => .none) fun value d ds hcs => by cases hcs
  | case10 mode hmode => exact skipsAlike_nil hmode hp

/-- What is left of a text after something has been skipped or read, and of the text beside it. -/
structure Leaves (source : List Char) (offset : Nat) (cs rest rest' : List Char) : Prop where
  beside : Beside source offset rest rest'
  length_le : rest.length ≤ cs.length

/-- The same is skipped in texts beside each other. -/
theorem skipped_beside (hv : v = true → 'x' ∈ source) (h : Beside source offset cs t) :
    Option.Rel (Leaves source offset cs) (skipped v .space cs).toOption
      (skipped v .space t).toOption := by
  obtain ⟨inBracket, hstands, rfl⟩ := h.exists_stands
  have hskips : SkipsAlike offset v .space (.plain inBracket) cs := skipped_run ⟨inBracket, rfl⟩
  rw [SkipsAlike] at hskips
  generalize hleft : (skipped v .space cs).toOption = left,
    (skipped v .space (Position.run offset (.plain inBracket) cs)).toOption = right at hskips
  cases hskips with
  | none => exact .none
  | some hrest =>
    obtain ⟨w, b, rfl, hgo, rfl⟩ := hrest
    refine .some ⟨⟨b, hstands.move hgo fun hclose hfalse => ?_, rfl⟩,
      (List.suffix_append w _).length_le⟩
    have hopens := opens_skipped hclose hv hstands.suffix hleft
    have hbehind := hgo [] List.nil_prefix
    rw [List.append_nil, hfalse] at hbehind
    exact hbehind.symm.trans hopens

/-! ## Numbers, bounds and names -/

/-- The same is read from texts that lie beside each other. -/
def Alongside {α : Type} (source : List Char) (offset : Nat)
    (f : List Char → Option (α × List Char)) : Prop :=
  ∀ cs t, Beside source offset cs t →
    Option.Rel (fun x y => x.1 = y.1 ∧ Leaves source offset cs x.2 y.2) (f cs) (f t)

namespace Alongside

variable {α β : Type} {f : List Char → Option (α × List Char)}

theorem some (a : α) : Alongside source offset fun cs => some (a, cs) :=
  fun _ _ h => .some ⟨rfl, h, le_rfl⟩

theorem bind {g : α → List Char → Option (β × List Char)} (hf : Alongside source offset f)
    (hg : ∀ a, Alongside source offset (g a)) :
    Alongside source offset fun cs => (f cs).bind fun x => g x.1 x.2 := by
  intro cs t h
  have hfirst := hf cs t h
  show Option.Rel _ ((f cs).bind fun x => g x.1 x.2) ((f t).bind fun x => g x.1 x.2)
  generalize f cs = left, f t = right at hfirst
  cases hfirst with
  | none => exact .none
  | @some x y hxy =>
    obtain ⟨a, rest⟩ := x
    obtain ⟨b, rest'⟩ := y
    obtain ⟨rfl, hrest⟩ := hxy
    have hnext := hg a rest rest' hrest.beside
    simp only [Option.bind_some]
    generalize g a rest = left, g a rest' = right at hnext
    cases hnext with
    | none => exact .none
    | some hxy =>
      exact .some ⟨hxy.1, hxy.2.beside, hxy.2.length_le.trans hrest.length_le⟩

/-- What is read depends on the next character. -/
theorem head {f : Char → List Char → Option (α × List Char)}
    (hf : ∀ c, (∀ rest, f c rest = Option.none) ∨
      (c ≠ '\\' ∧ c ≠ '[') ∧ Alongside source offset (f c)) :
    Alongside source offset fun cs => match cs with
      | c :: rest => f c rest
      | [] => Option.none := by
  intro cs t h
  cases cs with
  | nil =>
    obtain rfl := h.nil
    exact .none
  | cons c cs =>
    rcases hf c with hnone | ⟨hc, hnext⟩
    · obtain ⟨t', rfl⟩ := List.head?_eq_some_iff.1 h.head?_eq
      simp only [hnone]
      exact .none
    · obtain ⟨t', rfl, h'⟩ := h.cons hc
      have hrest := hnext cs t' h'
      dsimp only
      generalize f c cs = left, f c t' = right at hrest
      cases hrest with
      | none => exact .none
      | some hxy => exact .some ⟨hxy.1, hxy.2.beside, hxy.2.length_le.trans (Nat.le_succ _)⟩

theorem optionally (hf : Alongside source offset f) :
    Alongside source offset (Regex.optionally f) := by
  intro cs t h
  have hrest := hf cs t h
  unfold Regex.optionally
  generalize f cs = left, f t = right at hrest
  cases hrest with
  | none => exact .some ⟨rfl, h, le_rfl⟩
  | some hxy => exact .some ⟨congrArg Option.some hxy.1, hxy.2⟩

end Alongside

theorem gap_alongside (hv : v = true → 'x' ∈ source) : Alongside source offset (gap v) := by
  intro cs t h
  have hskip := skipped_beside hv h
  unfold gap
  generalize (skipped v .space cs).toOption = left, (skipped v .space t).toOption = right at hskip
  cases hskip with
  | none => exact .none
  | some hrest => exact .some ⟨rfl, hrest⟩

theorem decimal?_alongside : Alongside source offset decimal? := by
  intro cs t h
  obtain ⟨htake, hdrop⟩ := h.dropWhile (f := isAsciiDigit) (by decide)
  simp only [decimal?, htake]
  split_ifs
  · exact .none
  · exact .some ⟨rfl, hdrop, (List.dropWhile_suffix _).length_le⟩

theorem lowerBound?_alongside : Alongside source offset lowerBound? := by
  intro cs t h
  by_cases hcomma : cs.head? = some ','
  · obtain ⟨rest, rfl⟩ := List.head?_eq_some_iff.1 hcomma
    obtain ⟨t', rfl⟩ := List.head?_eq_some_iff.1 h.head?_eq
    exact .some ⟨rfl, h, le_rfl⟩
  · rw [lowerBound?_of_head?_ne hcomma, lowerBound?_of_head?_ne (by rw [h.head?_eq]; exact hcomma)]
    exact decimal?_alongside cs t h

theorem closeBounds?_alongside (b : Bounds) : Alongside source offset (closeBounds? b) := by
  rw [closeBounds?_eq]
  refine .head fun c => ?_
  by_cases hc : c = '\x7d'
  · subst hc
    exact .inr ⟨by decide, .some b⟩
  · exact .inl fun rest => if_neg hc

theorem upperBound?_alongside (hv : v = true → 'x' ∈ source) (lo : Nat) :
    Alongside source offset (upperBound? v lo) :=
  (gap_alongside hv).bind fun _ => decimal?_alongside.optionally.bind fun hi =>
    (gap_alongside hv).bind fun _ => closeBounds?_alongside ⟨lo, hi⟩

theorem afterLower?_alongside (hv : v = true → 'x' ∈ source) (lo : Nat) :
    Alongside source offset (afterLower? v lo) := by
  rw [afterLower?_eq]
  refine .head fun c => ?_
  by_cases hbrace : c = '\x7d'
  · subst hbrace
    exact .inr ⟨by decide, .some _⟩
  by_cases hcomma : c = ','
  · subst hcomma
    exact .inr ⟨by decide, upperBound?_alongside hv lo⟩
  · exact .inl fun rest => by simp [hbrace, hcomma]

theorem bounds?_alongside (hv : v = true → 'x' ∈ source) : Alongside source offset (bounds? v) := by
  have heq := funext (bounds?_eq v)
  rw [heq]
  exact (gap_alongside hv).bind fun _ => lowerBound?_alongside.bind fun lo =>
    (gap_alongside hv).bind fun _ => afterLower?_alongside hv lo

theorem sign?_alongside (hv : v = true → 'x' ∈ source) : Alongside source offset (sign? v) := by
  rw [sign?_eq]
  refine .head fun c => ?_
  by_cases h₁ : c = '?'
  · subst h₁
    exact .inr ⟨by decide, .some _⟩
  by_cases h₂ : c = '*'
  · subst h₂
    exact .inr ⟨by decide, .some _⟩
  by_cases h₃ : c = '+'
  · subst h₃
    exact .inr ⟨by decide, .some _⟩
  by_cases h₄ : c = '\x7b'
  · subst h₄
    exact .inr ⟨by decide, bounds?_alongside hv⟩
  · exact .inl fun rest => by simp [h₁, h₂, h₃, h₄]

theorem nameUpTo?_alongside {close : Char} (hclose : close ≠ '\\' ∧ close ≠ '[') :
    Alongside source offset (nameUpTo? close) := by
  intro cs t h
  obtain ⟨htake, hdrop⟩ := h.dropWhile (f := isNameChar) (by decide)
  have hlength : (cs.dropWhile isNameChar).length ≤ cs.length := (List.dropWhile_suffix _).length_le
  simp only [nameUpTo?, htake]
  generalize cs.dropWhile isNameChar = rest, t.dropWhile isNameChar = rest' at hdrop hlength
  cases rest with
  | nil =>
    obtain rfl := hdrop.nil
    exact .none
  | cons c rest =>
    obtain ⟨t', rfl⟩ := List.head?_eq_some_iff.1 hdrop.head?_eq
    dsimp only
    split_ifs with hc
    · simp only [Bool.and_eq_true, decide_eq_true_eq] at hc
      obtain ⟨t'', ht, hnext⟩ := hdrop.cons (by rw [hc.1]; exact hclose)
      cases ht
      exact .some ⟨rfl, hnext, (Nat.le_succ _).trans hlength⟩
    · exact .none

/-! ## References -/

/-- A number is told by its digits. -/
theorem decimal?_of_takeWhile {rest : List Char} {n : Nat}
    (htake : t.takeWhile isAsciiDigit = cs.takeWhile isAsciiDigit)
    (hn : decimal? cs = some (n, rest)) :
    rest = cs.dropWhile isAsciiDigit ∧ decimal? t = some (n, t.dropWhile isAsciiDigit) := by
  simp only [decimal?, htake] at hn ⊢
  split_ifs at hn ⊢
  cases hn
  exact ⟨rfl, rfl⟩

/-- A reference is beside one by the same number. Outside brackets its number is raised, unless a
zero comes first. -/
theorem Beside.reference {d : Char} {rest : List Char} {n : Nat}
    (h : Beside source offset ('\\' :: d :: cs) t) (hd : isAsciiDigit d = true)
    (hn : decimal? (d :: cs) = some (n, rest)) (hsmall : n + offset < 18446744073709551616) :
    ∃ inBracket, Stands source inBracket ('\\' :: d :: cs) ∧
      ∃ e es t', t = '\\' :: e :: es ∧ isAsciiDigit e = true ∧
        decimal? (e :: es) =
          some (if Position.isLeading d && !inBracket then n + offset else n, t') ∧
        Beside source offset rest t' := by
  obtain ⟨inBracket, hstands, rfl⟩ := h.exists_stands
  refine ⟨inBracket, hstands, ?_⟩
  by_cases hcopied : inBracket = true ∨ Position.isLeading d = false
  · have hbehind : Beside source offset cs (Position.run offset (.plain inBracket) cs) :=
      ⟨inBracket, hstands.escape hcopied, rfl⟩
    obtain ⟨htake, hdrop⟩ := hbehind.dropWhile (f := isAsciiDigit) (by decide)
    have hsame : (d :: Position.run offset (.plain inBracket) cs).takeWhile isAsciiDigit =
        (d :: cs).takeWhile isAsciiDigit := by
      simp [hd, htake]
    obtain ⟨hrest, hnumber⟩ := decimal?_of_takeWhile hsame hn
    have hraised : (Position.isLeading d && !inBracket) = false := by
      rcases hcopied with rfl | hlead
      · exact Bool.and_false _
      · rw [hlead, Bool.false_and]
    rw [List.dropWhile_cons_of_pos hd] at hrest hnumber
    refine ⟨d, _, (Position.run offset (.plain inBracket) cs).dropWhile isAsciiDigit,
      Position.run_escape hcopied, hd, ?_, ?_⟩
    · rw [hraised]
      exact hnumber
    · rw [hrest]
      exact hdrop
  · obtain ⟨rfl, hlead⟩ : inBracket = false ∧ Position.isLeading d = true := by
      simpa using hcopied
    obtain ⟨hsplit, -, -, hhead⟩ := of_decimal?_eq_some hn
    have hrest : Beside source offset rest (Position.run offset (.plain false) rest) := by
      rw [List.takeWhile_cons_of_pos hd, List.cons_append] at hsplit
      rw [hsplit] at hstands
      exact ⟨false, hstands.reference hlead (fun e he => List.mem_takeWhile_imp he) hhead, rfl⟩
    obtain ⟨e, es, hes⟩ := List.exists_cons_of_ne_nil
      (Nat.toDigits_ne_nil (b := 10) (n := n + offset))
    have he : isAsciiDigit e = true := isAsciiDigit_of_mem_toDigits e (hes ▸ List.mem_cons_self)
    have hdecimal := decimal?_toDigits (n := n + offset) (hrest.head?_eq ▸ hhead)
    rw [if_neg (Nat.not_le.2 hsmall), hes] at hdecimal
    refine ⟨e, es ++ Position.run offset (.plain false) rest, _, ?_, he, ?_, hrest⟩
    · rw [← raised, raised_of_decimal? hlead hn, Position.reference, hes]
      rfl
    · rw [hlead]
      exact hdecimal

end ModeStack.Regex
