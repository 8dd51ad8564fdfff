import Mathlib.Data.List.DropRight
import Mathlib.Data.List.TakeWhile
import ModeStack.Proofs.Regex.Tame

/-!
# Patterns that set flags

A text that sets flags can be moved too, if the flags it is read under are moved with it. `calm`
reads off a text whether it holds none of the other things that `tame` refuses. Since white space
and `#` mean something else in verbose mode, the scan has to know where that mode is in force: it
follows the flag letters, and returns to the mode from before where a group that sets flags closes.

The rest of the module says where a calm text is read (`Alone`, `Advances`), and that the same
characters are skipped and accepted in a context.
-/

namespace ModeStack.Regex

open ModeStack.Text
open ModeStack.Rule (Position raised isOrdinary isOrdinary_iff)

/-! ## Calm texts -/

/-- White space that means nothing in verbose mode. -/
def isGap (c : Char) : Bool := c = ' ' || c = '\n' || c = '\r' || c = '\t'

/-- What follows the gap in front of a text. -/
def afterGap (verbose : Bool) (cs : List Char) : List Char :=
  if verbose then cs.dropWhile isGap else cs

/-- Where a scan of a pattern stands. -/
inductive Place where
  /-- Between atoms. -/
  | outside
  /-- Inside a bracket, in which others are open. -/
  | inside (opened : Nat)
  /-- Between an opening parenthesis and the `?` after it. -/
  | opening
  /-- Among flag letters, which are set or cleared. Before them the mode was `saved`. -/
  | letters (on saved : Bool)

/-- Whether a text contains no comments, no `\G` or `\K`, and no references by number except `\N`,
where N has no leading zero. `verbose` tells whether verbose mode is in force, and `outer`, for each
open group, what mode to return to at its end; nothing if the mode is kept. -/
def calm : Place → (verbose : Bool) → (outer : List (Option Bool)) → List Char → Bool
  | .outside, v, outer, '\\' :: c :: cs =>
    c ≠ 'G' && c ≠ 'K' && c ≠ '0' && (c ≠ 'k' || isNamed cs.tail) && calm .outside v outer cs
  | .outside, v, outer, '[' :: '^' :: ']' :: cs => calm (.inside 0) v outer cs
  | .outside, v, outer, '[' :: ']' :: cs => calm (.inside 0) v outer cs
  | .outside, v, outer, '[' :: cs => calm (.inside 0) v outer cs
  | .outside, v, outer, '(' :: cs =>
    if next (afterGap v cs) = '?' then calm .opening v outer cs
    else calm .outside v (none :: outer) cs
  | .outside, v, outer, ')' :: cs => calm .outside (outer.head?.join.getD v) outer.tail cs
  | .outside, v, outer, c :: cs => !(v && c = '#') && calm .outside v outer cs
  | .inside opened, v, outer, '\\' :: _ :: cs => calm (.inside opened) v outer cs
  | .inside opened, v, outer, '[' :: cs => calm (.inside (opened + 1)) v outer cs
  | .inside 0, v, outer, ']' :: cs => calm .outside v outer cs
  | .inside (opened + 1), v, outer, ']' :: cs => calm (.inside opened) v outer cs
  | .inside opened, v, outer, _ :: cs => calm (.inside opened) v outer cs
  | .opening, v, outer, '?' :: ':' :: cs => calm .outside v (some v :: outer) cs
  | .opening, v, outer, '?' :: cs =>
    if opensPlainly cs then calm .outside v (none :: outer) cs
    else calm (.letters true v) v outer cs
  | .opening, v, outer, _ :: cs => calm .opening v outer cs
  | .letters _ _, v, outer, ')' :: cs => calm .outside v outer cs
  | .letters _ saved, v, outer, ':' :: cs => calm .outside v (some saved :: outer) cs
  | .letters _ saved, v, outer, '-' :: cs => calm (.letters false saved) v outer cs
  | .letters on saved, _, outer, 'x' :: cs => calm (.letters on saved) on outer cs
  | .letters on saved, v, outer, c :: cs =>
    ("imsUu".toList.contains c || v && isGap c) && calm (.letters on saved) v outer cs
  | _, _, _, [] => true

/-- A character that means the same to the scan wherever it stands outside brackets. -/
def isQuiet (c : Char) : Bool := isOrdinary c && c ≠ ')' && c ≠ '#'

section Scan

variable {c : Char} {cs : List Char} {v : Bool} {outer : List (Option Bool)} {opened : Nat}

attribute [local simp] calm

theorem isQuiet_iff : isQuiet c = true ↔
    (c ≠ '\\' ∧ c ≠ '[' ∧ c ≠ ']' ∧ c ≠ '(') ∧ c ≠ ')' ∧ c ≠ '#' := by
  simp [isQuiet, isOrdinary_iff, and_assoc]

theorem isOrdinary_of_isQuiet (hc : isQuiet c = true) : isOrdinary c = true :=
  isOrdinary_iff.2 (isQuiet_iff.1 hc).1

theorem calm_other (h₁ : c ≠ '\\') (h₂ : c ≠ '[') (h₃ : c ≠ '(') (h₄ : c ≠ ')') :
    calm .outside v outer (c :: cs) = (!(v && c = '#') && calm .outside v outer cs) := by
  simp [h₁, h₂]

theorem calm_quiet (hc : isQuiet c = true) :
    calm .outside v outer (c :: cs) = calm .outside v outer cs := by
  obtain ⟨⟨h₁, h₂, -, h₄⟩, h₅, h₆⟩ := isQuiet_iff.1 hc
  rw [calm_other h₁ h₂ h₄ h₅]
  simp [h₆]

theorem calm_append {w : List Char} (hw : ∀ c ∈ w, isQuiet c = true) :
    calm .outside v outer (w ++ cs) = calm .outside v outer cs := by
  induction w with
  | nil => rfl
  | cons c w ih =>
    rw [List.cons_append, calm_quiet (hw c List.mem_cons_self),
      ih fun d hd => hw d (List.mem_cons_of_mem _ hd)]

theorem calm_escape : calm .outside v outer ('\\' :: c :: cs) =
    (c ≠ 'G' && c ≠ 'K' && c ≠ '0' && (c ≠ 'k' || isNamed cs.tail) &&
      calm .outside v outer cs) := by
  simp

theorem calm_close (b : Option Bool) :
    calm .outside v (b :: outer) (')' :: cs) = calm .outside (b.getD v) outer cs := by
  simp

theorem calm_open : calm .outside v outer ('(' :: cs) =
    if next (afterGap v cs) = '?' then calm .opening v outer cs
    else calm .outside v (none :: outer) cs := by
  simp

theorem calm_question (hcolon : next cs ≠ ':') : calm .opening v outer ('?' :: cs) =
    if opensPlainly cs then calm .outside v (none :: outer) cs
    else calm (.letters true v) v outer cs := by
  rw [calm]
  rintro rest rfl
  exact hcolon rfl

theorem calm_letters {on saved : Bool} (hclose : c ≠ ')') (hcolon : c ≠ ':') (hminus : c ≠ '-')
    (h : calm (.letters on saved) v outer (c :: cs) = true) :
    calm (.letters on saved) (if c = 'x' then on else v) outer cs = true := by
  split_ifs with hx
  · simpa [hx] using h
  · simp only [calm, Bool.and_eq_true] at h
    exact h.2

theorem calm_inside (h₁ : c ≠ '\\') (h₂ : c ≠ '[') (h₃ : c ≠ ']') :
    calm (.inside opened) v outer (c :: cs) = calm (.inside opened) v outer cs := by
  cases opened <;> simp [h₁, h₃]

theorem calm_inside_append {w : List Char} (hw : ∀ c ∈ w, isOrdinary c = true) :
    calm (.inside opened) v outer (w ++ cs) = calm (.inside opened) v outer cs := by
  induction w with
  | nil => rfl
  | cons c w ih =>
    obtain ⟨h₁, h₂, h₃, -⟩ := isOrdinary_iff.1 (hw c List.mem_cons_self)
    rw [List.cons_append, calm_inside h₁ h₂ h₃, ih fun d hd => hw d (List.mem_cons_of_mem _ hd)]

/-- Where the scan for tame texts stands. -/
def Place.of : Option Nat → Place
  | none => .outside
  | some opened => .inside opened

/-- A tame text is calm where verbose mode is not in force. -/
theorem calm_of_tame {inside : Option Nat} (houter : ∀ b ∈ outer, b.getD false = false)
    (h : tame inside cs = true) : calm (.of inside) false outer cs = true := by
  fun_induction tame inside cs generalizing outer with
  | case1 c cs ih =>
    simp only [Bool.and_eq_true] at h
    simp only [Place.of, calm_escape, Bool.and_eq_true]
    exact ⟨h.1, ih houter h.2⟩
  | case2 cs ih | case3 cs ih => simpa [Place.of] using ih houter h
  | case4 cs hcaret hclose ih => simpa [Place.of] using ih houter h
  | case5 cs ih =>
    rw [Bool.and_eq_true] at h
    have hplain : calm .opening false outer ('?' :: cs) = true := by
      by_cases hcolon : next cs = ':'
      · obtain ⟨rest, rfl⟩ := exists_of_next hcolon (by decide)
        have hrest := @ih (some false :: outer) (by simpa using houter) h.2
        simpa [Place.of] using hrest
      · have hrest := @ih (none :: outer) (by simpa using houter) h.2
        have hne : ∀ rest, cs ≠ ':' :: rest := fun rest hcs => hcolon (by rw [hcs]; rfl)
        simpa [Place.of, hne, h.1] using hrest
    simpa [Place.of, calm_open, afterGap, next] using hplain
  | case6 opened c cs ih | case7 opened cs ih => simpa [Place.of] using ih houter h
  | case8 cs ih | case9 opened cs ih => simpa [Place.of] using ih houter h
  | case10 inside c cs hescape _ _ hopen hgroup hescape' hopen' hlast hclose ih =>
    by_cases hback : c = '\\'
    · subst hback
      cases cs with
      | nil => cases inside <;> simp [Place.of]
      | cons d cs =>
        cases inside with
        | none => exact (hescape d cs rfl rfl rfl).elim
        | some opened => exact (hescape' opened d cs rfl rfl rfl).elim
    cases inside with
    | some opened =>
      have hc : c ≠ ']' := fun hc => by
        cases opened with
        | zero => exact hlast rfl hc
        | succ opened => exact hclose opened rfl hc
      have hrest := ih houter h
      rwa [Place.of, calm_inside hback (hopen' opened rfl) hc]
    | none =>
      by_cases hparen : c = ')'
      · have hmode : outer.head?.join.getD false = false := by
          cases outer with
          | nil => rfl
          | cons b outer => simpa using houter b List.mem_cons_self
        have hrest := @ih outer.tail (fun b hb => houter b (List.mem_of_mem_tail hb)) h
        simpa [Place.of, hparen, hmode] using hrest
      by_cases hgroup' : c = '('
      · have hrest := @ih (none :: outer) (by simpa using houter) h
        have hnext : next cs ≠ '?' := fun hnext => by
          obtain ⟨rest, hcs⟩ := exists_of_next hnext (by decide)
          exact hgroup rest rfl hgroup' hcs
        simpa [Place.of, calm_open, afterGap, hgroup', hnext] using hrest
      · have hrest := ih houter h
        rw [Place.of, calm_other hback (hopen rfl) hgroup' hparen]
        simpa [Place.of] using hrest
  | case11 inside =>
    cases inside <;> rfl

end Scan

/-! ## Places in a text -/

/-- A calm text is left to read. -/
def Alone (outer : List (Option Bool)) (r : Reading) : Prop :=
  calm .outside r.flags.verbose outer r.rest = true

/-- If a tame text is left to read first, outside verbose mode, it is afterwards, under the same
flags. -/
def Keeps (r r' : Reading) : Prop :=
  r.flags.verbose = false → tame none r.rest = true →
    tame none r'.rest = true ∧ r'.flags = r.flags

/-- The second state is reached from the first. -/
structure Reaches (r r' : Reading) : Prop where
  length_le : r'.rest.length ≤ r.rest.length
  groups_le : r.groups ≤ r'.groups
  keeps : Keeps r r'

/-- The second state is reached from the first, with a calm text left to read. -/
structure Advances (outer : List (Option Bool)) (r r' : Reading) : Prop extends Reaches r r' where
  alone : Alone outer r'

section Places

variable {outer : List (Option Bool)} {r r₁ r₂ : Reading} {c : Char} {cs w : List Char}
  {v : Bool} {ctx : Context}

theorem Keeps.refl (r : Reading) : Keeps r r := fun _ h => ⟨h, rfl⟩

theorem Keeps.trans (h₁ : Keeps r r₁) (h₂ : Keeps r₁ r₂) : Keeps r r₂ := by
  intro hverbose h
  obtain ⟨htame, hflags⟩ := h₁ hverbose h
  obtain ⟨htame', hflags'⟩ := h₂ (by rw [hflags]; exact hverbose) htame
  exact ⟨htame', hflags'.trans hflags⟩

theorem Reaches.refl (r : Reading) : Reaches r r := ⟨le_rfl, le_rfl, .refl r⟩

theorem Reaches.trans (h₁ : Reaches r r₁) (h₂ : Reaches r₁ r₂) : Reaches r r₂ :=
  ⟨h₂.length_le.trans h₁.length_le, h₁.groups_le.trans h₂.groups_le, h₁.keeps.trans h₂.keeps⟩

theorem Advances.refl (h : Alone outer r) : Advances outer r r := ⟨.refl r, h⟩

theorem Reaches.advances (h₁ : Reaches r r₁) (h₂ : Advances outer r₁ r₂) : Advances outer r r₂ :=
  ⟨h₁.trans h₂.toReaches, h₂.alone⟩

/-- Ordinary characters have been read. -/
theorem reaches_withRest (hw : ∀ c ∈ w, isOrdinary c = true) (hr : r.rest = w ++ cs) :
    Reaches r (r.withRest cs) where
  length_le := by
    rw [hr]
    exact (List.suffix_append w cs).length_le
  groups_le := le_rfl
  keeps := by
    intro _ h
    rw [hr, tame_append hw] at h
    exact ⟨h, rfl⟩

/-- Quiet characters have been read. -/
theorem Alone.advances (h : Alone outer r) (hw : ∀ c ∈ w, isQuiet c = true)
    (hr : r.rest = w ++ cs) : Advances outer r (r.withRest cs) where
  toReaches := reaches_withRest (fun c hc => isOrdinary_of_isQuiet (hw c hc)) hr
  alone := by
    rw [Alone, hr, calm_append hw] at h
    exact h

/-! ## What is skipped -/

/-- No comment comes next. -/
structure Uncommented (v : Bool) (cs : List Char) : Prop where
  group : ¬ ['(', '?', '#'] <+: cs
  line : v = true → next cs ≠ '#'

theorem skipped_of_uncommented (h : Uncommented v (afterGap v cs)) :
    skipped v .space cs = .ok (afterGap v cs) := by
  induction cs with
  | nil => cases v <;> rfl
  | cons c cs ih =>
    have hspace : (c = ' ' || c = '\n' || c = '\r' || c = '\t') = isGap c := rfl
    by_cases hgap : (v && isGap c) = true
    · have hafter : afterGap v (c :: cs) = afterGap v cs := by
        rw [Bool.and_eq_true] at hgap
        simp [afterGap, hgap.1, hgap.2]
      rw [hafter] at h ⊢
      have hc : c ≠ '#' ∧ c ≠ '(' := by
        constructor <;> rintro rfl <;> simp [isGap] at hgap
      rw [skipped, hspace, if_neg (by simp [hc.1]), if_pos hgap]
      · exact ih h
      · rintro rest rfl
        exact absurd rfl hc.2
    · have hafter : afterGap v (c :: cs) = c :: cs := by
        unfold afterGap
        split_ifs with hv
        · rw [List.dropWhile_cons_of_neg]
          simpa [hv] using hgap
        · rfl
      rw [hafter] at h ⊢
      rw [skipped, hspace, if_neg, if_neg hgap]
      · intro hhash
        rw [Bool.and_eq_true, decide_eq_true_eq] at hhash
        exact h.line hhash.1 hhash.2
      · rintro rest rfl rfl
        exact h.group ⟨rest, rfl⟩

theorem isOrdinary_of {p : Char → Bool}
    (hp : ['\\', '[', ']', '('].all (fun c => !p c) = true) (c : Char) (hc : p c = true) :
    isOrdinary c = true := by
  simp only [List.all_cons, List.all_nil, Bool.and_true, Bool.and_eq_true, Bool.not_eq_true'] at hp
  refine isOrdinary_iff.2 ⟨?_, ?_, ?_, ?_⟩ <;> rintro rfl <;> simp_all

theorem isQuiet_of {p : Char → Bool}
    (hp : ['\\', '[', ']', '(', ')', '#'].all (fun c => !p c) = true) (c : Char)
    (hc : p c = true) : isQuiet c = true := by
  simp only [List.all_cons, List.all_nil, Bool.and_true, Bool.and_eq_true, Bool.not_eq_true'] at hp
  refine isQuiet_iff.2 ⟨⟨?_, ?_, ?_, ?_⟩, ?_, ?_⟩ <;> rintro rfl <;> simp_all

theorem isOrdinary_of_isGap : ∀ c, isGap c = true → isOrdinary c = true :=
  isOrdinary_of (by decide)

theorem isQuiet_of_isGap : ∀ c, isGap c = true → isQuiet c = true :=
  isQuiet_of (by decide)

theorem afterGap_put (ctx : Context) (cs : List Char) :
    afterGap v (ctx.put false cs) = ctx.put false (afterGap v cs) := by
  unfold afterGap
  split_ifs
  · exact (ctx.takeWhile_put false cs isOrdinary_of_isGap (by decide)).2
  · rfl

theorem Uncommented.put (h : Uncommented v cs) : Uncommented v (ctx.put false cs) where
  group := fun hput => h.group (Context.prefix_of_prefix_put (by simp) hput)
  line := by
    rw [next_put]
    exact h.line

theorem afterGap_afterGap : afterGap v (afterGap v cs) = afterGap v cs := by
  unfold afterGap
  split_ifs
  · exact List.dropWhile_idempotent _ _
  · rfl

/-- The state after what is skipped. -/
def Reading.afterGap (r : Reading) : Reading :=
  r.withRest (Regex.afterGap r.flags.verbose r.rest)

theorem Reading.afterGap_afterGap (r : Reading) : r.afterGap.afterGap = r.afterGap :=
  congrArg r.withRest Regex.afterGap_afterGap

theorem skip_of_uncommented (h : Uncommented r.flags.verbose r.afterGap.rest) :
    skip r = .ok ((), r.afterGap) := by
  unfold skip
  rw [bind_get, skipped_of_uncommented h]
  rfl

/-- Outside verbose mode nothing but comments is skipped. -/
theorem skip_of_terse (hterse : r.flags.verbose = false) (h : Uncommented false r.rest) :
    skip r = .ok ((), r) := by
  have hgap : r.afterGap = r := by
    rw [Reading.afterGap, hterse]
    rfl
  have hskip := skip_of_uncommented (r := r) (by rw [hgap, hterse]; exact h)
  rwa [hgap] at hskip

/-- The same is skipped in every context. -/
theorem skip_place (h : Uncommented r.flags.verbose r.afterGap.rest) (ctx : Context) :
    skip (ctx.place r) = .ok ((), ctx.place r.afterGap) := by
  have hrest : (ctx.place r).afterGap = ctx.place r.afterGap := by
    rw [Reading.afterGap, Context.rest_place]
    exact congrArg (ctx.place r).withRest (afterGap_put ctx r.rest)
  rw [← hrest]
  refine skip_of_uncommented ?_
  rw [hrest]
  exact h.put

/-- Nothing is skipped in front of other characters. -/
theorem skip_of_next (hgap : isGap (next r.rest) = false) (hline : next r.rest ≠ '#')
    (hopen : next r.rest ≠ '(') : skip r = .ok ((), r) := by
  have hafter : r.afterGap = r := by
    have hrest : Regex.afterGap r.flags.verbose r.rest = r.rest := by
      unfold Regex.afterGap
      split_ifs
      · cases hr : r.rest with
        | nil => rfl
        | cons c cs =>
          rw [hr] at hgap
          have hgap : isGap c = false := hgap
          simp [hgap]
      · rfl
    rw [Reading.afterGap, hrest]
    rfl
  have hclear : Uncommented r.flags.verbose r.rest := by
    refine ⟨?_, fun _ => hline⟩
    rintro ⟨rest, hrest⟩
    rw [← hrest] at hopen
    exact hopen rfl
  rw [← hafter] at hclear ⊢
  have hskip := skip_of_uncommented (r := r) hclear
  rwa [hafter] at hskip ⊢

/-- Nothing is skipped twice. -/
theorem skip_skip {r r₁ : Reading} (h : skip r = .ok ((), r₁)) : skip r₁ = .ok ((), r₁) := by
  have hskipped {v : Bool} {cs rest : List Char} {mode : Skipping}
      (h : skipped v mode cs = .ok rest) : skipped v .space rest = .ok rest := by
    fun_induction skipped v mode cs with
    | case4 =>
      cases h
      rw [skipped, if_neg ‹_›, if_neg ‹_›]
      assumption
    | case9 => cases h
    | case10 =>
      cases h
      rfl
    | case1 _ ih | case2 _ _ _ _ ih | case3 _ _ _ _ _ ih | case5 _ _ ih | case6 _ ih
    | case7 _ _ ih | case8 _ _ _ _ ih => exact ih h
  unfold skip at h ⊢
  rw [bind_get] at h ⊢
  cases hrest : skipped r.flags.verbose .space r.rest with
  | error e =>
    rw [hrest] at h
    cases h
  | ok rest =>
    rw [hrest] at h
    cases h
    show ((skipped r.flags.verbose .space rest : Parser (List Char)) >>= continueAt)
      (r.withRest rest) = _
    rw [hskipped hrest]
    rfl

theorem skip_afterGap (h : Uncommented r.flags.verbose r.afterGap.rest) :
    skip r.afterGap = .ok ((), r.afterGap) ∧
      ∀ ctx : Context, skip (ctx.place r.afterGap) = .ok ((), ctx.place r.afterGap) := by
  have htwice := r.afterGap_afterGap
  have hclear : Uncommented r.afterGap.flags.verbose r.afterGap.afterGap.rest := by
    rw [htwice]
    exact h
  have hskip := skip_of_uncommented hclear
  have hplace := skip_place hclear
  rw [htwice] at hskip hplace
  exact ⟨hskip, hplace⟩

theorem skip_sim (h : Uncommented r.flags.verbose r.afterGap.rest) :
    Sim skip (fun _ => skip) r fun _ r' _ => r' = r.afterGap := by
  refine .of_ok fun a r' ha => ?_
  rw [skip_of_uncommented h] at ha
  cases ha
  exact ⟨fun _ => (), skip_place h, rfl⟩

theorem exists_gap (v : Bool) (cs : List Char) :
    ∃ w, (∀ c ∈ w, (v && isGap c) = true) ∧ cs = w ++ afterGap v cs := by
  cases v with
  | false => exact ⟨[], by simp, rfl⟩
  | true =>
    refine ⟨cs.takeWhile isGap, fun c hc => ?_, List.takeWhile_append_dropWhile.symm⟩
    rw [Bool.true_and]
    exact List.mem_takeWhile_imp hc

/-- In front of a calm text stand only white space, which is quiet, and no comment. -/
theorem calm_afterGap : calm .outside v outer (afterGap v cs) = calm .outside v outer cs := by
  obtain ⟨w, hw, hcs⟩ := exists_gap v cs
  conv_rhs => rw [hcs]
  exact (calm_append fun c hc => isQuiet_of_isGap c (Bool.and_eq_true_iff.1 (hw c hc)).2).symm

theorem calm_opening_afterGap :
    calm .opening v outer (afterGap v cs) = calm .opening v outer cs := by
  obtain ⟨w, hw, hcs⟩ := exists_gap v cs
  conv_rhs => rw [hcs]
  generalize afterGap v cs = rest
  clear hcs
  induction w with
  | nil => rfl
  | cons c w ih =>
    have hgap := hw c List.mem_cons_self
    have hc : c ≠ '?' := by
      rintro rfl
      simp [isGap] at hgap
    rw [ih fun d hd => hw d (List.mem_cons_of_mem _ hd), List.cons_append]
    simp [calm, hc]

theorem uncommented_of_calm (h : calm .outside v outer cs = true) :
    Uncommented v (afterGap v cs) := by
  rw [← calm_afterGap] at h
  generalize afterGap v cs = cs at h
  refine ⟨?_, fun hv hnext => ?_⟩
  · rintro ⟨rest, rfl⟩
    cases v <;> simp [calm, afterGap, next, isGap, opensPlainly] at h
  · obtain ⟨rest, rfl⟩ := exists_of_next hnext (by decide)
    simp [calm, hv] at h

theorem Alone.uncommented (h : Alone outer r) : Uncommented r.flags.verbose r.afterGap.rest :=
  uncommented_of_calm h

theorem Alone.afterGap (h : Alone outer r) : Advances outer r r.afterGap := by
  obtain ⟨w, hw, hr⟩ := exists_gap r.flags.verbose r.rest
  exact h.advances (fun c hc => isQuiet_of_isGap c (Bool.and_eq_true_iff.1 (hw c hc)).2) hr

/-! ## What is accepted -/

theorem accept_of_cons (h : r.rest = c :: cs) : accept c r = .ok (true, r.withRest cs) := by
  simp only [accept, bind_remaining, h, if_true, bind_continueAt, pure_apply]

theorem accept_of_head?_ne (h : r.rest.head? ≠ some c) : accept c r = .ok (false, r) := by
  unfold accept
  rw [bind_remaining]
  cases hr : r.rest with
  | nil => rfl
  | cons d rest =>
    have hd : c ≠ d := fun hd => h (by rw [hr, hd]; rfl)
    simp only [hd, if_false, pure_apply]

theorem accept_sim (hr : Alone outer r) (hc : isQuiet c = true) :
    Sim (accept c) (fun _ => accept c) r fun a r' v => Advances outer r r' ∧ v = (fun _ => a) ∧
      (a = true → r'.rest.length < r.rest.length) := by
  refine .of_ok fun a r' ha => ⟨fun _ => a, fun ctx => ?_, ?_⟩
  · by_cases hhead : r.rest.head? = some c
    · obtain ⟨rest, hrest⟩ := List.head?_eq_some_iff.1 hhead
      rw [accept_of_cons hrest] at ha
      cases ha
      refine accept_of_cons ?_
      rw [Context.rest_place, hrest, Context.put_ordinary (isOrdinary_of_isQuiet hc)]
      rfl
    · rw [accept_of_head?_ne hhead] at ha
      cases ha
      refine accept_of_head?_ne ?_
      rw [Context.rest_place, Context.head?_put]
      cases hrest : r.rest with
      | nil => simpa using (isQuiet_iff.1 hc).2.1.symm
      | cons d rest =>
        rw [hrest] at hhead
        exact hhead
  · by_cases hhead : r.rest.head? = some c
    · obtain ⟨rest, hrest⟩ := List.head?_eq_some_iff.1 hhead
      rw [accept_of_cons hrest] at ha
      cases ha
      refine ⟨hr.advances (w := [c]) (by simpa using hc) hrest, rfl, fun _ => ?_⟩
      simp [Reading.withRest, hrest]
    · rw [accept_of_head?_ne hhead] at ha
      cases ha
      exact ⟨.refl hr, rfl, fun h => by cases h⟩

end Places

end ModeStack.Regex
