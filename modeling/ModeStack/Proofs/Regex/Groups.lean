import ModeStack.Proofs.Regex.Moved

/-!
# Groups read in a context

What a group means is told by what stands after its parenthesis. It may begin with flag letters,
which are read one by one (`Among`, `flagLetters_sim`), with an `Opener`, after which it sets no
flags (`plainGroup_sim`), or with what it captures (`captureGroup_sim`).

Main result: `group_sim`.
-/

namespace ModeStack.Regex

open ModeStack.Text
open ModeStack.Rule (isOrdinary)

variable {outer : List (Option Bool)} {r : Reading} {inner₀ : Parser Expr}
  {inner : Context → Parser Expr}
  (h : ∀ outer r, Alone outer r → Sim inner₀ inner r (Moves outer r))

/-! ## Flag letters -/

section Letters

variable {p : Parser Expr} {s s₁ : Reading} {flags : Flags} {rounds : Nat} {on bare : Bool}
  {c : Char} {rest : List Char}

/-- What flag letters mean, after what is skipped. -/
theorem flagLetters_skip (hskip : skip s = .ok ((), s₁)) (hskip₁ : skip s₁ = .ok ((), s₁)) :
    flagLetters p flags rounds on bare s = flagLetters p flags rounds on bare s₁ := by
  cases rounds with
  | zero => rfl
  | succ rounds =>
    unfold flagLetters
    rw [parser_bind_of_ok hskip, parser_bind_of_ok hskip₁]

/-- What flag letters mean, by the character that comes next. -/
theorem flagLetters_of_skip (hskip : skip s = .ok ((), s)) :
    flagLetters p flags (rounds + 1) on bare s =
      match s.rest with
      | [] => .error .unclosedGroup
      | ')' :: rest => if bare then .error .invalidFlags else .ok (.empty, s.withRest rest)
      | ':' :: rest =>
        if bare && !on then .error .invalidFlags else bounded p flags (s.withRest rest)
      | '-' :: rest =>
        if on then flagLetters p flags rounds false bare (s.withRest rest)
        else .error .invalidFlags
      | c :: rest => (s.flags.set? c on).elim (.error .invalidFlags)
        fun set => flagLetters p flags rounds on false { s with rest := rest, flags := set } := by
  conv_lhs => unfold flagLetters
  rw [parser_bind_of_ok hskip, bind_remaining]
  cases s.rest with
  | nil => rfl
  | cons c rest =>
    by_cases hclose : c = ')'
    · subst hclose
      cases bare <;> rfl
    by_cases hcolon : c = ':'
    · subst hcolon
      cases bare <;> cases on <;> rfl
    by_cases hminus : c = '-'
    · subst hminus
      cases on <;> rfl
    · simp only [bind_get]
      cases s.flags.set? c on <;> rfl

theorem flagLetters_nil (hskip : skip s = .ok ((), s)) (hs : s.rest = []) :
    flagLetters p flags (rounds + 1) on bare s = .error .unclosedGroup := by
  rw [flagLetters_of_skip hskip, hs]

theorem flagLetters_close (hskip : skip s = .ok ((), s)) (hs : s.rest = ')' :: rest) :
    flagLetters p flags (rounds + 1) on bare s =
      if bare then .error .invalidFlags else .ok (.empty, s.withRest rest) := by
  rw [flagLetters_of_skip hskip, hs]
  rfl

theorem flagLetters_colon (hskip : skip s = .ok ((), s)) (hs : s.rest = ':' :: rest) :
    flagLetters p flags (rounds + 1) on bare s =
      if bare && !on then .error .invalidFlags else bounded p flags (s.withRest rest) := by
  rw [flagLetters_of_skip hskip, hs]
  rfl

theorem flagLetters_minus (hskip : skip s = .ok ((), s)) (hs : s.rest = '-' :: rest) :
    flagLetters p flags (rounds + 1) on bare s =
      if on then flagLetters p flags rounds false bare (s.withRest rest)
      else .error .invalidFlags := by
  rw [flagLetters_of_skip hskip, hs]
  rfl

theorem flagLetters_letter (hskip : skip s = .ok ((), s)) (hs : s.rest = c :: rest)
    (hclose : c ≠ ')') (hcolon : c ≠ ':') (hminus : c ≠ '-') :
    flagLetters p flags (rounds + 1) on bare s = (s.flags.set? c on).elim (.error .invalidFlags)
      fun set => flagLetters p flags rounds on false { s with rest := rest, flags := set } := by
  rw [flagLetters_of_skip hskip, hs]
  simp only

end Letters

theorem Flags.verbose_of_set? {flags set : Flags} {c : Char} {on : Bool}
    (h : flags.set? c on = some set) : set.verbose = if c = 'x' then on else flags.verbose := by
  unfold Flags.set? at h
  split at h
  case h_6 => split_ifs at h; cases h; rfl
  case h_7 => cases h
  all_goals
    cases h
    rfl

theorem isQuiet_of_set? {flags set : Flags} {c : Char} {on : Bool}
    (h : flags.set? c on = some set) : isQuiet c = true := by
  unfold Flags.set? at h
  split at h
  case h_7 => cases h
  all_goals decide

/-- Among flag letters no comment may stand. -/
theorem calm_letters_afterGap {v on saved : Bool} {cs : List Char} :
    calm (.letters on saved) v outer (afterGap v cs) = calm (.letters on saved) v outer cs := by
  obtain ⟨w, hw, hcs⟩ := exists_gap v cs
  conv_rhs => rw [hcs]
  generalize afterGap v cs = rest
  clear hcs
  induction w with
  | nil => rfl
  | cons c w ih =>
    have hgap := hw c List.mem_cons_self
    have hc : c ≠ ')' ∧ c ≠ ':' ∧ c ≠ '-' ∧ c ≠ 'x' := by
      refine ⟨?_, ?_, ?_, ?_⟩ <;> rintro rfl <;> simp [isGap] at hgap
    rw [ih fun d hd => hw d (List.mem_cons_of_mem _ hd), List.cons_append]
    simp [calm, hc, hgap]

theorem next_of_letters {v on saved : Bool} {cs : List Char}
    (h : calm (.letters on saved) v outer cs = true) :
    "=!<P'>".toList.contains (next cs) = false := by
  rw [← Bool.not_eq_true, List.contains_iff_mem]
  generalize hc : next cs = c
  intro hmem
  have hcases : c = '=' ∨ c = '!' ∨ c = '<' ∨ c = 'P' ∨ c = '\'' ∨ c = '>' := by simpa using hmem
  obtain ⟨rest, rfl⟩ := exists_of_next hc fun hclose => by simp [hclose] at hcases
  rcases hcases with rfl | rfl | rfl | rfl | rfl | rfl <;> simp [calm, isGap] at h

theorem uncommented_of_letters {v on saved : Bool} {cs : List Char}
    (h : calm (.letters on saved) v outer cs = true) : Uncommented v (afterGap v cs) := by
  rw [← calm_letters_afterGap] at h
  generalize afterGap v cs = cs at h
  refine ⟨?_, fun hv hnext => ?_⟩
  · rintro ⟨rest, rfl⟩
    simp [calm, isGap] at h
  · obtain ⟨rest, rfl⟩ := exists_of_next hnext (by decide)
    simp [calm, isGap] at h

/-- A state among the flag letters of a group that starts at `r₀`, with nothing to skip first. -/
structure Among (outer : List (Option Bool)) (r₀ s : Reading) (flags : Flags) (on : Bool) :
    Prop where
  skip : skip s = .ok ((), s)
  skip_place : ∀ c : Context, Regex.skip (c.place s) = .ok ((), c.place s)
  calm : calm (.letters on flags.verbose) s.flags.verbose outer s.rest = true
  length_lt : s.rest.length < r₀.rest.length
  groups : r₀.groups = s.groups
  /-- The group does not stand in a tame text. -/
  wild : ∀ r', Keeps r₀ r'

section Among

variable {r₀ s : Reading} {flags : Flags} {on bare : Bool} {rounds : Nat}
  {more : Context → Nat} {c : Char} {rest : List Char}

/-- What comes next is the same in a context. -/
theorem rest_place_of_cons (hc : isOrdinary c = true) (hrest : s.rest = c :: rest) (ctx : Context) :
    (ctx.place s).rest = c :: ctx.put false rest := by
  rw [Context.rest_place, hrest, Context.put_ordinary hc]

theorem Among.length_tail (hs : Among outer r₀ s flags on) (hrest : s.rest = c :: rest) :
    rest.length < r₀.rest.length := by
  have hlength := hs.length_lt
  rw [hrest] at hlength
  exact (Nat.lt_succ_self _).trans hlength

/-- The letters apply to what follows the group. -/
theorem letters_close_sim (hs : Among outer r₀ s flags on) (hrest : s.rest = ')' :: rest) :
    Sim (flagLetters inner₀ flags (rounds + 1) on bare)
      (fun c => flagLetters (inner c) flags (more c + 1) on bare) s (Takes outer r₀) := by
  intro a r' ha
  rw [flagLetters_close hs.skip hrest] at ha
  cases bare with
  | true => cases ha
  | false =>
    cases ha
    have hlength := hs.length_tail hrest
    have halone : calm .outside s.flags.verbose outer rest = true := by
      simpa [calm, hrest] using hs.calm
    exact ⟨fun _ => .empty,
      .of_ok fun c => flagLetters_close (hs.skip_place c) (rest_place_of_cons rfl hrest c),
      ⟨⟨⟨hlength.le, hs.groups.le, hs.wild _⟩, halone⟩, .leaf rfl rfl, rfl⟩, hlength⟩

include h in
/-- The letters apply to the inside of the group. -/
theorem letters_colon_sim (hs : Among outer r₀ s flags on) (hrest : s.rest = ':' :: rest) :
    Sim (flagLetters inner₀ flags (rounds + 1) on bare)
      (fun c => flagLetters (inner c) flags (more c + 1) on bare) s (Takes outer r₀) := by
  have halone : Alone (some flags.verbose :: outer) (s.withRest rest) := by
    have hcalm := hs.calm
    rw [hrest] at hcalm
    simpa [calm, Alone, Reading.withRest] using hcalm
  have hplace := rest_place_of_cons (c := ':') rfl hrest
  cases hbare : bare && !on with
  | true =>
    refine .of_error (e := .invalidFlags) ?_
    rw [flagLetters_colon hs.skip hrest, hbare]
    rfl
  | false =>
    refine (bounded_sim flags (h _ _ halone) (hs.length_tail hrest) hs.groups
      fun r' _ => hs.wild _).congr ?_ fun c => ?_
    · rw [flagLetters_colon hs.skip hrest, hbare]
      rfl
    · rw [flagLetters_colon (hs.skip_place c) (hplace c), hbare]
      rfl

/-- From here on letters clear their flags. -/
theorem letters_minus_sim (hs : Among outer r₀ s flags on) (hrest : s.rest = '-' :: rest)
    (hnext : calm (.letters false flags.verbose) s.flags.verbose outer rest = true →
      Sim (flagLetters inner₀ flags rounds false bare)
        (fun c => flagLetters (inner c) flags (more c) false bare) (s.withRest rest)
        (Takes outer r₀)) :
    Sim (flagLetters inner₀ flags (rounds + 1) on bare)
      (fun c => flagLetters (inner c) flags (more c + 1) on bare) s (Takes outer r₀) := by
  have hcalm := hs.calm
  rw [hrest] at hcalm
  cases on with
  | false =>
    refine .of_error (e := .invalidFlags) ?_
    rw [flagLetters_minus hs.skip hrest]
    rfl
  | true =>
    refine (hnext (by simpa [calm] using hcalm)).congr (flagLetters_minus hs.skip hrest) fun c => ?_
    exact flagLetters_minus (hs.skip_place c) (rest_place_of_cons rfl hrest c)

/-- A letter sets or clears a flag. -/
theorem letters_letter_sim (hs : Among outer r₀ s flags on) (hrest : s.rest = c :: rest)
    (hclose : c ≠ ')') (hcolon : c ≠ ':') (hminus : c ≠ '-')
    (hnext : ∀ set : Flags, calm (.letters on flags.verbose) set.verbose outer rest = true →
      Sim (flagLetters inner₀ flags rounds on false)
        (fun c => flagLetters (inner c) flags (more c) on false)
        { s with rest := rest, flags := set } (Takes outer r₀)) :
    Sim (flagLetters inner₀ flags (rounds + 1) on bare)
      (fun c => flagLetters (inner c) flags (more c + 1) on bare) s (Takes outer r₀) := by
  cases hset : s.flags.set? c on with
  | none =>
    refine .of_error (e := .invalidFlags) ?_
    rw [flagLetters_letter hs.skip hrest hclose hcolon hminus, hset]
    rfl
  | some set =>
    have hcalm := hs.calm
    rw [hrest] at hcalm
    have hc := isOrdinary_of_isQuiet (isQuiet_of_set? hset)
    have hmode : calm (.letters on flags.verbose) set.verbose outer rest = true := by
      rw [Flags.verbose_of_set? hset]
      exact calm_letters hclose hcolon hminus hcalm
    refine (hnext set hmode).congr ?_ fun ctx => ?_
    · rw [flagLetters_letter hs.skip hrest hclose hcolon hminus, hset]
      rfl
    · have hset' : (ctx.place s).flags.set? c on = some set := hset
      rw [flagLetters_letter (hs.skip_place ctx) (rest_place_of_cons hc hrest ctx) hclose hcolon
        hminus, hset']
      rfl

end Among

include h in
/-- Flag letters mean the same in every context, wherever the group that they belong to starts. -/
theorem flagLetters_sim {r₀ : Reading} (flags : Flags) {rounds : Nat} {rounds' : Context → Nat}
    {on bare : Bool} (hr : calm (.letters on flags.verbose) r.flags.verbose outer r.rest = true)
    (hlength : r.rest.length < r₀.rest.length) (hgroups : r₀.groups = r.groups)
    (hwild : ∀ r', Keeps r₀ r') (hle : ∀ c, rounds ≤ rounds' c) :
    Sim (flagLetters inner₀ flags rounds on bare)
      (fun c => flagLetters (inner c) flags (rounds' c) on bare) r (Takes outer r₀) := by
  induction rounds generalizing r rounds' on bare with
  | zero => exact .of_error rfl
  | succ rounds ih =>
    obtain ⟨more, rfl, hmore⟩ := exists_more hle
    have hclear := uncommented_of_letters hr
    obtain ⟨hskip, hskip'⟩ := skip_afterGap hclear
    have hamong : Among outer r₀ r.afterGap flags on := by
      refine ⟨hskip, hskip', ?_, ?_, hgroups, hwild⟩
      · rw [← calm_letters_afterGap] at hr
        exact hr
      · obtain ⟨w, -, hw⟩ := exists_gap r.flags.verbose r.rest
        refine Nat.lt_of_le_of_lt ?_ hlength
        conv_rhs => rw [hw]
        exact (List.suffix_append w _).length_le
    refine Sim.congr (r := r.afterGap) ?_ (flagLetters_skip (skip_of_uncommented hclear) hskip)
      fun c => flagLetters_skip (skip_place hclear c) (hskip' c)
    generalize r.afterGap = s at hamong
    cases hrest : s.rest with
    | nil => exact .of_error (flagLetters_nil hamong.skip hrest)
    | cons c rest =>
      have hlength := hamong.length_tail hrest
      by_cases hclose : c = ')'
      · exact letters_close_sim hamong (hclose ▸ hrest)
      by_cases hcolon : c = ':'
      · exact letters_colon_sim h hamong (hcolon ▸ hrest)
      by_cases hminus : c = '-'
      · refine letters_minus_sim hamong (hminus ▸ hrest) fun hcalm => ?_
        exact ih (r := s.withRest rest) hcalm hlength hamong.groups hmore
      · refine letters_letter_sim hamong hrest hclose hcolon hminus fun set hcalm => ?_
        exact ih (r := { s with rest := rest, flags := set }) hcalm hlength hamong.groups hmore

/-! ## What a group begins with -/

section Begins

variable {p : Parser Expr} {s s₁ : Reading} {rest : List Char}

theorem skip_question (hs : s.rest = '?' :: rest) : skip s = .ok ((), s) := by
  have hnext : next s.rest = '?' := by rw [hs]; rfl
  refine skip_of_next ?_ ?_ ?_ <;> rw [hnext] <;> decide

theorem group_skip (hskip : skip s = .ok ((), s₁)) (hskip₁ : skip s₁ = .ok ((), s₁)) :
    group p s = group p s₁ := by
  unfold group
  rw [parser_bind_of_ok hskip, parser_bind_of_ok hskip₁]

theorem group_letters (hs : s.rest = '?' :: rest)
    (hnot : "=!<P'>".toList.contains (next rest) = false) :
    group p s = flagLetters p s.flags (rest.length + 1) true true (s.withRest rest) := by
  rw [group, parser_bind_of_ok (skip_question hs), bind_remaining]
  generalize s.rest = cs at hs
  split
  case h_10 => cases hs; rfl
  case h_11 hother => exact absurd hs (hother _)
  all_goals
    cases hs
    cases hnot

theorem group_flags (hs : s.rest = '?' :: ':' :: rest) :
    group p s = bounded p s.flags (s.withRest rest) := by
  have hskip : skip (s.withRest (':' :: rest)) = .ok ((), s.withRest (':' :: rest)) :=
    skip_of_next rfl (show ':' ≠ '#' by decide) (show ':' ≠ '(' by decide)
  rw [group_letters hs rfl, flagLetters_colon hskip rfl]
  rfl

theorem group_named (hs : s.rest = '?' :: '<' :: rest) (hahead : next rest ≠ '=')
    (hnot : next rest ≠ '!') : group p s = namedGroup p '>' (s.withRest rest) := by
  rw [group, parser_bind_of_ok (skip_question hs), bind_remaining]
  generalize s.rest = cs at hs
  split
  · simp at hs
  · simp at hs
  · cases hs
    exact absurd rfl hahead
  · cases hs
    exact absurd rfl hnot
  · cases hs
    rfl
  · simp at hs
  · simp at hs
  · simp at hs
  · simp at hs
  · rename_i hnamed _ _ _ _
    cases hs
    exact absurd rfl (hnamed _)
  · rename_i hother
    exact absurd hs (hother _)

theorem group_capture (hskip : skip s = .ok ((), s)) (hs : next s.rest ≠ '?') :
    group p s = (do
      let index ← openGroup
      return .group index (← closed p) : Parser Expr) s := by
  rw [group, parser_bind_of_ok hskip, bind_remaining]
  generalize s.rest = cs at hs
  split
  all_goals first | exact absurd rfl hs | rfl

/-- What may follow the `?` of a group that sets no flags: that it looks around, that it is atomic,
its name in angle brackets, without or with a letter before, or in quotes, or a reference. -/
inductive Opener where
  | look (d : Direction) (negated : Bool)
  | atomic
  | angled
  | lettered
  | quoted
  | reference

namespace Opener

def text : Opener → List Char
  | look .ahead false => ['=']
  | look .ahead true => ['!']
  | look .behind false => ['<', '=']
  | look .behind true => ['<', '!']
  | atomic => ['>']
  | angled => ['<']
  | lettered => ['P', '<']
  | quoted => ['\'']
  | reference => ['P', '=']

/-- What is read after an opener. -/
def read (inner : Parser Expr) : Opener → Parser Expr
  | look d negated => do return .look d negated (← closed inner)
  | atomic => do return .atomic (← closed inner)
  | angled | lettered => namedGroup inner '>'
  | quoted => namedGroup inner '\''
  | reference => namedReference ')'

/-- An angle bracket opens a name, unless the sign of a look-behind follows. -/
def Fits (o : Opener) (rest : List Char) : Prop :=
  o = angled → next rest ≠ '=' ∧ next rest ≠ '!'

theorem all_isQuiet_text (o : Opener) : o.text.all isQuiet = true := by
  cases o with
  | look d negated => cases d <;> cases negated <;> decide
  | _ => decide

end Opener

theorem group_opener (o : Opener) (hs : s.rest = '?' :: (o.text ++ rest)) (hfits : o.Fits rest) :
    group p s = o.read p (s.withRest rest) := by
  by_cases hangled : o = .angled
  · subst hangled
    exact group_named hs (hfits rfl).1 (hfits rfl).2
  · rw [group, parser_bind_of_ok (skip_question hs), bind_remaining, hs]
    cases o with
    | angled => exact absurd rfl hangled
    | look d negated => cases d <;> cases negated <;> rfl
    | _ => rfl

/-- A group that begins with `?` and no flag has an opener, or is misnamed. -/
theorem exists_opener (h : "=!<P'>".toList.contains (next rest) = true) :
    (∃ o : Opener, ∃ cs, rest = o.text ++ cs ∧ o.Fits cs) ∨
      ∃ cs, rest = 'P' :: cs ∧ next cs ≠ '<' ∧ next cs ≠ '=' := by
  have hhead : next rest = '=' ∨ next rest = '!' ∨ next rest = '<' ∨ next rest = 'P' ∨
      next rest = '\'' ∨ next rest = '>' := by
    simpa using h
  rcases hhead with hhead | hhead | hhead | hhead | hhead | hhead <;>
    obtain ⟨cs, rfl⟩ := exists_of_next hhead (by decide)
  · exact .inl ⟨.look .ahead false, cs, rfl, nofun⟩
  · exact .inl ⟨.look .ahead true, cs, rfl, nofun⟩
  · by_cases hahead : next cs = '='
    · obtain ⟨cs, rfl⟩ := exists_of_next hahead (by decide)
      exact .inl ⟨.look .behind false, cs, rfl, nofun⟩
    by_cases hnot : next cs = '!'
    · obtain ⟨cs, rfl⟩ := exists_of_next hnot (by decide)
      exact .inl ⟨.look .behind true, cs, rfl, nofun⟩
    · exact .inl ⟨.angled, cs, rfl, fun _ => ⟨hahead, hnot⟩⟩
  · by_cases hname : next cs = '<'
    · obtain ⟨cs, rfl⟩ := exists_of_next hname (by decide)
      exact .inl ⟨.lettered, cs, rfl, nofun⟩
    by_cases hreference : next cs = '='
    · obtain ⟨cs, rfl⟩ := exists_of_next hreference (by decide)
      exact .inl ⟨.reference, cs, rfl, nofun⟩
    · exact .inr ⟨cs, rfl, hname, hreference⟩
  · exact .inl ⟨.quoted, cs, rfl, nofun⟩
  · exact .inl ⟨.atomic, cs, rfl, nofun⟩

end Begins

/-- A group that begins with certain characters. -/
theorem group_word {Q : Expr → Reading → (Context → Expr) → Prop} {s : Reading}
    {w rest : List Char} {k : Parser Expr → Parser Expr}
    (heq : ∀ (p : Parser Expr) (s : Reading) rest', s.rest = '?' :: (w ++ rest') →
      next rest' = next rest → group p s = k p (s.withRest rest'))
    (hword : w.all isOrdinary = true) (hs : s.rest = '?' :: (w ++ rest))
    (hk : Sim (k inner₀) (fun c => k (inner c)) (s.withRest rest) Q) :
    Sim (group inner₀) (fun c => group (inner c)) s Q := by
  refine hk.congr (heq _ _ _ hs rfl) fun c => heq _ _ (c.put false rest) ?_ (next_put c false rest)
  rw [Context.rest_place, hs, Context.put_ordinary (by decide),
    Context.put_append (List.all_eq_true.1 hword)]

theorem look_sim (d : Direction) (negated : Bool)
    (h : Sim inner₀ inner r (Moves (none :: outer) r)) :
    Sim (do return .look d negated (← closed inner₀))
      (fun c => do return .look d negated (← closed (inner c))) r (Moves outer r) := by
  refine (closed_sim h).bind fun e r₁ v hv => .pure ⟨hv.toAdvances, hv.fit.look d negated, ?_⟩
  rw [hv.value_eq]
  rfl

theorem atomic_sim (h : Sim inner₀ inner r (Moves (none :: outer) r)) :
    Sim (do return .atomic (← closed inner₀))
      (fun c => do return .atomic (← closed (inner c))) r (Moves outer r) := by
  refine (closed_sim h).bind fun e r₁ v hv => .pure ⟨hv.toAdvances, hv.fit.atomic, ?_⟩
  rw [hv.value_eq]
  rfl

theorem exists_opener_of_opensPlainly {rest : List Char} (h : opensPlainly rest = true)
    (hcolon : next rest ≠ ':') : ∃ o : Opener, ∃ cs, rest = o.text ++ cs ∧ o.Fits cs ∧
      (o = .reference → isNamed cs = true) := by
  have hletters : "=!<P'>".toList.contains (next rest) = true := by
    unfold opensPlainly at h
    split at h
    · rfl
    · rfl
    · simp only [Bool.or_eq_true, decide_eq_true_eq, or_assoc] at h
      rcases h.resolve_left hcolon with rfl | rfl | rfl | rfl | rfl <;> rfl
    · cases h
  obtain ⟨o, cs, rfl, hfits⟩ | ⟨cs, rfl, hname, hreference⟩ := exists_opener hletters
  · refine ⟨o, cs, rfl, hfits, ?_⟩
    rintro rfl
    exact h
  · unfold opensPlainly at h
    split at h
    · rename_i heq
      cases heq
      exact absurd rfl hname
    · rename_i heq
      cases heq
      exact absurd rfl hreference
    · rename_i heq
      cases heq
      simp at h
    · cases h

section Word

variable {s : Reading} {rest w cs : List Char} (hs : s.rest = '?' :: rest)
  (hr : Alone (none :: outer) (s.withRest rest)) (hw : w.all isQuiet = true)
  (hrest : rest = w ++ cs)

include hs hr hw hrest

/-- After a word that opens a group. -/
theorem reaches_word : Reaches s (s.withRest cs) ∧ Alone (none :: outer) (s.withRest cs) := by
  have hfirst : Reaches s (s.withRest rest) :=
    reaches_withRest (w := ['?']) (List.all_eq_true.1 rfl) hs
  have hnext : Advances (none :: outer) (s.withRest rest) (s.withRest cs) :=
    hr.advances (r := s.withRest rest) (List.all_eq_true.1 hw) hrest
  exact ⟨hfirst.trans hnext.toReaches, hnext.alone⟩

end Word

include h in
theorem Opener.read_sim (o : Opener) (hr : Alone (none :: outer) r)
    (hnamed : o = .reference → isNamed r.rest = true) :
    Sim (o.read inner₀) (fun c => o.read (inner c)) r (Moves outer r) := by
  cases o with
  | look d negated => exact look_sim d negated (h _ _ hr)
  | atomic => exact atomic_sim (h _ _ hr)
  | angled => exact namedGroup_sim h (by decide) hr
  | lettered => exact namedGroup_sim h (by decide) hr
  | quoted => exact namedGroup_sim h (by decide) hr
  | reference => exact namedReference_sim (by decide) (fun cs => calm_close none) hr (hnamed rfl)

include h in
/-- A group that sets no flags, from its `?` on. -/
theorem plainGroup_sim {s : Reading} {rest : List Char} (hs : s.rest = '?' :: rest)
    (hplain : opensPlainly rest = true) (hcolon : next rest ≠ ':')
    (hr : Alone (none :: outer) (s.withRest rest)) :
    Sim (group inner₀) (fun c => group (inner c)) s (Moves outer s) := by
  obtain ⟨o, cs, hrest, hfits, hnamed⟩ := exists_opener_of_opensPlainly hplain hcolon
  have hord : o.text.all isOrdinary = true := List.all_eq_true.2 fun c hc =>
    isOrdinary_of_isQuiet (List.all_eq_true.1 o.all_isQuiet_text c hc)
  obtain ⟨hreaches, halone⟩ := reaches_word hs hr o.all_isQuiet_text hrest
  refine (group_word (k := (o.read ·)) (fun p s rest' hs hnext => group_opener o hs fun ho => ?_)
    hord (by rw [hs, hrest]) (o.read_sim h halone hnamed)).mono fun a r' v hv => hv.after hreaches
  rw [hnext]
  exact hfits ho

/-- After its parenthesis, a group in a tame text is tame. -/
theorem reaches_open {cs : List Char} (hrest : r.rest = '(' :: cs) :
    Reaches r (r.withRest cs) ∧
      (r.flags.verbose = false → tame none r.rest = true →
        ∀ rest, cs = '?' :: rest → opensPlainly rest = true) := by
  have htame : tame none r.rest = true → tame none cs = true ∧
      ∀ rest, cs = '?' :: rest → opensPlainly rest = true := by
    intro htame
    rw [hrest] at htame
    by_cases hquestion : cs.head? = some '?'
    · obtain ⟨cs, rfl⟩ := List.head?_eq_some_iff.1 hquestion
      rw [tame_open_question, Bool.and_eq_true] at htame
      refine ⟨(tame_cons (by decide) none).trans htame.2, fun rest hcs => ?_⟩
      cases hcs
      exact htame.1
    · rw [tame_open hquestion] at htame
      exact ⟨htame, fun rest hcs => absurd (congrArg List.head? hcs) hquestion⟩
  refine ⟨⟨?_, le_rfl, fun _ h => ⟨(htame h).1, rfl⟩⟩, fun _ h => (htame h).2⟩
  rw [hrest]
  exact Nat.le_succ _

include h in
/-- A group without a `?`. -/
theorem captureGroup_sim {s : Reading} (hr : Alone (none :: outer) s)
    (hskip : skip s = .ok ((), s)) (hskip' : ∀ c : Context, skip (c.place s) = .ok ((), c.place s))
    (hquestion : next s.rest ≠ '?') :
    Sim (group inner₀) (fun c => group (inner c)) s (Moves outer s) := by
  have hcaptured : Sim (do
        let index ← openGroup
        return .group index (← closed inner₀))
      (fun c => do
        let index ← openGroup
        return .group index (← closed (inner c))) s (Moves outer s) := by
    refine openGroup_sim.bind fun index s₁ v hv => ?_
    obtain ⟨rfl, rfl, rfl⟩ := hv
    exact captured_sim (.refl _) (h _ s.opened hr)
  refine hcaptured.congr (group_capture hskip hquestion) fun c => group_capture (hskip' c) ?_
  rw [Context.rest_place, next_put]
  exact hquestion

section Question

variable {r₀ s : Reading} {rest : List Char} (hgroups : r₀.groups = s.groups)
  (hlength : s.rest.length < r₀.rest.length)

include h hgroups hlength

/-- A group that begins with flag letters. -/
theorem letteredGroup_sim (hs : s.rest = '?' :: rest) (hwild : ∀ r', Keeps r₀ r')
    (hcalm : calm (.letters true s.flags.verbose) s.flags.verbose outer rest = true) :
    Sim (group inner₀) (fun c => group (inner c)) s (Takes outer r₀) := by
  have hinside : Reaches s (s.withRest rest) :=
    reaches_withRest (w := ['?']) (List.all_eq_true.1 rfl) hs
  have hnot := next_of_letters hcalm
  refine (flagLetters_sim h s.flags (r := s.withRest rest) hcalm
    (hinside.length_le.trans_lt hlength) hgroups hwild
    fun c => Nat.succ_le_succ Context.length_le_length_put).congr (group_letters hs hnot)
    fun c => group_letters ?_ ?_
  · rw [Context.rest_place, hs]
    exact Context.put_ordinary (by decide)
  · rw [next_put]
    exact hnot

variable (h₀ : Reaches r₀ s)

include h₀

/-- A group that sets no flags, but at whose end the flags from before it are in force again. -/
theorem colonGroup_sim (hs : s.rest = '?' :: ':' :: rest)
    (hcalm : calm .outside s.flags.verbose (some s.flags.verbose :: outer) rest = true) :
    Sim (group inner₀) (fun c => group (inner c)) s (Takes outer r₀) := by
  have hinside : Reaches s (s.withRest rest) :=
    reaches_withRest (w := ['?', ':']) (List.all_eq_true.1 rfl) hs
  have hbounded : Sim (bounded inner₀ s.flags) (fun c => bounded (inner c) s.flags)
      (s.withRest rest) (Takes outer r₀) := by
    refine bounded_sim s.flags (h _ _ hcalm) (hinside.length_le.trans_lt hlength) hgroups ?_
    intro r' hr' hverbose htame
    obtain ⟨htame', hflags⟩ := (h₀.trans hinside).keeps hverbose htame
    exact ⟨(hr' (by rw [hflags]; exact hverbose) htame').1, hflags⟩
  refine hbounded.congr (group_flags hs) fun c => group_flags ?_
  rw [Context.rest_place, hs, Context.put_ordinary (by decide), Context.put_ordinary (by decide)]
  rfl

/-- A group that begins with `?`. If it stands in a tame text, it sets no flags. -/
theorem questionGroup_sim (hs : s.rest = '?' :: rest)
    (hplainly : r₀.flags.verbose = false → tame none r₀.rest = true → opensPlainly rest = true)
    (hcalm : calm .opening s.flags.verbose outer s.rest = true) :
    Sim (group inner₀) (fun c => group (inner c)) s (Takes outer r₀) := by
  rw [hs] at hcalm
  by_cases hcolon : next rest = ':'
  · obtain ⟨rest, rfl⟩ := exists_of_next hcolon (by decide)
    exact colonGroup_sim h hgroups hlength h₀ hs (by simpa [calm] using hcalm)
  rw [calm_question hcolon] at hcalm
  by_cases hplain : opensPlainly rest = true
  · rw [if_pos hplain] at hcalm
    exact (plainGroup_sim h hs hplain hcolon hcalm).mono fun e r' v hv => hv.takes h₀ hlength
  · rw [if_neg hplain] at hcalm
    refine letteredGroup_sim h hgroups hlength hs (fun r' hverbose htame => ?_) hcalm
    exact absurd (hplainly hverbose htame) hplain

end Question

include h in
/-- **A group reads the same in every context**, if its inside does. -/
theorem group_sim {cs : List Char} (hr : Alone outer r) (hrest : r.rest = '(' :: cs) :
    Sim (group inner₀) (fun c => group (inner c)) (r.withRest cs) (Takes outer r) := by
  have hcalm := hr
  rw [Alone, hrest, calm_open] at hcalm
  obtain ⟨hparen, hplainly⟩ := reaches_open hrest
  -- After the parenthesis only white space is skipped.
  have hgapped : Reaches (r.withRest cs) (r.withRest cs).afterGap := by
    obtain ⟨w, hw, hcs⟩ := exists_gap r.flags.verbose cs
    refine reaches_withRest (r := r.withRest cs) (fun c hc => ?_) hcs
    exact isOrdinary_of_isGap c (Bool.and_eq_true_iff.1 (hw c hc)).2
  have hlength : (r.withRest cs).afterGap.rest.length < r.rest.length := by
    refine hgapped.length_le.trans_lt ?_
    rw [hrest]
    exact Nat.lt_succ_self _
  have hclear : Uncommented (r.withRest cs).flags.verbose (r.withRest cs).afterGap.rest := by
    by_cases hquestion : next (afterGap r.flags.verbose cs) = '?'
    · obtain ⟨rest, hgap⟩ := exists_of_next hquestion (by decide)
      have hs : (r.withRest cs).afterGap.rest = '?' :: rest := hgap
      rw [hs]
      exact ⟨by simp, fun _ => by simp [next]⟩
    · rw [if_neg hquestion] at hcalm
      exact uncommented_of_calm hcalm
  obtain ⟨hskip, hskip'⟩ := skip_afterGap hclear
  refine Sim.congr (r := (r.withRest cs).afterGap) ?_
    (group_skip (skip_of_uncommented hclear) hskip)
    fun c => group_skip (skip_place hclear c) (hskip' c)
  by_cases hquestion : next (afterGap r.flags.verbose cs) = '?'
  · rw [if_pos hquestion, ← calm_opening_afterGap] at hcalm
    obtain ⟨rest, hgap⟩ := exists_of_next hquestion (by decide)
    refine questionGroup_sim h rfl hlength (hparen.trans hgapped) hgap (fun hverbose htame => ?_)
      hcalm
    rw [hverbose] at hgap
    exact hplainly hverbose htame rest hgap
  · rw [if_neg hquestion] at hcalm
    have halone : Alone (none :: outer) (r.withRest cs) := hcalm
    exact (captureGroup_sim h halone.afterGap.alone hskip hskip' hquestion).mono
      fun e r' v hv => hv.takes (hparen.trans hgapped) hlength

end ModeStack.Regex
