import ModeStack.Proofs.Regex.Groups

/-!
# Patterns read anywhere

Atoms, repetitions, sequences and alternatives read the same in every context, if groups do. Since
what a group contains is again an expression, this carries over to whole patterns.

Main result: `expression_sim`.
-/

namespace ModeStack.Regex

open ModeStack.Text
open ModeStack.Rule (Position raised isOrdinary isOrdinary_iff)

variable {outer : List (Option Bool)} {r : Reading} {g₀ : Parser Expr} {g : Context → Parser Expr}

/-! ## Atoms -/

section Atom

variable {p : Parser Expr} {s : Reading} {c : Char} {cs : List Char}

theorem atom_any (hs : s.rest = '.' :: cs) :
    atom p s = .ok (.any s.flags.dotAll, s.withRest cs) := by
  rw [atom, bind_get, hs]
  rfl

theorem atom_start (hs : s.rest = '^' :: cs) :
    atom p s = .ok (.assert (if s.flags.multiLine then .lineStart else .textStart),
      s.withRest cs) := by
  rw [atom, bind_get, hs]
  rfl

theorem atom_end (hs : s.rest = '$' :: cs) :
    atom p s = .ok (.assert (if s.flags.multiLine then .lineEnd else .textEnd),
      s.withRest cs) := by
  rw [atom, bind_get, hs]
  rfl

theorem atom_group (hs : s.rest = '(' :: cs) : atom p s = p (s.withRest cs) := by
  rw [atom, bind_get, hs]
  rfl

theorem atom_escape (hs : s.rest = '\\' :: cs) : atom p s = escape (s.withRest cs) := by
  rw [atom, bind_get, hs]
  rfl

theorem atom_bracket (hs : s.rest = '[' :: cs) : atom p s = bracket (s.withRest cs) := by
  rw [atom, bind_get, hs]
  rfl

/-- Characters that do not stand for themselves. -/
def isSign (c : Char) : Bool := ".^$(\\[+*?".toList.contains c

theorem atom_char (hc : isSign c = false) (hs : s.rest = c :: cs) :
    atom p s = .ok (.char c s.flags.ignoreCase, s.withRest cs) := by
  have hne (d : Char) (hd : isSign d = true) : c ≠ d := by
    rintro rfl
    rw [hc] at hd
    cases hd
  have hrepeat : (decide (c = '+') || decide (c = '*') || decide (c = '?')) = false := by
    simp [hne '+' (by decide), hne '*' (by decide), hne '?' (by decide)]
  rw [atom, bind_get]
  generalize s.rest = cs' at hs
  split
  case h_8 =>
    cases hs
    rw [hrepeat]
    rfl
  case h_1 => cases hs
  all_goals exact absurd (List.cons.inj hs).1.symm (hne _ (by decide))

end Atom

/-- A character that is no sign of a group, a bracket or an escape. -/
structure IsBare (c : Char) : Prop where
  escape : c ≠ '\\'
  bracket : c ≠ '['
  opens : c ≠ '('
  closes : c ≠ ')'

theorem Alone.advances_bare {c : Char} {cs : List Char} (hr : Alone outer r) (hc : IsBare c)
    (hrest : r.rest = c :: cs) : Advances outer r (r.withRest cs) where
  length_le := by
    rw [hrest]
    exact Nat.le_succ _
  groups_le := le_rfl
  keeps := by
    intro _ htame
    rw [hrest] at htame
    refine ⟨?_, rfl⟩
    by_cases hclose : c = ']'
    · rw [hclose, tame_close] at htame
      exact htame
    · rw [tame_cons (isOrdinary_iff.2 ⟨hc.escape, hc.bracket, hclose, hc.opens⟩)] at htame
      exact htame
  alone := by
    rw [Alone, hrest, calm_other hc.escape hc.bracket hc.opens hc.closes, Bool.and_eq_true] at hr
    exact hr.2

/-- An atom of one character. -/
theorem atom_single_sim {c : Char} {cs : List Char} (hr : Alone outer r) (hrest : r.rest = c :: cs)
    (hc : IsBare c) {v : Flags → Expr}
    (heq : ∀ (p : Parser Expr) (s : Reading) rest, s.rest = c :: rest →
      atom p s = .ok (v s.flags, s.withRest rest))
    (hfit : ∀ flags, Fit r.groups r.groups (v flags))
    (hshift : ∀ flags n, (v flags).shift n = v flags) :
    Sim (atom g₀) (fun c => atom (g c)) r (Takes outer r) := by
  refine .of_ok fun a r' ha => ?_
  rw [heq _ _ _ hrest] at ha
  cases ha
  refine ⟨fun _ => v r.flags, fun ctx => ?_,
    ⟨⟨hr.advances_bare hc hrest, hfit r.flags, ?_⟩, ?_⟩⟩
  · refine heq _ _ _ ?_
    rw [Context.rest_place, hrest, Context.put_cons hc.escape hc.bracket]
    rfl
  · funext ctx
    rw [hshift]
  · rw [hrest]
    exact Nat.lt_succ_self _

theorem atom_bracket_sim {cs : List Char} (hr : Alone outer r) (hrest : r.rest = '[' :: cs) :
    Sim (atom g₀) (fun c => atom (g c)) r (Takes outer r) := by
  refine .of_ok fun a r' ha => ?_
  rw [atom_bracket hrest] at ha
  obtain ⟨hr', ⟨w, hw, -⟩, htame, hcalm, set, rfl, hrun⟩ := bracket_run ha
  have hsuffix : r'.rest <:+ cs := ⟨w, hw.symm⟩
  have hlength : r'.rest.length < r.rest.length := by
    rw [hrest]
    exact Nat.lt_succ_of_le hsuffix.length_le
  have hflags : r'.flags = r.flags := by rw [hr']; rfl
  have hgroups : r'.groups = r.groups := by rw [hr']; rfl
  refine ⟨fun _ => .set set r.flags.ignoreCase, fun c => ?_,
    ⟨⟨⟨⟨hlength.le, hgroups.ge, fun _ h => ⟨?_, hflags⟩⟩, ?_⟩, .leaf rfl rfl, rfl⟩, hlength⟩⟩
  · have hs : (c.place r).rest = '[' :: c.put true cs := by
      rw [Context.rest_place, hrest, Context.put_cons_of_ne (by decide)]
      rfl
    rw [atom_bracket hs]
    refine (hrun c.offset c.tail (c.place r) (by simp [Context.tail])
      (by simp [Context.tail])).trans ?_
    rw [hr']
    rfl
  · rw [hrest] at h
    exact htame.symm.trans h
  · rw [Alone, hrest] at hr
    rw [Alone, hflags]
    exact (hcalm _ _).symm.trans hr

/-- In a context, the number of a reference is raised. -/
theorem put_reference {d : Char} {cs rest : List Char} {n : Nat}
    (hlead : Position.isLeading d = true) (hn : decimal? (d :: cs) = some (n, rest))
    (ctx : Context) :
    ctx.put false ('\\' :: d :: cs) =
      '\\' :: (Nat.toDigits 10 (n + ctx.offset) ++ ctx.put false rest) := by
  rw [Context.put, ← raised, raised_of_decimal? hlead hn, List.append_assoc]
  rfl

/-- A reference is raised by the number of groups before. It is refused if it gets too large. -/
theorem atom_reference_place {d : Char} {cs rest : List Char} {n : Nat}
    (hrest : r.rest = '\\' :: d :: cs) (hlead : Position.isLeading d = true)
    (hn : decimal? (d :: cs) = some (n, rest)) (c : Context) :
    atom (g c) (c.place r) =
      if 18446744073709551616 ≤ n + c.offset then .error .unknownGroup
      else .ok (.ref (n + c.offset) r.flags.ignoreCase,
        c.place { r with rest := rest, numbered := true }) := by
  obtain ⟨-, -, -, hhead⟩ := of_decimal?_eq_some hn
  have hs : (c.place r).rest = '\\' :: (Nat.toDigits 10 (n + c.offset) ++ c.put false rest) := by
    rw [Context.rest_place, hrest, put_reference hlead hn]
  have hhead' : ∀ e ∈ (c.put false rest).head?, isAsciiDigit e = false := by
    rw [Context.head?_put]
    rintro e ⟨⟩
    cases rest with
    | nil => rfl
    | cons e rest => exact hhead e rfl
  obtain ⟨e, es, hes⟩ := List.exists_cons_of_ne_nil (Nat.toDigits_ne_nil (n := n + c.offset))
  have he : isAsciiDigit e = true :=
    isAsciiDigit_of_mem_toDigits e (hes ▸ List.mem_cons_self)
  have hdecimal := decimal?_toDigits (n := n + c.offset) hhead'
  rw [hes, List.cons_append] at hdecimal hs
  rw [atom_escape hs, escape_digit rfl he, hdecimal]
  split_ifs
  · rfl
  · rfl

theorem atom_reference_sim {d : Char} {cs : List Char} (hr : Alone outer r)
    (hrest : r.rest = '\\' :: d :: cs) (hd : isAsciiDigit d = true) :
    Sim (atom g₀) (fun c => atom (g c)) r (Takes outer r) := by
  intro a r' ha
  rw [atom_escape hrest, escape_digit rfl hd] at ha
  cases hn : decimal? (d :: cs) with
  | none => simp [hn] at ha
  | some x =>
    obtain ⟨n, rest⟩ := x
    simp only [hn, Option.elim] at ha
    cases ha
    have hcalm := hr
    rw [Alone, hrest, calm_escape] at hcalm
    simp only [Bool.and_eq_true, decide_eq_true_eq] at hcalm
    obtain ⟨⟨⟨-, hzero⟩, -⟩, hcalm⟩ := hcalm
    have hlead := Position.isLeading_of_isAsciiDigit hd hzero
    obtain ⟨hsplit, -⟩ := of_decimal?_eq_some hn
    have hpast : Past (d :: cs) rest :=
      ⟨_, fun e he => isQuiet_of_isAsciiDigit e (List.mem_takeWhile_imp he), hsplit⟩
    have hlength : rest.length < r.rest.length := by
      rw [hrest]
      exact Nat.lt_succ_of_le hpast.length_le
    have hrun (c : Context) := atom_reference_place (g := g) hrest hlead hn c
    refine ⟨fun c => .ref (n + c.offset) r.flags.ignoreCase, ⟨fun c => ?_, fun hc hok => ?_⟩,
      ⟨⟨⟨⟨hlength.le, le_rfl, fun _ htame => ⟨?_, rfl⟩⟩, ?_⟩, .leaf rfl rfl, rfl⟩, hlength⟩⟩
    · rw [hrun]
      split_ifs
      · exact .inr ⟨_, rfl⟩
      · exact .inl rfl
    · rw [hrun] at hok ⊢
      have hle := hc.offset
      split_ifs at hok with hlarge
      rw [if_neg (by omega)]
      rfl
    · rw [hrest, tame_escape, Bool.and_eq_true] at htame
      show tame none rest = true
      rw [← hpast.tame, tame_cons (isOrdinary_of_isAsciiDigit d hd)]
      exact htame.2
    · show calm .outside r.flags.verbose outer rest = true
      rw [← hpast.calm, calm_quiet (isQuiet_of_isAsciiDigit d hd)]
      exact hcalm

/-- Nothing in it counts groups. -/
structure Steadfast (v : Bool → Expr) : Prop where
  fit : ∀ lo hi b, Fit lo hi (v b)
  shift : ∀ b n, (v b).shift n = v b

theorem IsSingle.steadfast {v : Bool → Expr} (h : IsSingle v) : Steadfast v := by
  rcases h with ⟨c, hc⟩ | ⟨s, rfl⟩
  · refine ⟨fun lo hi b => ?_, fun b n => ?_⟩
    · obtain ⟨i, hi⟩ := hc b
      rw [hi]
      exact .leaf rfl rfl
    · obtain ⟨i, hi⟩ := hc b
      rw [hi]
      rfl
  · exact ⟨fun lo hi b => .leaf rfl rfl, fun b n => rfl⟩

theorem steadfast_of_assertionEscape? {c : Char} {e : Expr} (h : assertionEscape? c = some e)
    (hkeep : c ≠ 'K') (hresume : c ≠ 'G') : Steadfast fun _ => e := by
  unfold assertionEscape? at h
  split at h
  case h_8 => exact absurd rfl hkeep
  case h_9 => exact absurd rfl hresume
  case h_11 => cases h
  all_goals
    cases h
    exact ⟨fun lo hi b => .leaf rfl rfl, fun b n => rfl⟩

/-- A reference by name is read in every context. -/
theorem atom_named_sim {cs : List Char} (hr : Alone outer r) (hrest : r.rest = '\\' :: 'k' :: cs) :
    Sim (atom g₀) (fun c => atom (g c)) r (Takes outer r) := by
  by_cases hnone : ∀ opener ∈ cs.head?, nameCloser? opener = none
  · exact .of_error (by rw [atom_escape hrest]; exact escape_unnamed rfl hnone)
  obtain ⟨opener, hopener, hcloser⟩ : ∃ opener ∈ cs.head?, nameCloser? opener ≠ none := by
    simpa using hnone
  obtain ⟨close, hclose⟩ := Option.ne_none_iff_exists'.1 hcloser
  obtain ⟨rest, rfl⟩ := List.head?_eq_some_iff.1 hopener
  have hquiet : isQuiet opener = true ∧ isQuiet close = true := by
    unfold nameCloser? at hclose
    split_ifs at hclose with hangle hquote
    · cases hclose
      exact ⟨hangle ▸ by decide, by decide⟩
    · cases hclose
      exact ⟨hquote ▸ by decide, by decide⟩
  have hopener := isOrdinary_of_isQuiet hquiet.1
  have hcalm := hr
  rw [Alone, hrest, calm_escape, calm_quiet hquiet.1] at hcalm
  simp only [Bool.and_eq_true, Bool.or_eq_true, decide_eq_true_eq, List.tail_cons] at hcalm
  obtain ⟨⟨-, hnamed⟩, hcalm⟩ := hcalm
  have hnamed : isNamed rest = true := hnamed.resolve_left (absurd rfl)
  have halone : Alone outer (r.withRest rest) := hcalm
  have hlength : (r.withRest rest).rest.length < r.rest.length := by
    rw [hrest]
    simp only [Reading.withRest, List.length_cons]
    omega
  have hreaches : Reaches r (r.withRest rest) := by
    refine ⟨hlength.le, le_rfl, fun _ htame => ⟨?_, rfl⟩⟩
    rw [hrest, tame_escape, tame_cons hopener, Bool.and_eq_true] at htame
    exact htame.2
  refine ((namedReference_sim (isOrdinary_of_isQuiet hquiet.2) (fun cs => calm_quiet hquiet.2)
    halone hnamed).congr ?_ fun c => ?_).mono fun a r' v hv => hv.takes hreaches hlength
  · rw [atom_escape hrest]
    exact escape_named hclose rfl
  · have hs : (c.place r).rest = '\\' :: 'k' :: opener :: c.put false rest := by
      rw [Context.rest_place, hrest, Context.put_escape (.inr (by decide)),
        Context.put_ordinary hopener]
    rw [atom_escape hs]
    exact escape_named hclose rfl

/-- Any other escape reads the same in every context. -/
theorem atom_plain_sim {d : Char} {cs : List Char} (hr : Alone outer r)
    (hrest : r.rest = '\\' :: d :: cs) (hdigit : isAsciiDigit d = false)
    (hbrace : d = 'b' → cs.head? ≠ some '\x7b') (hname : d ≠ 'k') :
    Sim (atom g₀) (fun c => atom (g c)) r (Takes outer r) := by
  have hlead := Position.isLeading_eq_false hdigit
  have hcalm := hr
  rw [Alone, hrest, calm_escape] at hcalm
  simp only [Bool.and_eq_true, decide_eq_true_eq] at hcalm
  obtain ⟨⟨⟨⟨hresume, hkeep⟩, -⟩, -⟩, hcalm⟩ := hcalm
  refine .of_ok fun a r' ha => ?_
  rw [atom_escape hrest, escape_other rfl hdigit hname hbrace] at ha
  obtain ⟨v, ⟨w, hw, hcs, hr', hframe⟩, rfl, hv⟩ := plainEscape_framed ha
  have hsteadfast : Steadfast v := by
    rcases hv with ⟨hassert, hv⟩ | hsingle
    · rw [hv]
      exact steadfast_of_assertionEscape? hassert hkeep hresume
    · exact hsingle.steadfast
  have hcs' : cs = w ++ r'.rest := hcs
  have hflags : r'.flags = r.flags := by rw [hr']; rfl
  have hgroups : r'.groups = r.groups := by rw [hr']; rfl
  have hord (c : Char) (hc : c ∈ w) := isOrdinary_of_isQuiet (hw c hc)
  have hlength : r'.rest.length < r.rest.length := by
    rw [hrest, hcs']
    simp only [List.length_cons, List.length_append]
    omega
  refine ⟨fun _ => v r.flags.ignoreCase, fun c => ?_,
    ⟨⟨⟨⟨hlength.le, hgroups.ge, fun _ htame => ⟨?_, hflags⟩⟩, ?_⟩, hsteadfast.fit _ _ _, ?_⟩,
      hlength⟩⟩
  · have hs : (c.place r).rest = '\\' :: d :: (w ++ c.put false r'.rest) := by
      rw [Context.rest_place, hrest, Context.put_escape (.inr hlead), hcs',
        Context.put_append hord]
    have hhead : (c.put false cs).head? = some '\x7b' → cs.head? = some '\x7b' := by
      rw [Context.head?_put]
      cases cs with
      | nil => decide
      | cons e cs => exact id
    rw [← Context.put_append hord, ← hcs'] at hs
    rw [atom_escape hs, escape_other rfl hdigit hname fun hb hh => hbrace hb (hhead hh),
      hcs', Context.put_append hord]
    refine (hframe (c.place r) (c.put false r'.rest)).trans ?_
    rw [hr']
    rfl
  · rw [hrest, tame_escape, hcs', tame_append hord, Bool.and_eq_true] at htame
    exact htame.2
  · rw [hcs', calm_append hw] at hcalm
    rw [Alone, hflags]
    exact hcalm
  · funext c
    rw [hsteadfast.shift]
    rfl

theorem atom_escape_sim {cs : List Char} (hr : Alone outer r) (hrest : r.rest = '\\' :: cs) :
    Sim (atom g₀) (fun c => atom (g c)) r (Takes outer r) := by
  cases cs with
  | nil => exact .of_error (by rw [atom_escape hrest]; rfl)
  | cons d cs =>
    by_cases hd : isAsciiDigit d = true
    · exact atom_reference_sim hr hrest hd
    by_cases hbrace : d = 'b' ∧ cs.head? = some '\x7b'
    · obtain ⟨rfl, hhead⟩ := hbrace
      obtain ⟨rest, rfl⟩ := List.head?_eq_some_iff.1 hhead
      exact .of_error (by rw [atom_escape hrest]; exact escape_brace rfl)
    by_cases hname : d = 'k'
    · subst hname
      exact atom_named_sim hr hrest
    · exact atom_plain_sim hr hrest (Bool.eq_false_of_not_eq_true hd)
        (fun hb hh => hbrace ⟨hb, hh⟩) hname

/-- Whether a character asks for a repetition of what precedes it. -/
def isRepeat (c : Char) : Bool := c = '+' || c = '*' || c = '?'

/-- What is read after an opening parenthesis is read in every context. -/
def GroupSim (g₀ : Parser Expr) (g : Context → Parser Expr) : Prop :=
  ∀ outer r cs, Alone outer r → r.rest = '(' :: cs → Sim g₀ g (r.withRest cs) (Takes outer r)

theorem atom_group_sim {cs : List Char} (hr : Alone outer r) (hrest : r.rest = '(' :: cs)
    (hg : GroupSim g₀ g) : Sim (atom g₀) (fun c => atom (g c)) r (Takes outer r) := by
  refine (hg outer r cs hr hrest).congr (atom_group hrest) fun c => atom_group ?_
  rw [Context.rest_place, hrest, Context.put_cons (by decide) (by decide)]
  rfl

/-- An atom is read in every context, unless there is nothing to repeat. -/
theorem atom_sim {c : Char} {cs : List Char} (hr : Alone outer r) (hrest : r.rest = c :: cs)
    (hc : isRepeat c = false) (hclose : c ≠ ')') (hg : GroupSim g₀ g) :
    Sim (atom g₀) (fun c => atom (g c)) r (Takes outer r) := by
  by_cases hgroup : c = '('
  · subst hgroup
    exact atom_group_sim hr hrest hg
  by_cases hescape : c = '\\'
  · subst hescape
    exact atom_escape_sim hr hrest
  by_cases hopen : c = '['
  · subst hopen
    exact atom_bracket_sim hr hrest
  have hbare : IsBare c := ⟨hescape, hopen, hgroup, hclose⟩
  by_cases hany : c = '.'
  · subst hany
    exact atom_single_sim (v := fun flags => .any flags.dotAll) hr hrest hbare
      (fun p s rest hs => atom_any hs) (fun flags => .leaf rfl rfl) fun flags n => rfl
  by_cases hstart : c = '^'
  · subst hstart
    exact atom_single_sim
      (v := fun flags => .assert (if flags.multiLine then .lineStart else .textStart)) hr hrest
      hbare (fun p s rest hs => atom_start hs) (fun flags => .leaf rfl rfl) fun flags n => rfl
  by_cases hend : c = '$'
  · subst hend
    exact atom_single_sim
      (v := fun flags => .assert (if flags.multiLine then .lineEnd else .textEnd)) hr hrest
      hbare (fun p s rest hs => atom_end hs) (fun flags => .leaf rfl rfl) fun flags n => rfl
  · have hsign : isSign c = false := by
      simp only [isRepeat, Bool.or_eq_false_iff, decide_eq_false_iff_not] at hc
      simp [isSign, hany, hstart, hend, hgroup, hescape, hopen, hc]
    exact atom_single_sim (v := fun flags => .char c flags.ignoreCase) hr hrest hbare
      (fun p s rest hs => atom_char hsign hs) (fun flags => .leaf rfl rfl) fun flags n => rfl

/-! ## Repetitions and sequences -/

theorem atom_repeat {p : Parser Expr} {s : Reading} {c : Char} {cs : List Char}
    (hc : isRepeat c = true) (hs : s.rest = c :: cs) : atom p s = .ok (.empty, s) := by
  simp only [isRepeat, Bool.or_eq_true, decide_eq_true_eq] at hc
  rw [atom, bind_get, hs]
  rcases hc with (rfl | rfl) | rfl <;> rfl

theorem cases_of_isRepeat {c : Char} (hc : isRepeat c = true) : c = '+' ∨ c = '*' ∨ c = '?' := by
  simpa [isRepeat, or_assoc] using hc

theorem skip_repeat {c : Char} {cs : List Char} (hc : isRepeat c = true)
    (hrest : r.rest = c :: cs) : skip r = .ok ((), r) := by
  have hnext : next r.rest = c := by
    rw [hrest]
    rfl
  refine skip_of_next ?_ ?_ ?_ <;> rw [hnext] <;>
    rcases cases_of_isRepeat hc with rfl | rfl | rfl <;> decide

/-- Where a repetition comes first, there is nothing to repeat. -/
theorem piece_repeat {p : Parser Expr} {c : Char} {cs : List Char}
    (hc : isRepeat c = true) (hrest : r.rest = c :: cs) :
    piece p r = .error .nothingToRepeat := by
  have hskip := skip_repeat hc hrest
  obtain ⟨b, r₁, hsign⟩ : ∃ b r₁, repetition? r = .ok (some b, r₁) := by
    rw [repetition?, bind_get, hrest]
    rcases cases_of_isRepeat hc with rfl | rfl | rfl <;> exact ⟨_, _, rfl⟩
  rw [piece, parser_bind_of_ok (atom_repeat hc hrest), parser_bind_of_ok hskip,
    parser_bind_of_ok hsign]
  rfl

theorem get_sim : Sim get (fun _ => get) r fun s r' v =>
    s = r ∧ r' = r ∧ v = fun c => c.place r := by
  refine .of_ok fun a r' ha => ?_
  cases ha
  exact ⟨fun c => c.place r, fun c => rfl, rfl, rfl, rfl⟩

/-- A piece is read in every context. -/
theorem piece_sim {c : Char} {cs : List Char} (hr : Alone outer r) (hrest : r.rest = c :: cs)
    (hclose : c ≠ ')') (hg : GroupSim g₀ g) :
    Sim (piece g₀) (fun c => piece (g c)) r (Takes outer r) := by
  cases hc : isRepeat c with
  | true => exact .of_error (piece_repeat hc hrest)
  | false =>
    unfold piece
    refine (atom_sim hr hrest hc hclose hg).bind fun e r₁ v hv => ?_
    have htakes (r' : Reading) (h : Advances outer r₁ r') :
        Advances outer r r' ∧ Fit r.groups r'.groups e ∧ r'.rest.length < r.rest.length :=
      ⟨hv.toReaches.advances h, hv.fit.mono le_rfl h.groups_le, h.length_le.trans_lt hv.length_lt⟩
    have hvalue := hv.value_eq
    refine (skip_sim hv.alone.uncommented).bind fun _ r₂ _ hr₂ => ?_
    have hr₁ : Advances outer r₁ r₂ := by
      rw [hr₂]
      exact hv.alone.afterGap
    refine (repetition?_sim hr₁.alone).bind fun sign r₃ v hv => ?_
    obtain ⟨hr₃, rfl⟩ := hv
    replace hr₃ := hr₁.toReaches.advances hr₃
    cases sign with
    | none =>
      obtain ⟨hadvances, hfit, hlength⟩ := htakes r₃ hr₃
      exact .pure ⟨⟨hadvances, hfit, hvalue⟩, hlength⟩
    | some b =>
      dsimp only
      refine .check ⟨_, rfl⟩ (fun c => ⟨_, rfl⟩) (fun {c c'} _ hrefused => ?_) fun _ =>
        .check ⟨_, rfl⟩ (fun c => ⟨_, rfl⟩) (fun _ hrefused => hrefused) fun _ => ?_
      · rw [hvalue, Expr.isRepeatable_shift] at hrefused ⊢
        exact hrefused
      refine (skip_sim hr₃.alone.uncommented).bind fun _ r₄ _ hr₄ => ?_
      replace hr₄ : Advances outer r₁ r₄ := by
        rw [hr₄]
        exact hr₃.toReaches.advances hr₃.alone.afterGap
      refine (accept_sim hr₄.alone (by decide)).bind fun lazy r₅ v hv => ?_
      obtain ⟨hr₅, rfl, -⟩ := hv
      refine get_sim.bind fun s r₆ v hv => ?_
      obtain ⟨rfl, rfl, rfl⟩ := hv
      refine (accept_sim hr₅.alone (by decide)).bind fun possessive r₇ v hv => ?_
      obtain ⟨hr₇, rfl, -⟩ := hv
      obtain ⟨hadvances, hfit, hlength⟩ :=
        htakes r₇ ((hr₄.toReaches.trans hr₅.toReaches).advances hr₇)
      have hrep := hfit.rep b.lo b.hi (lazy == r₆.flags.swapGreed)
      cases possessive with
      | true => exact .pure ⟨⟨hadvances, hrep.atomic, by rw [hvalue]; rfl⟩, hlength⟩
      | false => exact .pure ⟨⟨hadvances, hrep, by rw [hvalue]; rfl⟩, hlength⟩

/-- Whether a sequence ends before a character. -/
def isStop (c : Char) : Bool := c = '|' || c = ')'

theorem cases_of_isStop {c : Char} (hc : isStop c = true) : c = '|' ∨ c = ')' := by
  simpa [isStop] using hc

theorem skip_stop {s : Reading} (hstop : isStop (next s.rest) = true) : skip s = .ok ((), s) := by
  refine skip_of_next ?_ ?_ ?_ <;> rcases cases_of_isStop hstop with h | h <;> rw [h] <;> decide

theorem pieces_stop {p : Parser Expr} {s : Reading} {rounds : Nat}
    (hstop : isStop (next s.rest) = true) : pieces p (rounds + 1) s = .ok ([], s) := by
  unfold pieces
  rw [parser_bind_of_ok (skip_stop hstop), bind_remaining]
  generalize s.rest = cs at hstop
  split
  · rfl
  · rfl
  · rfl
  · rename_i hnil hbar hclose
    cases cs with
    | nil => exact absurd rfl hnil
    | cons c cs =>
      have hc : isStop c = true := hstop
      simp only [isStop, Bool.or_eq_true, decide_eq_true_eq] at hc
      rcases hc with rfl | rfl
      · exact absurd rfl (hbar cs)
      · exact absurd rfl (hclose cs)

theorem pieces_more {p : Parser Expr} {s : Reading} {rounds : Nat} (hskip : skip s = .ok ((), s))
    (hstop : isStop (next s.rest) = false) :
    pieces p (rounds + 1) s = (do
      let e ← piece p
      let es ← pieces p rounds
      return if e = .empty then es else e :: es : Parser (List Expr)) s := by
  conv_lhs => unfold pieces
  rw [parser_bind_of_ok hskip, bind_remaining]
  generalize s.rest = cs at hstop
  split
  · cases hstop
  · cases hstop
  · cases hstop
  · rfl

theorem pieces_skip {p : Parser Expr} {s s₁ : Reading} {rounds : Nat}
    (hskip : skip s = .ok ((), s₁)) (hskip₁ : skip s₁ = .ok ((), s₁)) :
    pieces p (rounds + 1) s = pieces p (rounds + 1) s₁ := by
  unfold pieces
  rw [parser_bind_of_ok hskip, parser_bind_of_ok hskip₁]

/-- A piece is read, and others after it. -/
theorem pieces_cons_sim (hg : GroupSim g₀ g) {c : Char} {cs : List Char} (hr : Alone outer r)
    (hrest : r.rest = c :: cs) (hclose : c ≠ ')') {rounds : Nat} {more : Context → Nat}
    (hnext : ∀ r₁ : Reading, Alone outer r₁ → r₁.rest.length < r.rest.length →
      Sim (pieces g₀ rounds) (fun c => pieces (g c) (more c)) r₁ (MovesAll outer r₁)) :
    Sim (do
        let e ← piece g₀
        let es ← pieces g₀ rounds
        return if e = .empty then es else e :: es)
      (fun c => do
        let e ← piece (g c)
        let es ← pieces (g c) (more c)
        return if e = .empty then es else e :: es) r (MovesAll outer r) := by
  refine (piece_sim hr hrest hclose hg).bind fun e r₁ v hv => ?_
  refine (hnext r₁ hv.alone hv.length_lt).bind fun es r₂ vs hvs => ?_
  have hfit := hv.fit.mono le_rfl hvs.groups_le
  have hfits := hvs.after hv.toReaches
  rw [hv.value_eq, hvs.value_eq]
  by_cases hempty : e = .empty
  · have hshift (c : Context) : e.shift c.offset = .empty := Expr.shift_eq_empty_iff.2 hempty
    simp only [hempty, if_true]
    exact .pure ⟨hfits.toAdvances, hfits.fit, rfl⟩
  · have hshift (c : Context) : e.shift c.offset ≠ .empty :=
      fun h => hempty (Expr.shift_eq_empty_iff.1 h)
    simp only [hempty, hshift, if_false]
    exact .pure ⟨hfits.toAdvances, List.forall_mem_cons.2 ⟨hfit, hfits.fit⟩, rfl⟩

/-- Pieces are read in every context, if there are rounds enough to read all of them. -/
theorem pieces_sim (hg : GroupSim g₀ g) {rounds : Nat} {rounds' : Context → Nat}
    (hr : Alone outer r) (hrounds : r.rest.length < rounds) (hle : ∀ c, rounds ≤ rounds' c) :
    Sim (pieces g₀ rounds) (fun c => pieces (g c) (rounds' c)) r (MovesAll outer r) := by
  induction rounds generalizing r rounds' with
  | zero => exact absurd hrounds (Nat.not_lt_zero _)
  | succ rounds ih =>
    obtain ⟨more, rfl, hmore⟩ := exists_more hle
    obtain ⟨hskip, hskip'⟩ := skip_afterGap hr.uncommented
    refine (Sim.congr (r := r.afterGap) (Q := MovesAll outer r.afterGap) ?_
      (pieces_skip (skip_of_uncommented hr.uncommented) hskip)
      fun c => pieces_skip (skip_place hr.uncommented c) (hskip' c)).mono
        fun es r' v hv => hv.after hr.afterGap.toReaches
    replace hrounds := hr.afterGap.length_le.trans_lt hrounds
    replace hr := hr.afterGap.alone
    generalize r.afterGap = s at hskip hskip' hrounds hr
    have hnext (c : Context) : next (c.place s).rest = next s.rest := next_put c false s.rest
    cases hstop : isStop (next s.rest) with
    | true =>
      refine .of_ok fun es r' ha => ?_
      rw [pieces_stop hstop] at ha
      cases ha
      refine ⟨fun _ => [], fun c => pieces_stop ?_, .refl hr, by simp, rfl⟩
      rw [hnext]
      exact hstop
    | false =>
      obtain ⟨c, cs, hrest⟩ : ∃ c cs, s.rest = c :: cs := by
        cases hrest : s.rest with
        | nil =>
          rw [hrest] at hstop
          cases hstop
        | cons c cs => exact ⟨c, cs, rfl⟩
      have hclose : c ≠ ')' := by
        rintro rfl
        rw [hrest] at hstop
        cases hstop
      refine (pieces_cons_sim hg hr hrest hclose fun r₁ hr₁ hlength =>
        ih hr₁ (by omega) hmore).congr (pieces_more hskip hstop) fun c =>
          pieces_more (hskip' c) ?_
      rw [hnext]
      exact hstop

theorem remaining_sim : Sim remaining (fun _ => remaining) r fun cs r' v =>
    cs = r.rest ∧ r' = r ∧ v = fun c => c.put false r.rest := by
  refine .of_ok fun a r' ha => ?_
  cases ha
  exact ⟨fun c => c.put false r.rest, fun c => rfl, rfl, rfl, rfl⟩

/-- A sequence is read in every context. -/
theorem sequence_sim (hg : GroupSim g₀ g) (hr : Alone outer r) :
    Sim (sequence g₀) (fun c => sequence (g c)) r (Moves outer r) := by
  unfold sequence
  refine remaining_sim.bind fun cs r₁ v hv => ?_
  obtain ⟨rfl, rfl, rfl⟩ := hv
  refine (pieces_sim hg hr (Nat.lt_succ_self _) fun c =>
    Nat.succ_le_succ Context.length_le_length_put).bind fun es r₂ v hv => ?_
  refine .pure ⟨hv.toAdvances, .ofSequence hv.fit, ?_⟩
  funext c
  rw [hv.value_eq, Expr.shift_ofSequence]

/-! ## Alternatives and depth -/

/-- Alternatives are read in every context, if there are rounds enough to read all of them. -/
theorem alternatives_sim (hg : GroupSim g₀ g) {rounds : Nat} {rounds' : Context → Nat}
    (hr : Alone outer r) (hrounds : r.rest.length < rounds) (hle : ∀ c, rounds ≤ rounds' c) :
    Sim (alternatives g₀ rounds) (fun c => alternatives (g c) (rounds' c)) r
      (MovesAll outer r) := by
  induction rounds generalizing r rounds' with
  | zero => exact absurd hrounds (Nat.not_lt_zero _)
  | succ rounds ih =>
    obtain ⟨more, rfl, hmore⟩ := exists_more hle
    unfold alternatives
    refine (accept_sim hr (by decide)).bind fun bar r₁ v hv => ?_
    obtain ⟨hr₁, rfl, hlength⟩ := hv
    cases bar with
    | false => exact .pure ⟨hr₁, by simp, rfl⟩
    | true =>
      refine (sequence_sim hg hr₁.alone).bind fun e r₂ v hv => ?_
      have hlt := hv.length_le.trans_lt (hlength rfl)
      refine (ih hv.alone (by omega) hmore).bind
        fun es r₃ vs hvs => ?_
      have hfit := (hv.after hr₁.toReaches).fit.mono le_rfl hvs.groups_le
      have hfits := hvs.after (hr₁.toReaches.trans hv.toReaches)
      refine .pure ⟨hfits.toAdvances, List.forall_mem_cons.2 ⟨hfit, hfits.fit⟩, ?_⟩
      rw [hv.value_eq, hvs.value_eq]
      rfl

namespace Context.Roomier

variable {c c' : Context}

theorem numbered_place (h : c'.Roomier c) (r : Reading) (hr : (c'.place r).numbered = true) :
    (c.place r).numbered = true := by
  simp only [place, Bool.or_eq_true] at hr ⊢
  rcases hr with hr | hr
  · exact .inl hr
  · refine .inr ?_
    by_contra hc
    rw [h.numbered (Bool.eq_false_of_not_eq_true hc)] at hr
    cases hr

theorem names_place (h : c'.Roomier c) (r : Reading) (hr : (!(c'.place r).names.isEmpty) = true) :
    (!(c.place r).names.isEmpty) = true := by
  simp only [place, Bool.not_eq_true', List.isEmpty_eq_false_iff, ne_eq, List.append_eq_nil_iff,
    List.map_eq_nil_iff, not_and] at hr ⊢
  exact fun hnames hc => hr hnames (h.names hc)

end Context.Roomier

/-- Alternatives are read in every context, except where names and numbers would be mixed. -/
theorem alternation_sim (hg : GroupSim g₀ g) (hr : Alone outer r) :
    Sim (alternation g₀) (fun c => alternation (g c)) r (Moves outer r) := by
  unfold alternation
  refine (sequence_sim hg hr).bind fun e r₁ v hv => ?_
  refine remaining_sim.bind fun cs r₂ vs hvs => ?_
  obtain ⟨rfl, rfl, rfl⟩ := hvs
  refine (alternatives_sim hg hv.alone (Nat.lt_succ_self _) fun c =>
    Nat.succ_le_succ Context.length_le_length_put).bind fun es r₃ vs hvs => ?_
  have hvalue := hvs.value_eq
  refine get_sim.bind fun s r₄ v' hv' => ?_
  obtain ⟨rfl, rfl, rfl⟩ := hv'
  refine .check ⟨_, rfl⟩ (fun c => ⟨_, rfl⟩) (fun {c c'} hc hrefused => ?_) fun _ => ?_
  · rw [hvalue] at hrefused ⊢
    simp only [Bool.and_eq_true, List.isEmpty_map] at hrefused ⊢
    exact ⟨⟨hrefused.1.1, hc.numbered_place _ hrefused.1.2⟩, hc.names_place _ hrefused.2⟩
  · have hfits := hvs.after hv.toReaches
    refine .pure ⟨hfits.toAdvances,
      (hv.fit.mono le_rfl hvs.groups_le).ofAlternatives hfits.fit, ?_⟩
    funext c
    rw [hv.value_eq, hvalue, Expr.shift_ofAlternatives]

theorem expression_eq (depth : Nat) : expression depth =
    if depth = 0 then throw .tooDeeplyNested
    else alternation (if depth - 1 = 0 then throw .tooDeeplyNested
      else group (expression (depth - 1))) := by
  cases depth <;> rfl

/-- **Patterns are read in every context**, except where groups nest too deep, a reference gets
too large, or names and numbers are mixed. -/
theorem expression_sim (depth used : Nat) (hr : Alone outer r) :
    Sim (expression depth) (fun c => expression (c.depth - used)) r (Moves outer r) := by
  induction depth generalizing used outer r with
  | zero => exact .of_error rfl
  | succ depth ih =>
    have hgroup : GroupSim (if depth = 0 then throw .tooDeeplyNested else group (expression depth))
        (fun c => if c.depth - used - 1 = 0 then throw .tooDeeplyNested
          else group (expression (c.depth - (used + 1)))) := by
      intro outer r cs hr hrest
      refine .check ⟨_, rfl⟩ (fun c => ⟨_, rfl⟩) (fun {c c'} hc hrefused => ?_) fun _ => ?_
      · have hle := hc.depth
        omega
      · exact group_sim (fun outer r hr => ih (used + 1) hr) hr hrest
    have hlevel : Sim (if depth + 1 = 0 then throw .tooDeeplyNested
          else alternation (if depth = 0 then throw .tooDeeplyNested
            else group (expression depth)))
        (fun c => if c.depth - used = 0 then throw .tooDeeplyNested
          else alternation (if c.depth - used - 1 = 0 then throw .tooDeeplyNested
            else group (expression (c.depth - (used + 1))))) r (Moves outer r) := by
      refine .check ⟨_, rfl⟩ (fun c => ⟨_, rfl⟩) (fun {c c'} hc hrefused => ?_) fun _ => ?_
      · have hle := hc.depth
        omega
      · exact alternation_sim hgroup hr
    refine hlevel.congr rfl fun c => ?_
    rw [expression_eq]
    rfl

end ModeStack.Regex
