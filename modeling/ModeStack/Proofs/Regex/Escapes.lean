import ModeStack.Proofs.Regex.Lexeme
import ModeStack.Proofs.Text.Utf8

/-!
# Escapes and brackets

What an escape means, and what a bracket, is read off the characters themselves. `Framed` says
this of a parser that reads quiet characters: it reads them wherever they stand and whatever
follows. Brackets contain other characters too; but since no reference may stand inside, they are
not changed either (`bracket_run`). The one escape that depends on its place is the reference,
whose number is raised by the groups before (`escape_digit`).
-/

namespace ModeStack.Regex

open ModeStack.Text
open ModeStack.Rule (Position raised isOrdinary isOrdinary_iff)

/-- Quiet characters are read from the front, in the same way whatever follows them. -/
def FramedAt {α : Type} (f : List Char → Option (α × List Char)) (cs rest : List Char) (a : α) :
    Prop :=
  ∃ w, (∀ c ∈ w, isQuiet c = true) ∧ cs = w ++ rest ∧ ∀ rest', f (w ++ rest') = some (a, rest')

/-- From one state to another, the parser reads quiet characters, which it reads in the same way
whatever follows them. The value may depend on whether case is ignored. -/
def Framed {α : Type} (p : Parser α) (r r' : Reading) (value : Bool → α) : Prop :=
  ∃ w, (∀ c ∈ w, isQuiet c = true) ∧ r.rest = w ++ r'.rest ∧ r' = r.withRest r'.rest ∧
    ∀ (s : Reading) rest,
      p (s.withRest (w ++ rest)) = .ok (value s.flags.ignoreCase, s.withRest rest)

/-! ## Code points -/

theorem isQuiet_of_isHexDigit : ∀ c, isHexDigit c = true → isQuiet c = true :=
  isQuiet_of (by decide)

/-- The digits of a code point. -/
def hexDigits? (count : Nat) (cs : List Char) : Option (List Char × List Char) :=
  let digits := cs.take count
  if digits.length = count && digits.all isHexDigit then some (digits, cs.drop count)
  else match cs with
    | '\x7b' :: more =>
      let digits := more.takeWhile isHexDigit
      match more.dropWhile isHexDigit with
      | '\x7d' :: rest =>
        if digits.isEmpty || 8 < digits.length then none else some (digits, rest)
      | _ => none
    | _ => none

theorem hexDigits?_framed {count : Nat} (hcount : 0 < count) {cs digits rest : List Char}
    (h : hexDigits? count cs = some (digits, rest)) :
    FramedAt (hexDigits? count) cs rest digits := by
  unfold hexDigits? at h
  dsimp only at h
  split_ifs at h with hd
  · simp only [Bool.and_eq_true, decide_eq_true_eq, List.all_eq_true] at hd
    cases h
    refine ⟨cs.take count, fun c hc => isQuiet_of_isHexDigit c (hd.2 c hc),
      (List.take_append_drop count cs).symm, fun rest' => ?_⟩
    have htake : (cs.take count ++ rest').take count = cs.take count := List.take_left' hd.1
    have hdrop : (cs.take count ++ rest').drop count = rest' := List.drop_left' hd.1
    have hall : (cs.take count).all isHexDigit = true := List.all_eq_true.2 hd.2
    simp only [hexDigits?, htake, hdrop, hd.1, hall, decide_true, Bool.and_self, if_true]
  · split at h
    · rename_i more
      split at h
      · rename_i rest' hrest
        split_ifs at h with hlen
        cases h
        have hmore : more = more.takeWhile isHexDigit ++ '\x7d' :: rest := by
          rw [← hrest, List.takeWhile_append_dropWhile]
        have hdigit (c : Char) (hc : c ∈ more.takeWhile isHexDigit) : isHexDigit c = true :=
          List.mem_takeWhile_imp hc
        refine ⟨'\x7b' :: (more.takeWhile isHexDigit ++ ['\x7d']), ?_, ?_, fun rest' => ?_⟩
        · simp only [List.mem_cons, List.mem_append, List.not_mem_nil, or_false]
          rintro c (rfl | hc | rfl)
          · decide
          · exact isQuiet_of_isHexDigit c (hdigit c hc)
          · decide
        · simpa using hmore
        · generalize more.takeWhile isHexDigit = w at hdigit hlen ⊢
          -- A brace is no digit, so the first way to write a code point is not taken.
          have hbrace : (('\x7b' :: (w ++ '\x7d' :: rest')).take count).all isHexDigit = false := by
            obtain ⟨count, rfl⟩ := Nat.exists_eq_succ_of_ne_zero hcount.ne'
            rfl
          have htake : (w ++ '\x7d' :: rest').takeWhile isHexDigit = w := by
            rw [List.takeWhile_append_of_pos hdigit]
            exact List.append_nil w
          have hdrop : (w ++ '\x7d' :: rest').dropWhile isHexDigit = '\x7d' :: rest' := by
            rw [List.dropWhile_append_of_pos hdigit]
            rfl
          simp only [List.cons_append, List.append_assoc, List.nil_append, hexDigits?, hbrace,
            Bool.and_false, Bool.false_eq_true, if_false, htake, hdrop, hlen]
      · cases h
    · cases h

theorem codePoint_eq (count : Nat) (r : Reading) :
    codePoint count r = (hexDigits? count r.rest).elim (.error .invalidCodePoint) fun x =>
      if (hexValue x.1).isValidChar then .ok (Char.ofNat (hexValue x.1), r.withRest x.2)
      else .error .invalidCodePoint := by
  have hpure (x : List Char × List Char) : ((pure x : Parser _) >>= fun x => do
      continueAt x.2
      if (hexValue x.1).isValidChar then return Char.ofNat (hexValue x.1)
      else throw .invalidCodePoint) r =
      if (hexValue x.1).isValidChar then .ok (Char.ofNat (hexValue x.1), r.withRest x.2)
      else .error .invalidCodePoint := by
    simp only [pure_bind, bind_continueAt]
    split_ifs <;> rfl
  unfold codePoint
  rw [bind_remaining]
  generalize r.rest = cs
  unfold hexDigits?
  dsimp only
  split_ifs with hd
  · exact hpure _
  cases cs with
  | nil => rfl
  | cons c more =>
    by_cases hopen : c = '\x7b'
    · subst hopen
      simp only
      generalize more.takeWhile isHexDigit = digits
      cases more.dropWhile isHexDigit with
      | nil => rfl
      | cons d rest =>
        by_cases hclose : d = '\x7d'
        · subst hclose
          simp only
          split_ifs
          · rfl
          · exact hpure _
        · simp [hclose, bind_throw]
    · simp [hopen, bind_throw]

/-- Code points are written in quiet characters. -/
theorem codePoint_framed {count : Nat} (hcount : 0 < count) {r r' : Reading} {c : Char}
    (h : codePoint count r = .ok (c, r')) : Framed (codePoint count) r r' fun _ => c := by
  rw [codePoint_eq] at h
  cases hd : hexDigits? count r.rest with
  | none => simp [hd] at h
  | some x =>
    obtain ⟨digits, rest⟩ := x
    simp only [hd, Option.elim] at h
    split_ifs at h with hvalid
    cases h
    obtain ⟨w, hw, hrest, hframe⟩ := hexDigits?_framed hcount hd
    refine ⟨w, hw, hrest, rfl, fun s rest' => ?_⟩
    rw [codePoint_eq]
    simp [Reading.withRest, hframe, hvalid]

/-! ## Properties -/

/-- The names of properties consist of quiet characters. -/
theorem isQuiet_of_ofUnicodeName {id : List Char} {p : Property}
    (h : Property.ofUnicodeName (String.ofList id) = some p) : ∀ c ∈ id, isQuiet c = true := by
  have hnames : Property.unicodeNames.all (fun e => e.1.toList.all isQuiet) = true := by
    simp only [← Text.charactersOf_eq]
    decide +kernel
  obtain ⟨before, after, heq, -⟩ := List.lookup_eq_some_iff.1 h
  rw [heq, List.all_append, List.all_cons, Bool.and_eq_true, Bool.and_eq_true] at hnames
  have hall := hnames.2.1
  simp only [String.toList_ofList, List.all_map, List.all_eq_true, Function.comp_apply] at hall
  intro c hc
  by_contra hspecial
  have hcases : (c = '\\' ∨ c = '[' ∨ c = ']' ∨ c = '(') ∨ c = ')' ∨ c = '#' := by
    by_contra hne
    simp only [not_or] at hne
    exact hspecial (isQuiet_iff.2 hne)
  have hkept : c ∈ id.filter fun c => c ≠ ' ' && c ≠ '-' && c ≠ '_' := by
    rw [List.mem_filter]
    refine ⟨hc, ?_⟩
    rcases hcases with (rfl | rfl | rfl | rfl) | rfl | rfl <;> decide
  have hlower : Text.asciiLower c = c := by
    rcases hcases with (rfl | rfl | rfl | rfl) | rfl | rfl <;> decide
  have := hall c hkept
  rw [hlower] at this
  exact hspecial this

/-- The name of a property, in braces or of one letter. -/
def propertyName? (cs : List Char) : Option (List Char × List Char) :=
  match cs with
  | '\x7b' :: more =>
    match more.dropWhile (· ≠ '\x7d') with
    | _ :: rest => some (more.takeWhile (· ≠ '\x7d'), rest)
    | [] => none
  | c :: rest => some ([c], rest)
  | [] => none

theorem propertyName?_of_ne {c : Char} {rest : List Char} (hc : c ≠ '\x7b') :
    propertyName? (c :: rest) = some ([c], rest) := by
  simp [propertyName?]

/-- What is meant by the name of a property, which may be negated. -/
def propertyOf (negated : Bool) (id : List Char) : Except SyntaxError CharSet :=
  let (negated, id) := match id with
    | '^' :: id => (!negated, id)
    | _ => (negated, id)
  match Property.ofUnicodeName (String.ofList id) with
  | some p => .ok (.bracket negated (.named p false))
  | none => .error .unknownProperty

theorem isQuiet_of_propertyOf {negated : Bool} {id : List Char} {s : CharSet}
    (h : propertyOf negated id = .ok s) : ∀ c ∈ id, isQuiet c = true := by
  unfold propertyOf at h
  split at h
  rename_i negated' id' heq
  cases hp : Property.ofUnicodeName (String.ofList id') with
  | none => simp [hp] at h
  | some p =>
    have hord := isQuiet_of_ofUnicodeName hp
    split at heq
    · cases heq
      rintro c (_ | ⟨_, hc⟩)
      · decide
      · exact hord c hc
    · cases heq
      exact hord

theorem property_eq (negated : Bool) (r : Reading) :
    property negated r = (propertyName? r.rest).elim
      (.error (if r.rest = [] then .invalidEscape else .unknownProperty))
      fun x => (propertyOf negated x.1).map fun s => (s, r.withRest x.2) := by
  unfold property propertyOf
  rw [bind_remaining]
  generalize r.rest = cs
  -- The table of names plays no part here, and must not be searched.
  generalize Property.ofUnicodeName = named
  have hnamed (id rest : List Char) : (do
      let (negated, id) := match id with
        | '^' :: id => (!negated, id)
        | _ => (negated, id)
      match named (String.ofList id) with
      | some p => return .bracket negated (.named p false)
      | none => throw SyntaxError.unknownProperty : Parser CharSet) (r.withRest rest) =
      Except.map (fun s => (s, r.withRest rest)) (
        let (negated, id) := match id with
          | '^' :: id => (!negated, id)
          | _ => (negated, id)
        match named (String.ofList id) with
        | some p => .ok (.bracket negated (.named p false))
        | none => .error .unknownProperty) := by
    dsimp only
    generalize (match id with
      | '^' :: id => (!negated, id)
      | _ => (negated, id)) = y
    cases named (String.ofList y.2) <;> rfl
  split
  · rename_i more
    simp only [propertyName?]
    cases more.dropWhile (· ≠ '\x7d') with
    | nil => rfl
    | cons c rest =>
      generalize more.takeWhile (· ≠ '\x7d') = id
      simp only [bind_continueAt, pure_bind, Option.elim]
      exact hnamed id rest
  · rename_i c rest hne
    rw [propertyName?_of_ne hne]
    generalize [c] = id
    simp only [bind_continueAt, pure_bind, Option.elim]
    exact hnamed id rest
  · rfl

theorem propertyName?_framed {cs id rest : List Char} (h : propertyName? cs = some (id, rest))
    (hid : ∀ c ∈ id, isQuiet c = true) : FramedAt propertyName? cs rest id := by
  unfold propertyName? at h
  split at h
  · rename_i more
    split at h
    · rename_i c rest' hdrop
      cases h
      have hbrace : c = '\x7d' := by
        have hhead := List.head?_dropWhile_not (· ≠ '\x7d') more
        rw [hdrop] at hhead
        simpa using hhead
      subst hbrace
      have hmore := List.takeWhile_append_dropWhile (p := (· ≠ '\x7d')) (l := more)
      rw [hdrop] at hmore
      have hne (c : Char) (hc : c ∈ more.takeWhile (· ≠ '\x7d')) : decide (c ≠ '\x7d') = true := by
        have hne := List.mem_takeWhile_imp hc
        exact hne
      generalize more.takeWhile (· ≠ '\x7d') = w at hid hmore hne ⊢
      refine ⟨'\x7b' :: (w ++ ['\x7d']), ?_, by simp [hmore], fun rest' => ?_⟩
      · simp only [List.mem_cons, List.mem_append, List.not_mem_nil, or_false]
        rintro c (rfl | hc | rfl)
        · decide
        · exact hid c hc
        · decide
      · simp only [List.cons_append, List.append_assoc, List.nil_append, propertyName?,
          List.takeWhile_append_of_pos hne, List.dropWhile_append_of_pos hne]
        simp
    · cases h
  · rename_i c rest' hc
    cases h
    exact ⟨[c], hid, rfl, fun rest' => propertyName?_of_ne hc⟩
  · cases h

/-- Names of properties are written in quiet characters. -/
theorem property_framed {negated : Bool} {r r' : Reading} {s : CharSet}
    (h : property negated r = .ok (s, r')) : Framed (property negated) r r' fun _ => s := by
  rw [property_eq] at h
  cases hname : propertyName? r.rest with
  | none => simp [hname] at h
  | some x =>
    obtain ⟨id, rest⟩ := x
    simp only [hname, Option.elim] at h
    cases hset : propertyOf negated id with
    | error e => simp [hset, Except.map] at h
    | ok s' =>
      rw [hset] at h
      cases h
      obtain ⟨w, hw, hrest, hframe⟩ :=
        propertyName?_framed hname (isQuiet_of_propertyOf hset)
      refine ⟨w, hw, hrest, rfl, fun s rest' => ?_⟩
      rw [property_eq]
      simp [Reading.withRest, hframe, hset, Except.map]

/-! ## Escapes for characters -/

/-- One character or a set, with or without regard to case. -/
def IsSingle (v : Bool → Expr) : Prop :=
  (∃ c, ∀ b, ∃ b', v b = .char c b') ∨ ∃ s, v = .set s

theorem Framed.map {α β : Type} {p : Parser α} {r r' : Reading} {v : Bool → α}
    (h : Framed p r r' v) (f : α → Bool → β) :
    Framed (do let fold := (← get).flags.ignoreCase; return f (← p) fold) r r'
      fun b => f (v b) b := by
  obtain ⟨w, hw, hrest, hr', hframe⟩ := h
  refine ⟨w, hw, hrest, hr', fun s rest => ?_⟩
  rw [bind_get, parser_bind_of_ok (hframe s rest)]
  rfl

theorem Framed.pure {α : Type} {p : Parser α} {v : Bool → α} (r : Reading)
    (hp : ∀ s, p s = .ok (v s.flags.ignoreCase, s)) : Framed p r r v :=
  ⟨[], by simp, rfl, rfl, fun s rest => hp _⟩

theorem commonEscape_of_ne {c : Char} (hset : setEscape? c = none) (hx : c ≠ 'x') (hu : c ≠ 'u')
    (hU : c ≠ 'U') (hp : c ≠ 'p') (hP : c ≠ 'P') (s : Reading) :
    commonEscape c s = match controlEscape? c with
      | some control => .ok (.char control false, s)
      | none => if isAsciiLetter c then .error .invalidEscape else .ok (.char c false, s) := by
  unfold commonEscape
  rw [bind_get, hset]
  simp only
  cases controlEscape? c with
  | some control => rfl
  | none =>
    dsimp only
    split_ifs <;> rfl

/-- An escape that means the same inside brackets and outside means a character or a set, and is
written in quiet characters. -/
theorem commonEscape_framed {c : Char} {r r' : Reading} {e : Expr}
    (h : commonEscape c r = .ok (e, r')) :
    ∃ v, Framed (commonEscape c) r r' v ∧ v r.flags.ignoreCase = e ∧ IsSingle v := by
  cases hset : setEscape? c with
  | some s =>
    have heq (r : Reading) : commonEscape c r = .ok (.set s r.flags.ignoreCase, r) := by
      unfold commonEscape
      rw [bind_get, hset]
      rfl
    rw [heq] at h
    cases h
    exact ⟨.set s, .pure r heq, rfl, .inr ⟨s, rfl⟩⟩
  | none =>
    have hcode {count : Nat} (hcount : 0 < count)
        (heq : commonEscape c = do
          let fold := (← get).flags.ignoreCase
          return .char (← codePoint count) fold) :
        ∃ v, Framed (commonEscape c) r r' v ∧ v r.flags.ignoreCase = e ∧ IsSingle v := by
      rw [heq, bind_get] at h
      obtain ⟨ch, r₁, hch, hret⟩ := exists_of_parser_bind h
      cases hret
      rw [heq]
      exact ⟨.char ch, (codePoint_framed hcount hch).map Expr.char, rfl,
        .inl ⟨ch, fun b => ⟨b, rfl⟩⟩⟩
    have hprop {negated : Bool}
        (heq : commonEscape c = do
          let fold := (← get).flags.ignoreCase
          return .set (← property negated) fold) :
        ∃ v, Framed (commonEscape c) r r' v ∧ v r.flags.ignoreCase = e ∧ IsSingle v := by
      rw [heq, bind_get] at h
      obtain ⟨s, r₁, hs, hret⟩ := exists_of_parser_bind h
      cases hret
      rw [heq]
      exact ⟨.set s, (property_framed hs).map Expr.set, rfl, .inr ⟨s, rfl⟩⟩
    by_cases hx : c = 'x'
    · exact hcode (by decide : 0 < 2) (by rw [hx]; rfl)
    by_cases hu : c = 'u'
    · exact hcode (by decide : 0 < 4) (by rw [hu]; rfl)
    by_cases hU : c = 'U'
    · exact hcode (by decide : 0 < 8) (by rw [hU]; rfl)
    by_cases hp : c = 'p'
    · exact hprop (by rw [hp]; rfl)
    by_cases hP : c = 'P'
    · exact hprop (by rw [hP]; rfl)
    have heq := commonEscape_of_ne hset hx hu hU hp hP
    rw [heq] at h
    cases hcontrol : controlEscape? c with
    | some control =>
      simp only [hcontrol] at h heq
      cases h
      exact ⟨fun _ => .char control false, .pure r heq, rfl, .inl ⟨control, fun b => ⟨_, rfl⟩⟩⟩
    | none =>
      simp only [hcontrol] at h heq
      split_ifs at h with hletter
      cases h
      simp only [hletter, Bool.false_eq_true, if_false] at heq
      exact ⟨fun _ => .char c false, .pure r heq, rfl, .inl ⟨c, fun b => ⟨_, rfl⟩⟩⟩

/-! ## Brackets -/

/-- What an escape means as an atom of a bracket. -/
def atomOf : Expr → Parser Bracket.Atom
  | .char c _ => return .ofEscaped c
  | .set s _ => return .set s
  | _ => throw .invalidSet

/-- An escape inside brackets is not a reference, and what it reads after its first character are
quiet characters. -/
theorem bracketEscape_framed {c : Char} {cs : List Char} {r r' : Reading} {atom : Bracket.Atom}
    (hr : r.rest = c :: cs) (h : bracketEscape r = .ok (atom, r')) :
    isAsciiDigit c = false ∧ ∃ w, (∀ d ∈ w, isQuiet d = true) ∧ cs = w ++ r'.rest ∧
      r' = r.withRest r'.rest ∧ ∀ (s : Reading) rest,
        bracketEscape (s.withRest (c :: (w ++ rest))) = .ok (atom, s.withRest rest) := by
  have heq (s : Reading) (rest : List Char) (hs : s.rest = c :: rest) :
      bracketEscape s = (do
        if isAsciiDigit c then throw .invalidSet
        else if isPlainInBracket c then return .bare c
        else commonEscape c >>= atomOf : Parser Bracket.Atom) (s.withRest rest) := by
    unfold bracketEscape
    rw [bind_remaining, hs]
    rfl
  rw [heq r cs hr] at h
  by_cases hdigit : isAsciiDigit c = true
  · rw [if_pos hdigit] at h
    cases h
  rw [if_neg hdigit] at h
  refine ⟨by simpa using hdigit, ?_⟩
  by_cases hplain : isPlainInBracket c = true
  · rw [if_pos hplain] at h
    cases h
    refine ⟨[], by simp, rfl, rfl, fun s rest => ?_⟩
    rw [heq _ rest rfl, if_neg hdigit, if_pos hplain]
    rfl
  rw [if_neg hplain] at h
  obtain ⟨e, r₁, he, hret⟩ := exists_of_parser_bind h
  obtain ⟨v, ⟨w, hw, hrest, hr₁, hframe⟩, hv, hsingle⟩ := commonEscape_framed he
  -- A character is the same atom whether or not case is ignored, and so is a set.
  obtain ⟨hr', hatom⟩ : r' = r₁ ∧ ∀ b (s : Reading), atomOf (v b) s = .ok (atom, s) := by
    rcases hsingle with ⟨ch, hch⟩ | ⟨set, rfl⟩
    · obtain ⟨b', hb'⟩ := hch r.flags.ignoreCase
      have hvr : e = .char ch b' := by
        rw [← hv, ← hb']
        rfl
      rw [hvr] at hret
      cases hret
      refine ⟨rfl, fun b s => ?_⟩
      obtain ⟨b'', hb''⟩ := hch b
      rw [hb'']
      rfl
    · rw [← hv] at hret
      cases hret
      exact ⟨rfl, fun b s => rfl⟩
  subst hr'
  refine ⟨w, hw, hrest, ?_, fun s rest => ?_⟩
  · rw [hr₁]
    rfl
  · rw [heq _ (w ++ rest) rfl, if_neg hdigit, if_neg hplain]
    exact (parser_bind_of_ok (hframe s rest)).trans (hatom _ _)

section Atoms

variable {rounds opened : Nat} {read : List Bracket.Atom} {r : Reading} {c : Char}
  {rest : List Char}

/-- What the atoms of a bracket are, by the character that comes next. -/
theorem bracketAtoms_succ :
    bracketAtoms (rounds + 1) opened read r =
      match r.rest with
      | [] => .error .unclosedSet
      | '\\' :: rest =>
        (bracketEscape >>= fun atom => bracketAtoms rounds opened (atom :: read)) (r.withRest rest)
      | '[' :: rest => bracketAtoms rounds (opened + 1) (.bare '[' :: read) (r.withRest rest)
      | ']' :: rest =>
        match opened with
        | 0 => .ok ((.bare ']' :: read).reverse, r.withRest rest)
        | opened + 1 => bracketAtoms rounds opened (.bare ']' :: read) (r.withRest rest)
      | c :: rest => bracketAtoms rounds opened (.bare c :: read) (r.withRest rest) := by
  conv_lhs => unfold bracketAtoms
  rw [bind_remaining]
  cases r.rest with
  | nil => rfl
  | cons c rest =>
    by_cases hescape : c = '\\'
    · subst hescape
      rfl
    by_cases hopen : c = '['
    · subst hopen
      rfl
    by_cases hclose : c = ']'
    · subst hclose
      cases opened <;> rfl
    · simp only
      rw [bind_continueAt]

theorem bracketAtoms_escape (hr : r.rest = '\\' :: rest) :
    bracketAtoms (rounds + 1) opened read r =
      (bracketEscape >>= fun atom => bracketAtoms rounds opened (atom :: read))
        (r.withRest rest) := by
  rw [bracketAtoms_succ, hr]
  rfl

theorem bracketAtoms_open (hr : r.rest = '[' :: rest) :
    bracketAtoms (rounds + 1) opened read r =
      bracketAtoms rounds (opened + 1) (.bare '[' :: read) (r.withRest rest) := by
  rw [bracketAtoms_succ, hr]
  rfl

theorem bracketAtoms_last (hr : r.rest = ']' :: rest) :
    bracketAtoms (rounds + 1) 0 read r = .ok ((.bare ']' :: read).reverse, r.withRest rest) := by
  rw [bracketAtoms_succ, hr]
  rfl

theorem bracketAtoms_close (hr : r.rest = ']' :: rest) :
    bracketAtoms (rounds + 1) (opened + 1) read r =
      bracketAtoms rounds opened (.bare ']' :: read) (r.withRest rest) := by
  rw [bracketAtoms_succ, hr]
  rfl

theorem bracketAtoms_other (hr : r.rest = c :: rest) (hescape : c ≠ '\\') (hopen : c ≠ '[')
    (hclose : c ≠ ']') :
    bracketAtoms (rounds + 1) opened read r =
      bracketAtoms rounds opened (.bare c :: read) (r.withRest rest) := by
  rw [bracketAtoms_succ, hr]
  simp only

end Atoms

/-- What is left of a bracket, in which others are open, is read up to its end, the same with
references raised and whatever follows. -/
structure ReadsBracket (rounds opened : Nat) (read atoms : List Bracket.Atom) (r r' : Reading) :
    Prop where
  eq : r' = r.withRest r'.rest
  /-- Behind the bracket the renumbering machine is outside, wherever it was before. -/
  after : ∀ inBracket, ∃ w, r.rest = w ++ r'.rest ∧
    (Position.plain inBracket).after w = .plain false
  tame_eq : tame (some opened) r.rest = tame none r'.rest
  calm_eq : ∀ v outer, calm (.inside opened) v outer r.rest = calm .outside v outer r'.rest
  run : ∀ offset tail inBracket rounds', rounds ≤ rounds' → ∀ s : Reading,
    bracketAtoms rounds' opened read
        (s.withRest (Position.run offset (.plain inBracket) r.rest ++ tail)) =
      .ok (atoms, s.withRest (Position.run offset (.plain false) r'.rest ++ tail))

section Atoms

variable {rounds opened : Nat} {read atoms : List Bracket.Atom} {r r' : Reading} {c : Char}
  {rest : List Char}

theorem exists_round {rounds' : Nat} (hle : rounds + 1 ≤ rounds') :
    ∃ more, rounds' = more + 1 ∧ rounds ≤ more :=
  ⟨rounds' - 1, by omega, by omega⟩

/-- A character that stands for itself is read, and others are read after it. -/
theorem ReadsBracket.cons {opened' : Nat}
    (h : ReadsBracket rounds opened' (.bare c :: read) atoms (r.withRest rest) r')
    (hr : r.rest = c :: rest) (hc : c ≠ '\\')
    (hstep : ∀ {rounds : Nat} {s : Reading} {rest : List Char}, s.rest = c :: rest →
      bracketAtoms (rounds + 1) opened read s =
        bracketAtoms rounds opened' (.bare c :: read) (s.withRest rest))
    (htame : tame (some opened) (c :: rest) = tame (some opened') rest)
    (hcalm : ∀ v outer, calm (.inside opened) v outer (c :: rest) =
      calm (.inside opened') v outer rest) :
    ReadsBracket (rounds + 1) opened read atoms r r' where
  eq := h.eq
  after := by
    intro inBracket
    obtain ⟨w, hw, hafter⟩ := h.after (Position.bracketAfter inBracket c)
    have hrest : rest = w ++ r'.rest := hw
    exact ⟨c :: w, by rw [hr, hrest]; rfl, (Position.after_plain_cons hc).trans hafter⟩
  tame_eq := by
    rw [hr, htame]
    exact h.tame_eq
  calm_eq := by
    intro v outer
    rw [hr, hcalm]
    exact h.calm_eq v outer
  run := by
    intro offset tail inBracket rounds' hle s
    obtain ⟨more, rfl, hmore⟩ := exists_round hle
    rw [hr, Position.run_cons hc, List.cons_append, hstep rfl]
    exact h.run offset tail _ more hmore s

/-- An escape is read, and others are read after it. -/
theorem ReadsBracket.escape {atom : Bracket.Atom} {r₁ : Reading} (hr : r.rest = '\\' :: rest)
    (hatom : bracketEscape (r.withRest rest) = .ok (atom, r₁))
    (h : ReadsBracket rounds opened (atom :: read) atoms r₁ r') :
    ReadsBracket (rounds + 1) opened read atoms r r' := by
  cases rest with
  | nil => cases hatom
  | cons c cs =>
    obtain ⟨hdigit, w, hquiet, hcs, hr₁, hframe⟩ := bracketEscape_framed rfl hatom
    have hw (c : Char) (hc : c ∈ w) := isOrdinary_of_isQuiet (hquiet c hc)
    have hlead := Position.isLeading_eq_false hdigit
    constructor
    · rw [h.eq, hr₁]
      rfl
    · intro inBracket
      obtain ⟨v, hv, hafter⟩ := h.after inBracket
      refine ⟨'\\' :: c :: (w ++ v), by rw [hr, hcs, hv]; simp, ?_⟩
      exact (Position.after_escaped_cons (.inr hlead)).trans
        ((Position.after_append_of_ordinary hw inBracket).trans hafter)
    · have hskip : tame (some opened) ('\\' :: c :: (w ++ r₁.rest)) =
          tame (some opened) (w ++ r₁.rest) := by simp [tame]
      rw [hr, hcs, hskip, tame_append hw, h.tame_eq]
    · intro v outer
      have hskip : calm (.inside opened) v outer ('\\' :: c :: (w ++ r₁.rest)) =
          calm (.inside opened) v outer (w ++ r₁.rest) := by simp [calm]
      rw [hr, hcs, hskip, calm_inside_append hw, h.calm_eq]
    · intro offset tail inBracket rounds' hle s
      obtain ⟨more, rfl, hmore⟩ := exists_round hle
      rw [hr, Position.run_escape (.inr hlead), hcs, Position.run_append_of_ordinary hw,
        List.cons_append, List.cons_append, List.append_assoc, bracketAtoms_escape rfl]
      exact (parser_bind_of_ok (hframe _ _)).trans (h.run offset tail inBracket more hmore s)

/-- The bracket is closed. -/
theorem ReadsBracket.last (hr : r.rest = ']' :: rest) :
    ReadsBracket (rounds + 1) 0 read (.bare ']' :: read).reverse r (r.withRest rest) where
  eq := rfl
  after := fun inBracket => ⟨[']'], hr, Position.after_plain_cons (by decide)⟩
  tame_eq := by
    rw [hr]
    rfl
  calm_eq := by
    intro v outer
    rw [hr]
    rfl
  run := by
    intro offset tail inBracket rounds' hle s
    obtain ⟨more, rfl, -⟩ := exists_round hle
    rw [hr, Position.run_cons (by decide), List.cons_append, bracketAtoms_last rfl]
    rfl

end Atoms

/-- The atoms of a bracket are the same with references raised. What was read before may have left
the renumbering machine inside the bracket or outside; after the bracket it is outside. -/
theorem readsBracket_of_ok {rounds opened : Nat} {read atoms : List Bracket.Atom} {r r' : Reading}
    (h : bracketAtoms rounds opened read r = .ok (atoms, r')) :
    ReadsBracket rounds opened read atoms r r' := by
  induction rounds generalizing opened read r with
  | zero => cases h
  | succ rounds ih =>
    cases hr : r.rest with
    | nil =>
      unfold bracketAtoms at h
      rw [bind_remaining, hr] at h
      cases h
    | cons c rest =>
      by_cases hescape : c = '\\'
      · subst hescape
        rw [bracketAtoms_escape hr] at h
        obtain ⟨atom, r₁, hatom, hnext⟩ := exists_of_parser_bind h
        exact .escape hr hatom (ih hnext)
      by_cases hopen : c = '['
      · subst hopen
        rw [bracketAtoms_open hr] at h
        exact (ih h).cons hr (by decide) bracketAtoms_open (by simp [tame]) (by simp [calm])
      by_cases hclose : c = ']'
      · subst hclose
        cases opened with
        | zero =>
          rw [bracketAtoms_last hr] at h
          cases h
          exact .last hr
        | succ opened =>
          rw [bracketAtoms_close hr] at h
          exact (ih h).cons hr (by decide) bracketAtoms_close (by simp [tame]) (by simp [calm])
      · rw [bracketAtoms_other hr hescape hopen hclose] at h
        refine (ih h).cons hr hescape (fun hs => bracketAtoms_other hs hescape hopen hclose) ?_
          fun v outer => calm_inside hescape hopen hclose
        cases opened <;> simp [tame, hescape, hopen, hclose]

/-- What is read right after the `[` that opens a bracket. -/
def bracketOpening (cs : List Char) : List Bracket.Atom × List Char :=
  match cs with
  | '^' :: ']' :: rest => ([.bare ']', .bare '^'], rest)
  | '^' :: rest => ([.bare '^'], rest)
  | ']' :: rest => ([.bare ']'], rest)
  | _ => ([], cs)

theorem bracketOpening_caret {cs : List Char} (h : cs.head? ≠ some ']') :
    bracketOpening ('^' :: cs) = ([.bare '^'], cs) := by
  cases cs with
  | nil => rfl
  | cons c cs =>
    have hc : c ≠ ']' := fun hc => h (by rw [hc]; rfl)
    simp [bracketOpening, hc]

theorem bracketOpening_other {cs : List Char} (hcaret : cs.head? ≠ some '^')
    (hclose : cs.head? ≠ some ']') : bracketOpening cs = ([], cs) := by
  cases cs with
  | nil => rfl
  | cons c cs =>
    have hc : c ≠ '^' := fun hc => hcaret (by rw [hc]; rfl)
    have hc' : c ≠ ']' := fun hc => hclose (by rw [hc]; rfl)
    simp [bracketOpening, hc, hc']

theorem bracket_eq (r : Reading) :
    bracket r = (do
      let atoms ← bracketAtoms ((bracketOpening r.rest).2.length + 1) 0 (bracketOpening r.rest).1
      let s ← Bracket.read atoms
      return .set s (← get).flags.ignoreCase : Parser Expr)
        (r.withRest (bracketOpening r.rest).2) := rfl

theorem tame_bracket (cs : List Char) :
    tame none ('[' :: cs) = tame (some 0) (bracketOpening cs).2 := by
  unfold bracketOpening
  split <;> simp_all [tame]

theorem calm_bracket (v : Bool) (outer : List (Option Bool)) (cs : List Char) :
    calm .outside v outer ('[' :: cs) = calm (.inside 0) v outer (bracketOpening cs).2 := by
  unfold bracketOpening
  split <;> simp_all [calm]

/-- A bracket begins in the same way with references raised, unless it begins with what follows the
text. A `]` that stands for itself takes the renumbering machine out of the bracket. -/
theorem bracketOpening_run {tail : List Char} (hcaret : tail.head? ≠ some '^')
    (hclose : tail.head? ≠ some ']') (offset : Nat) (cs : List Char) : ∃ inBracket,
    bracketOpening (Position.run offset (.plain true) cs ++ tail) = ((bracketOpening cs).1,
      Position.run offset (.plain inBracket) (bracketOpening cs).2 ++ tail) := by
  have hhead {cs : List Char} {c : Char} (htail : tail.head? ≠ some c) (h : cs.head? ≠ some c) :
      (Position.run offset (.plain true) cs ++ tail).head? ≠ some c := by
    rw [List.head?_append, Position.head?_run]
    cases cs with
    | nil => exact htail
    | cons d cs => exact h
  by_cases hcaret' : cs.head? = some '^'
  · obtain ⟨rest, rfl⟩ := List.head?_eq_some_iff.1 hcaret'
    rw [Position.run_ordinary (by decide)]
    by_cases hclose' : rest.head? = some ']'
    · obtain ⟨rest, rfl⟩ := List.head?_eq_some_iff.1 hclose'
      refine ⟨false, ?_⟩
      rw [Position.run_cons (by decide)]
      rfl
    · refine ⟨true, ?_⟩
      rw [bracketOpening_caret hclose', List.cons_append,
        bracketOpening_caret (hhead hclose hclose')]
  · by_cases hclose' : cs.head? = some ']'
    · obtain ⟨rest, rfl⟩ := List.head?_eq_some_iff.1 hclose'
      refine ⟨false, ?_⟩
      rw [Position.run_cons (by decide)]
      rfl
    · refine ⟨true, ?_⟩
      rw [bracketOpening_other hcaret' hclose',
        bracketOpening_other (hhead hcaret hcaret') (hhead hclose hclose')]

/-- Behind the beginning of a bracket, the machine stands between characters. -/
theorem bracketOpening_after (cs : List Char) : ∃ w inBracket, cs = w ++ (bracketOpening cs).2 ∧
    (Position.plain true).after w = .plain inBracket := by
  unfold bracketOpening
  split
  · exact ⟨['^', ']'], _, rfl, rfl⟩
  · exact ⟨['^'], _, rfl, rfl⟩
  · exact ⟨[']'], _, rfl, rfl⟩
  · exact ⟨[], _, rfl, rfl⟩

/-- **A bracket means the same set with references raised.** -/
theorem bracket_run {r r' : Reading} {e : Expr} (h : bracket r = .ok (e, r')) :
    r' = r.withRest r'.rest ∧
      (∃ w, r.rest = w ++ r'.rest ∧ (Position.plain true).after w = .plain false) ∧
      tame none ('[' :: r.rest) = tame none r'.rest ∧
      (∀ v outer, calm .outside v outer ('[' :: r.rest) = calm .outside v outer r'.rest) ∧
      ∃ set, e = .set set r.flags.ignoreCase ∧ ∀ offset (tail : List Char) (s : Reading),
        tail.head? ≠ some '^' → tail.head? ≠ some ']' →
        bracket (s.withRest (Position.run offset (.plain true) r.rest ++ tail)) =
          .ok (.set set s.flags.ignoreCase,
            s.withRest (Position.run offset (.plain false) r'.rest ++ tail)) := by
  rw [bracket_eq] at h
  obtain ⟨atoms, r₁, hatoms, hset⟩ := exists_of_parser_bind h
  have hbracket := readsBracket_of_ok hatoms
  cases hread : Bracket.read atoms with
  | error err =>
    rw [hread] at hset
    cases hset
  | ok set =>
    rw [hread] at hset
    cases hset
    have hafter : ∃ w, r.rest = w ++ r'.rest ∧ (Position.plain true).after w = .plain false := by
      obtain ⟨w, inBracket, hw, hopening⟩ := bracketOpening_after r.rest
      obtain ⟨v, hv, hinside⟩ := hbracket.after inBracket
      have hrest : (bracketOpening r.rest).2 = v ++ r'.rest := hv
      refine ⟨w ++ v, ?_, ?_⟩
      · rw [List.append_assoc, ← hrest]
        exact hw
      · rw [Position.after_append, hopening, hinside]
    refine ⟨hbracket.eq, hafter, (tame_bracket r.rest).trans hbracket.tame_eq,
      fun v outer => (calm_bracket v outer r.rest).trans (hbracket.calm_eq v outer), set,
      by rw [hbracket.eq]; rfl, fun offset tail s hcaret hclose => ?_⟩
    obtain ⟨inBracket, hopen⟩ := bracketOpening_run hcaret hclose offset r.rest
    have hrest :
        bracketOpening (s.withRest (Position.run offset (.plain true) r.rest ++ tail)).rest = _ :=
      hopen
    have hrounds : (bracketOpening r.rest).2.length + 1 ≤
        (Position.run offset (.plain inBracket) (bracketOpening r.rest).2 ++ tail).length + 1 := by
      have hlength := Position.length_le_length_plain offset (bracketOpening r.rest).2 inBracket
      rw [List.length_append]
      omega
    rw [bracket_eq, hrest]
    refine (parser_bind_of_ok (hbracket.run offset tail inBracket _ hrounds s)).trans ?_
    rw [hread]
    rfl

/-! ## References -/

/-- A number is read back from its digits. -/
theorem decimal?_toDigits {n : Nat} {cs : List Char}
    (hcs : ∀ d ∈ cs.head?, isAsciiDigit d = false) :
    decimal? (Nat.toDigits 10 n ++ cs) =
      if 18446744073709551616 ≤ n then none else some (n, cs) := by
  have htake := takeWhile_append_of_head? (isAsciiDigit_of_mem_toDigits (n := n)) hcs
  have hdrop := dropWhile_append_of_head? (isAsciiDigit_of_mem_toDigits (n := n)) hcs
  have hvalue : decimalValue (Nat.toDigits 10 n) = n := Nat.ofDigitChars_ten_toDigits
  have hne : (Nat.toDigits 10 n).isEmpty = false := by
    simp [Nat.toDigits_ne_nil]
  simp only [decimal?, htake, hdrop, hvalue, hne, Bool.false_or, decide_eq_true_eq]

/-- Outside brackets, the number of a reference is raised. -/
theorem raised_of_decimal? {offset n : Nat} {d : Char} {cs rest : List Char}
    (hlead : Position.isLeading d = true) (hn : decimal? (d :: cs) = some (n, rest)) :
    raised offset ('\\' :: d :: cs) = Position.reference (n + offset) ++ raised offset rest := by
  obtain ⟨hsplit, hvalue, -, hhead⟩ := of_decimal?_eq_some hn
  rw [List.takeWhile_cons_of_pos (Position.isAsciiDigit_of_isLeading hlead)] at hsplit hvalue
  have hdigits : ∀ e ∈ cs.takeWhile isAsciiDigit, isAsciiDigit e = true :=
    fun e he => List.mem_takeWhile_imp he
  rw [hsplit, hvalue, List.cons_append, Rule.raised_reference hlead hdigits hhead]

section Escape

variable {r : Reading} {c : Char} {rest : List Char}

theorem escape_digit (hr : r.rest = c :: rest) (hc : isAsciiDigit c = true) :
    escape r = (decimal? (c :: rest)).elim (.error .unknownGroup) fun x =>
      .ok (.ref x.1 r.flags.ignoreCase, { r with rest := x.2, numbered := true }) := by
  unfold escape
  rw [bind_remaining, hr]
  simp only [hc, if_true]
  cases decimal? (c :: rest) <;> rfl

/-- The escapes that are neither references nor wrong. -/
def plainEscape (c : Char) : Parser Expr :=
  match assertionEscape? c with
  | some e => return e
  | none => commonEscape c

theorem plainEscape_framed {r r' : Reading} {e : Expr} (h : plainEscape c r = .ok (e, r')) :
    ∃ v, Framed (plainEscape c) r r' v ∧ v r.flags.ignoreCase = e ∧
      (assertionEscape? c = some e ∧ v = (fun _ => e) ∨ IsSingle v) := by
  cases ha : assertionEscape? c with
  | some e' =>
    have heq (s : Reading) : plainEscape c s = .ok (e', s) := by
      rw [plainEscape, ha]
      rfl
    rw [heq] at h
    cases h
    exact ⟨fun _ => e, .pure r heq, rfl, .inl ⟨rfl, rfl⟩⟩
  | none =>
    have heq : plainEscape c = commonEscape c := by rw [plainEscape, ha]
    rw [heq] at h ⊢
    obtain ⟨v, hframed, hv, hsingle⟩ := commonEscape_framed h
    exact ⟨v, hframed, hv, .inr hsingle⟩

theorem escape_brace (hr : r.rest = 'b' :: '\x7b' :: rest) : escape r = .error .invalidEscape := by
  unfold escape
  rw [bind_remaining, hr]
  rfl

/-- The name in a reference stands between angle brackets or quotes. -/
def nameCloser? (opener : Char) : Option Char :=
  if opener = '<' then some '>' else if opener = '\'' then some '\'' else none

theorem escape_named {opener close : Char} (hclose : nameCloser? opener = some close)
    (hr : r.rest = 'k' :: opener :: rest) : escape r = namedReference close (r.withRest rest) := by
  unfold escape
  rw [bind_remaining, hr]
  unfold nameCloser? at hclose
  split_ifs at hclose with hangle hquote
  · subst hangle
    cases hclose
    rfl
  · subst hquote
    cases hclose
    rfl

theorem escape_unnamed (hr : r.rest = 'k' :: rest)
    (hrest : ∀ opener ∈ rest.head?, nameCloser? opener = none) :
    escape r = .error .invalidName := by
  unfold escape
  rw [bind_remaining, hr]
  cases rest with
  | nil => rfl
  | cons opener rest =>
    have hnone := hrest opener rfl
    unfold nameCloser? at hnone
    split_ifs at hnone with hangle hquote
    have hdigit : isAsciiDigit 'k' = false := by decide
    simp [hdigit, bind_continueAt, hangle, hquote, throw_apply]

theorem escape_other (hr : r.rest = c :: rest) (hc : isAsciiDigit c = false) (hname : c ≠ 'k')
    (hbrace : c = 'b' → rest.head? ≠ some '\x7b') :
    escape r = plainEscape c (r.withRest rest) := by
  unfold escape
  rw [bind_remaining, hr]
  simp only [hc, Bool.false_eq_true, if_false, bind_continueAt]
  split
  · exact absurd rfl hname
  · exact absurd rfl hname
  · exact absurd rfl hname
  · exact absurd rfl (hbrace rfl)
  · rfl

end Escape

end ModeStack.Regex
