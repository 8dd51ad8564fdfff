import ModeStack.Proofs.Regex.Calm

/-!
# Numbers, bounds and names

Repetitions and names are read from quiet characters alone, so they are read in the same way
wherever they stand. `Portable` says this of a function on texts; it is kept by the ways in which
such functions are put together, and turned into `Sim` by `sim_of_portable`.
-/

namespace ModeStack.Regex

open ModeStack.Text
open ModeStack.Rule (Position raised isOrdinary isOrdinary_iff)

variable {c : Char} {cs : List Char} {ctx : Context}

/-! ## Numbers and bounds -/

/-- The second text is what is left of the first after quiet characters. -/
def Past (cs rest : List Char) : Prop := ∃ w, (∀ c ∈ w, isQuiet c = true) ∧ cs = w ++ rest

namespace Past

variable {rest rest' : List Char} {v : Bool} {outer : List (Option Bool)}

theorem refl : Past cs cs := ⟨[], by simp, rfl⟩

theorem cons (hc : isQuiet c = true) : Past (c :: cs) cs := ⟨[c], by simpa using hc, rfl⟩

theorem trans (h₁ : Past cs rest) (h₂ : Past rest rest') : Past cs rest' := by
  obtain ⟨w₁, hw₁, rfl⟩ := h₁
  obtain ⟨w₂, hw₂, rfl⟩ := h₂
  refine ⟨w₁ ++ w₂, fun c hc => ?_, (List.append_assoc ..).symm⟩
  rcases List.mem_append.1 hc with hc | hc
  · exact hw₁ c hc
  · exact hw₂ c hc

theorem dropWhile {p : Char → Bool} (hp : ∀ c, p c = true → isQuiet c = true)
    (cs : List Char) : Past cs (cs.dropWhile p) :=
  ⟨cs.takeWhile p, fun c hc => hp c (List.mem_takeWhile_imp hc),
    List.takeWhile_append_dropWhile.symm⟩

theorem calm (h : Past cs rest) :
    Regex.calm .outside v outer cs = Regex.calm .outside v outer rest := by
  obtain ⟨w, hw, rfl⟩ := h
  exact calm_append hw

theorem tame (h : Past cs rest) (inside : Option Nat) :
    Regex.tame inside cs = Regex.tame inside rest := by
  obtain ⟨w, hw, rfl⟩ := h
  exact tame_append (fun c hc => isOrdinary_of_isQuiet (hw c hc)) inside

theorem length_le (h : Past cs rest) : rest.length ≤ cs.length := by
  obtain ⟨w, -, rfl⟩ := h
  simp

theorem advances {r : Reading} (h : Past r.rest rest) (hr : Alone outer r) :
    Advances outer r (r.withRest rest) := by
  obtain ⟨w, hw, hrest⟩ := h
  exact hr.advances hw hrest

end Past

/-- From a calm text, the same is read in every context, over quiet characters. -/
def Portable {α : Type} (v : Bool) (f : List Char → Option (α × List Char)) : Prop :=
  ∀ outer cs, calm .outside v outer cs = true →
    (∀ ctx : Context, f (ctx.put false cs) =
      (f cs).map (Prod.map id (ctx.put false))) ∧
    ∀ a rest, f cs = some (a, rest) → Past cs rest

/-- Reads something that need not be there. -/
def optionally {α : Type} (f : List Char → Option (α × List Char)) (cs : List Char) :
    Option (Option α × List Char) :=
  match f cs with
  | some (a, rest) => some (some a, rest)
  | none => some (none, cs)

namespace Portable

variable {α β : Type} {v : Bool} {f g : List Char → Option (α × List Char)}

theorem some (a : α) : Portable v fun cs => some (a, cs) := by
  refine fun _ cs _ => ⟨fun ctx => rfl, fun b rest h => ?_⟩
  cases h
  exact .refl

theorem none : Portable v fun _ => (none : Option (α × List Char)) :=
  fun _ _ _ => ⟨fun _ => rfl, fun _ _ h => by cases h⟩

theorem bind {g : α → List Char → Option (β × List Char)} (hf : Portable v f)
    (hg : ∀ a, Portable v (g a)) : Portable v fun cs => (f cs).bind fun x => g x.1 x.2 := by
  intro outer cs hcalm
  obtain ⟨hput, hpast⟩ := hf outer cs hcalm
  cases hfcs : f cs with
  | none =>
    exact ⟨fun ctx => by simp [hput, hfcs], fun b rest h => by simp [hfcs] at h⟩
  | some x =>
    obtain ⟨a, rest⟩ := x
    have hrest := hpast a rest hfcs
    obtain ⟨hput', hpast'⟩ := hg a outer rest (by rw [← hrest.calm]; exact hcalm)
    refine ⟨fun ctx => by simp [hput, hfcs, hput'], fun b rest' h => ?_⟩
    simp only [hfcs, Option.bind_some] at h
    exact hrest.trans (hpast' b rest' h)

/-- What is read depends on the character that comes next, which must be a quiet one. -/
theorem head {f : Char → List Char → Option (α × List Char)}
    (hf : ∀ c, (∀ rest, f c rest = Option.none) ∨ isQuiet c = true ∧ Portable v (f c)) :
    Portable v fun cs => match cs with
      | c :: rest => f c rest
      | [] => Option.none := by
  intro outer cs hcalm
  cases cs with
  | nil =>
    refine ⟨fun ctx => ?_, fun a rest h => by cases h⟩
    rcases hf ')' with hnone | ⟨hquiet, -⟩
    · exact hnone _
    · cases hquiet
  | cons c cs =>
    rcases hf c with hnone | ⟨hc, hport⟩
    · refine ⟨fun ctx => ?_, fun a rest h => by simp [hnone] at h⟩
      obtain ⟨rest, hrest⟩ : ∃ rest, ctx.put false (c :: cs) = c :: rest :=
        List.head?_eq_some_iff.1 Context.head?_put
      simp [hrest, hnone]
    · rw [calm_quiet hc] at hcalm
      obtain ⟨hput, hpast⟩ := hport outer cs hcalm
      refine ⟨fun ctx => ?_, fun a rest h => (Past.cons hc).trans (hpast a rest h)⟩
      simp only [Context.put_ordinary (isOrdinary_of_isQuiet hc), hput]

theorem optionally (hf : Portable v f) : Portable v (optionally f) := by
  intro outer cs hcalm
  obtain ⟨hput, hpast⟩ := hf outer cs hcalm
  cases hcs : f cs with
  | none =>
    refine ⟨fun ctx => by simp [Regex.optionally, hput, hcs], fun a rest h => ?_⟩
    simp only [Regex.optionally, hcs] at h
    cases h
    exact .refl
  | some x =>
    refine ⟨fun ctx => by simp [Regex.optionally, hput, hcs], fun a rest h => ?_⟩
    simp only [Regex.optionally, hcs] at h
    cases h
    exact hpast _ _ hcs

end Portable

theorem isQuiet_of_isAsciiDigit : ∀ c, isAsciiDigit c = true → isQuiet c = true :=
  isQuiet_of (by decide)

theorem isOrdinary_of_isAsciiDigit : ∀ c, isAsciiDigit c = true → isOrdinary c = true :=
  isOrdinary_of (by decide)

theorem decimal?_put (inBracket : Bool) (cs : List Char) :
    decimal? (ctx.put inBracket cs) = (decimal? cs).map (Prod.map id (ctx.put inBracket)) := by
  obtain ⟨htake, hdrop⟩ :=
    ctx.takeWhile_put inBracket cs isOrdinary_of_isAsciiDigit (by decide)
  simp only [decimal?, htake, hdrop]
  split_ifs <;> rfl

theorem of_decimal?_eq_some {n : Nat} {rest : List Char} (h : decimal? cs = some (n, rest)) :
    cs = cs.takeWhile isAsciiDigit ++ rest ∧ n = decimalValue (cs.takeWhile isAsciiDigit) ∧
      cs.takeWhile isAsciiDigit ≠ [] ∧ ∀ d ∈ rest.head?, isAsciiDigit d = false := by
  simp only [decimal?] at h
  split_ifs at h with hd
  simp only [Option.some.injEq, Prod.mk.injEq] at h
  obtain ⟨rfl, rfl⟩ := h
  simp only [Bool.or_eq_true, List.isEmpty_iff, decide_eq_true_eq, not_or] at hd
  refine ⟨List.takeWhile_append_dropWhile.symm, rfl, hd.1, fun d hd => ?_⟩
  have hhead := List.head?_dropWhile_not isAsciiDigit cs
  rw [hd] at hhead
  exact hhead

theorem portable_decimal? (v : Bool) : Portable v decimal? := by
  refine fun _ cs _ => ⟨fun ctx => decimal?_put false cs, fun n rest h => ?_⟩
  exact ⟨_, fun d hd => isQuiet_of_isAsciiDigit d (List.mem_takeWhile_imp hd),
    (of_decimal?_eq_some h).1⟩

/-- The gap before something in braces. -/
def gap (v : Bool) (cs : List Char) : Option (Unit × List Char) :=
  (skipped v .space cs).toOption.map fun rest => ((), rest)

theorem portable_gap (v : Bool) : Portable v (gap v) := by
  intro outer cs hcalm
  have hclear := uncommented_of_calm hcalm
  have htext : gap v cs = some ((), afterGap v cs) := by
    simp [gap, skipped_of_uncommented hclear, Except.toOption]
  refine ⟨fun ctx => ?_, fun a rest h => ?_⟩
  · have hput : Uncommented v (afterGap v (ctx.put false cs)) := by
      rw [afterGap_put]
      exact hclear.put
    rw [htext, gap, skipped_of_uncommented hput, afterGap_put]
    rfl
  · rw [htext] at h
    cases h
    obtain ⟨w, hw, hcs⟩ := exists_gap v cs
    exact ⟨w, fun c hc => isQuiet_of_isGap c (Bool.and_eq_true_iff.1 (hw c hc)).2, hcs⟩

/-- The end of the bounds of a repetition. -/
def closeBounds? (b : Bounds) (cs : List Char) : Option (Bounds × List Char) :=
  match cs with
  | '\x7d' :: rest => some (b, rest)
  | _ => none

/-- The upper bound of a repetition, after the comma. -/
def upperBound? (v : Bool) (lo : Nat) (cs : List Char) : Option (Bounds × List Char) :=
  (gap v cs).bind fun x => (optionally decimal? x.2).bind fun y => (gap v y.2).bind fun z =>
    closeBounds? ⟨lo, y.1⟩ z.2

/-- What follows the lower bound of a repetition. -/
def afterLower? (v : Bool) (lo : Nat) (cs : List Char) : Option (Bounds × List Char) :=
  match cs with
  | '\x7d' :: rest => some (⟨lo, some lo⟩, rest)
  | ',' :: rest => upperBound? v lo rest
  | _ => none

/-- The lower bound of a repetition. -/
def lowerBound? (cs : List Char) : Option (Nat × List Char) :=
  match cs with
  | ',' :: _ => some (0, cs)
  | _ => decimal? cs

theorem upperBound?_eq (v : Bool) (lo : Nat) (cs : List Char) : upperBound? v lo cs = (do
    let rest ← (skipped v .space cs).toOption
    let (hi, rest) := match decimal? rest with
      | some (hi, rest) => (some hi, rest)
      | none => (none, rest)
    match ← (skipped v .space rest).toOption with
    | '\x7d' :: rest => some (⟨lo, hi⟩, rest)
    | _ => none) := by
  simp only [upperBound?, gap, Option.bind_map, Function.comp_def, Option.bind_eq_bind]
  congr 1
  funext rest
  simp only [optionally]
  cases decimal? rest <;> rfl

theorem lowerBound?_of_head?_ne (h : cs.head? ≠ some ',') : lowerBound? cs = decimal? cs := by
  unfold lowerBound?
  split
  · exact absurd rfl h
  · rfl

/-- The bounds of a repetition are read one after the other. -/
theorem bounds?_eq (v : Bool) (cs : List Char) : bounds? v cs =
    (gap v cs).bind fun x => (lowerBound? x.2).bind fun y => (gap v y.2).bind fun z =>
      afterLower? v y.1 z.2 := by
  simp only [bounds?, gap, afterLower?, upperBound?_eq, Option.bind_map, Function.comp_def,
    Option.bind_eq_bind]
  congr 1
  funext rest
  by_cases hcomma : rest.head? = some ','
  · obtain ⟨tail, rfl⟩ := List.head?_eq_some_iff.1 hcomma
    rfl
  · rw [lowerBound?_of_head?_ne hcomma]
    split
    · exact absurd rfl hcomma
    · rfl

theorem portable_lowerBound? (v : Bool) : Portable v lowerBound? := by
  intro outer cs hcalm
  by_cases hcomma : cs.head? = some ','
  · obtain ⟨rest, rfl⟩ := List.head?_eq_some_iff.1 hcomma
    refine ⟨fun ctx => ?_, fun a rest' h => ?_⟩
    · have hput : ctx.put false (',' :: rest) = ',' :: ctx.put false rest :=
        Context.put_ordinary (by decide)
      simp only [lowerBound?, hput, Option.map_some, Prod.map_apply, id]
    · cases h
      exact .refl
  · rw [lowerBound?_of_head?_ne hcomma]
    refine ⟨fun ctx => ?_, (portable_decimal? v outer cs hcalm).2⟩
    rw [lowerBound?_of_head?_ne ?_]
    · exact decimal?_put false cs
    · rw [Context.head?_put]
      cases cs with
      | nil => decide
      | cons d cs => exact hcomma

/-- What closes the bounds is told by the next character. -/
theorem closeBounds?_eq (b : Bounds) : closeBounds? b = fun cs => match cs with
    | c :: rest => if c = '\x7d' then some (b, rest) else none
    | [] => none := by
  funext cs
  unfold closeBounds?
  split
  · rfl
  · rename_i hne
    cases cs with
    | nil => rfl
    | cons c cs => exact (if_neg fun hc => hne cs (by rw [hc])).symm

theorem portable_closeBounds? (v : Bool) (b : Bounds) : Portable v (closeBounds? b) := by
  rw [closeBounds?_eq]
  refine .head fun c => ?_
  by_cases hc : c = '\x7d'
  · subst hc
    exact .inr ⟨by decide, .some b⟩
  · exact .inl fun rest => if_neg hc

theorem portable_upperBound? (v : Bool) (lo : Nat) : Portable v (upperBound? v lo) :=
  (portable_gap v).bind fun _ => (portable_decimal? v).optionally.bind fun hi =>
    (portable_gap v).bind fun _ => portable_closeBounds? v ⟨lo, hi⟩

/-- What follows the lower bound is told by the next character. -/
theorem afterLower?_eq (v : Bool) (lo : Nat) : afterLower? v lo = fun cs => match cs with
    | c :: rest =>
      if c = '\x7d' then some (⟨lo, some lo⟩, rest)
      else if c = ',' then upperBound? v lo rest else none
    | [] => none := by
  funext cs
  unfold afterLower?
  split
  · rfl
  · rfl
  · rename_i hbrace hcomma
    cases cs with
    | nil => rfl
    | cons c cs =>
      have hc : c ≠ '\x7d' := fun hc => hbrace cs (by rw [hc])
      have hc' : c ≠ ',' := fun hc => hcomma cs (by rw [hc])
      simp [hc, hc']

theorem portable_afterLower? (v : Bool) (lo : Nat) : Portable v (afterLower? v lo) := by
  rw [afterLower?_eq]
  refine .head fun c => ?_
  by_cases hc : c = '\x7d'
  · subst hc
    exact .inr ⟨by decide, .some _⟩
  · by_cases hc' : c = ','
    · subst hc'
      exact .inr ⟨by decide, portable_upperBound? v lo⟩
    · exact .inl fun rest => by simp [hc, hc']

/-- The bounds of a repetition are read in the same way in every context. -/
theorem portable_bounds? (v : Bool) : Portable v (bounds? v) := by
  have heq := funext (bounds?_eq v)
  rw [heq]
  exact (portable_gap v).bind fun _ => (portable_lowerBound? v).bind fun lo =>
    (portable_gap v).bind fun _ => portable_afterLower? v lo

/-- A parser that reads something in the same way in every context. -/
theorem sim_of_portable {α : Type} {f : Bool → List Char → Option (α × List Char)}
    (hf : ∀ v, Portable v (f v)) {p : Parser α} {e : SyntaxError}
    (hp : ∀ r : Reading,
      p r = (f r.flags.verbose r.rest).elim (.error e) fun x => .ok (x.1, r.withRest x.2))
    {outer : List (Option Bool)} {r : Reading} (hr : Alone outer r) :
    Sim p (fun _ => p) r fun a r' v => Advances outer r r' ∧ v = fun _ => a := by
  refine .of_ok fun b r' ha => ⟨fun _ => b, ?_⟩
  obtain ⟨hput, hpast⟩ := hf r.flags.verbose outer r.rest hr
  rw [hp r] at ha
  cases hcs : f r.flags.verbose r.rest with
  | none => simp [hcs] at ha
  | some x =>
    obtain ⟨a, rest⟩ := x
    simp only [hcs, Option.elim] at ha
    cases ha
    refine ⟨fun ctx => ?_, (hpast _ rest hcs).advances hr, rfl⟩
    have hverbose : (ctx.place r).flags.verbose = r.flags.verbose := rfl
    rw [hp, hverbose, Context.rest_place, hput, hcs]
    rfl

/-- A repetition sign and what it means. -/
def sign? (v : Bool) (cs : List Char) : Option (Bounds × List Char) :=
  match cs with
  | '?' :: rest => some (⟨0, some 1⟩, rest)
  | '*' :: rest => some (⟨0, none⟩, rest)
  | '+' :: rest => some (⟨1, none⟩, rest)
  | '\x7b' :: rest => bounds? v rest
  | _ => none

/-- A repetition sign is told by the next character. -/
theorem sign?_eq (v : Bool) : sign? v = fun cs => match cs with
    | c :: rest =>
      if c = '?' then some (⟨0, some 1⟩, rest)
      else if c = '*' then some (⟨0, none⟩, rest)
      else if c = '+' then some (⟨1, none⟩, rest)
      else if c = '\x7b' then bounds? v rest else none
    | [] => none := by
  funext cs
  cases cs with
  | nil => rfl
  | cons c cs =>
    unfold sign?
    split <;> simp_all

theorem portable_sign? (v : Bool) : Portable v (sign? v) := by
  rw [sign?_eq]
  refine .head fun c => ?_
  by_cases h₁ : c = '?'
  · subst h₁
    exact .inr ⟨by decide, .some _⟩
  by_cases h₂ : c = '*'
  · subst h₂
    exact .inr ⟨by decide, .some _⟩
  by_cases h₃ : c = '+'
  · subst h₃
    exact .inr ⟨by decide, .some _⟩
  by_cases h₄ : c = '\x7b'
  · subst h₄
    exact .inr ⟨by decide, portable_bounds? v⟩
  · exact .inl fun rest => by simp [h₁, h₂, h₃, h₄]

theorem repetition?_eq (r : Reading) :
    repetition? r = (optionally (sign? r.flags.verbose) r.rest).elim (.error .nothingToRepeat)
      fun x => .ok (x.1, r.withRest x.2) := by
  unfold repetition?
  rw [bind_get]
  generalize hrest : r.rest = cs
  split
  · rfl
  · rfl
  · rfl
  · rename_i rest
    simp only [optionally, sign?]
    cases hb : bounds? r.flags.verbose rest with
    | none => simp [pure_apply, ← hrest, Reading.withRest]
    | some x => rfl
  · have hnone : sign? r.flags.verbose cs = none := by
      unfold sign?
      split <;> simp_all
    subst hrest
    simp [optionally, hnone, pure_apply, Reading.withRest]

theorem repetition?_sim {outer : List (Option Bool)} {r : Reading} (hr : Alone outer r) :
    Sim repetition? (fun _ => repetition?) r fun a r' v =>
      Advances outer r r' ∧ v = fun _ => a :=
  sim_of_portable (fun v => (portable_sign? v).optionally) repetition?_eq hr

/-! ## Names -/

/-- A name up to `close`, with what follows it. -/
def nameUpTo? (close : Char) (cs : List Char) : Option (String × List Char) :=
  let letters := cs.takeWhile isNameChar
  match cs.dropWhile isNameChar with
  | c :: rest =>
    if c = close && !letters.isEmpty then some (String.ofList letters, rest) else none
  | [] => none

theorem isOrdinary_of_isNameChar : ∀ c, isNameChar c = true → isOrdinary c = true :=
  isOrdinary_of (by decide)

section Name

variable {close : Char} {rest : List Char} {id : String}

theorem of_nameUpTo?_eq_some (h : nameUpTo? close cs = some (id, rest)) :
    id = String.ofList (cs.takeWhile isNameChar) ∧ (cs.takeWhile isNameChar).isEmpty = false ∧
      cs.dropWhile isNameChar = close :: rest := by
  simp only [nameUpTo?] at h
  cases hcs : cs.dropWhile isNameChar with
  | nil => simp [hcs] at h
  | cons c rest' =>
    rw [hcs] at h
    dsimp only at h
    split_ifs at h with hc
    simp only [Bool.and_eq_true, decide_eq_true_eq, Bool.not_eq_true'] at hc
    cases h
    exact ⟨rfl, hc.2, by rw [hc.1]⟩

/-- A name that is read alone is read in every context. -/
theorem nameUpTo?_put (hord : isOrdinary close = true) (h : nameUpTo? close cs = some (id, rest))
    (ctx : Context) : nameUpTo? close (ctx.put false cs) = some (id, ctx.put false rest) := by
  obtain ⟨rfl, hne, hdrop⟩ := of_nameUpTo?_eq_some h
  obtain ⟨htake, hput⟩ := ctx.takeWhile_put false cs isOrdinary_of_isNameChar (by decide)
  simp [nameUpTo?, htake, hput, hdrop, Context.put_ordinary hord, hne]

theorem name_eq (close : Char) (r : Reading) :
    name close r = (nameUpTo? close r.rest).elim (.error .invalidName)
      fun x => .ok (x.1, r.withRest x.2) := by
  unfold name
  rw [bind_remaining]
  simp only [nameUpTo?]
  cases r.rest.dropWhile isNameChar with
  | nil => rfl
  | cons c rest =>
    dsimp only
    split_ifs <;> rfl

theorem exists_of_name_eq_ok {r r' : Reading} (h : name close r = .ok (id, r')) :
    ∃ rest, nameUpTo? close r.rest = some (id, rest) ∧ r' = r.withRest rest := by
  rw [name_eq] at h
  cases hname : nameUpTo? close r.rest with
  | none => simp [hname] at h
  | some x =>
    simp only [hname, Option.elim] at h
    cases h
    exact ⟨x.2, rfl, rfl⟩

theorem isQuiet_of_isNameChar : ∀ c, isNameChar c = true → isQuiet c = true :=
  isQuiet_of (by decide)

/-- A name is read in every context, with the character that closes it, which may close a group
as well. -/
theorem name_sim {outer outer' : List (Option Bool)} {r : Reading}
    (hord : isOrdinary close = true)
    (hclose : ∀ cs, calm .outside r.flags.verbose outer (close :: cs) =
      calm .outside r.flags.verbose outer' cs) (hr : Alone outer r) :
    Sim (name close) (fun _ => name close) r fun id r' v =>
      (Advances outer' r r' ∧ r'.names = r.names ∧ r'.groups = r.groups) ∧ v = fun _ => id := by
  refine .of_ok fun id r' h => ⟨fun _ => id, ?_⟩
  obtain ⟨rest, hname, rfl⟩ := exists_of_name_eq_ok h
  have hletters : Past r.rest (close :: rest) := by
    rw [← (of_nameUpTo?_eq_some hname).2.2]
    exact .dropWhile isQuiet_of_isNameChar r.rest
  have hadvances := hletters.advances hr
  have hlast : Reaches (r.withRest (close :: rest)) (r.withRest rest) :=
    reaches_withRest (w := [close]) (by simpa using hord) rfl
  refine ⟨fun ctx => ?_, ⟨⟨hadvances.toReaches.trans hlast, ?_⟩, rfl, rfl⟩, rfl⟩
  · rw [name_eq, Context.rest_place, nameUpTo?_put hord hname]
    rfl
  · exact (hclose rest).symm.trans hadvances.alone

/-- A reference to the group that has got a name last. -/
def referTo (id : String) : Parser Expr := do
  let r ← get
  match r.names.lookup id with
  | some index => return .ref index r.flags.ignoreCase
  | none => throw .unknownName

/-- A name that is not a number is not read as one. -/
theorem decimal?_of_isNamed (h : isNamed cs = true) (n : Nat) :
    decimal? (cs.takeWhile isNameChar) ≠ some (n, []) := by
  intro hn
  have hsplit := (of_decimal?_eq_some hn).1
  rw [List.append_nil] at hsplit
  have hall : (cs.takeWhile isNameChar).all isAsciiDigit = true := by
    rw [hsplit]
    exact List.all_eq_true.2 fun d hd => List.mem_takeWhile_imp hd
  simp [isNamed, hall] at h

/-- A reference by a name that is not a number does not count groups. -/
theorem namedReference_of_isNamed {s : Reading} (h : isNamed s.rest = true) :
    namedReference close s = (name close >>= referTo) s := by
  have hsign : ∀ rest, s.rest ≠ '-' :: rest := by
    intro rest hrest
    have hdash : isNameChar '-' = false := by decide
    rw [hrest] at h
    simp [isNamed, hdash] at h
  have hnumber := decimal?_of_isNamed h
  cases hname : name close s with
  | error e =>
    rw [parser_bind_of_error hname, namedReference, bind_remaining]
    generalize s.rest = cs at hsign
    split
    · exact absurd rfl (hsign _)
    · rw [pure_bind]
      exact parser_bind_of_error hname
  | ok x =>
    obtain ⟨id, s'⟩ := x
    obtain ⟨rest, hup, -⟩ := exists_of_name_eq_ok hname
    have hid : id.toList = s.rest.takeWhile isNameChar := by
      rw [(of_nameUpTo?_eq_some hup).1]
      exact String.toList_ofList
    rw [← hid] at hnumber
    rw [parser_bind_of_ok hname, referTo, bind_get, namedReference, bind_remaining]
    generalize s.rest = cs at hsign
    split
    · exact absurd rfl (hsign _)
    rw [pure_bind]
    refine (parser_bind_of_ok hname).trans ?_
    rw [bind_get]
    cases s'.names.lookup id with
    | some index => rfl
    | none =>
      generalize decimal? id.toList = number at hnumber
      rcases number with _ | ⟨n, _ | ⟨d, ds⟩⟩
      · rfl
      · exact absurd rfl (hnumber n)
      · rfl

end Name

end ModeStack.Regex
