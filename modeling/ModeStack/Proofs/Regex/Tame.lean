import ModeStack.Proofs.Regex.Context

/-!
# Patterns that can be moved

A text means the same inside a longer pattern only if nothing in it counts groups from elsewhere,
sets flags for what follows, or asks where the search started. `tame` reads this off the text: it
scans the text as it is written, brackets included, and refuses comments, flags, `\G`, `\K`, and
references by number other than `\N`. References by name may stay: a name means the group that got
it last, and this is one of the pattern's own.

The rest of the module says how a text looks in a context (`Context.put`).
-/

namespace ModeStack.Regex

open ModeStack.Text
open ModeStack.Rule (Position raised isOrdinary isOrdinary_iff)

/-! ## Tame texts -/

/-- Whether a text begins with a name that is not a number. -/
def isNamed (cs : List Char) : Bool := !(cs.takeWhile isNameChar).all isAsciiDigit

/-- Whether what stands after `(?` opens a group that sets no flags, or refers to one by name. -/
def opensPlainly : List Char → Bool
  | 'P' :: '<' :: _ => true
  | 'P' :: '=' :: cs => isNamed cs
  | c :: _ => c = ':' || c = '=' || c = '!' || c = '>' || c = '<' || c = '\''
  | [] => false

/-- Whether a text contains no comments, no flags, no `\G` or `\K`, and no references by number
except `\N`, where N has no leading zero. `inside` tells how many brackets are open inside a
bracket, in which none of these mean anything. -/
def tame : (inside : Option Nat) → List Char → Bool
  | none, '\\' :: c :: cs =>
    c ≠ 'G' && c ≠ 'K' && c ≠ '0' && (c ≠ 'k' || isNamed cs.tail) && tame none cs
  | none, '[' :: '^' :: ']' :: cs => tame (some 0) cs
  | none, '[' :: ']' :: cs => tame (some 0) cs
  | none, '[' :: cs => tame (some 0) cs
  | none, '(' :: '?' :: cs => opensPlainly cs && tame none cs
  | some opened, '\\' :: _ :: cs => tame (some opened) cs
  | some opened, '[' :: cs => tame (some (opened + 1)) cs
  | some 0, ']' :: cs => tame none cs
  | some (opened + 1), ']' :: cs => tame (some opened) cs
  | inside, _ :: cs => tame inside cs
  | _, [] => true

variable {c : Char} {cs : List Char}

section Scan

attribute [local simp] tame

theorem tame_cons (hc : isOrdinary c = true) (inside : Option Nat) :
    tame inside (c :: cs) = tame inside cs := by
  obtain ⟨h₁, h₂, h₃, h₄⟩ := isOrdinary_iff.1 hc
  cases inside with
  | none => simp [h₁, h₂, h₄]
  | some opened => cases opened <;> simp [h₁, h₂, h₃]

theorem tame_append {w : List Char} (hw : ∀ c ∈ w, isOrdinary c = true) (inside : Option Nat) :
    tame inside (w ++ cs) = tame inside cs := by
  induction w with
  | nil => rfl
  | cons c w ih =>
    rw [List.cons_append, tame_cons (hw c List.mem_cons_self),
      ih fun d hd => hw d (List.mem_cons_of_mem _ hd)]

theorem tame_close : tame none (']' :: cs) = tame none cs := by
  simp

theorem tame_open (h : cs.head? ≠ some '?') : tame none ('(' :: cs) = tame none cs := by
  cases cs with
  | nil => simp
  | cons d cs =>
    have hd : d ≠ '?' := fun hd => h (by rw [hd]; rfl)
    simp [hd]

theorem tame_open_question :
    tame none ('(' :: '?' :: cs) = (opensPlainly cs && tame none cs) := by
  simp

theorem tame_escape :
    tame none ('\\' :: c :: cs) =
      (c ≠ 'G' && c ≠ 'K' && c ≠ '0' && (c ≠ 'k' || isNamed cs.tail) && tame none cs) := by
  simp

end Scan

/-! ## Texts in a context -/

/-- What comes next in a text that is followed by a parenthesis. -/
def next (cs : List Char) : Char := cs.head?.getD ')'

theorem exists_of_next {cs : List Char} {c : Char} (h : next cs = c) (hc : c ≠ ')') :
    ∃ rest, cs = c :: rest := by
  cases cs with
  | nil => exact absurd h.symm hc
  | cons d cs => exact ⟨cs, congrArg (· :: cs) h⟩

namespace Context

/-- What a text reads as in a context, outside brackets or inside. -/
def put (c : Context) (inBracket : Bool) (cs : List Char) : List Char :=
  Position.run c.offset (.plain inBracket) cs ++ c.tail

variable {ctx : Context} {inBracket : Bool}

theorem rest_place (r : Reading) : (ctx.place r).rest = ctx.put false r.rest := rfl

theorem put_nil : ctx.put inBracket [] = ')' :: ctx.after := rfl

theorem put_ordinary (hc : isOrdinary c = true) :
    ctx.put inBracket (c :: cs) = c :: ctx.put inBracket cs := by
  rw [put, Position.run_ordinary hc]
  rfl

theorem put_append {w : List Char} (hw : ∀ c ∈ w, isOrdinary c = true) :
    ctx.put inBracket (w ++ cs) = w ++ ctx.put inBracket cs := by
  rw [put, Position.run_append_of_ordinary hw, List.append_assoc, put]

theorem put_cons_of_ne (hc : c ≠ '\\') :
    ctx.put inBracket (c :: cs) = c :: ctx.put (Position.bracketAfter inBracket c) cs := by
  rw [put, Position.run_cons hc]
  rfl

theorem put_escape (hc : inBracket = true ∨ Position.isLeading c = false) :
    ctx.put inBracket ('\\' :: c :: cs) = '\\' :: c :: ctx.put inBracket cs := by
  rw [put, Position.run_escape hc]
  rfl

theorem put_cons (hc : c ≠ '\\') (hopen : c ≠ '[') :
    ctx.put false (c :: cs) = c :: ctx.put false cs := by
  rw [put, ← raised, Rule.raised_cons hc hopen]
  rfl

/-- The first character is the same in every context; a text that has been read is followed by a
parenthesis. -/
theorem head?_put : (ctx.put inBracket cs).head? = some (cs.head?.getD ')') := by
  rw [put, List.head?_append, Position.head?_run]
  cases cs.head? <;> rfl

theorem length_le_length_put : cs.length ≤ (ctx.put inBracket cs).length := by
  rw [put, List.length_append]
  exact (Position.length_le_length_plain ctx.offset cs inBracket).trans (Nat.le_add_right _ _)

/-- Characters of a kind end where they end in the text, if they mean the same everywhere. -/
theorem takeWhile_put (ctx : Context) (inBracket : Bool) (cs : List Char) {p : Char → Bool}
    (hp : ∀ c, p c = true → isOrdinary c = true) (hclose : p ')' = false) :
    (ctx.put inBracket cs).takeWhile p = cs.takeWhile p ∧
      (ctx.put inBracket cs).dropWhile p = ctx.put inBracket (cs.dropWhile p) := by
  induction cs with
  | nil => simp [put_nil, hclose]
  | cons c cs ih =>
    cases hc : p c with
    | true => simp [put_ordinary (hp c hc), hc, ih]
    | false =>
      have hhead : (ctx.put inBracket (c :: cs)).head? = some c := head?_put
      obtain ⟨rest, hrest⟩ : ∃ rest, ctx.put inBracket (c :: cs) = c :: rest :=
        List.head?_eq_some_iff.1 hhead
      simp [hrest, hc]

/-- What stands at the front in a context and is neither changed nor behind the text, stands at
the front of the text. -/
theorem prefix_of_prefix_put {w : List Char}
    (hw : ∀ c ∈ w, c ≠ '\\' ∧ c ≠ '[' ∧ c ≠ ')') (h : w <+: ctx.put false cs) : w <+: cs := by
  induction w generalizing cs with
  | nil => exact List.nil_prefix
  | cons c w ih =>
    obtain ⟨h₁, h₂, h₃⟩ := hw c List.mem_cons_self
    have hhead : (ctx.put false cs).head? = some c := by
      obtain ⟨rest, hrest⟩ := h
      rw [← hrest]
      rfl
    rw [head?_put] at hhead
    cases cs with
    | nil => exact absurd (Option.some.inj hhead).symm h₃
    | cons d cs =>
      obtain rfl : d = c := Option.some.inj hhead
      rw [put_cons h₁ h₂, List.cons_prefix_cons] at h
      exact List.cons_prefix_cons.2 ⟨rfl, ih (fun e he => hw e (List.mem_cons_of_mem _ he)) h.2⟩

end Context

theorem next_put (c : Context) (inBracket : Bool) (cs : List Char) :
    next (c.put inBracket cs) = next cs := by
  rw [next, Context.head?_put]
  rfl

end ModeStack.Regex
