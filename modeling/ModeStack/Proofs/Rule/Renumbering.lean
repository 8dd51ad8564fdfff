import ModeStack.Pattern
import ModeStack.Proofs.Rule.Raised
import ModeStack.Rule.Alternation

/-!
# Renumbering twice

The renumbering machine can read what it has written. Where it reads its own output, it stands
inside brackets exactly where it stood when it wrote it, and every number that it raised by `a` is
raised by `b` again (`run_run`). Renumbering twice is therefore renumbering once by the sum
(`renumber_renumber`).

Patterns are renumbered twice when they are joined and the joined pattern is joined with others.
The machine then runs over the joined text without a new start for each part, so a part after
which it counts itself inside brackets (`opens`) keeps it from raising the references of the parts
behind. The brackets of a pattern are closed where it is read, but one in a comment need not be
(`commented_alternation`).

Main results: `renumber_renumber` and `renumber_alternation`.
-/

namespace ModeStack.Rule

open ModeStack.Text ModeStack.Regex

namespace Position

variable {a b offset value : Nat} {inBracket : Bool} {p : Position} {c : Char}
  {cs ds rest : List Char}

/-! ## Reading the output -/

/-- Whether the machine counts itself inside brackets. -/
def isInBracket : Position → Bool
  | plain inBracket => inBracket
  | escaped inBracket => inBracket
  | number _ => false

/-- The digits of a positive number begin like the number of a reference. -/
theorem exists_toDigits_eq_cons (hv : 0 < value) : ∃ d ds, Nat.toDigits 10 value = d :: ds ∧
    isLeading d = true ∧ ∀ e ∈ ds, isAsciiDigit e = true := by
  obtain ⟨d, ds, hds⟩ := List.exists_cons_of_ne_nil (Nat.toDigits_ne_nil (b := 10) (n := value))
  have hdigit : ∀ e ∈ d :: ds, isAsciiDigit e = true := hds ▸ isAsciiDigit_of_mem_toDigits
  refine ⟨d, ds, hds, isLeading_of_isAsciiDigit (hdigit d List.mem_cons_self) ?_, fun e he =>
    hdigit e (List.mem_cons_of_mem _ he)⟩
  intro hzero
  have hvalue := eq_zero_of_head?_toDigits (n := value) (by rw [hds, hzero]; rfl)
  omega

/-- A number that was written is raised again. -/
theorem run_reference (hv : 0 < value) (hcs : ∀ d ∈ cs.head?, isAsciiDigit d = false) :
    run offset (.plain false) (reference value ++ cs) =
      reference (value + offset) ++ run offset (.plain false) cs := by
  obtain ⟨d, ds, hds, hd, hdigit⟩ := exists_toDigits_eq_cons hv
  have hvalue : decimalValue (d :: ds) = value := by
    rw [← hds]
    exact Nat.ofDigitChars_ten_toDigits
  have hraised : raised offset ('\\' :: d :: (ds ++ cs)) =
      reference (decimalValue (d :: ds) + offset) ++ raised offset cs :=
    raised_reference hd hdigit hcs
  rw [hvalue] at hraised
  rw [reference, hds]
  exact hraised

/-- Reading what was written raises the same numbers again, and behind a closing parenthesis the
machine stands inside brackets as it did behind the text. -/
theorem run_run (hp : p.Valid) :
    run b (.plain p.isInBracket) (run a p cs ++ ')' :: rest) =
      run (a + b) p cs ++ ')' :: run b (.plain (p.after cs).isInBracket) rest := by
  induction cs generalizing p with
  | nil =>
    cases p with
    | plain inBracket => exact run_ordinary (by decide) inBracket
    | escaped inBracket => exact run_escape (.inr (by decide))
    | number value =>
      have hv : 0 < value + a := Nat.add_pos_left hp a
      show run b (.plain false) (reference (value + a) ++ ')' :: rest) = _
      rw [run_reference hv (by simp; decide), run_ordinary (by decide), Nat.add_assoc]
      rfl
  | cons c cs ih =>
    have hplain (inBracket : Bool) :
        run b (.plain inBracket) (run a (.plain inBracket) (c :: cs) ++ ')' :: rest) =
          run (a + b) (.plain inBracket) (c :: cs) ++
            ')' :: run b (.plain ((plain inBracket).after (c :: cs)).isInBracket) rest := by
      by_cases hc : c = '\\'
      · subst hc
        exact ih (p := .escaped inBracket) trivial
      · rw [run_cons hc, run_cons hc, List.cons_append, run_cons hc, after_plain_cons hc]
        exact congrArg (c :: ·) (ih (p := .plain _) trivial)
    cases p with
    | plain inBracket => exact hplain inBracket
    | escaped inBracket =>
      by_cases hc : inBracket = true ∨ isLeading c = false
      · rw [run, run, step_escaped_of_not_leading hc, step_escaped_of_not_leading hc,
          after_escaped_cons hc]
        exact (run_escape hc).trans (congrArg ('\\' :: c :: ·) (ih (p := .plain _) trivial))
      · obtain ⟨rfl, hlead⟩ : inBracket = false ∧ isLeading c = true := by simpa using hc
        rw [run, run, step_escaped_of_leading hlead, step_escaped_of_leading hlead, after_cons,
          step_escaped_of_leading hlead]
        exact ih (p := .number _) (digitValue_pos hlead)
    | number value =>
      by_cases hc : isAsciiDigit c = true
      · have hnext : 0 < 10 * value + digitValue c := by
          have hv : 0 < value := hp
          omega
        rw [run, run, step_number_of_digit hc, step_number_of_digit hc, after_cons,
          step_number_of_digit hc]
        exact ih (p := .number _) hnext
      · have hhead : ∀ d ∈ (c :: cs).head?, isAsciiDigit d = false := by
          intro d hd
          cases hd
          simpa using hc
        have hv : 0 < value + a := Nat.add_pos_left hp a
        rw [run_number_of_not_digit hhead, run_number_of_not_digit hhead,
          after_number_cons (hhead c rfl), List.append_assoc, List.append_assoc, ← hplain,
          ← Nat.add_assoc]
        refine run_reference hv ?_
        rw [List.head?_append, head?_run]
        exact hhead

end Position

/-! ## Renumbering twice -/

section Twice

variable {a b offset before : Nat} {cs rest : List Char} {parts : List Part}

/-- Whether the machine counts itself inside brackets behind a text. -/
def opens (cs : List Char) : Bool := ((Position.plain false).after cs).isInBracket

/-- What follows a raised text is read from where the machine stood behind the text. -/
theorem raised_raised_close (a b : Nat) (cs rest : List Char) :
    raised b (raised a cs ++ ')' :: rest) =
      raised (a + b) cs ++ ')' :: Position.run b (.plain (opens cs)) rest :=
  Position.run_run (p := .plain false) trivial

theorem raised_close :
    raised offset (cs ++ ')' :: rest) =
      raised offset cs ++ ')' :: Position.run offset (.plain (opens cs)) rest := by
  have h := raised_raised_close 0 offset cs rest
  rwa [raised_zero, Nat.zero_add] at h

theorem raised_raised : raised b (raised a cs) = raised (a + b) cs := by
  have htwice := raised_raised_close a b cs []
  rw [raised_close] at htwice
  exact (List.append_inj' htwice rfl).1

theorem renumber_zero (source : String) : renumber source 0 = source := rfl

theorem renumber_renumber (source : String) (a b : Nat) :
    renumber (renumber source a) b = renumber source (a + b) := by
  rw [← String.toList_inj, renumber_eq_raised, renumber_eq_raised, renumber_eq_raised,
    raised_raised]

/-! ## Joined patterns -/

/-- The joined text of parts, each renumbered at once by the number of groups before it. -/
def joinedAfter (before : Nat) (parts : List Part) : String :=
  String.intercalate "|" (parts.mapIdx fun i part =>
    "(?:" ++ renumber part.source (before + groupCount (parts.take i)) ++ ")")

theorem wrapped_eq_mapIdx (before : Nat) (parts : List Part) :
    (wrapped false before parts).1 = parts.mapIdx fun i part =>
      "(?:" ++ renumber part.source (before + groupCount (parts.take i)) ++ ")" := by
  induction parts generalizing before with
  | nil => rfl
  | cons part parts ih =>
    rw [List.mapIdx_cons]
    show _ :: (wrapped false (before + part.groups) parts).1 = _
    rw [ih]
    simp [groupCount, Nat.add_assoc]

theorem toList_wrapped_singleton (part : Part) :
    (String.intercalate "|" (wrapped false before [part]).1).toList =
      '(' :: '?' :: ':' :: (raised before part.source.toList ++ [')']) := by
  simp [wrapped, String.toList_append, renumber_eq_raised]

theorem toList_wrapped_cons (part : Part) (hne : parts ≠ []) :
    (String.intercalate "|" (wrapped false before (part :: parts)).1).toList =
      '(' :: '?' :: ':' :: (raised before part.source.toList ++ ')' :: '|' ::
        (String.intercalate "|" (wrapped false (before + part.groups) parts).1).toList) := by
  have hwrapped : (wrapped false (before + part.groups) parts).1 ≠ [] := by
    rw [wrapped_eq_mapIdx]
    simpa using hne
  show (String.intercalate "|" (_ :: (wrapped false (before + part.groups) parts).1)).toList = _
  rw [String.intercalate_cons_of_ne_nil hwrapped]
  simp [String.toList_append, renumber_eq_raised]

/-- The start of a group is copied. -/
theorem raised_opening :
    raised offset ('(' :: '?' :: ':' :: cs) = '(' :: '?' :: ':' :: raised offset cs := by
  rw [raised_cons (by decide) (by decide), raised_cons (by decide) (by decide),
    raised_cons (by decide) (by decide)]

/-- While no part leaves a bracket open, each is renumbered as it would be alone. -/
theorem raised_joined (before offset : Nat)
    (hopens : ∀ part ∈ parts.dropLast, opens part.source.toList = false) :
    raised offset (String.intercalate "|" (wrapped false before parts).1).toList =
      (String.intercalate "|" (wrapped false (before + offset) parts).1).toList := by
  induction parts generalizing before with
  | nil => rfl
  | cons part parts ih =>
    by_cases hne : parts = []
    · subst hne
      rw [toList_wrapped_singleton, toList_wrapped_singleton, raised_opening, raised_raised_close]
      rfl
    · rw [List.dropLast_cons_of_ne_nil hne] at hopens
      have hrest := ih (before + part.groups) fun part' hpart' =>
        hopens part' (List.mem_cons_of_mem _ hpart')
      rw [toList_wrapped_cons part hne, toList_wrapped_cons part hne, raised_opening,
        raised_raised_close, hopens part List.mem_cons_self, ← raised,
        raised_cons (by decide) (by decide), hrest, Nat.add_right_comm]

theorem renumber_alternation (hopens : ∀ part ∈ parts.dropLast, opens part.source.toList = false) :
    renumber (alternation false parts).1 offset = joinedAfter offset parts := by
  have hjoined := raised_joined 0 offset hopens
  rw [← String.toList_inj, renumber_eq_raised]
  rw [Nat.zero_add, wrapped_eq_mapIdx offset] at hjoined
  exact hjoined

end Twice

/-- **Renumbering composes.** For every text, renumbering by zero and without backslashes writes the
text again, with the machine as without it, and renumbering twice is renumbering once by the sum.
So a pattern joined from parts is renumbered by renumbering each part once, by the number of
groups before it in the whole, as long as the machine counts itself inside brackets behind none of
the parts that others follow. -/
theorem renumber_composes (source : String) (parts : List Part) (offset : Nat) :
    (renumber source 0 = source ∧
      Position.run 0 (.plain false) source.toList = source.toList ∧
      ('\\' ∉ source.toList →
        renumber source offset = source ∧
        Position.run offset (.plain false) source.toList = source.toList) ∧
      ∀ a b, renumber (renumber source a) b = renumber source (a + b)) ∧
    ((∀ part ∈ parts.dropLast, opens part.source.toList = false) →
      renumber (alternation false parts).1 offset = joinedAfter offset parts) := by
  refine ⟨⟨renumber_zero source, raised_zero _, fun hescape => ⟨?_, ?_⟩,
    renumber_renumber source⟩, renumber_alternation⟩
  · rw [← String.toList_inj, renumber_eq_raised, raised_eq_self_of_not_mem hescape]
  · exact raised_eq_self_of_not_mem hescape

/-- Two parts with brackets and references. -/
def bracketed : List Part := [⟨"(a)[\\]]\\1", 1⟩, ⟨"(b)\\1", 1⟩]

theorem bracketed_renumber_composes :
    ('\\' ∉ "[(a)]".toList ∧ renumber "[(a)]" 1 = "[(a)]") ∧
    (∀ part ∈ bracketed.dropLast, opens part.source.toList = false) ∧
    renumber (alternation false bracketed).1 1 = joinedAfter 1 bracketed := by
  have hescape : '\\' ∉ "[(a)]".toList := by decide
  have hopens : ∀ part ∈ bracketed.dropLast, opens part.source.toList = false := by
    decide +kernel
  obtain ⟨⟨-, -, hwithout, -⟩, hjoined⟩ := renumber_composes "[(a)]" bracketed 1
  exact ⟨⟨hescape, (hwithout hescape).1⟩, hopens, hjoined hopens⟩

/-- A part with a bracket in a comment, in front of a part with a reference. -/
def commented : List Part := [⟨"x(?#[)", 0⟩, ⟨"(y)\\1", 1⟩]

/-- Behind a bracket in a comment, references are not raised a second time. -/
theorem commented_alternation :
    (∀ part ∈ commented, ∃ p, Pattern.compile false part.source = .ok p ∧
      p.groups = part.groups) ∧
    renumber (alternation false commented).1 1 = "(?:x(?#[))|(?:(y)\\1)" ∧
    joinedAfter 1 commented = "(?:x(?#[))|(?:(y)\\2)" := by
  have hcompiles : commented.all (fun part =>
      (Pattern.compile false part.source).toOption.map (·.groups) = some part.groups) = true := by
    decide +kernel
  refine ⟨fun part hpart => ?_, by decide +kernel, by decide +kernel⟩
  have hgroups := List.all_eq_true.1 hcompiles part hpart
  cases hcompile : Pattern.compile false part.source with
  | error err =>
    rw [hcompile] at hgroups
    cases hgroups
  | ok p =>
    rw [hcompile] at hgroups
    exact ⟨p, rfl, by simpa [Except.toOption] using hgroups⟩

end ModeStack.Rule
