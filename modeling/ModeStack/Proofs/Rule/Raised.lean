import ModeStack.Proofs.Text.Decimal
import ModeStack.Regex.Reading
import ModeStack.Rule.Renumber

/-!
# What renumbering does to a text

`raised` is what the renumbering machine writes for a text. It copies every character, except
that the number of a reference outside brackets is replaced by a greater one. The equations below
take a text apart at the places where a pattern is read: characters, escapes, references and
brackets.

Main results: `renumber_eq_raised` and `raised_reference`.
-/

namespace ModeStack.Rule

open ModeStack.Text ModeStack.Regex

/-- The text of a pattern with its references raised. -/
def raised (offset : Nat) (cs : List Char) : List Char :=
  Position.run offset (.plain false) cs

namespace Position

variable {offset value : Nat} {inBracket : Bool} {c : Char} {cs : List Char}

/-! ## Digits -/

theorem toDigits_digitValue (hc : isAsciiDigit c = true) :
    Nat.toDigits 10 (digitValue c) = [c] := by
  simp only [isAsciiDigit, Bool.and_eq_true, decide_eq_true_eq] at hc
  have hlo : 48 ≤ c.toNat := hc.1
  have hhi : c.toNat ≤ 57 := hc.2
  rw [← Char.ofNat_toNat c]
  interval_cases c.toNat <;> rfl

theorem digitValue_lt (hc : isAsciiDigit c = true) : digitValue c < 10 := by
  simp only [isAsciiDigit, Bool.and_eq_true, decide_eq_true_eq] at hc
  have hhi : c.toNat ≤ 57 := hc.2
  have hzero : '0'.toNat = 48 := rfl
  rw [digitValue, hzero]
  omega

/-- A digit that may begin the number of a reference. -/
def isLeading (c : Char) : Bool := '1' ≤ c && c ≤ '9'

theorem isAsciiDigit_of_isLeading (hc : isLeading c = true) : isAsciiDigit c = true := by
  simp only [isLeading, isAsciiDigit, Bool.and_eq_true, decide_eq_true_eq] at hc ⊢
  exact ⟨Char.le_trans (by decide) hc.1, hc.2⟩

theorem isLeading_eq_false (hc : isAsciiDigit c = false) : isLeading c = false := by
  by_contra hlead
  have hdigit := isAsciiDigit_of_isLeading (Bool.eq_true_of_not_eq_false hlead)
  rw [hc] at hdigit
  cases hdigit

theorem isLeading_of_isAsciiDigit (hc : isAsciiDigit c = true) (hzero : c ≠ '0') :
    isLeading c = true := by
  simp only [isLeading, isAsciiDigit, Bool.and_eq_true, decide_eq_true_eq] at hc ⊢
  have hlo : 48 ≤ c.toNat := hc.1
  have hne : c.toNat ≠ 48 := fun h => hzero (Char.toNat_inj.1 h)
  have hlt : 49 ≤ c.toNat := by omega
  exact ⟨hlt, hc.2⟩

theorem digitValue_pos (hc : isLeading c = true) : 0 < digitValue c := by
  simp only [isLeading, Bool.and_eq_true, decide_eq_true_eq] at hc
  have hlo : 49 ≤ c.toNat := hc.1
  have hzero : '0'.toNat = 48 := rfl
  rw [digitValue, hzero]
  omega

theorem reference_append_digit (hv : 0 < value) (hc : isAsciiDigit c = true) :
    reference (10 * value + digitValue c) = reference value ++ [c] := by
  rw [reference, reference, ← Nat.toDigits_append_toDigits (by decide) hv (digitValue_lt hc),
    toDigits_digitValue hc, List.cons_append]

/-- A greater number is not shorter. -/
theorem length_reference_le (offset value : Nat) :
    (reference value).length ≤ (reference (value + offset)).length := by
  simp only [reference, List.length_cons, Nat.add_le_add_iff_right]
  have hpos := Nat.length_toDigits_pos (b := 10) (n := value + offset)
  have hlt := (Nat.length_toDigits_le_iff (b := 10) (by decide) hpos).1 le_rfl
  exact (Nat.length_toDigits_le_iff (by decide) hpos).2 (lt_of_le_of_lt (by omega) hlt)

/-! ## One character at a time -/

/-- Whether the machine counts itself inside brackets after a character. -/
def bracketAfter (inBracket : Bool) (c : Char) : Bool :=
  if c = '[' then true else if c = ']' then false else inBracket

theorem stepPlain_of_ne (hc : c ≠ '\\') :
    stepPlain inBracket c = ([c], plain (bracketAfter inBracket c)) := by
  simp only [stepPlain, hc, if_false, bracketAfter]
  cases inBracket
  · by_cases hopen : c = '['
    · simp [hopen]
    · simp [hopen]
  · by_cases hopen : c = '['
    · simp [hopen]
    · by_cases hclose : c = ']'
      · simp [hclose]
      · simp [hopen, hclose]

/-- What is no number of a reference is copied. -/
theorem step_escaped_of_not_leading (hc : inBracket = true ∨ isLeading c = false) :
    (escaped inBracket).step offset c = (['\\', c], plain inBracket) := by
  have hplain : (!inBracket && decide ('1' ≤ c) && decide (c ≤ '9')) = false := by
    rcases hc with rfl | hc
    · rfl
    · rw [Bool.and_assoc]
      simp only [isLeading] at hc
      rw [hc, Bool.and_false]
  simp [step, hplain]

theorem step_escaped_of_leading (hc : isLeading c = true) :
    (escaped false).step offset c = ([], number (digitValue c)) := by
  have hlead : (decide ('1' ≤ c) && decide (c ≤ '9')) = true := hc
  simp [step, hlead]

theorem step_number_of_digit (hc : isAsciiDigit c = true) :
    (number value).step offset c = ([], number (10 * value + digitValue c)) := by
  have hdigit : (decide ('0' ≤ c) && decide (c ≤ '9')) = true := hc
  simp [step, hdigit]

/-- The number has ended, and the character is read between others. -/
theorem step_number_of_not_digit (hc : isAsciiDigit c = false) :
    (number value).step offset c =
      (reference (value + offset) ++ (stepPlain false c).1, (stepPlain false c).2) := by
  have hdigit : (decide ('0' ≤ c) && decide (c ≤ '9')) = false := hc
  simp [step, hdigit]

theorem run_cons (hc : c ≠ '\\') :
    run offset (.plain inBracket) (c :: cs) =
      c :: run offset (.plain (bracketAfter inBracket c)) cs := by
  rw [run, step, stepPlain_of_ne hc, List.singleton_append]

theorem run_escape (hc : inBracket = true ∨ isLeading c = false) :
    run offset (.plain inBracket) ('\\' :: c :: cs) =
      '\\' :: c :: run offset (.plain inBracket) cs := by
  show run offset (.escaped inBracket) (c :: cs) = _
  rw [run, step_escaped_of_not_leading hc]
  rfl

theorem run_number_of_not_digit (hcs : ∀ d ∈ cs.head?, isAsciiDigit d = false) :
    run offset (.number value) cs =
      reference (value + offset) ++ run offset (.plain false) cs := by
  cases cs with
  | nil => simp [run, finish]
  | cons c cs => rw [run, step_number_of_not_digit (hcs c rfl), run, step, List.append_assoc]

/-- The digits that follow belong to the number. -/
theorem run_number {ds : List Char} (hds : ∀ d ∈ ds, isAsciiDigit d = true)
    (hcs : ∀ d ∈ cs.head?, isAsciiDigit d = false) :
    run offset (.number value) (ds ++ cs) =
      reference (ds.foldl (fun n d => 10 * n + digitValue d) value + offset) ++
        run offset (.plain false) cs := by
  induction ds generalizing value with
  | nil => exact run_number_of_not_digit hcs
  | cons d ds ih =>
    rw [List.cons_append, run, step_number_of_digit (hds d List.mem_cons_self)]
    exact ih fun e he => hds e (List.mem_cons_of_mem _ he)

theorem head?_run_number : (run offset (.number value) cs).head? = some '\\' := by
  induction cs generalizing value with
  | nil => rfl
  | cons c cs ih =>
    simp only [run, step]
    split_ifs
    · exact ih
    · rfl

theorem head?_run_escaped : (run offset (.escaped inBracket) cs).head? = some '\\' := by
  cases cs with
  | nil => rfl
  | cons c cs =>
    simp only [run, step]
    split_ifs
    · exact head?_run_number
    · rfl

/-- The first character stays, whatever it is. -/
theorem head?_run : (run offset (.plain inBracket) cs).head? = cs.head? := by
  cases cs with
  | nil => rfl
  | cons c cs =>
    by_cases hc : c = '\\'
    · subst hc
      exact head?_run_escaped
    · rw [run_cons hc]
      rfl

/-! ## What is pending -/

/-- The number being read, if any, is not zero. -/
def Valid : Position → Prop
  | number value => 0 < value
  | _ => True

theorem Valid.step (offset : Nat) (c : Char) {p : Position} (hp : p.Valid) :
    (p.step offset c).2.Valid := by
  have hplain (b : Bool) : (stepPlain b c).2.Valid := by
    simp only [stepPlain]
    split_ifs <;> trivial
  cases p with
  | plain b => exact hplain b
  | escaped b =>
    simp only [Position.step]
    split_ifs with h
    · simp only [Bool.and_assoc, Bool.and_eq_true] at h
      exact digitValue_pos (by simp [isLeading, h.2])
    · trivial
  | number value =>
    simp only [Position.step]
    split_ifs with h
    · simp only [Valid] at hp ⊢
      omega
    · exact hplain false

/-- With nothing to add, what has been read is written again. -/
theorem step_zero {p : Position} (hp : p.Valid) :
    (p.step 0 c).1 ++ (p.step 0 c).2.finish 0 = p.finish 0 ++ [c] := by
  have hplain (b : Bool) : (stepPlain b c).1 ++ (stepPlain b c).2.finish 0 = [c] := by
    simp only [stepPlain]
    split_ifs with h <;> simp [finish, h]
  cases p with
  | plain b => exact hplain b
  | escaped b =>
    simp only [step]
    split_ifs with h
    · simp only [Bool.and_assoc, Bool.and_eq_true] at h
      have hc : isAsciiDigit c = true := isAsciiDigit_of_isLeading (by simp [isLeading, h.2])
      simp [finish, reference, toDigits_digitValue hc]
    · simp [finish]
  | number value =>
    simp only [step]
    split_ifs with h
    · exact reference_append_digit hp h
    · simpa [finish] using hplain false

theorem run_zero {p : Position} (hp : p.Valid) : run 0 p cs = p.finish 0 ++ cs := by
  induction cs generalizing p with
  | nil => simp [run]
  | cons c cs ih =>
    rw [run, ih (hp.step 0 c), ← List.append_assoc, step_zero hp, List.append_assoc,
      List.singleton_append]

theorem length_step_le (offset : Nat) (c : Char) {p : Position} (hp : p.Valid) :
    (p.finish 0).length + 1 ≤
      (p.step offset c).1.length + ((p.step offset c).2.finish 0).length := by
  have hzero := congrArg List.length (step_zero (c := c) hp)
  simp only [List.length_append, List.length_singleton] at hzero
  cases p with
  | plain b => exact hzero.ge
  | escaped b => exact hzero.ge
  | number value =>
    rw [← hzero]
    have hle := length_reference_le offset value
    simp only [step]
    split_ifs with h
    · exact le_rfl
    · simp only [List.length_append, Nat.add_zero]
      omega

theorem length_le_length_run (offset : Nat) (cs : List Char) {p : Position} (hp : p.Valid) :
    (p.finish 0).length + cs.length ≤ (run offset p cs).length := by
  induction cs generalizing p with
  | nil =>
    cases p with
    | number value => exact length_reference_le offset value
    | _ => exact le_rfl
  | cons c cs ih =>
    have hstep := length_step_le offset c hp
    have hrest := ih (hp.step offset c)
    rw [run, List.length_append, List.length_cons]
    omega

/-! ## Where the machine stands after a text -/

/-- Where the machine stands after a text. The offset is only written. -/
def after (p : Position) (cs : List Char) : Position :=
  cs.foldl (fun p c => (p.step 0 c).2) p

variable {p : Position} {ds : List Char}

theorem after_cons : p.after (c :: cs) = (p.step 0 c).2.after cs := rfl

theorem after_append : p.after (cs ++ ds) = (p.after cs).after ds := List.foldl_append

/-- Where the machine stands does not depend on the offset. -/
theorem step_snd (offset : Nat) (p : Position) (c : Char) :
    (p.step offset c).2 = (p.step 0 c).2 := by
  cases p with
  | plain inBracket => rfl
  | escaped inBracket => rfl
  | number value =>
    simp only [step]
    split_ifs <;> rfl

theorem after_plain_cons (hc : c ≠ '\\') :
    (plain inBracket).after (c :: cs) = (plain (bracketAfter inBracket c)).after cs := by
  rw [after_cons, step, stepPlain_of_ne hc]

theorem after_escaped_cons (hc : inBracket = true ∨ isLeading c = false) :
    (escaped inBracket).after (c :: cs) = (plain inBracket).after cs := by
  rw [after_cons, step_escaped_of_not_leading hc]

theorem after_number_cons (hc : isAsciiDigit c = false) :
    (number value).after (c :: cs) = (plain false).after (c :: cs) := by
  rw [after_cons, step_number_of_not_digit hc]
  rfl

end Position

/-! ## Taking a text apart -/

variable {offset : Nat} {c : Char} {cs : List Char}

/-- A character that means the same to the machine wherever it stands. -/
def isOrdinary (c : Char) : Bool := c ≠ '\\' && c ≠ '[' && c ≠ ']' && c ≠ '('

theorem raised_cons (hc : c ≠ '\\') (hopen : c ≠ '[') :
    raised offset (c :: cs) = c :: raised offset cs := by
  rw [raised, Position.run_cons hc]
  simp [Position.bracketAfter, hopen, raised]

theorem isOrdinary_iff :
    isOrdinary c = true ↔ c ≠ '\\' ∧ c ≠ '[' ∧ c ≠ ']' ∧ c ≠ '(' := by
  simp [isOrdinary, and_assoc]

theorem Position.run_ordinary (hc : isOrdinary c = true) (inBracket : Bool) :
    run offset (.plain inBracket) (c :: cs) = c :: run offset (.plain inBracket) cs := by
  obtain ⟨hescape, hopen, hclose, -⟩ := isOrdinary_iff.1 hc
  rw [run_cons hescape]
  simp [bracketAfter, hopen, hclose]

theorem Position.run_append_of_ordinary {w : List Char} (hw : ∀ c ∈ w, isOrdinary c = true)
    (inBracket : Bool) :
    run offset (.plain inBracket) (w ++ cs) = w ++ run offset (.plain inBracket) cs := by
  induction w with
  | nil => rfl
  | cons c w ih =>
    rw [List.cons_append, run_ordinary (hw c List.mem_cons_self),
      ih fun d hd => hw d (List.mem_cons_of_mem _ hd), List.cons_append]

theorem Position.after_append_of_ordinary {w : List Char} (hw : ∀ c ∈ w, isOrdinary c = true)
    (inBracket : Bool) : (plain inBracket).after (w ++ cs) = (plain inBracket).after cs := by
  induction w with
  | nil => rfl
  | cons c w ih =>
    obtain ⟨hescape, hopen, hclose, -⟩ := isOrdinary_iff.1 (hw c List.mem_cons_self)
    have hsame : bracketAfter inBracket c = inBracket := by simp [bracketAfter, hopen, hclose]
    rw [List.cons_append, after_plain_cons hescape, hsame]
    exact ih fun d hd => hw d (List.mem_cons_of_mem _ hd)

/-- The number of a reference is raised, and what follows it is read on its own. -/
theorem raised_reference {d : Char} {ds : List Char} (hd : Position.isLeading d = true)
    (hds : ∀ e ∈ ds, isAsciiDigit e = true) (hcs : ∀ e ∈ cs.head?, isAsciiDigit e = false) :
    raised offset ('\\' :: d :: (ds ++ cs)) =
      Position.reference (decimalValue (d :: ds) + offset) ++ raised offset cs := by
  have hlead : (decide ('1' ≤ d) && decide (d ≤ '9')) = true := hd
  have hvalue : decimalValue (d :: ds) =
      ds.foldl (fun n e => 10 * n + Position.digitValue e) (Position.digitValue d) := by
    simp [decimalValue, Position.digitValue]
  rw [hvalue, raised, raised, ← Position.run_number hds hcs]
  simp only [Position.run, Position.step, Position.stepPlain, if_true, List.nil_append,
    Bool.not_false, Bool.true_and, hlead]

theorem raised_zero (cs : List Char) : raised 0 cs = cs :=
  Position.run_zero trivial

theorem raised_eq_self_of_not_mem (h : '\\' ∉ cs) : raised offset cs = cs := by
  suffices ∀ b, Position.run offset (.plain b) cs = cs from this false
  induction cs with
  | nil => exact fun b => rfl
  | cons c cs ih =>
    intro b
    simp only [List.mem_cons, not_or] at h
    rw [Position.run_cons (Ne.symm h.1), ih h.2]

/-- A text does not get shorter. -/
theorem Position.length_le_length_plain (offset : Nat) (cs : List Char) (inBracket : Bool) :
    cs.length ≤ (run offset (.plain inBracket) cs).length := by
  have h := length_le_length_run offset cs (p := .plain inBracket) trivial
  simpa [finish] using h

/-- Renumbering writes the raised text. -/
theorem renumber_eq_raised (source : String) (offset : Nat) :
    (renumber source offset).toList = raised offset source.toList := by
  rw [renumber]
  split_ifs with h
  · simp only [Bool.or_eq_true, decide_eq_true_eq, Bool.not_eq_true', List.contains_eq_mem,
      decide_eq_false_iff_not] at h
    rcases h with rfl | h
    · rw [raised_zero]
    · rw [raised_eq_self_of_not_mem h]
  · rw [String.toList_ofList, raised]

end ModeStack.Rule
