import Mathlib.Data.List.Induction
import Mathlib.Data.List.TakeWhile
import Mathlib.Data.Nat.Digits.Defs
import ModeStack.Keyword.Table

/-!
# Entries of keyword tables

An entry is a word, with or without a weight. What it says is `Denotes`: a word by itself has the
default weight, and a word with a weight after the first `|` has that weight. An entry that says
nothing is `Malformed`.

Main results: `readEntry_eq_some_iff` and `readEntry_eq_none_iff`, reading an entry gives what it
says, and nothing if it is malformed.
-/

namespace ModeStack.Keyword

open ModeStack.Text

/-! ## What entries say -/

/-- The value of decimal digits. -/
def decimal (digits : List Char) : Nat :=
  Nat.ofDigits 10 (digits.reverse.map fun c => c.toNat - '0'.toNat)

/-- The characters write a number of 32 bits in decimal, with a plus sign before it or not. -/
def WritesWeight (cs : List Char) (n : Nat) : Prop :=
  ∃ digits, (cs = digits ∨ cs = '+' :: digits) ∧ digits ≠ [] ∧
    (∀ c ∈ digits, '0' ≤ c ∧ c ≤ '9') ∧ n = decimal digits ∧ n < 2 ^ 32

/-- What an entry says of which word. -/
inductive Denotes : (entry word : String) → (weight : Nat) → Prop
  | plain {word : String} : '|' ∉ word.toList →
      Denotes word word (if lowercase word ∈ commonWords then 0 else 1)
  | weighted {word weight : List Char} {n : Nat} : '|' ∉ word → WritesWeight weight n →
      Denotes (String.ofList (word ++ '|' :: weight)) (String.ofList word) n

/-- There is a `|` in the entry, and what follows the first one is not a weight. -/
def Malformed (entry : String) : Prop :=
  ∃ word weight, entry.toList = word ++ '|' :: weight ∧ '|' ∉ word ∧ ∀ n, ¬WritesWeight weight n

theorem foldl_digits (digits : List Char) :
    digits.foldl (fun n c => 10 * n + (c.toNat - '0'.toNat)) 0 = decimal digits := by
  unfold decimal
  induction digits using List.reverseRecOn with
  | nil => rfl
  | append_singleton digits c ih =>
    rw [List.foldl_append, ih, List.reverse_append, List.reverse_singleton, List.singleton_append,
      List.map_cons, Nat.ofDigits_cons]
    simp only [List.foldl_cons, List.foldl_nil]
    omega

theorem isAsciiDigit_iff {c : Char} : isAsciiDigit c = true ↔ '0' ≤ c ∧ c ≤ '9' := by
  simp [isAsciiDigit]

theorem weight?_eq_some_iff {cs : List Char} {n : Nat} :
    weight? cs = some n ↔ WritesWeight cs n := by
  have hread (digits : List Char) :
      (if digits.isEmpty || !digits.all isAsciiDigit || maxWeight < decimal digits then none
        else some (decimal digits)) = some n ↔
      digits ≠ [] ∧ (∀ c ∈ digits, '0' ≤ c ∧ c ≤ '9') ∧ n = decimal digits ∧ n < 2 ^ 32 := by
    have hall : digits.all isAsciiDigit = true ↔ ∀ c ∈ digits, '0' ≤ c ∧ c ≤ '9' := by
      simp only [List.all_eq_true, isAsciiDigit_iff]
    have hmax : maxWeight + 1 = 2 ^ 32 := rfl
    rw [← hall]
    constructor
    · intro h
      split_ifs at h with hbad
      cases h
      simp only [Bool.or_eq_true, not_or, Bool.not_eq_true', Bool.not_eq_false,
        decide_eq_true_eq] at hbad
      obtain ⟨⟨hempty, hdigits⟩, hle⟩ := hbad
      refine ⟨fun hnil => ?_, hdigits, rfl, by omega⟩
      rw [hnil] at hempty
      exact hempty rfl
    · rintro ⟨hnil, hdigits, rfl, hlt⟩
      rw [if_neg]
      simp only [hdigits, List.isEmpty_iff, hnil, decide_eq_true_eq, Bool.or_eq_true,
        Bool.not_true, Bool.false_eq_true, or_false, false_or]
      omega
  have hplus : ¬('0' ≤ '+' ∧ '+' ≤ '9') := by decide
  unfold weight? WritesWeight
  simp only [foldl_digits]
  rw [hread]
  constructor
  · intro h
    refine ⟨_, ?_, h⟩
    split
    · exact .inr rfl
    · exact .inl rfl
  · rintro ⟨digits, rfl | rfl, h⟩
    · split
      · exact absurd (h.2.1 '+' (List.mem_cons_self ..)) hplus
      · exact h
    · exact h

/-- Cuts an entry at the first `|`. -/
theorem span_bar {word : List Char} (weight : List Char) (hword : '|' ∉ word) :
    (word ++ '|' :: weight).takeWhile (· ≠ '|') = word ∧
      (word ++ '|' :: weight).dropWhile (· ≠ '|') = '|' :: weight := by
  have hall : ∀ c ∈ word, decide (c ≠ '|') = true := fun c hc =>
    decide_eq_true fun heq => hword (heq ▸ hc)
  rw [List.takeWhile_append_of_pos hall, List.dropWhile_append_of_pos hall]
  simp

/-- An entry is a word by itself, or a word with something after the first `|`. -/
theorem entry_cases (entry : String) :
    ('|' ∉ entry.toList ∧ readEntry entry = some (entry, defaultWeight entry)) ∨
    ∃ word weight, '|' ∉ word ∧ entry.toList = word ++ '|' :: weight ∧
      readEntry entry = (weight? weight).map fun n => (String.ofList word, n) := by
  by_cases hbar : '|' ∈ entry.toList
  · obtain ⟨word, weight, hentry, hword⟩ := List.eq_append_cons_of_mem hbar
    refine .inr ⟨word, weight, hword, hentry, ?_⟩
    obtain ⟨htake, hdrop⟩ := span_bar weight hword
    unfold readEntry
    simp only [hentry, htake, hdrop]
  · refine .inl ⟨hbar, ?_⟩
    have hdrop : entry.toList.dropWhile (· ≠ '|') = [] := by
      rw [List.dropWhile_eq_nil_iff]
      exact fun c hc => decide_eq_true fun heq => hbar (heq ▸ hc)
    unfold readEntry
    simp only [hdrop]

/-- **Reading an entry** gives what it says. -/
theorem readEntry_eq_some_iff {entry word : String} {n : Nat} :
    readEntry entry = some (word, n) ↔ Denotes entry word n := by
  have hdefault (word : String) :
      defaultWeight word = if lowercase word ∈ commonWords then 0 else 1 := by
    simp [defaultWeight]
  rcases entry_cases entry with ⟨hbar, hread⟩ | ⟨before, after, hbar, hentry, hread⟩
  · rw [hread, hdefault]
    constructor
    · intro h
      cases h
      exact .plain hbar
    · intro h
      cases h with
      | plain => rfl
      | weighted => simp at hbar
  · have heq : entry = String.ofList (before ++ '|' :: after) := by
      rw [← hentry, String.ofList_toList]
    rw [hread, Option.map_eq_some_iff]
    constructor
    · rintro ⟨m, hm, hpair⟩
      cases hpair
      rw [heq]
      exact .weighted hbar (weight?_eq_some_iff.1 hm)
    · intro h
      cases h with
      | plain hplain => simp [hentry] at hplain
      | @weighted word weight n hword hweight =>
        rw [String.toList_ofList] at hentry
        have hword' : word = before := by
          rw [← (span_bar weight hword).1, hentry, (span_bar _ hbar).1]
        subst hword'
        have hweight' : weight = after := by simpa using hentry
        subst hweight'
        exact ⟨n, weight?_eq_some_iff.2 hweight, rfl⟩

/-- **An entry cannot be read** exactly if it is malformed. -/
theorem readEntry_eq_none_iff {entry : String} : readEntry entry = none ↔ Malformed entry := by
  have hnone (weight : List Char) : weight? weight = none ↔ ∀ n, ¬WritesWeight weight n := by
    simp only [Option.eq_none_iff_forall_ne_some, ne_eq, weight?_eq_some_iff]
  unfold Malformed
  rcases entry_cases entry with ⟨hbar, hread⟩ | ⟨before, after, hbar, hentry, hread⟩
  · rw [hread]
    constructor
    · exact fun h => nomatch h
    · rintro ⟨word, weight, hentry, -⟩
      simp [hentry] at hbar
  · rw [hread, Option.map_eq_none_iff, hnone]
    constructor
    · intro h
      exact ⟨before, after, hentry, hbar, h⟩
    · rintro ⟨word, weight, hentry', hword, h⟩
      have hsame := hentry.symm.trans hentry'
      have hbefore : before = word := by
        rw [← (span_bar after hbar).1, hsame, (span_bar _ hword).1]
      subst hbefore
      have hafter : after = weight := by simpa using hsame
      exact hafter ▸ h

end ModeStack.Keyword
