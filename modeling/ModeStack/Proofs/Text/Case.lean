import Mathlib.Data.List.Basic
import ModeStack.Regex.CharSet
import ModeStack.Text.Basic
import ModeStack.Text.Lowercase

/-!
# Texts that differ in case

`Text.Recased` relates texts that differ in the case of the letters `A` to `Z` only. What can be
asked of a character without seeing the case of these letters is `Caseless`: whether it is a word
character, its folding, its size in bytes, its lower case, and whether it belongs to a set up to
case. Each is checked on the 26 letters. Texts that are recased answer caseless questions alike, at
every position; so they have the same size, the same offsets in bytes and the same lower case.
-/

namespace ModeStack

/-! ## What does not see case -/

namespace Text

/-- The function is the same for both cases of each letter. -/
def Caseless {α : Type} (f : Char → α) : Prop := ∀ c, f (asciiLower c) = f c

namespace Caseless

variable {α : Type} {f : Char → α} {c c' : Char}

/-- It is enough to look at the letters. -/
theorem of_letters (h : ∀ n < 26, f (Char.ofNat (97 + n)) = f (Char.ofNat (65 + n))) :
    Caseless f := by
  intro c
  unfold asciiLower
  split_ifs with hc
  · rw [Bool.and_eq_true, decide_eq_true_eq, decide_eq_true_eq] at hc
    have hlo : 65 ≤ c.toNat := hc.1
    have hhi : c.toNat ≤ 90 := hc.2
    have hletter := h (c.toNat - 65) (by omega)
    have hlower : 97 + (c.toNat - 65) = c.toNat + 32 := by omega
    have hupper : 65 + (c.toNat - 65) = c.toNat := by omega
    rw [hlower, hupper, Char.ofNat_toNat] at hletter
    exact hletter
  · rfl

theorem eq (hf : Caseless f) (h : asciiLower c' = asciiLower c) : f c' = f c := by
  rw [← hf c', h, hf c]

end Caseless

theorem caseless_isWord : Caseless isWord := .of_letters (by decide)

theorem caseless_isDigit : Caseless isDigit := .of_letters (by decide)

theorem caseless_isBlank : Caseless isBlank := .of_letters (by decide)

theorem caseless_isHexDigit : Caseless isHexDigit := .of_letters (by decide)

theorem caseless_isCased : Caseless isCased := .of_letters (by decide)

theorem caseless_isCaseIgnorable : Caseless isCaseIgnorable := .of_letters (by decide)

theorem caseless_foldCase : Caseless foldCase := .of_letters (by decide)

theorem caseless_lowercaseChar : Caseless lowercaseChar := .of_letters (by decide)

theorem caseless_utf8Size : Caseless Char.utf8Size := .of_letters (by decide)

/-- Comparing with a character that is no letter. -/
theorem caseless_eq {d : Char} (hd : isAsciiLetter d = false) :
    Caseless fun c => decide (c = d) := by
  have hletter : ∀ n < 26, isAsciiLetter (Char.ofNat (97 + n)) = true ∧
      isAsciiLetter (Char.ofNat (65 + n)) = true := by decide
  refine .of_letters fun n hn => ?_
  have hne {c : Char} (hc : isAsciiLetter c = true) : decide (c = d) = false := by
    refine decide_eq_false ?_
    rintro rfl
    rw [hc] at hd
    cases hd
  rw [hne (hletter n hn).1, hne (hletter n hn).2]

/-! ## Comparing up to case -/

theorem sameUpToCase_eq (c d : Char) : sameUpToCase c d = decide (foldCase c = foldCase d) := by
  unfold sameUpToCase
  by_cases h : c = d
  · simp [h]
  · simp [h]

theorem caseless_sameUpToCase (c : Char) : Caseless (sameUpToCase c) := by
  intro d
  rw [sameUpToCase_eq, sameUpToCase_eq, caseless_foldCase d]

/-- The first run of the folding table sends the capitals to their lower case, so both cases of a
letter are among its variants. -/
theorem mem_caseVariants : ∀ n < 26,
    Char.ofNat (97 + n) ∈ caseVariants (Char.ofNat (65 + n)) ∧
      Char.ofNat (65 + n) ∈ caseVariants (Char.ofNat (65 + n)) := by
  decide +kernel

theorem caseVariants_eq : ∀ n < 26,
    caseVariants (Char.ofNat (97 + n)) = caseVariants (Char.ofNat (65 + n)) := by
  have hascii : ∀ n < 26,
      (isAscii (Char.ofNat (97 + n)) && !isAsciiLetter (Char.ofNat (97 + n))) =
        (isAscii (Char.ofNat (65 + n)) && !isAsciiLetter (Char.ofNat (65 + n))) := by
    decide
  have hletter : ∀ n < 26,
      (isAscii (Char.ofNat (65 + n)) && !isAsciiLetter (Char.ofNat (65 + n))) = false := by
    decide
  have hfold : ∀ n < 26, foldCase (Char.ofNat (97 + n)) = foldCase (Char.ofNat (65 + n)) := by
    decide
  intro n hn
  unfold caseVariants
  rw [hascii n hn, hletter n hn, hfold n hn]
  rfl

end Text

/-- A predicate taken up to case does not see case. -/
theorem Regex.caseless_upToCase (p : Char → Bool) : Text.Caseless (upToCase true p) := by
  refine .of_letters fun n hn => ?_
  have hany {c : Char} (hc : c ∈ Text.caseVariants (Char.ofNat (65 + n))) :
      (p c || (Text.caseVariants (Char.ofNat (65 + n))).any p) =
        (Text.caseVariants (Char.ofNat (65 + n))).any p := by
    by_cases hp : p c = true
    · rw [hp, Bool.true_or, List.any_eq_true.2 ⟨c, hc, hp⟩]
    · rw [eq_false_of_ne_true hp, Bool.false_or]
  unfold upToCase
  rw [Bool.true_and, Bool.true_and, Text.caseVariants_eq n hn, hany (Text.mem_caseVariants n hn).1,
    hany (Text.mem_caseVariants n hn).2]

/-! ## Recased texts -/

namespace Text

/-- The texts differ in the case of the letters `A` to `Z` only. -/
def Recased (t t' : Text) : Prop := t'.map asciiLower = t.map asciiLower

instance (t t' : Text) : Decidable (t.Recased t') :=
  inferInstanceAs (Decidable (t'.map asciiLower = t.map asciiLower))

namespace Recased

variable {t t' : Text} (h : t.Recased t')

include h

theorem size_eq : t'.size = t.size := by
  simpa using congrArg Array.size h

theorem next?_eq (pos : Nat) : Text.next? t' pos = Text.next? t pos := by
  unfold next?
  rw [h.size_eq]

theorem extract (start stop : Nat) :
    Recased (t.extract start stop) (t'.extract start stop) := by
  unfold Recased
  rw [Array.map_extract, Array.map_extract, h]

/-- At every position stand characters that differ in case only, or none. -/
theorem getElem?_cases (i : Nat) : (t[i]? = none ∧ t'[i]? = none) ∨
    ∃ c c', t[i]? = some c ∧ t'[i]? = some c' ∧ asciiLower c' = asciiLower c := by
  have hi : (t'.map asciiLower)[i]? = (t.map asciiLower)[i]? := by rw [h]
  rw [Array.getElem?_map, Array.getElem?_map] at hi
  cases hc : t[i]? with
  | none =>
    rw [hc, Option.map_none, Option.map_eq_none_iff] at hi
    exact .inl ⟨rfl, hi⟩
  | some c =>
    rw [hc, Option.map_some] at hi
    obtain ⟨c', hc', hlower⟩ := Option.map_eq_some_iff.1 hi
    exact .inr ⟨c, c', rfl, hc', hlower⟩

/-- Whether a character that is no letter stands at a position. -/
theorem getElem?_eq_some_iff {d : Char} (hd : isAsciiLetter d = false) (i : Nat) :
    t'[i]? = some d ↔ t[i]? = some d := by
  rcases h.getElem?_cases i with ⟨hi, hi'⟩ | ⟨c, c', hi, hi', hlower⟩
  · rw [hi, hi']
  · have heq : decide (c' = d) = decide (c = d) := (caseless_eq hd).eq hlower
    rw [hi, hi', Option.some_inj, Option.some_inj]
    exact decide_eq_decide.1 heq

/-- A caseless function has the same values along both texts. -/
theorem map_eq {α : Type} {f : Char → α} (hf : Caseless f) : t'.toList.map f = t.toList.map f := by
  have hcomp : f ∘ asciiLower = f := funext hf
  have hlist : t'.toList.map asciiLower = t.toList.map asciiLower := by
    rw [← Array.toList_map, ← Array.toList_map, h]
  have hmap := congrArg (List.map f) hlist
  rwa [List.map_map, List.map_map, hcomp] at hmap

theorem all_eq {p : Char → Bool} (hp : Caseless p) : t'.all p = t.all p := by
  have hmap := congrArg (fun l : List Bool => l.all id) (h.map_eq hp)
  simpa [List.all_map] using hmap

/-- The same position is the same number of bytes from the start. -/
theorem byteOffset_eq (pos : Nat) : t'.byteOffset pos = t.byteOffset pos := by
  have hsum (cs : List Char) : byteSize cs = (cs.map Char.utf8Size).sum := by
    induction cs with
    | nil => rfl
    | cons c cs ih => rw [byteSize, ih, List.map_cons, List.sum_cons]
  unfold byteOffset
  rw [hsum, hsum, (h.extract 0 pos).map_eq caseless_utf8Size]

end Recased

/-! ## Lower case -/

theorem reachesCased_map (cs : List Char) : reachesCased (cs.map asciiLower) = reachesCased cs := by
  have hcomp : isCaseIgnorable ∘ asciiLower = isCaseIgnorable := funext caseless_isCaseIgnorable
  unfold reachesCased
  rw [List.dropWhile_map, hcomp]
  cases cs.dropWhile isCaseIgnorable with
  | nil => rfl
  | cons c _ => exact caseless_isCased c

theorem lowercaseAfter_map (before rest : List Char) :
    lowercaseAfter (before.map asciiLower) (rest.map asciiLower) = lowercaseAfter before rest := by
  induction rest generalizing before with
  | nil => rfl
  | cons c rest ih =>
    have hsigma : asciiLower c = 'Σ' ↔ c = 'Σ' :=
      decide_eq_decide.1 (caseless_eq (by decide : isAsciiLetter 'Σ' = false) c)
    have hrest := ih (c :: before)
    rw [List.map_cons] at hrest
    rw [List.map_cons, lowercaseAfter, lowercaseAfter, hrest, reachesCased_map, reachesCased_map,
      caseless_lowercaseChar c]
    simp only [hsigma]

/-- Words that differ in case have the same lower case. -/
theorem Recased.lowercase_between_eq {t t' : Text} (h : t.Recased t') (start stop : Nat) :
    lowercase (t'.between start stop) = lowercase (t.between start stop) := by
  have hlist : (t'.extract start stop).toList.map asciiLower =
      (t.extract start stop).toList.map asciiLower := by
    rw [← Array.toList_map, ← Array.toList_map, h.extract start stop]
  unfold between lowercase
  rw [String.toList_ofList, String.toList_ofList, ← lowercaseAfter_map [], hlist,
    lowercaseAfter_map []]

end Text

end ModeStack
