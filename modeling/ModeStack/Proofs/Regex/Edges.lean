import ModeStack.Proofs.Regex.Preferred
import ModeStack.Proofs.Regex.Words

/-!
# Matches up to a word edge

A pattern that ends with `\b` does not end inside a word (`not_holds_wordEdge`). `Expr.upToEdge` is
a sequence with such an end; it takes every word of its language that stands before an edge
(`spans_upToEdge`), and in a text of word characters only the whole text (`eq_size_of_spans`).

The last section is about texts that break at the first character of some kind: what an expression
takes up to there is determined by the text (`eq_of_break`).
-/

namespace ModeStack.Regex

open ModeStack.Text (isWord)

variable {t : Text} {p q : Nat} {c d : Char} {w u v : List Char}

/-! ## Word edges -/

theorem wordAt_of_getElem? (h : t[p]? = some c) : wordAt t p = isWord c := by
  rw [wordAt, h]

theorem wordAt_size : wordAt t t.size = false := by
  rw [wordAt, Array.getElem?_eq_none le_rfl]

theorem wordBefore_succ : wordBefore t (p + 1) = wordAt t p := by
  simp [wordBefore]

theorem holds_wordEdge_zero (h : t[0]? = some c) (hc : isWord c = true) :
    Assertion.wordEdge.holds t 0 = true := by
  simp [Assertion.holds, wordBefore, wordAt_of_getElem? h, hc]

theorem holds_wordEdge_size (h : t[p]? = some c) (hc : isWord c = true) (hp : p + 1 = t.size) :
    Assertion.wordEdge.holds t t.size = true := by
  rw [Assertion.holds, wordAt_size, ← hp, wordBefore_succ, wordAt_of_getElem? h, hc]
  rfl

/-- A text that ends with a word has an edge at its end. -/
theorem holds_wordEdge_end (hc : isWord c = true) :
    Assertion.wordEdge.holds (w ++ [c]).toArray (w ++ [c]).length = true := by
  have hlast : (w ++ [c]).toArray[w.length]? = some c := by simp
  have hholds := holds_wordEdge_size hlast hc (by simp)
  rwa [List.size_toArray] at hholds

/-- There is no edge inside a word. -/
theorem not_holds_wordEdge (h : t[p]? = some c) (hc : isWord c = true) (h' : t[p + 1]? = some d)
    (hd : isWord d = true) : Assertion.wordEdge.holds t (p + 1) = false := by
  simp [Assertion.holds, wordBefore_succ, wordAt_of_getElem? h, wordAt_of_getElem? h', hc, hd]

theorem not_holds_wordEdge_between (hc : isWord c = true) (hd : isWord d = true) :
    Assertion.wordEdge.holds (u ++ c :: d :: v).toArray (u.length + 1) = false := by
  refine not_holds_wordEdge (c := c) (d := d) (by simp) hc ?_ hd
  rw [List.getElem?_toArray, List.getElem?_append_right (Nat.le_succ _),
    Nat.succ_sub le_rfl, Nat.sub_self]
  rfl

/-- A text of word characters has edges at its ends only. -/
theorem eq_zero_or_size_of_holds (hall : ∀ c ∈ t.toList, isWord c = true) (hq : q ≤ t.size)
    (h : Assertion.wordEdge.holds t q = true) : q = 0 ∨ q = t.size := by
  by_contra hinside
  rw [not_or] at hinside
  obtain ⟨p, rfl⟩ := Nat.exists_eq_succ_of_ne_zero hinside.1
  have hlt : p + 1 < t.size := Nat.lt_of_le_of_ne hq hinside.2
  have hword (i : Nat) (hi : i < t.size) : isWord t[i] = true := hall _ (by simp)
  rw [not_holds_wordEdge (Array.getElem?_eq_getElem (by omega)) (hword p (by omega))
    (Array.getElem?_eq_getElem hlt) (hword (p + 1) hlt)] at h
  cases h

namespace Expr

/-- Where a word begins or ends. -/
def edge : Expr := assert .wordEdge

/-- Expressions in a row, and then a word edge. -/
def upToEdge : List Expr → Expr
  | [] => edge
  | e :: es => seq e (upToEdge es)

variable {es : List Expr}

theorem language_upToEdge (es : List Expr) : (upToEdge es).language = (es.map language).prod := by
  induction es with
  | nil => rfl
  | cons e es ih =>
    rw [upToEdge, language, ih]
    rfl

/-- What ends at a word edge does so. -/
theorem holds_of_spans_upToEdge (h : (upToEdge es).Spans t p q) :
    Assertion.wordEdge.holds t q = true := by
  induction es generalizing p with
  | nil =>
    obtain ⟨hedge, rfl⟩ := h
    exact hedge
  | cons e es ih =>
    obtain ⟨m, -, h⟩ := h
    exact ih h

/-- **Every word of the language is taken** where it stands before a word edge. -/
theorem spans_upToEdge (hfree : ∀ e ∈ es, e.isFree = true) (hw : w ∈ (es.map language).prod)
    (hshows : Shows t p w) (hedge : Assertion.wordEdge.holds t (p + w.length) = true) :
    (upToEdge es).Spans t p (p + w.length) := by
  induction es generalizing p w with
  | nil =>
    obtain rfl : w = [] := hw
    exact ⟨hedge, rfl⟩
  | cons e es ih =>
    obtain ⟨u, hu, v, hv, rfl⟩ := Language.mem_mul.1 hw
    obtain ⟨hshows, hshows'⟩ := shows_append.1 hshows
    rw [List.length_append, ← Nat.add_assoc] at hedge ⊢
    refine ⟨_, spans_of_mem (hfree e List.mem_cons_self) hu hshows, ?_⟩
    exact ih (fun e he => hfree e (List.mem_cons_of_mem _ he)) hv hshows' hedge

/-- In a text of word characters, what takes something up to an edge takes all of the text. -/
theorem eq_size_of_spans {e : Expr} (hall : ∀ c ∈ t.toList, isWord c = true)
    (hwidth : 0 < (seq e (upToEdge es)).minWidth)
    (hregular : (seq e (upToEdge es)).isRegular = true)
    (h : (seq e (upToEdge es)).Spans t 0 q) : q = t.size := by
  have hbound := spans_width hregular (Nat.zero_le _) h
  obtain ⟨m, -, h⟩ := h
  have hedge := eq_zero_or_size_of_holds hall hbound.2 (holds_of_spans_upToEdge h)
  omega

end Expr

/-! ## Texts that break -/

/-- Two beginnings of a text that break at a character of some kind, which neither holds before,
are the same. -/
theorem eq_of_break {f : Char → Bool} (hu : ∀ c ∈ u, f c = true) (hv : ∀ c ∈ v, f c = true)
    (hc : f c = false) (hd : f d = false) (h : Shows t p (u ++ [c])) (h' : Shows t p (v ++ [d])) :
    u = v := by
  have htake {w : List Char} {c : Char} (hw : ∀ c ∈ w, f c = true) (hc : f c = false)
      (h : Shows t p (w ++ [c])) : (t.toList.drop p).takeWhile f = w := by
    obtain ⟨rest, hrest⟩ := h
    rw [← hrest, List.append_assoc, List.takeWhile_append_of_pos hw]
    simp [hc]
  exact (htake hu hc h).symm.trans (htake hv hd h')

end ModeStack.Regex
