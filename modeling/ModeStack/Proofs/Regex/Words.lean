import Mathlib.Computability.Language
import ModeStack.Proofs.Regex.Spans

/-!
# The words an expression takes

What an expression takes from a text is a word of its `language`, by recursion on the expression
(`Spans.exists_word`), and without assertions every word of the language is taken wherever it stands
(`spans_of_mem`). Where the language is finite and small, `Expr.words?` lists it.

A few closed properties of languages say what their words can begin with (`Opens`), end with
(`Closes`) and consist of (`Over`).
-/

namespace ModeStack.Regex

open scoped Computability

variable {t : Text} {p q : Nat} {c : Char} {u v w : List Char}

/-! ## Words in a text -/

/-- The word stands in the text from the position on. -/
def Shows (t : Text) (p : Nat) (w : List Char) : Prop := w <+: t.toList.drop p

theorem shows_nil : Shows t p [] := List.nil_prefix

theorem shows_append : Shows t p (u ++ v) ↔ Shows t p u ∧ Shows t (p + u.length) v := by
  unfold Shows
  rw [← List.drop_drop]
  generalize t.toList.drop p = cs
  constructor
  · rintro ⟨rest, rfl⟩
    exact ⟨⟨v ++ rest, by simp⟩, ⟨rest, by simp⟩⟩
  · rintro ⟨⟨rest, rfl⟩, hv⟩
    rw [List.drop_left] at hv
    obtain ⟨rest, rfl⟩ := hv
    exact ⟨rest, by simp⟩

theorem shows_singleton : Shows t p [c] ↔ t[p]? = some c := by
  unfold Shows
  rw [← Array.getElem?_toList, ← List.head?_drop]
  cases t.toList.drop p with
  | nil => simp
  | cons d rest => simp [List.cons_prefix_cons, eq_comm]

theorem shows_cons : Shows t p (c :: w) ↔ t[p]? = some c ∧ Shows t (p + 1) w := by
  rw [← List.singleton_append, shows_append, shows_singleton]
  rfl

/-- What is read from the start on is a beginning of the text. -/
theorem shows_zero {t : List Char} : Shows t.toArray 0 w ↔ w <+: t := Iff.rfl

theorem Shows.le_size (h : Shows t p w) (hp : p ≤ t.size) : p + w.length ≤ t.size := by
  have hle : w.length ≤ (t.toList.drop p).length := List.IsPrefix.length_le h
  have hsize : t.toList.length = t.size := Array.length_toList
  rw [List.length_drop] at hle
  omega

/-- The characters of a text that are read. -/
theorem Shows.getElem? (h : Shows t p w) {i : Nat} (hi : i < w.length) : t[p + i]? = w[i]? := by
  obtain ⟨rest, hrest⟩ := h
  rw [← Array.getElem?_toList, ← List.getElem?_drop, ← hrest, List.getElem?_append_left hi]

/-- What is read is determined by its length. -/
theorem Shows.eq_of_length (h : Shows t p u) (h' : Shows t p v) (hlength : u.length = v.length) :
    u = v :=
  (List.prefix_of_prefix_length_le h h' hlength.le).eq_of_length hlength

/-! ## Languages -/

/-- Words of one character that satisfies a predicate. -/
def oneOf (f : Char → Bool) : Language Char := {w | ∃ c, f c = true ∧ w = [c]}

/-- The words of a language repeated between bounds. -/
def repeats (l : Language Char) (lo : Nat) (hi : Option Nat) : Language Char :=
  {w | ∃ n, lo ≤ n ∧ (∀ m ∈ hi, n ≤ m) ∧ w ∈ l ^ n}

variable {f : Char → Bool} {l m : Language Char} {P Q : Char → Prop}

theorem mem_oneOf : w ∈ oneOf f ↔ ∃ c, f c = true ∧ w = [c] := Iff.rfl

theorem mem_repeats {lo : Nat} {hi : Option Nat} :
    w ∈ repeats l lo hi ↔ ∃ n, lo ≤ n ∧ (∀ m ∈ hi, n ≤ m) ∧ w ∈ l ^ n := Iff.rfl

theorem repeats_zero_none (l : Language Char) : repeats l 0 none = l∗ := by
  ext w
  rw [Language.kstar_eq_iSup_pow, Language.mem_iSup]
  simp [mem_repeats]

theorem repeats_one_none (l : Language Char) : repeats l 1 none = l * l∗ := by
  ext w
  rw [Language.kstar_eq_iSup_pow, Language.mul_iSup, Language.mem_iSup, mem_repeats]
  constructor
  · rintro ⟨n, hn, -, hw⟩
    exact ⟨n - 1, by rwa [← pow_succ', Nat.sub_add_cancel hn]⟩
  · rintro ⟨n, hw⟩
    exact ⟨n + 1, by omega, by simp, by rwa [pow_succ']⟩

theorem repeats_zero_one (l : Language Char) : repeats l 0 (some 1) = 1 + l := by
  ext w
  rw [Language.mem_add, mem_repeats]
  constructor
  · rintro ⟨n, -, hn, hw⟩
    obtain rfl | rfl : n = 0 ∨ n = 1 := by
      have := hn 1 rfl
      omega
    · exact .inl (by rwa [pow_zero] at hw)
    · exact .inr (by rwa [pow_one] at hw)
  · rintro (hw | hw)
    · exact ⟨0, le_rfl, by simp, by rwa [pow_zero]⟩
    · exact ⟨1, by omega, by simp, by rwa [pow_one]⟩

/-- Every word consists of such characters. -/
def Over (P : Char → Prop) (l : Language Char) : Prop := ∀ w ∈ l, ∀ c ∈ w, P c

/-- Every word begins with such a character. -/
def Opens (P : Char → Prop) (l : Language Char) : Prop := ∀ w ∈ l, ∃ c u, w = c :: u ∧ P c

/-- Every word ends with such a character. -/
def Closes (P : Char → Prop) (l : Language Char) : Prop := ∀ w ∈ l, ∃ u c, w = u ++ [c] ∧ P c

theorem over_one : Over P 1 := by
  rintro w rfl c hc
  cases hc

theorem over_oneOf (h : ∀ c, f c = true → P c) : Over P (oneOf f) := by
  rintro w ⟨c, hc, rfl⟩ d hd
  rw [List.mem_singleton.1 hd]
  exact h c hc

theorem Over.mono (h : Over P l) (hPQ : ∀ c, P c → Q c) : Over Q l :=
  fun w hw c hc => hPQ c (h w hw c hc)

theorem Over.mul (hl : Over P l) (hm : Over P m) : Over P (l * m) := by
  rintro w hw c hc
  obtain ⟨u, hu, v, hv, rfl⟩ := Language.mem_mul.1 hw
  exact (List.mem_append.1 hc).elim (hl u hu c) (hm v hv c)

theorem Over.add (hl : Over P l) (hm : Over P m) : Over P (l + m) :=
  fun w hw => ((Language.mem_add l m w).1 hw).elim (hl w) (hm w)

theorem Over.optional (hl : Over P l) : Over P (1 + l) := over_one.add hl

theorem Over.kstar (hl : Over P l) : Over P l∗ := by
  rintro w hw c hc
  obtain ⟨words, rfl, hwords⟩ := Language.mem_kstar.1 hw
  obtain ⟨u, hu, hc⟩ := List.mem_flatten.1 hc
  exact hl u (hwords u hu) c hc

theorem opens_oneOf (h : ∀ c, f c = true → P c) : Opens P (oneOf f) := by
  rintro w ⟨c, hc, rfl⟩
  exact ⟨c, [], rfl, h c hc⟩

theorem Opens.mul (hl : Opens P l) (m : Language Char) : Opens P (l * m) := by
  intro w hw
  obtain ⟨u, hu, v, hv, rfl⟩ := Language.mem_mul.1 hw
  obtain ⟨c, u, rfl, hc⟩ := hl u hu
  exact ⟨c, u ++ v, rfl, hc⟩

theorem Opens.add (hl : Opens P l) (hm : Opens P m) : Opens P (l + m) :=
  fun w hw => ((Language.mem_add l m w).1 hw).elim (hl w) (hm w)

theorem Opens.optional_mul (hl : Opens P l) (hm : Opens P m) : Opens P ((1 + l) * m) := by
  rw [add_mul, one_mul]
  exact hm.add (hl.mul m)

theorem Opens.mono (h : Opens P l) (hPQ : ∀ c, P c → Q c) : Opens Q l := by
  intro w hw
  obtain ⟨c, u, rfl, hc⟩ := h w hw
  exact ⟨c, u, rfl, hPQ c hc⟩

theorem closes_oneOf (h : ∀ c, f c = true → P c) : Closes P (oneOf f) := by
  rintro w ⟨c, hc, rfl⟩
  exact ⟨[], c, rfl, h c hc⟩

theorem Closes.mul (l : Language Char) (hm : Closes P m) : Closes P (l * m) := by
  intro w hw
  obtain ⟨u, hu, v, hv, rfl⟩ := Language.mem_mul.1 hw
  obtain ⟨v, c, rfl, hc⟩ := hm v hv
  exact ⟨u ++ v, c, by simp, hc⟩

theorem Closes.add (hl : Closes P l) (hm : Closes P m) : Closes P (l + m) :=
  fun w hw => ((Language.mem_add l m w).1 hw).elim (hl w) (hm w)

theorem Closes.mul_optional (hl : Closes P l) (hm : Closes P m) : Closes P (l * (1 + m)) := by
  rw [mul_add, mul_one]
  exact hl.add (hm.mul l)

theorem Closes.mul_kstar (hl : Closes P l) (hm : Closes P m) : Closes P (l * m∗) := by
  intro w hw
  obtain ⟨u, hu, v, hv, rfl⟩ := Language.mem_mul.1 hw
  obtain ⟨words, rfl, hwords⟩ := Language.mem_kstar.1 hv
  rcases List.eq_nil_or_concat words with rfl | ⟨words, last, rfl⟩
  · simpa using hl u hu
  · obtain ⟨v, c, rfl, hc⟩ := hm last (hwords last (by simp))
    exact ⟨u ++ words.flatten ++ v, c, by simp, hc⟩

namespace Expr

/-! ## The language of an expression -/

/-- The words an expression takes, assertions aside. -/
def language : Expr → Language Char
  | empty | assert _ => 1
  | char c false => oneOf (· = c)
  | char c true => oneOf (Text.sameUpToCase c)
  | any newline => oneOf fun c => newline || c ≠ '\n'
  | set s ignoreCase => oneOf (s.contains ignoreCase)
  | seq a b => a.language * b.language
  | alt a b => a.language + b.language
  | group _ e => e.language
  | rep e lo hi _ => repeats e.language lo hi
  | _ => 0

/-- Whether an expression takes every word of its language wherever it stands. -/
def isFree : Expr → Bool
  | empty | char .. | any _ | set .. => true
  | seq a b | alt a b => a.isFree && b.isFree
  | group _ e | rep e _ _ _ => e.isFree
  | _ => false

theorem SpansOne.exists_word (h : SpansOne t f p q) :
    ∃ w ∈ oneOf f, Shows t p w ∧ q = p + w.length := by
  obtain ⟨rfl, c, hc, hf⟩ := h
  exact ⟨[c], ⟨c, hf, rfl⟩, shows_singleton.2 hc, rfl⟩

theorem spansOne_of_mem (hw : w ∈ oneOf f) (hshows : Shows t p w) :
    SpansOne t f p (p + w.length) := by
  obtain ⟨c, hc, rfl⟩ := hw
  exact ⟨rfl, c, shows_singleton.1 hshows, hc⟩

/-- **What an expression takes** is a word of its language. -/
theorem Spans.exists_word {e : Expr} (h : e.Spans t p q) :
    ∃ w ∈ e.language, Shows t p w ∧ q = p + w.length := by
  induction e generalizing p q with
  | empty => exact ⟨[], rfl, shows_nil, h⟩
  | assert a => exact ⟨[], rfl, shows_nil, h.2⟩
  | char c ignoreCase => cases ignoreCase <;> exact SpansOne.exists_word h
  | any newline => exact SpansOne.exists_word h
  | set s ignoreCase => exact SpansOne.exists_word h
  | seq a b iha ihb =>
    obtain ⟨m, ha, hb⟩ := h
    obtain ⟨u, hu, hshows, rfl⟩ := iha ha
    obtain ⟨v, hv, hshows', rfl⟩ := ihb hb
    refine ⟨u ++ v, Language.append_mem_mul hu hv, shows_append.2 ⟨hshows, hshows'⟩, ?_⟩
    rw [List.length_append, Nat.add_assoc]
  | alt a b iha ihb =>
    rcases h with ha | hb
    · obtain ⟨w, hw, hshows⟩ := iha ha
      exact ⟨w, .inl hw, hshows⟩
    · obtain ⟨w, hw, hshows⟩ := ihb hb
      exact ⟨w, .inr hw, hshows⟩
  | group index e ih => exact ih h
  | rep e lo hi greedy ih =>
    obtain ⟨count, hlo, hhi, hsteps⟩ := h
    have hpow : ∃ w ∈ e.language ^ count, Shows t p w ∧ q = p + w.length := by
      clear hlo hhi
      induction count generalizing p with
      | zero => exact ⟨[], rfl, shows_nil, hsteps⟩
      | succ count ihc =>
        obtain ⟨m, hm, hsteps⟩ := hsteps
        obtain ⟨u, hu, hshows, rfl⟩ := ih hm
        obtain ⟨v, hv, hshows', rfl⟩ := ihc hsteps
        refine ⟨u ++ v, ?_, shows_append.2 ⟨hshows, hshows'⟩, by simp [Nat.add_assoc]⟩
        rw [pow_succ']
        exact Language.append_mem_mul hu hv
    obtain ⟨w, hw, hshows⟩ := hpow
    exact ⟨w, ⟨count, hlo, hhi, hw⟩, hshows⟩
  | _ => cases h

/-- Without assertions, **every word of the language is taken**. -/
theorem spans_of_mem {e : Expr} (he : e.isFree = true) (hw : w ∈ e.language)
    (hshows : Shows t p w) : e.Spans t p (p + w.length) := by
  induction e generalizing p w with
  | empty =>
    obtain rfl : w = [] := hw
    rfl
  | char c ignoreCase => cases ignoreCase <;> exact spansOne_of_mem hw hshows
  | any newline => exact spansOne_of_mem hw hshows
  | set s ignoreCase => exact spansOne_of_mem hw hshows
  | seq a b iha ihb =>
    obtain ⟨ha, hb⟩ := Bool.and_eq_true_iff.1 he
    obtain ⟨u, hu, v, hv, rfl⟩ := Language.mem_mul.1 hw
    obtain ⟨hshows, hshows'⟩ := shows_append.1 hshows
    rw [List.length_append, ← Nat.add_assoc]
    exact ⟨_, iha ha hu hshows, ihb hb hv hshows'⟩
  | alt a b iha ihb =>
    obtain ⟨ha, hb⟩ := Bool.and_eq_true_iff.1 he
    rcases hw with hw | hw
    · exact .inl (iha ha hw hshows)
    · exact .inr (ihb hb hw hshows)
  | group index e ih => exact ih he hw hshows
  | rep e lo hi greedy ih =>
    obtain ⟨count, hlo, hhi, hw⟩ := hw
    refine ⟨count, hlo, hhi, ?_⟩
    clear hlo hhi
    induction count generalizing p w with
    | zero =>
      obtain rfl : w = [] := by rwa [pow_zero] at hw
      rfl
    | succ count ihc =>
      rw [pow_succ'] at hw
      obtain ⟨u, hu, v, hv, rfl⟩ := Language.mem_mul.1 hw
      obtain ⟨hshows, hshows'⟩ := shows_append.1 hshows
      rw [List.length_append, ← Nat.add_assoc]
      exact ⟨_, ih he hu hshows, ihc hshows' hv⟩
  | _ => cases he

/-! ## First characters -/

/-- Whether something that an expression takes may begin with the character. -/
def mayBegin (c : Char) : Expr → Bool
  | empty | assert _ => false
  | char d false => d = c
  | char d true => Text.sameUpToCase d c
  | any newline => newline || c ≠ '\n'
  | set s ignoreCase => s.contains ignoreCase c
  | seq a b => a.mayBegin c || (a.minWidth = 0 && b.mayBegin c)
  | alt a b => a.mayBegin c || b.mayBegin c
  | group _ e | rep e _ _ _ => e.mayBegin c
  | _ => true

theorem SpansOne.holds (h : SpansOne t f p q) (hc : t[p]? = some c) : f c = true := by
  obtain ⟨-, d, hd, hf⟩ := h
  cases hc.symm.trans hd
  exact hf

theorem mayBegin_of_spans {e : Expr} (he : e.isRegular = true) (hp : p ≤ t.size)
    (h : e.Spans t p q) (hlt : p < q) (hc : t[p]? = some c) : e.mayBegin c = true := by
  induction e generalizing p q with
  | empty => exact absurd h hlt.ne'
  | assert a => exact absurd h.2 hlt.ne'
  | char d ignoreCase =>
    cases ignoreCase with
    | false => exact decide_eq_true (of_decide_eq_true (SpansOne.holds h hc)).symm
    | true => exact SpansOne.holds h hc
  | any newline => exact SpansOne.holds h hc
  | set s ignoreCase => exact SpansOne.holds h hc
  | seq a b iha ihb =>
    obtain ⟨ha, hb⟩ := Bool.and_eq_true_iff.1 he
    obtain ⟨m, hm, h⟩ := h
    have hwidth := spans_width ha hp hm
    rw [mayBegin, Bool.or_eq_true, Bool.and_eq_true, decide_eq_true_eq]
    rcases Nat.eq_or_lt_of_le (Nat.le_trans (Nat.le_add_right p a.minWidth) hwidth.1) with rfl | hlt'
    · exact .inr ⟨by omega, ihb hb hp h hlt hc⟩
    · exact .inl (iha ha hp hm hlt' hc)
  | alt a b iha ihb =>
    obtain ⟨ha, hb⟩ := Bool.and_eq_true_iff.1 he
    rw [mayBegin, Bool.or_eq_true]
    exact h.imp (iha ha hp · hlt hc) (ihb hb hp · hlt hc)
  | group index e ih => exact ih he hp h hlt hc
  | rep e lo hi greedy ih =>
    obtain ⟨hbody, -⟩ := Bool.and_eq_true_iff.1 (Bool.and_eq_true_iff.1 he).1
    obtain ⟨count, -, -, hsteps⟩ := h
    induction count generalizing p with
    | zero => exact absurd hsteps hlt.ne'
    | succ count ihc =>
      obtain ⟨m, hm, hsteps⟩ := hsteps
      have hwidth := spans_width hbody hp hm
      rcases Nat.eq_or_lt_of_le (Nat.le_trans (Nat.le_add_right p e.minWidth) hwidth.1) with
        rfl | hlt'
      · exact ihc hp hlt hc hsteps
      · exact ih hbody hp hm hlt' hc
  | _ => cases he

/-- **An expression refuses a text that begins otherwise.** -/
theorem refuses_of_not_mayBegin {e : Expr} (he : e.isRegular = true) (hwidth : 0 < e.minWidth)
    (hc : t[p]? = some c) (hno : e.mayBegin c = false) (q : Nat) : ¬e.Spans t p q := by
  intro h
  have hp : p ≤ t.size := (Array.getElem?_eq_some_iff.1 hc).1.le
  have hle := (spans_width he hp h).1
  rw [mayBegin_of_spans he hp h (by omega) hc] at hno
  cases hno

end Expr

/-! ## Finite languages -/

/-- The members of a set that is written out. -/
def CharSet.members? : CharSet → Option (List Char)
  | none => some []
  | range lo hi =>
    -- The numbers below are all those of characters.
    if hi.toNat < 0xd800 then
      some ((List.range' lo.toNat (hi.toNat + 1 - lo.toNat)).map Char.ofNat)
    else .none
  | union a b => do return (← a.members?) ++ (← b.members?)
  | bracket false s => s.members?
  | _ => .none

theorem CharSet.contains_iff_of_members? {s : CharSet} {cs : List Char}
    (h : s.members? = some cs) (c : Char) : s.contains false c = true ↔ c ∈ cs := by
  induction s generalizing cs with
  | none =>
    cases h
    simp [contains]
  | range lo hi =>
    simp only [members?] at h
    split_ifs at h with hlow
    cases h
    simp only [contains, Bool.and_eq_true, decide_eq_true_eq, List.mem_map, List.mem_range'_1]
    constructor
    · rintro ⟨hlo, hhi⟩
      have hlo : lo.toNat ≤ c.toNat := hlo
      have hhi : c.toNat ≤ hi.toNat := hhi
      exact ⟨c.toNat, ⟨hlo, by omega⟩, Char.ofNat_toNat c⟩
    · rintro ⟨n, ⟨hlo, hhi⟩, rfl⟩
      have hn : (Char.ofNat n).toNat = n := by
        unfold Char.ofNat
        rw [dif_pos (.inl (by omega))]
        rfl
      show lo.toNat ≤ (Char.ofNat n).toNat ∧ (Char.ofNat n).toNat ≤ hi.toNat
      omega
  | union a b iha ihb =>
    obtain ⟨as, ha, h⟩ := Option.bind_eq_some_iff.1 h
    obtain ⟨bs, hb, h⟩ := Option.bind_eq_some_iff.1 h
    cases h
    rw [contains, Bool.or_eq_true, iha ha, ihb hb, List.mem_append]
  | bracket negated s ih =>
    cases negated with
    | true => cases h
    | false =>
      rw [← ih h]
      simp [contains, upToCase]
  | _ => cases h

namespace Expr

/-- Words of a list in a row. -/
def powers (ws : List (List Char)) : (count : Nat) → List (List Char)
  | 0 => [[]]
  | count + 1 => ws.flatMap fun u => (powers ws count).map (u ++ ·)

/-- The words of a finite language. -/
def words? : Expr → Option (List (List Char))
  | empty | assert _ => some [[]]
  | char c false => some [[c]]
  | set s false => s.members?.map fun cs => cs.map ([·])
  | seq a b => do
    let us ← a.words?
    let vs ← b.words?
    return us.flatMap fun u => vs.map (u ++ ·)
  | alt a b => do return (← a.words?) ++ (← b.words?)
  | group _ e => e.words?
  | rep e lo (some hi) _ => do
    let ws ← e.words?
    return (List.range (hi + 1)).flatMap fun n => if lo ≤ n then powers ws n else []
  | _ => none

theorem mem_mul_iff {us vs : List (List Char)} (hl : ∀ w, w ∈ l ↔ w ∈ us)
    (hm : ∀ w, w ∈ m ↔ w ∈ vs) :
    w ∈ l * m ↔ w ∈ us.flatMap fun u => vs.map (u ++ ·) := by
  simp [Language.mem_mul, hl, hm]

theorem mem_pow_iff {ws : List (List Char)} (hl : ∀ w, w ∈ l ↔ w ∈ ws) (count : Nat) :
    w ∈ l ^ count ↔ w ∈ powers ws count := by
  induction count generalizing w with
  | zero => simp [powers]
  | succ count ih =>
    rw [pow_succ', powers]
    exact mem_mul_iff hl fun w => ih

/-- **The list holds the language.** -/
theorem mem_language_iff {e : Expr} {ws : List (List Char)} (h : e.words? = some ws) :
    w ∈ e.language ↔ w ∈ ws := by
  induction e generalizing ws w with
  | empty | assert _ =>
    cases h
    simp [language]
  | char c ignoreCase =>
    cases ignoreCase with
    | true => cases h
    | false =>
      cases h
      simp [language, mem_oneOf]
  | set s ignoreCase =>
    cases ignoreCase with
    | true => cases h
    | false =>
      obtain ⟨cs, hcs, rfl⟩ := Option.map_eq_some_iff.1 h
      simp only [language, mem_oneOf, CharSet.contains_iff_of_members? hcs, List.mem_map, eq_comm]
  | seq a b iha ihb =>
    obtain ⟨us, ha, h⟩ := Option.bind_eq_some_iff.1 h
    obtain ⟨vs, hb, h⟩ := Option.bind_eq_some_iff.1 h
    cases h
    exact mem_mul_iff (fun w => iha ha) fun w => ihb hb
  | alt a b iha ihb =>
    obtain ⟨us, ha, h⟩ := Option.bind_eq_some_iff.1 h
    obtain ⟨vs, hb, h⟩ := Option.bind_eq_some_iff.1 h
    cases h
    rw [language, Language.mem_add, iha ha, ihb hb, List.mem_append]
  | group index e ih => exact ih h
  | rep e lo hi greedy ih =>
    cases hi with
    | none => cases h
    | some hi =>
      obtain ⟨ws, hws, h⟩ := Option.bind_eq_some_iff.1 h
      cases h
      simp only [language, mem_repeats, mem_pow_iff fun w => ih hws, List.mem_flatMap,
        List.mem_range, Option.mem_some_iff, forall_eq']
      constructor
      · rintro ⟨n, hlo, hhi, hw⟩
        exact ⟨n, Nat.lt_succ_of_le hhi, by rwa [if_pos hlo]⟩
      · rintro ⟨n, hhi, hw⟩
        split_ifs at hw with hlo
        · exact ⟨n, hlo, Nat.le_of_lt_succ hhi, hw⟩
        · cases hw
  | _ => cases h

end Expr

end ModeStack.Regex
