import ModeStack.Proofs.Regex.Shift
import ModeStack.Proofs.Text.Case
import ModeStack.Pattern

/-!
# Patterns that ignore case

An expression is folded if it compares every letter up to case and refers to no group
(`Expr.isFolded`). That is how a pattern is read that ignores case, has no references and does not
clear the flag again. In texts that differ in case only, a folded expression ends at the same hits
(`ends_recased`), and so does every plan for it, whatever follows (`run_recased`). So the searches
of a pattern that is read as a folded expression find the same in both texts
(`search_recased`, `Pattern.find_recased`).

A captured text may differ in case, which is why references are excluded.
-/

namespace ModeStack.Regex

open ModeStack.Text

/-! ## Folded expressions -/

/-- Whether a property is the same for both cases of each letter. These are the properties with an
escape of their own; a set takes every other one up to case. -/
def Property.isCaseless : Property → Bool
  | word | digit | blank | hexDigit => true
  | _ => false

/-- Whether a set is the same for both cases of each letter. -/
def CharSet.isFolded (ignoreCase : Bool) : CharSet → Bool
  | named p _ => p.isCaseless
  | bracket _ _ => ignoreCase
  | _ => false

/-- Whether an expression compares letters up to case and refers to no group. -/
def Expr.isFolded : Expr → Bool
  | char c ignoreCase => ignoreCase || !isAsciiLetter c
  | set s ignoreCase => s.isFolded ignoreCase
  | seq a b | alt a b => a.isFolded && b.isFolded
  | group _ e | rep e _ _ _ | look _ _ e | atomic e => e.isFolded
  | ref .. => false
  | empty | any _ | assert _ | keep | resume => true

theorem Property.caseless_holds {p : Property} (hp : p.isCaseless = true) : Caseless p.holds := by
  cases p with
  | word => exact caseless_isWord
  | digit => exact caseless_isDigit
  | blank => exact caseless_isBlank
  | hexDigit => exact caseless_isHexDigit
  | _ => cases hp

theorem CharSet.caseless_contains {s : CharSet} {ignoreCase : Bool}
    (hs : s.isFolded ignoreCase = true) : Caseless (s.contains ignoreCase) := by
  cases s with
  | named p negated =>
    intro c
    have hc := p.caseless_holds hs c
    simp only [contains, hc]
  | bracket negated s =>
    have hignore : ignoreCase = true := hs
    subst hignore
    intro c
    have hc := caseless_upToCase (s.contains true) c
    simp only [contains, hc]
  | _ => cases hs

namespace Expr

theorem isFolded_spreadBehind (negated : Bool) (e : Expr) :
    (spreadBehind negated e).isFolded = e.isFolded := by
  induction e with
  | alt a b iha ihb =>
    rw [spreadBehind, isFolded, ← iha, ← ihb]
    cases negated <;> rfl
  | _ => rfl

theorem isFolded_spread (e : Expr) : e.spread.isFolded = e.isFolded := by
  induction e with
  | seq a b iha ihb | alt a b iha ihb => rw [spread, isFolded, isFolded, iha, ihb]
  | look d negated e ih =>
    cases d with
    | ahead => exact ih
    | behind => exact (isFolded_spreadBehind negated e.spread).trans ih
  | group _ e ih | rep e _ _ _ ih | atomic e ih => exact ih
  | _ => rfl

theorem isFolded_shift (n : Nat) (e : Expr) : (e.shift n).isFolded = e.isFolded := by
  induction e with
  | seq a b iha ihb | alt a b iha ihb => rw [shift, isFolded, isFolded, iha, ihb]
  | group _ e ih | rep e _ _ _ ih | look _ _ e ih | atomic e ih => exact ih
  | _ => rfl

end Expr

/-! ## Matching in recased texts -/

section Recased

variable {t t' : Text} (ht : t.Recased t') {origin : Nat}

include ht

theorem step_recased {p : Char → Bool} (hp : Caseless p) : Expr.step t' p = Expr.step t p := by
  funext h
  unfold Expr.step
  rcases ht.getElem?_cases h.pos with ⟨hnone, hnone'⟩ | ⟨c, c', hc, hc', hlower⟩
  · rw [hnone, hnone']
  · rw [hc, hc']
    simp only [hp.eq hlower]

theorem wordAt_recased (pos : Nat) : wordAt t' pos = wordAt t pos := by
  unfold wordAt
  rcases ht.getElem?_cases pos with ⟨hnone, hnone'⟩ | ⟨c, c', hc, hc', hlower⟩
  · rw [hnone, hnone']
  · rw [hc, hc']
    exact caseless_isWord.eq hlower

/-- Conditions on a position look at newlines and word characters only. -/
theorem holds_recased (pos : Nat) (a : Assertion) : a.holds t' pos = a.holds t pos := by
  have hsize := ht.size_eq
  have hnewline := ht.getElem?_eq_some_iff (by decide : isAsciiLetter '\n' = false)
  have hword : wordAt t' = wordAt t := funext (wordAt_recased ht)
  have hbefore : wordBefore t' pos = wordBefore t pos := by
    unfold wordBefore
    rw [hword]
  have hrest : (t'.extract pos t.size).all (· = '\n') = (t.extract pos t.size).all (· = '\n') :=
    (ht.extract pos t.size).all_eq (caseless_eq (by decide))
  cases a with
  | lastLineEnd => simpa only [Assertion.holds, hsize] using hrest
  | _ => simp only [Assertion.holds, hsize, hnewline, hword, hbefore]

/-- **A folded expression ends at the same hits** in texts that differ in case. -/
theorem ends_recased {e : Expr} (he : e.isFolded = true) :
    e.ends t' origin = e.ends t origin := by
  induction e with
  | char c ignoreCase =>
    cases ignoreCase with
    | true => exact step_recased ht (caseless_sameUpToCase c)
    | false =>
      have hletter : isAsciiLetter c = false := by simpa [Expr.isFolded] using he
      exact step_recased ht (caseless_eq hletter)
  | any newline =>
    refine step_recased ht (.of_letters ?_)
    cases newline <;> decide
  | set s ignoreCase => exact step_recased ht (CharSet.caseless_contains he)
  | assert a =>
    funext h
    simp only [Expr.ends, holds_recased ht]
  | seq a b iha ihb | alt a b iha ihb =>
    rw [Expr.isFolded, Bool.and_eq_true] at he
    funext h
    simp only [Expr.ends, iha he.1, ihb he.2]
  | rep e lo hi greedy ih =>
    funext h
    simp only [Expr.ends, ih he, ht.size_eq]
  | look d negated e ih =>
    funext h
    cases d <;> simp only [Expr.ends, ih he]
  | group _ e ih | atomic e ih =>
    funext h
    simp only [Expr.ends, ih he]
  | ref => cases he
  | empty | keep | resume => rfl

/-- **Every plan for a folded expression runs the same** in texts that differ in case. -/
theorem run_recased {e : Expr} (he : e.isFolded = true) {captured : List Nat} {revisited : Bool}
    {p : Plan} (hp : e.plan captured revisited = .ok p) : p.run t' origin = p.run t origin := by
  have direct {e : Expr} (he : e.isFolded = true) :
      (Plan.direct e).run t' origin = (Plan.direct e).run t origin := by
    funext k h budget
    rw [Plan.run, Plan.run, ends_recased ht he]
  induction e generalizing revisited p with
  | seq a b iha ihb | alt a b iha ihb =>
    have hab := he
    rw [Expr.isFolded, Bool.and_eq_true] at hab
    simp only [Expr.plan] at hp
    split_ifs at hp
    · cases hp
      exact direct he
    · obtain ⟨pa, hpa, hp⟩ := exists_of_bind_eq_ok hp
      obtain ⟨pb, hpb, hp⟩ := exists_of_bind_eq_ok hp
      cases hp
      funext k h budget
      simp only [Plan.run, iha hab.1 hpa, ihb hab.2 hpb]
  | group index e ih | rep e lo hi greedy ih =>
    simp only [Expr.plan] at hp
    split_ifs at hp
    · cases hp
      exact direct he
    · obtain ⟨p', hp', hp⟩ := exists_of_bind_eq_ok hp
      cases hp
      funext k h budget
      simp only [Plan.run, ih he hp', ht.size_eq]
  | look d negated e ih =>
    cases d with
    | ahead =>
      obtain ⟨p', hp', hp⟩ := exists_of_bind_eq_ok hp
      cases hp
      funext k h budget
      simp only [Plan.run, ih he hp']
    | behind =>
      simp only [Expr.plan] at hp
      split at hp
      · obtain ⟨p', hp', hp⟩ := exists_of_bind_eq_ok hp
        cases hp
        funext k h budget
        simp only [Plan.run, ih he hp']
      · split_ifs at hp
        cases hp
        exact direct he
  | atomic e ih =>
    obtain ⟨p', hp', hp⟩ := exists_of_bind_eq_ok hp
    cases hp
    funext k h budget
    simp only [Plan.run, ih he hp']
  | ref => cases he
  | _ =>
    cases hp
    exact direct he

end Recased

/-! ## Searching in recased texts -/

/-- Whether a pattern is read as a folded expression, if it can be read. -/
def readsFolded (pattern : String) : Bool :=
  match parse pattern with
  | .ok (e, _) => e.isFolded
  | .error _ => true

theorem searchFrom_congr {re : Regex} {t t' : Text} {origin : Nat}
    (hrun : re.plan.run t' origin = re.plan.run t origin) (rounds pos budget : Nat) :
    re.searchFrom t' origin rounds pos budget = re.searchFrom t origin rounds pos budget := by
  induction rounds generalizing pos budget with
  | zero => rfl
  | succ rounds ih => simp only [searchFrom, hrun, ih]

/-- **A pattern that is read as a folded expression finds the same** in texts that differ in
case. -/
theorem search_recased {pattern : String} {re : Regex} (hre : compile pattern = .ok re)
    (hfolded : readsFolded pattern = true) {t t' : Text} (ht : t.Recased t') (pos : Nat) :
    re.search t' pos = re.search t pos := by
  obtain ⟨⟨e, groups⟩, hparse, hre⟩ := exists_of_bind_eq_ok hre
  obtain ⟨plan, hplan, hre⟩ := exists_of_bind_eq_ok hre
  cases hre
  have he : e.spread.isFolded = true := by
    rw [Expr.isFolded_spread]
    change (match parse pattern with
      | .ok (e, _) => e.isFolded
      | .error _ => true) = true at hfolded
    rwa [hparse] at hfolded
  unfold search
  rw [ht.size_eq, searchFrom_congr (run_recased ht he hplan)]

end Regex

namespace Pattern

/-- Whether a pattern of a grammar that ignores case is read as a folded expression. -/
def readsFolded (source : String) : Bool :=
  Regex.readsFolded (flagged true source)

variable {source : String} {p : Pattern} (hp : compile true source = .ok p)
  (hfolded : readsFolded source = true) {t t' : Text} (ht : t.Recased t')

include hp hfolded ht

theorem find_recased (pos : Nat) : p.find t' pos = p.find t pos := by
  obtain ⟨regex, hregex, hp⟩ := Regex.exists_of_bind_eq_ok hp
  cases hp
  unfold find Regex.find
  rw [Regex.search_recased hregex hfolded ht]

theorem matchAt_recased (pos : Nat) : p.matchAt t' pos = p.matchAt t pos := by
  unfold matchAt
  rw [find_recased hp hfolded ht]

end Pattern

end ModeStack
