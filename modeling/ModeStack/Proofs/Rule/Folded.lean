import ModeStack.Proofs.Regex.Folded
import ModeStack.Proofs.Rule.Naive

/-!
# Rules that ignore case

A rule set searches with the joined patterns of its rules, of all and of those from a later place
on. Where each of these is read as a folded expression (`RuleSet.readsFolded`), searches find the
same in texts that differ in case only (`RuleSet.find_recased`).

Rules that stand for themselves are joined into a folded expression if each is read as one alone
(`readsFolded_of_selfContained`). In general a flag that one rule sets can change how the next is
read.
-/

namespace ModeStack.Rule

open ModeStack.Regex

/-- Whether the joined patterns of rules are read as a folded expression. -/
def readsFolded (clauses : List Clause) : Bool :=
  Pattern.readsFolded (alternation true (clauses.map (·.part))).1

/-! ## Searching -/

section Search

variable {clauses : List Clause} {t t' : Text}

theorem Combined.search_recased {c : Combined} (hc : combine true clauses = .ok c)
    (hfolded : readsFolded clauses = true) (ht : t.Recased t') (pos : Nat) :
    c.search t' pos = c.search t pos := by
  obtain ⟨regex, hregex, hc⟩ := exists_of_bind_eq_ok hc
  cases hc
  unfold search
  rw [Regex.search_recased hregex hfolded ht]

namespace RuleSet

/-- Whether the joined rules from each place on are read as a folded expression. -/
def readsFolded (s : RuleSet) : Bool :=
  (List.range s.size).all fun first => Rule.readsFolded (s.clauses.toList.drop first)

variable {s : RuleSet} (hbuild : build true clauses = .ok s) (hfolded : s.readsFolded = true)
  (ht : t.Recased t')

include hbuild hfolded ht

theorem search_recased (first pos : Nat) : s.search first t' pos = s.search first t pos := by
  obtain ⟨hclauses, hnone, hfrom⟩ := from?_of_build hbuild
  unfold search
  by_cases hlt : first < clauses.length
  · have hfirst : Rule.readsFolded (clauses.drop first) = true := by
      have hmem : first ∈ List.range s.size := by simpa [size, hclauses] using hlt
      simpa only [hclauses] using List.all_eq_true.1 hfolded first hmem
    rw [(hfrom first hlt).2]
    cases hc : combine true (clauses.drop first) with
    | error err => rfl
    | ok c =>
      show (c.search t' pos).bind _ = (c.search t pos).bind _
      rw [Combined.search_recased hc hfirst ht]
  · rw [hnone first (Nat.le_of_not_lt hlt)]
    rfl

/-- **Rules find the same** in texts that differ in case, after a rejection too. -/
theorem find_recased (pos : Nat) (resume : Option Nat) :
    s.find t' pos resume = s.find t pos resume := by
  have hsearch (first pos : Nat) := search_recased hbuild hfolded ht first pos
  unfold find
  simp only [hsearch, ht.next?_eq]

end RuleSet

end Search

/-! ## Rules that stand for themselves -/

theorem isFolded_ofAlternatives {e : Expr} {es : List Expr} (he : e.isFolded = true)
    (hes : ∀ e ∈ es, e.isFolded = true) : (Expr.ofAlternatives e es).isFolded = true := by
  induction es generalizing e with
  | nil => exact he
  | cons f fs ih =>
    rw [Expr.ofAlternatives, Expr.isFolded, Bool.and_eq_true]
    exact ⟨he, ih (hes f List.mem_cons_self) fun e hmem => hes e (List.mem_cons_of_mem f hmem)⟩

theorem isFolded_partExprs {before : Nat} {bodies : List Body}
    (h : ∀ body ∈ bodies, body.expr.isFolded = true) :
    ∀ e ∈ partExprs before bodies, e.isFolded = true := by
  induction bodies generalizing before with
  | nil => simp [partExprs]
  | cons body bodies ih =>
    intro e he
    rcases List.mem_cons.1 he with rfl | he
    · rw [partExpr, Expr.isFolded, Expr.isFolded_shift]
      exact h body List.mem_cons_self
    · exact ih (fun body hmem => h body (List.mem_cons_of_mem _ hmem)) e he

/-- The text of a part means a folded expression if its pattern is read as one. -/
theorem isFolded_body {part : Part} {p : Pattern} {m : Movable} (hstands : Stands part m)
    (hp : Pattern.compile true part.source = .ok p)
    (hfolded : Pattern.readsFolded part.source = true) :
    (m.body (sharedFlags true)).expr.isFolded = true := by
  obtain ⟨regex, hregex, -⟩ := exists_of_bind_eq_ok hp
  obtain ⟨⟨e, groups⟩, hparse, -⟩ := exists_of_bind_eq_ok hregex
  obtain ⟨he, -⟩ := of_parse_flagged hstands.text hparse
  have hfolded : e.isFolded = true := by
    rwa [Pattern.readsFolded, Regex.readsFolded, hparse] at hfolded
  rwa [he, Expr.isFolded_shift] at hfolded

/-- **Rules that stand for themselves are joined into a folded expression** if each is read as
one. -/
theorem readsFolded_of_selfContained {clauses : List Clause} {ps : List Pattern}
    (hrules : List.Forall₂ (fun clause p => SelfContained true clause.part p) clauses ps)
    (hfolded : ∀ clause ∈ clauses, Pattern.readsFolded clause.part.source = true)
    (hne : clauses ≠ []) : readsFolded clauses = true := by
  obtain ⟨ms, plans, hcast⟩ := exists_cast hrules
  have hmeans : ∀ body ∈ ms.map (·.body (sharedFlags true)), body.expr.isFolded = true := by
    intro body hbody
    obtain ⟨m, hm, rfl⟩ := List.mem_map.1 hbody
    obtain ⟨i, hi⟩ := List.mem_iff_getElem?.1 hm
    obtain ⟨part, hpart, hstands⟩ := exists_getElem?_of_forall₂' hcast.stands hi
    rw [List.getElem?_map] at hpart
    obtain ⟨clause, hclause, rfl⟩ := Option.map_eq_some_iff.1 hpart
    obtain ⟨p, -, hself⟩ := exists_getElem?_of_forall₂ hrules hclause
    exact isFolded_body hstands hself.compiles (hfolded clause (List.mem_of_getElem? hclause))
  cases ms with
  | nil => exact absurd (List.map_eq_nil_iff.1 (List.forall₂_nil_right_iff.1 hcast.stands)) hne
  | cons m ms =>
    unfold readsFolded Pattern.readsFolded Regex.readsFolded
    cases hparse : parse (Pattern.flagged true (alternation true (clauses.map (·.part))).1) with
    | error err => rfl
    | ok x =>
      obtain ⟨haccepts, hmixed⟩ := accepts_of_parse hcast.stands hcast.terse hparse
      rw [parse_joined hcast.stands hcast.terse haccepts hmixed] at hparse
      cases hparse
      have hall : ∀ e ∈ partExprs 0 (bodies (.start true) (m :: ms)), e.isFolded = true := by
        rw [bodies_of_steady rfl hcast.steady]
        exact isFolded_partExprs hmeans
      exact isFolded_ofAlternatives (hall _ List.mem_cons_self) fun e he =>
        hall e (List.mem_cons_of_mem _ he)

theorem RuleSet.readsFolded_of_selfContained {s : RuleSet} {ps : List Pattern}
    (hrules : List.Forall₂ (fun clause p => SelfContained true clause.part p) s.clauses.toList ps)
    (hfolded : ∀ clause ∈ s.clauses, Pattern.readsFolded clause.part.source = true) :
    s.readsFolded = true := by
  refine List.all_eq_true.2 fun first hfirst => ?_
  have hlt : first < s.clauses.toList.length := by simpa [size] using hfirst
  refine Rule.readsFolded_of_selfContained (List.forall₂_drop first hrules) (fun clause hclause =>
    hfolded clause (Array.mem_toList_iff.1 (List.mem_of_mem_drop hclause))) fun hnil => ?_
  rw [List.drop_eq_nil_iff] at hnil
  omega

end ModeStack.Rule
