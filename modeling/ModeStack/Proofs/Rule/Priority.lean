import Mathlib.Data.Prod.Lex
import Mathlib.Order.Bounds.Basic
import ModeStack.Proofs.Rule.Naive

/-!
# The order in which rules match

Matches of rules are ordered by position first and then by the place of the rule. `find` gives the
least match from a position on or, after a rejection, from a rule at that position on
(`find_cases`): it searches the later rules only as far as the position, and all rules after it.

A search that is given up counts as one that finds nothing, so `find` misses what the search would
have come upon (`Misses`).
-/

namespace ModeStack.Rule

open ModeStack.Regex

/-- The pairs of a position and the place of a rule whose pattern matches there. -/
def matching (ps : List Pattern) (t : Text) : Set (ℕ ×ₗ ℕ) :=
  {x | ∃ p, ps[(ofLex x).2]? = some p ∧ (p.matchAt t (ofLex x).1).isSome}

/-- A match that is missed from `pos` on, or after a rejection, since the search for it is given up:
that of all rules from `pos` on, that of the later rules at `pos`, or that of all rules after
`pos`. -/
inductive Misses (s : RuleSet) (t : Text) (pos : Nat) : Option Nat → (ℕ ×ₗ ℕ) → Prop
  | all {x : ℕ ×ₗ ℕ} : s.GivesUp 0 t pos → toLex (pos, 0) ≤ x → Misses s t pos none x
  | later {k : Nat} {x : ℕ ×ₗ ℕ} : s.GivesUp k t pos → (ofLex x).1 = pos → k ≤ (ofLex x).2 →
      Misses s t pos (some k) x
  | onward {k : Nat} {x : ℕ ×ₗ ℕ} :
      (∀ found, s.search k t pos = some found → found.span.start ≠ pos) →
      s.GivesUp 0 t (pos + 1) → toLex (pos + 1, 0) ≤ x → Misses s t pos (some k) x

variable {ignoreCase : Bool} {clauses : List Clause} {ps : List Pattern} {t : Text} {pos : Nat}

/-- Nothing matches beyond the end of the text. -/
theorem matchAt_of_size_lt (p : Pattern) (hpos : t.size < pos) : p.matchAt t pos = none := by
  have hrounds : t.size + 1 - pos = 0 := by omega
  simp only [Pattern.matchAt, Pattern.find, Regex.find, Regex.search, hrounds, Regex.searchFrom,
    Option.map_none]

/-- What does not match. -/
theorem not_mem_matching {q i : Nat}
    (h : ∀ p, ps[i]? = some p → p.matchAt t q = none) : toLex (q, i) ∉ matching ps t := by
  rintro ⟨p, hp, hmatch⟩
  have hnone := h p hp
  simp only [ofLex_toLex] at hmatch
  rw [hnone] at hmatch
  cases hmatch

theorem NoMatch.not_mem {first q i : Nat} (h : NoMatch ps first t pos) (hq : pos ≤ q)
    (hi : first ≤ i) : toLex (q, i) ∉ matching ps t :=
  not_mem_matching fun p hp => h q hq i p hi hp

/-- The nearest match is not after any other at rules from `first` on. -/
theorem Nearest.le_of_mem {first index q i : Nat} {span : Span}
    (h : Nearest ps first t pos index span) (hq : pos ≤ q) (hi : first ≤ i)
    (hmem : toLex (q, i) ∈ matching ps t) :
    toLex (span.start, index) ≤ toLex (q, i) := by
  by_contra hlt
  rw [not_le, Prod.Lex.toLex_lt_toLex] at hlt
  rcases hlt with hlt | ⟨heq, hlt⟩
  · exact not_mem_matching (fun p hp => h.nearest q hq hlt i p hi hp) hmem
  · have heq : q = span.start := heq
    subst heq
    exact not_mem_matching (fun p hp => h.least i p hi hlt hp) hmem

theorem Nearest.mem_matching {first index : Nat} {span : Span}
    (h : Nearest ps first t pos index span) : toLex (span.start, index) ∈ matching ps t := by
  obtain ⟨p, hp, hmatch⟩ := h.matches_at
  exact ⟨p, hp, by simp only [ofLex_toLex, hmatch, Option.isSome_some]⟩

theorem NoMatch.lt_of_mem (h : NoMatch ps 0 t pos) (x : ℕ ×ₗ ℕ) (hx : x ∈ matching ps t) :
    x < toLex (pos, 0) := by
  by_contra hle
  exact h.not_mem (q := (ofLex x).1) (i := (ofLex x).2)
    (Prod.Lex.monotone_fst _ _ (not_lt.1 hle)) (Nat.zero_le _) hx

theorem Nearest.isLeast {index : Nat} {span : Span} (h : Nearest ps 0 t pos index span) :
    IsLeast {x ∈ matching ps t | toLex (pos, 0) ≤ x} (toLex (span.start, index)) := by
  refine ⟨⟨h.mem_matching, Prod.Lex.toLex_le_toLex.2 ?_⟩, fun x hx => ?_⟩
  · exact h.pos_le.lt_or_eq.imp_right fun heq => ⟨heq, Nat.zero_le _⟩
  · exact h.le_of_mem (q := (ofLex x).1) (i := (ofLex x).2) (Prod.Lex.monotone_fst _ _ hx.2)
      (Nat.zero_le _) hx.1

/-- A match of joined rules is that of a rule by itself. -/
structure FoundAlone (clauses : List Clause) (ps : List Pattern) (t : Text)
    (found : Found) : Prop where
  clause : ∃ clause, clauses[found.index]? = some clause ∧ clause.rule = found.rule
  pattern : ∃ p, ps[found.index]? = some p ∧ p.matchAt t found.span.start = some found.span.stop

/-! ## After a rejection -/

variable {s : RuleSet}

theorem RuleSet.not_givesUp {first : Nat} {found : Found} (h : s.search first t pos = some found) :
    ¬ s.GivesUp first t pos := fun hgives => by
  rw [RuleSet.search_of_givesUp hgives] at h
  cases h

theorem find_of_here {k : Nat} {found : Found}
    (hfound : s.search (k + 1) t pos = some found) (hstart : found.span.start = pos) :
    s.find t pos (some (k + 1)) = some found := by
  simp only [RuleSet.find, hfound, hstart, if_true]

/-- If no later rule matches at the position, all rules are searched after it. -/
theorem find_onward {k : Nat}
    (h : ∀ found, s.search (k + 1) t pos = some found → found.span.start ≠ pos) :
    s.find t pos (some (k + 1)) = (t.next? pos).bind (s.search 0 t) := by
  simp only [RuleSet.find]
  cases hfound : s.search (k + 1) t pos with
  | none => rfl
  | some found => exact if_neg (h found hfound)

variable (hrules : List.Forall₂ (fun clause p => SelfContained ignoreCase clause.part p) clauses ps)
  (hbuild : RuleSet.build ignoreCase clauses = .ok s)

include hrules hbuild

/-- One of the later rules matches at the position, or none does unless the search of them is given
up. -/
theorem later_cases (first : Nat) (t : Text) (pos : Nat) :
    (∃ found clause, s.search first t pos = some found ∧ found.span.start = pos ∧
      Nearest ps first t pos found.index found.span ∧ clauses[found.index]? = some clause ∧
      clause.rule = found.rule) ∨
    ((∀ found, s.search first t pos = some found → found.span.start ≠ pos) ∧
      (s.GivesUp first t pos ∨
        ∀ i p, first ≤ i → ps[i]? = some p → p.matchAt t pos = none)) := by
  rcases search_cases hrules hbuild first t pos with
    ⟨hgives, hnothing⟩ | ⟨-, hnothing, hno⟩ |
    ⟨-, found, clause, hfound, hnearest, hclause, hrule⟩
  · exact .inr ⟨by simp [hnothing], .inl hgives⟩
  · exact .inr ⟨by simp [hnothing], .inr (hno pos le_rfl)⟩
  · by_cases hstart : found.span.start = pos
    · exact .inl ⟨found, clause, hfound, hstart, hnearest, hclause, hrule⟩
    · refine .inr ⟨fun found' hfound' => ?_, .inr ?_⟩
      · cases hfound.symm.trans hfound'
        exact hstart
      · exact hnearest.nearest pos le_rfl (Ne.lt_of_le' hstart hnearest.pos_le)

/-- The search of all rules finds the least match from a position on, if there is any and the search
is not given up. -/
theorem search_least (t : Text) (pos : Nat) :
    (s.search 0 t pos = none ∧
      (s.GivesUp 0 t pos ∨ ∀ x ∈ matching ps t, x < toLex (pos, 0))) ∨
    ∃ found, s.search 0 t pos = some found ∧ FoundAlone clauses ps t found ∧
      IsLeast {x ∈ matching ps t | toLex (pos, 0) ≤ x} (toLex (found.span.start, found.index)) := by
  rcases search_cases hrules hbuild 0 t pos with
    ⟨hgives, hnothing⟩ | ⟨-, hnothing, hno⟩ |
    ⟨-, found, clause, hfound, hnearest, hclause, hrule⟩
  · exact .inl ⟨hnothing, .inl hgives⟩
  · exact .inl ⟨hnothing, .inr hno.lt_of_mem⟩
  · exact .inr ⟨found, hfound, ⟨⟨clause, hclause, hrule⟩, hnearest.matches_at⟩,
      hnearest.isLeast⟩

/-- What is found lies where it is looked for, or after it. -/
theorem le_start_of_search {first : Nat} {found : Found} (h : s.search first t pos = some found) :
    pos ≤ found.span.start := by
  rcases search_cases hrules hbuild first t pos with
    ⟨-, hnothing⟩ | ⟨-, hnothing, -⟩ | ⟨-, other, clause, hother, hnearest, -, -⟩
  · rw [hnothing] at h
    cases h
  · rw [hnothing] at h
    cases h
  · cases hother.symm.trans h
    exact hnearest.pos_le

/-- What is missed comes before what is found. -/
theorem Misses.lt_of_find {resume : Option Nat} {x : ℕ ×ₗ ℕ} {found : Found}
    (h : Misses s t pos resume x) (hresume : ∀ k ∈ resume, 0 < k)
    (hfound : s.find t pos resume = some found) :
    x < toLex (found.span.start, found.index) := by
  cases h with
  | all hgives _ => exact absurd hgives (RuleSet.not_givesUp hfound)
  | @later k _ hgives hpos _ =>
    obtain ⟨k, rfl⟩ : ∃ k', k = k' + 1 := ⟨k - 1, (Nat.succ_pred_eq_of_pos (hresume k rfl)).symm⟩
    have hnothing := RuleSet.search_of_givesUp hgives
    rw [find_onward (by simp [hnothing])] at hfound
    obtain ⟨next, hnext, hsearch⟩ := Option.bind_eq_some_iff.1 hfound
    have hle := le_start_of_search hrules hbuild hsearch
    unfold Text.next? at hnext
    split_ifs at hnext
    cases hnext
    exact Prod.Lex.lt_iff.2 (.inl (by simpa [hpos] using hle))
  | @onward k _ hnone hgives _ =>
    obtain ⟨k, rfl⟩ : ∃ k', k = k' + 1 := ⟨k - 1, (Nat.succ_pred_eq_of_pos (hresume k rfl)).symm⟩
    rw [find_onward hnone] at hfound
    obtain ⟨next, hnext, hsearch⟩ := Option.bind_eq_some_iff.1 hfound
    unfold Text.next? at hnext
    split_ifs at hnext
    cases hnext
    exact absurd hgives (RuleSet.not_givesUp hsearch)

/-- What all rules are searched for after a position, if no later rule matches there. -/
theorem search_next {k : Nat} (t : Text) (pos : Nat)
    (hnone : ∀ found, s.search k t pos = some found → found.span.start ≠ pos)
    (hlater : s.GivesUp k t pos ∨
      ∀ i p, k ≤ i → ps[i]? = some p → p.matchAt t pos = none) :
    ((t.next? pos).bind (s.search 0 t) = none ∧
      ∀ x ∈ matching ps t, toLex (pos, k) ≤ x → Misses s t pos (some k) x) ∨
    ∃ found, (t.next? pos).bind (s.search 0 t) = some found ∧ FoundAlone clauses ps t found ∧
      IsLeast {x ∈ matching ps t | toLex (pos, k) ≤ x ∧ ¬ Misses s t pos (some k) x}
        (toLex (found.span.start, found.index)) := by
  -- What matches at the position itself is missed.
  have hafter {x : ℕ ×ₗ ℕ} (hmem : x ∈ matching ps t) (hle : toLex (pos, k) ≤ x) :
      Misses s t pos (some k) x ∨ toLex (pos + 1, 0) ≤ x := by
    rcases Prod.Lex.le_iff.1 hle with hlt | ⟨heq, hk⟩
    · rcases (Nat.succ_le_of_lt hlt).lt_or_eq with hlt | heq
      · exact .inr (Prod.Lex.le_iff.2 (.inl hlt))
      · exact .inr (Prod.Lex.le_iff.2 (.inr ⟨heq, Nat.zero_le _⟩))
    · have heq : pos = (ofLex x).1 := heq
      rcases hlater with hgives | hno
      · exact .inl (.later hgives heq.symm hk)
      · exact absurd hmem (not_mem_matching (q := (ofLex x).1) (i := (ofLex x).2)
          fun p hp => heq ▸ hno _ p hk hp)
  by_cases hsize : pos < t.size
  · have hnext : t.next? pos = some (pos + 1) := if_pos hsize
    rw [hnext, Option.bind_some]
    rcases search_least hrules hbuild t (pos + 1) with ⟨hnothing, hwhy⟩ | ⟨found, hfound, halone, hleast⟩
    · refine .inl ⟨hnothing, fun x hmem hle => ?_⟩
      rcases hafter hmem hle with hmissed | hle
      · exact hmissed
      · rcases hwhy with hgives | hno
        · exact .onward hnone hgives hle
        · exact absurd hle (not_le.2 (hno x hmem))
    · have hge : toLex (pos, k) ≤ toLex (found.span.start, found.index) :=
        (Prod.Lex.toLex_lt_toLex.2 (.inl (Nat.lt_succ_self pos))).le.trans hleast.1.2
      refine .inr ⟨found, hfound, halone, ⟨hleast.1.1, hge, fun hmissed => ?_⟩, fun x hx => ?_⟩
      · generalize hx : toLex (found.span.start, found.index) = x at hmissed
        cases hmissed with
        | later _ heq _ =>
          have hlt : pos + 1 ≤ found.span.start :=
            Prod.Lex.monotone_fst _ _ hleast.1.2
          rw [← hx] at heq
          have heq : found.span.start = pos := heq
          omega
        | onward _ hgives _ => exact RuleSet.not_givesUp hfound hgives
      · exact hleast.2 ⟨hx.1, (hafter hx.1 hx.2.1).resolve_left hx.2.2⟩
  · have hnext : t.next? pos = none := if_neg hsize
    refine .inl ⟨by rw [hnext]; rfl, fun x hmem hle => (hafter hmem hle).resolve_right fun hle => ?_⟩
    have hlt : pos + 1 ≤ (ofLex x).1 := Prod.Lex.monotone_fst _ _ hle
    exact not_mem_matching (q := (ofLex x).1) (i := (ofLex x).2)
      (fun p _ => matchAt_of_size_lt p (by omega)) hmem

/-- **The least match is found.** What is found from a position on, or from a rule at that position
on, is the least match that is not missed, if there is any. -/
theorem find_cases (t : Text) (pos : Nat) {resume : Option Nat} (hresume : ∀ k ∈ resume, 0 < k) :
    (s.find t pos resume = none ∧
      ∀ x ∈ matching ps t, toLex (pos, resume.getD 0) ≤ x → Misses s t pos resume x) ∨
    ∃ found, s.find t pos resume = some found ∧ FoundAlone clauses ps t found ∧
      IsLeast {x ∈ matching ps t | toLex (pos, resume.getD 0) ≤ x ∧ ¬ Misses s t pos resume x}
        (toLex (found.span.start, found.index)) := by
  cases resume with
  | none =>
    rcases search_least hrules hbuild t pos with ⟨hnothing, hwhy⟩ | ⟨found, hfound, halone, hleast⟩
    · refine .inl ⟨hnothing, fun x hmem hle => ?_⟩
      rcases hwhy with hgives | hno
      · exact .all hgives hle
      · exact absurd hle (not_le.2 (hno x hmem))
    · refine .inr ⟨found, hfound, halone, ⟨hleast.1.1, hleast.1.2, ?_⟩,
        fun x hx => hleast.2 ⟨hx.1, hx.2.1⟩⟩
      rintro (⟨hgives, -⟩)
      exact RuleSet.not_givesUp hfound hgives
  | some k =>
    obtain ⟨k, rfl⟩ : ∃ k', k = k' + 1 := ⟨k - 1, (Nat.succ_pred_eq_of_pos (hresume k rfl)).symm⟩
    rcases later_cases hrules hbuild (k + 1) t pos with
      ⟨found, clause, hfound, hstart, hnearest, hclause, hrule⟩ | ⟨hnone, hlater⟩
    · refine .inr ⟨found, find_of_here hfound hstart,
        ⟨⟨clause, hclause, hrule⟩, hnearest.matches_at⟩, ⟨hnearest.mem_matching, ?_, ?_⟩, ?_⟩
      · rw [hstart]
        exact Prod.Lex.toLex_le_toLex.2 (.inr ⟨rfl, hnearest.first_le⟩)
      · intro hmissed
        cases hmissed with
        | later hgives _ _ => exact RuleSet.not_givesUp hfound hgives
        | onward hnone _ _ => exact hnone found hfound hstart
      · rintro x ⟨hmem, hle, -⟩
        rcases Prod.Lex.le_iff.1 hle with hlt | ⟨heq, hk⟩
        · exact Prod.Lex.le_iff.2 (.inl (by simpa [hstart] using hlt))
        · exact hnearest.le_of_mem (q := (ofLex x).1) (i := (ofLex x).2) heq.le hk hmem
    · rw [find_onward hnone]
      exact search_next hrules hbuild t pos hnone hlater

end ModeStack.Rule
