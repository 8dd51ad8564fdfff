import ModeStack.Proofs.Grammar.Evaluation
import ModeStack.Proofs.Rule.Roomy
import ModeStack.Proofs.Scan.Graded

/-!
# Deciding that a draft builds a graded grammar

Compiling a draft joins the patterns of every mode, and the joined patterns are long. Whether the
draft builds and its grammar is graded can be told from the patterns one by one: `Draft.isGraded`
stages the modes, checks each of their patterns alone, and compares what is said of every mode
(`Stance`) with what is said of its children. `exists_graded` is what follows.
-/

namespace ModeStack.Grammar

open ModeStack.Rule (Part Clause)
open ModeStack.Regex (exists_of_bind_eq_ok exists_of_toOption_any exists_of_toOption_isSome
  exists_getElem?_of_forall₂)

/-! ## What is said of modes -/

/-- What is said of a mode: whether opening it takes a character, whether ending it does, and its
rank. -/
structure Stance where
  opens : Bool
  ends : Bool
  rank : Nat
  deriving DecidableEq, Repr

/-- The greatest rank, the greatest number of rules, and the greatest number of groups in a
pattern. -/
structure Bounds where
  height : Nat
  breadth : Nat
  groups : Nat

/-- The number of groups that any rules can have together, with those that wrap them. -/
def Bounds.room (b : Bounds) : Nat := b.breadth * (b.groups + 1)

/-- The rank that is said of the mode at an index. -/
def rankIn (stances : List Stance) (index : Nat) : Nat :=
  (stances[index]?.map (·.rank)).getD 0

/-- Whether the pattern of a rule can be joined with any others. -/
def Bounds.admits (b : Bounds) (ignoreCase : Bool) (part : Part) : Bool :=
  part.isSelfContained ignoreCase && part.fitsAfter ignoreCase b.room && part.groups ≤ b.groups

/-- Whether an illegal pattern can be joined with any others. -/
def Bounds.admitsIllegal (b : Bounds) (ignoreCase : Bool) (source : String) : Bool :=
  (Pattern.evaluate ignoreCase source).toOption.any fun p => b.admits ignoreCase ⟨source, p.groups⟩

/-- Whether a child may lie on a mode of the given rank: without taking a character, it opens only
if its rank is lower, and then does not end so, and it ends only if its rank is higher. -/
def Stance.mayLieOn (child : Stance) (rank : Nat) : Bool :=
  (child.opens || (child.ends && child.rank < rank)) && (child.ends || rank < child.rank)

/-- The parts of the rule by which a mode ends. -/
def Staged.endings (mode : Staged) : List Part := (endingClauses mode.terminators).map (·.part)

/-- Whether all patterns of a mode can be joined with others, and its words compiled. -/
def Staged.isAdmitted (b : Bounds) (ignoreCase : Bool) (mode : Staged) : Bool :=
  mode.opening.all (b.admits ignoreCase) && mode.endings.all (b.admits ignoreCase)
    && mode.definition.illegal.all (b.admitsIllegal ignoreCase)
    && mode.definition.wordPattern.all fun source =>
      (Pattern.evaluate ignoreCase source).toOption.isSome

/-- Whether what is said of a mode is true, and goes together with what is said of its children. -/
def Staged.takes (b : Bounds) (ignoreCase : Bool) (stances : List Stance) (mode : Staged)
    (links : Links) (stance : Stance) : Bool :=
  let flags := mode.definition.flags
  !flags.returnBegin && !flags.returnEnd && links.starts.isNone
    && (!stance.opens || mode.opening.all (0 < ·.minWidth ignoreCase))
    && (if stance.ends then mode.endings.all (0 < ·.minWidth ignoreCase)
      else !flags.endsWithParent && !flags.endsParent)
    && stance.rank ≤ b.height && links.children.length + 2 ≤ b.breadth
    && links.children.all fun c => stances[c]?.any (·.mayLieOn stance.rank)

namespace Draft

/-- Whether a draft builds a graded grammar, given what is said of its modes. -/
def isGraded (draft : Draft) (b : Bounds) (stances : List Stance) : Bool :=
  draft.root.any fun root =>
    (draft.source.validate root).toOption.isSome
      && (Pattern.evaluate draft.ignoreCase defaultWordPattern).toOption.isSome
      && (draft.definitions.getD root {}).illegal.all (b.admitsIllegal draft.ignoreCase)
      && (draft.source.expandWith (Pattern.evaluate draft.ignoreCase) root).toOption.any
        fun (links, st) => st.staged.size = stances.length
          && ((st.staged.toList.zip links).zip stances).all fun ((mode, links), stance) =>
            mode.isAdmitted b draft.ignoreCase
              && mode.takes b draft.ignoreCase stances links stance

end Draft

variable {src : Source} {st : Stage} {mode : Staged} {links : Links} {b : Bounds}
  {stances : List Stance} {clauses : List Clause}

/-! ## The rules of a mode -/

theorem Source.pattern_of_compile {id : ModeId} {role : Role} {source : String} {p : Pattern}
    (h : Pattern.compile src.ignoreCase source = .ok p) : src.pattern id role source = .ok p := by
  rw [Source.pattern, h]
  rfl

/-- The rules of a mode, and what the one for illegal lexemes is. -/
theorem clausesOf_parts {children : List Nat} (h : src.clausesOf st mode children = .ok clauses) :
    ∃ illegal, clauses = illegal ++ endingClauses mode.terminators ++ openingClauses st children ∧
      (illegal = [] ∨ ∃ source p, mode.definition.illegal = some source ∧
        Pattern.compile src.ignoreCase source = .ok p ∧
        illegal = [⟨.illegal, ⟨source, p.groups⟩⟩]) := by
  unfold Source.clausesOf at h
  cases hi : mode.definition.illegal with
  | none =>
    simp only [hi] at h
    cases h
    exact ⟨[], rfl, .inl rfl⟩
  | some source =>
    simp only [hi] at h
    obtain ⟨p, hp, h⟩ := exists_of_bind_eq_ok h
    cases h
    exact ⟨_, rfl, .inr ⟨source, p, rfl, Source.compile_of_pattern hp, rfl⟩⟩

theorem exists_of_mem_openingClauses' {children : List Nat} {clause : Clause}
    (h : clause ∈ openingClauses st children) :
    ∃ c child part, c ∈ children ∧ st.staged[c]? = some child ∧ child.opening = some part ∧
      clause = ⟨.opening c, part⟩ := by
  obtain ⟨c, hc, hmem⟩ := List.mem_filterMap.1 h
  obtain ⟨part, hpart, rfl⟩ := Option.map_eq_some_iff.1 hmem
  obtain ⟨child, hchild, hopening⟩ := Option.bind_eq_some_iff.1 hpart
  exact ⟨c, child, part, hc, hchild, hopening, rfl⟩

theorem length_endingClauses_le (terminators : List Part) :
    (endingClauses terminators).length ≤ 1 := by
  unfold endingClauses
  split_ifs
  · exact Nat.zero_le _
  · exact le_rfl

section Clauses

variable {children : List Nat} (h : src.clausesOf st mode children = .ok clauses)

include h

/-- Where a rule of a mode comes from. -/
theorem mem_clausesOf {clause : Clause} (hclause : clause ∈ clauses) :
    (∃ source p, mode.definition.illegal = some source ∧
      Pattern.compile src.ignoreCase source = .ok p ∧ clause = ⟨.illegal, ⟨source, p.groups⟩⟩) ∨
    clause ∈ endingClauses mode.terminators ∨
    ∃ c child part, c ∈ children ∧ st.staged[c]? = some child ∧ child.opening = some part ∧
      clause = ⟨.opening c, part⟩ := by
  obtain ⟨illegal, rfl, hillegal⟩ := clausesOf_parts h
  rcases List.mem_append.1 hclause with hmem | hmem
  · rcases List.mem_append.1 hmem with hmem | hmem
    · rcases hillegal with rfl | ⟨source, p, hsource, hcompile, rfl⟩
      · cases hmem
      · exact .inl ⟨source, p, hsource, hcompile, List.mem_singleton.1 hmem⟩
    · exact .inr (.inl hmem)
  · exact .inr (.inr (exists_of_mem_openingClauses' hmem))

/-- A mode has one rule for each child that opens, one for its end, and one for what is illegal. -/
theorem length_clausesOf_le : clauses.length ≤ children.length + 2 := by
  obtain ⟨illegal, rfl, hillegal⟩ := clausesOf_parts h
  have hending := length_endingClauses_le mode.terminators
  have hopening : (openingClauses st children).length ≤ children.length :=
    List.length_filterMap_le _ _
  have hone : illegal.length ≤ 1 := by
    rcases hillegal with rfl | ⟨_, _, -, -, rfl⟩
    · exact Nat.zero_le _
    · exact le_rfl
  simp only [List.length_append]
  omega

/-- The end of a mode comes before its children. -/
theorem ending_lt_opening {j k : Nat} {opening ending : Clause} {c : Nat}
    (hj : clauses[j]? = some opening) (hopening : opening.rule = .opening c)
    (hk : clauses[k]? = some ending) (hending : ending.rule = .ending) : k < j := by
  obtain ⟨illegal, hillegal, heq⟩ := clausesOf_eq h
  -- Up to its end a mode has no children, and after it nothing else.
  have hlate : (illegal ++ endingClauses mode.terminators).length ≤ j := by
    by_contra hlt
    rw [heq, List.getElem?_append_left (not_le.1 hlt)] at hj
    rcases List.mem_append.1 (List.mem_of_getElem? hj) with hmem | hmem
    · rw [hillegal _ hmem] at hopening
      cases hopening
    · rw [rule_of_mem_endingClauses hmem] at hopening
      cases hopening
  have hearly : k < (illegal ++ endingClauses mode.terminators).length := by
    by_contra hle
    rw [heq, List.getElem?_append_right (not_lt.1 hle)] at hk
    obtain ⟨_, _, _, _, _, _, rfl⟩ := exists_of_mem_openingClauses' (List.mem_of_getElem? hk)
    cases hending
  exact hearly.trans_le hlate

end Clauses

/-! ## Compiling a mode -/

/-- All patterns of a mode can be joined with others, and its words compiled. -/
structure Admitted (b : Bounds) (ignoreCase : Bool) (mode : Staged) : Prop where
  opening : ∀ part ∈ mode.opening, b.admits ignoreCase part = true
  endings : ∀ part ∈ mode.endings, b.admits ignoreCase part = true
  illegal : ∀ source ∈ mode.definition.illegal, b.admitsIllegal ignoreCase source = true
  words : ∀ source ∈ mode.definition.wordPattern,
    (Pattern.compile ignoreCase source).toOption.isSome = true

theorem admitted_of_isAdmitted {ignoreCase : Bool} (h : mode.isAdmitted b ignoreCase = true) :
    Admitted b ignoreCase mode := by
  simp only [Staged.isAdmitted, ← Pattern.compile_eq, Bool.and_eq_true, Option.all_eq_true,
    List.all_eq_true] at h
  obtain ⟨⟨⟨hopening, hendings⟩, hillegal⟩, hwords⟩ := h
  exact ⟨hopening, hendings, hillegal, hwords⟩

theorem exists_of_admitsIllegal {ignoreCase : Bool} {source : String}
    (h : b.admitsIllegal ignoreCase source = true) :
    ∃ p, Pattern.compile ignoreCase source = .ok p ∧
      b.admits ignoreCase ⟨source, p.groups⟩ = true := by
  rw [Bounds.admitsIllegal, ← Pattern.compile_eq] at h
  exact exists_of_toOption_any h

theorem exists_clausesOf (h : Admitted b src.ignoreCase mode) (st : Stage) (children : List Nat) :
    ∃ clauses, src.clausesOf st mode children = .ok clauses := by
  unfold Source.clausesOf
  cases hi : mode.definition.illegal with
  | none => exact ⟨_, rfl⟩
  | some source =>
    obtain ⟨p, hp, -⟩ := exists_of_admitsIllegal (h.illegal source hi)
    simp only [Source.pattern_of_compile hp]
    exact ⟨_, rfl⟩

/-- The rules of a mode can be joined if its patterns can be, and those of its children. -/
theorem admits_of_mem_clausesOf {children : List Nat}
    (h : src.clausesOf st mode children = .ok clauses) (hmode : Admitted b src.ignoreCase mode)
    (hstaged : ∀ (c : Nat) (child : Staged), st.staged[c]? = some child →
      Admitted b src.ignoreCase child) :
    ∀ clause ∈ clauses, b.admits src.ignoreCase clause.part = true := by
  intro clause hclause
  rcases mem_clausesOf h hclause with ⟨source, p, hsource, hcompile, rfl⟩ | hmem |
    ⟨c, child, part, -, hchild, hopening, rfl⟩
  · obtain ⟨q, hq, hadmits⟩ := exists_of_admitsIllegal (hmode.illegal source hsource)
    rw [hcompile] at hq
    cases hq
    exact hadmits
  · exact hmode.endings _ (List.mem_map_of_mem hmem)
  · exact (hstaged c child hchild).opening part hopening

theorem groupCount_le {groups : Nat} {parts : List Part} (h : ∀ part ∈ parts, part.groups ≤ groups) :
    Rule.groupCount parts ≤ parts.length * groups := by
  induction parts with
  | nil => exact Nat.zero_le _
  | cons part parts ih =>
    have hpart := h part List.mem_cons_self
    have hrest := ih fun part hp => h part (List.mem_cons_of_mem _ hp)
    rw [Rule.groupCount, List.length_cons, Nat.succ_mul]
    omega

/-- Rules that are admitted, and no more than there may be, can be joined. -/
theorem exists_rules {ignoreCase : Bool}
    (h : ∀ clause ∈ clauses, b.admits ignoreCase clause.part = true)
    (hlength : clauses.length ≤ b.breadth) :
    ∃ rules, Rule.RuleSet.build ignoreCase clauses = .ok rules := by
  simp only [Bounds.admits, Bool.and_eq_true, decide_eq_true_eq] at h
  have hgroups : Rule.groupCount (clauses.map (·.part)) ≤ clauses.length * b.groups := by
    have hparts : ∀ part ∈ clauses.map (·.part), part.groups ≤ b.groups := by
      intro part hpart
      obtain ⟨clause, hc, rfl⟩ := List.mem_map.1 hpart
      exact (h clause hc).2
    have hcount := groupCount_le hparts
    rwa [List.length_map] at hcount
  have hroom : clauses.length + Rule.groupCount (clauses.map (·.part)) ≤ b.room :=
    calc clauses.length + Rule.groupCount (clauses.map (·.part))
        ≤ clauses.length + clauses.length * b.groups := Nat.add_le_add_left hgroups _
      _ = clauses.length * (b.groups + 1) := by rw [Nat.mul_succ, Nat.add_comm]
      _ ≤ b.room := Nat.mul_le_mul_right _ hlength
  exact Rule.RuleSet.exists_build (fun clause hc => (h clause hc).1.1)
    (fun clause hc => (h clause hc).1.2) hroom

theorem exists_finish (hmode : Admitted b src.ignoreCase mode)
    (hword : (Pattern.compile src.ignoreCase defaultWordPattern).toOption.isSome = true)
    {rules : Rule.RuleSet} (hrules : Rule.RuleSet.build src.ignoreCase clauses = .ok rules)
    (links : Links) : ∃ compiled, src.finish mode links clauses = .ok compiled := by
  obtain ⟨p, hp⟩ : ∃ p, Pattern.compile src.ignoreCase
      (mode.definition.wordPattern.getD defaultWordPattern) = .ok p := by
    cases hw : mode.definition.wordPattern with
    | none => exact exists_of_toOption_isSome hword
    | some source => exact exists_of_toOption_isSome (hmode.words source hw)
  unfold Source.finish
  simp only [Source.pattern_of_compile hp, hrules]
  exact ⟨_, rfl⟩

/-- What a compiled mode is made of. -/
theorem finish_fields {compiled : Mode} (h : src.finish mode links clauses = .ok compiled) :
    compiled.flags = mode.definition.flags ∧ compiled.starts = links.starts ∧
      Rule.RuleSet.build src.ignoreCase clauses = .ok compiled.rules := by
  obtain ⟨p, -, h⟩ := exists_of_bind_eq_ok h
  obtain ⟨rules, hrules, h⟩ := exists_of_bind_eq_ok h
  cases h
  refine ⟨rfl, rfl, ?_⟩
  cases hbuild : Rule.RuleSet.build src.ignoreCase clauses with
  | error e =>
    rw [hbuild] at hrules
    cases hrules
  | ok s =>
    rw [hbuild] at hrules
    cases hrules
    rfl

/-! ## Compiled modes -/

/-- What is said of a mode is true, and goes together with what is said of its children. -/
structure Stance.Of (b : Bounds) (ignoreCase : Bool) (stances : List Stance) (mode : Staged)
    (links : Links) (stance : Stance) : Prop where
  returnBegin : mode.definition.flags.returnBegin = false
  returnEnd : mode.definition.flags.returnEnd = false
  starts : links.starts = none
  opens : stance.opens = true → ∀ part ∈ mode.opening, 0 < part.minWidth ignoreCase
  ends : stance.ends = true → ∀ part ∈ mode.endings, 0 < part.minWidth ignoreCase
  alone : stance.ends = false →
    mode.definition.flags.endsWithParent = false ∧ mode.definition.flags.endsParent = false
  rank_le : stance.rank ≤ b.height
  length_le : links.children.length + 2 ≤ b.breadth
  children : ∀ c ∈ links.children, ∃ child, stances[c]? = some child ∧
    child.mayLieOn stance.rank = true

theorem stanceOf_of_takes {ignoreCase : Bool} {stance : Stance}
    (h : mode.takes b ignoreCase stances links stance = true) :
    stance.Of b ignoreCase stances mode links := by
  simp only [Staged.takes, Bool.and_eq_true, Bool.not_eq_true', Bool.or_eq_true, Option.all_eq_true,
    List.all_eq_true, decide_eq_true_eq, Option.isNone_iff_eq_none, Option.any_eq_true] at h
  obtain ⟨⟨⟨⟨⟨⟨⟨hbegin, hend⟩, hstarts⟩, hopens⟩, hends⟩, hrank⟩, hlength⟩, hchildren⟩ := h
  refine ⟨hbegin, hend, hstarts, fun htrue => ?_, fun htrue => ?_, fun hfalse => ?_, hrank, hlength,
    hchildren⟩
  · exact hopens.resolve_left (by simp [htrue])
  · simpa [htrue] using hends
  · simpa [hfalse] using hends

/-- A mode that has been staged, linked, given its rules and compiled. -/
structure Finished (src : Source) (b : Bounds) (stances : List Stance) (st : Stage) (i : Nat)
    (compiled : Mode) (mode : Staged) (links : Links) (stance : Stance) (clauses : List Clause) :
    Prop where
  staged : st.staged[i]? = some mode
  said : stances[i]? = some stance
  stanceOf : stance.Of b src.ignoreCase stances mode links
  ruled : src.clausesOf st mode links.children = .ok clauses
  admits : ∀ clause ∈ clauses, b.admits src.ignoreCase clause.part = true
  finish : src.finish mode links clauses = .ok compiled

namespace Finished

variable {i : Nat} {compiled : Mode} {stance : Stance}
  (h : Finished src b stances st i compiled mode links stance clauses)

include h

theorem build : Rule.RuleSet.build src.ignoreCase clauses = .ok compiled.rules :=
  (finish_fields h.finish).2.2

theorem clauses_eq : compiled.rules.clauses = clauses.toArray :=
  Rule.RuleSet.clauses_of_build h.build

theorem mem_clauses {clause : Clause} (hclause : clause ∈ compiled.rules.clauses) :
    clause ∈ clauses := by
  rw [h.clauses_eq] at hclause
  simpa using hclause

theorem rankIn_eq : rankIn stances i = stance.rank := by
  rw [rankIn, h.said]
  rfl

theorem measured : Measured src.ignoreCase compiled.rules where
  built := by
    rw [h.clauses_eq]
    exact h.build
  selfContained clause hclause := by
    have hadmits := h.admits clause (h.mem_clauses (by simpa using hclause))
    simp only [Bounds.admits, Bool.and_eq_true] at hadmits
    exact hadmits.1.1

theorem firm (hends : stance.ends = true) : Firm src.ignoreCase compiled.rules := by
  intro clause hclause hrule
  rcases mem_clausesOf h.ruled (h.mem_clauses hclause) with ⟨_, _, -, -, rfl⟩ | hmem |
    ⟨_, _, _, -, -, -, rfl⟩
  · cases hrule
  · exact h.stanceOf.ends hends _ (List.mem_map_of_mem hmem)
  · cases hrule

/-- What a rule that opens a child says of the child. -/
theorem child {clause : Clause} {c : Nat} (hclause : clause ∈ compiled.rules.clauses)
    (hrule : clause.rule = .opening c) :
    ∃ child childStance, st.staged[c]? = some child ∧ child.opening = some clause.part ∧
      stances[c]? = some childStance ∧ childStance.mayLieOn stance.rank = true := by
  rcases mem_clausesOf h.ruled (h.mem_clauses hclause) with ⟨_, _, -, -, rfl⟩ | hmem |
    ⟨c', child, part, hc, hchild, hopening, rfl⟩
  · cases hrule
  · rw [rule_of_mem_endingClauses hmem] at hrule
    cases hrule
  · cases hrule
    obtain ⟨childStance, hsaid, hlies⟩ := h.stanceOf.children c hc
    exact ⟨child, childStance, hchild, hopening, hsaid, hlies⟩

end Finished

theorem measured_inert (ignoreCase : Bool) : Measured ignoreCase Mode.inert.rules :=
  ⟨rfl, by simp [Mode.inert, Rule.RuleSet.none]⟩

theorem not_mem_inert {clause : Clause} : clause ∉ Mode.inert.rules.clauses := by
  simp [Mode.inert, Rule.RuleSet.none]

/-- **A grammar is graded** if all its modes have been compiled as is said of them. -/
theorem graded_of_finished {g : Grammar} (hcase : g.ignoreCase = src.ignoreCase)
    (hmodes : ∀ i, (g.mode i = .inert ∧ st.staged[i]? = none ∧ stances[i]? = none) ∨
      ∃ mode links stance clauses,
        Finished src b stances st i (g.mode i) mode links stance clauses) :
    g.Graded (rankIn stances) b.height b.breadth := by
  have hchild {i : Nat} {clause : Clause} {c : Nat} (hclause : clause ∈ (g.mode i).rules.clauses)
      (hrule : clause.rule = .opening c) :
      ∃ mode links stance clauses, Finished src b stances st c (g.mode c) mode links stance clauses ∧
        mode.opening = some clause.part ∧ stance.mayLieOn (rankIn stances i) = true := by
    rcases hmodes i with ⟨hinert, -, -⟩ | ⟨mode, links, stance, clauses, h⟩
    · rw [hinert] at hclause
      exact absurd hclause not_mem_inert
    · obtain ⟨child, childStance, hstaged, hopening, hsaid, hlies⟩ := h.child hclause hrule
      rcases hmodes c with ⟨-, hnone, -⟩ | ⟨mode', links', stance', clauses', h'⟩
      · rw [hnone] at hstaged
        cases hstaged
      · rw [h'.staged] at hstaged
        rw [h'.said] at hsaid
        cases hstaged
        cases hsaid
        exact ⟨_, _, _, _, h', hopening, by rw [h.rankIn_eq]; exact hlies⟩
  have hstarts (i : Nat) : (g.mode i).starts = none := by
    rcases hmodes i with ⟨hinert, -, -⟩ | ⟨mode, links, stance, clauses, h⟩
    · rw [hinert]
      rfl
    · rw [(finish_fields h.finish).2.1]
      exact h.stanceOf.starts
  constructor
  case measured =>
    intro i
    rw [hcase]
    rcases hmodes i with ⟨hinert, -, -⟩ | ⟨mode, links, stance, clauses, h⟩
    · rw [hinert]
      exact measured_inert _
    · exact h.measured
  case returnBegin =>
    intro i
    rcases hmodes i with ⟨hinert, -, -⟩ | ⟨mode, links, stance, clauses, h⟩
    · rw [hinert]
      rfl
    · rw [(finish_fields h.finish).1]
      exact h.stanceOf.returnBegin
  case returnEnd =>
    intro i
    rcases hmodes i with ⟨hinert, -, -⟩ | ⟨mode, links, stance, clauses, h⟩
    · rw [hinert]
      rfl
    · rw [(finish_fields h.finish).1]
      exact h.stanceOf.returnEnd
  case starts => exact hstarts
  case ending_lt =>
    intro i j k opening ending c hj hopening hk hending
    rcases hmodes i with ⟨hinert, -, -⟩ | ⟨mode, links, stance, clauses, h⟩
    · rw [hinert] at hj
      exact absurd (Array.mem_of_getElem? hj) not_mem_inert
    · rw [h.clauses_eq, List.getElem?_toArray] at hj hk
      exact ending_lt_opening h.ruled hj hopening hk hending
  case opening =>
    intro i clause hclause c hrule hwidth
    obtain ⟨mode, links, stance, clauses, h, hopening, hlies⟩ := hchild hclause hrule
    rw [hcase] at hwidth ⊢
    simp only [Stance.mayLieOn, Bool.and_eq_true, Bool.or_eq_true, decide_eq_true_eq] at hlies
    rcases hlies.1 with hopens | ⟨hends, hrank⟩
    · have hpos := h.stanceOf.opens hopens _ hopening
      omega
    · rw [h.rankIn_eq]
      exact ⟨hrank, h.firm hends⟩
  case ending =>
    intro i hsoft
    rw [hcase] at hsoft
    rcases hmodes i with ⟨hinert, -, -⟩ | ⟨mode, links, stance, clauses, h⟩
    · rw [hinert] at hsoft
      exact absurd (fun clause hclause => absurd hclause not_mem_inert) hsoft
    · have hends : stance.ends = false := Bool.eq_false_of_not_eq_true fun hends => hsoft (h.firm hends)
      obtain ⟨hwith, hparent⟩ := h.stanceOf.alone hends
      rw [(finish_fields h.finish).1]
      refine ⟨hwith, hparent, fun under habove => ?_⟩
      cases habove with
      | child hclause hrule =>
        obtain ⟨_, _, stance', _, h', -, hlies⟩ := hchild hclause hrule
        have hsame := h.said.symm.trans h'.said
        cases hsame
        simp only [Stance.mayLieOn, Bool.and_eq_true, Bool.or_eq_true, decide_eq_true_eq, hends,
          Bool.false_eq_true, false_or] at hlies
        rw [h.rankIn_eq]
        exact hlies.2
      | started _ hnext =>
        rw [hstarts] at hnext
        cases hnext
  case rank_le =>
    intro i
    rcases hmodes i with ⟨-, -, hnone⟩ | ⟨mode, links, stance, clauses, h⟩
    · rw [rankIn, hnone]
      exact Nat.zero_le _
    · rw [h.rankIn_eq]
      exact h.stanceOf.rank_le
  case size_le =>
    intro i
    rcases hmodes i with ⟨hinert, -, -⟩ | ⟨mode, links, stance, clauses, h⟩
    · rw [hinert]
      exact Nat.zero_le _
    · rw [Rule.RuleSet.size, h.clauses_eq, List.size_toArray]
      exact (length_clausesOf_le h.ruled).trans h.stanceOf.length_le

/-! ## Building -/

/-- A list of steps each of which succeeds. -/
theorem exists_mapM {ε α β : Type} {f : α → Except ε β} {l : List α}
    (h : ∀ a ∈ l, ∃ b, f a = .ok b) : ∃ bs, l.mapM f = .ok bs := by
  induction l with
  | nil => exact ⟨[], rfl⟩
  | cons a l ih =>
    obtain ⟨b, hb⟩ := h a List.mem_cons_self
    obtain ⟨bs, hbs⟩ := ih fun a' ha => h a' (List.mem_cons_of_mem _ ha)
    rw [List.mapM_cons, hb, hbs]
    exact ⟨b :: bs, rfl⟩

/-- What is said of the staged modes, one by one. -/
structure Surveyed (src : Source) (b : Bounds) (stances : List Stance) (links : List Links)
    (st : Stage) : Prop where
  links_length : links.length = st.staged.size
  stances_length : stances.length = st.staged.size
  admitted : ∀ mode ∈ st.staged, Admitted b src.ignoreCase mode
  stanceOf : ∀ (i : Nat) (mode : Staged) (l : Links), st.staged[i]? = some mode →
    links[i]? = some l →
    ∃ stance, stances[i]? = some stance ∧ stance.Of b src.ignoreCase stances mode l

section Surveyed

variable {allLinks : List Links} (h : Surveyed src b stances allLinks st)

include h

theorem Surveyed.exists_clauses : ∃ clauses,
    (st.staged.toList.zip allLinks).mapM
      (fun linked => src.clausesOf st linked.1 linked.2.children) = .ok clauses := by
  refine exists_mapM fun linked hlinked => ?_
  have hmode := (List.of_mem_zip hlinked).1
  exact exists_clausesOf (h.admitted _ (by simpa using hmode)) st _

variable {clausesList : List (List Clause)}
  (hclauses : List.Forall₂
    (fun linked clauses => src.clausesOf st linked.1 linked.2.children = .ok clauses)
    (st.staged.toList.zip allLinks) clausesList)

include hclauses

/-- The rules of the mode at a place, which can be joined. -/
theorem Surveyed.exists_ruled {i : Nat} {mode : Staged} {l : Links} {clauses : List Clause}
    (hi : ((st.staged.toList.zip allLinks).zip clausesList)[i]? = some ((mode, l), clauses)) :
    ∃ stance, st.staged[i]? = some mode ∧ stances[i]? = some stance ∧
      stance.Of b src.ignoreCase stances mode l ∧
      src.clausesOf st mode l.children = .ok clauses ∧
      (∀ clause ∈ clauses, b.admits src.ignoreCase clause.part = true) := by
  obtain ⟨hlinked, hruled⟩ := List.getElem?_zip_eq_some.1 hi
  obtain ⟨hmode, hl⟩ := List.getElem?_zip_eq_some.1 hlinked
  rw [Array.getElem?_toList] at hmode
  obtain ⟨stance, hsaid, hstance⟩ := h.stanceOf i mode l hmode hl
  obtain ⟨clauses', hclauses', hok⟩ := exists_getElem?_of_forall₂ hclauses hlinked
  rw [hruled] at hclauses'
  cases hclauses'
  refine ⟨stance, hmode, hsaid, hstance, hok, ?_⟩
  exact admits_of_mem_clausesOf hok (h.admitted mode (Array.mem_of_getElem? hmode))
    fun c child hchild => h.admitted child (Array.mem_of_getElem? hchild)

theorem Surveyed.exists_modes
    (hword : (Pattern.compile src.ignoreCase defaultWordPattern).toOption.isSome = true) :
    ∃ modes, ((st.staged.toList.zip allLinks).zip clausesList).mapM
      (fun ruled => src.finish ruled.1.1 ruled.1.2 ruled.2) = .ok modes := by
  refine exists_mapM fun ⟨⟨mode, l⟩, clauses⟩ hruled => ?_
  obtain ⟨i, hi⟩ := List.getElem?_of_mem hruled
  obtain ⟨stance, hmode, -, hstance, hok, hadmits⟩ := h.exists_ruled hclauses hi
  have hlength := (length_clausesOf_le hok).trans hstance.length_le
  obtain ⟨rules, hrules⟩ := exists_rules hadmits hlength
  exact exists_finish (h.admitted mode (Array.mem_of_getElem? hmode)) hword hrules l

/-- The mode at a place has been compiled as is said of it. -/
theorem Surveyed.finished {modes : List Mode}
    (hmodes : List.Forall₂ (fun ruled mode => src.finish ruled.1.1 ruled.1.2 ruled.2 = .ok mode)
      ((st.staged.toList.zip allLinks).zip clausesList) modes) (i : Nat) :
    (modes.toArray.getD i .inert = .inert ∧ st.staged[i]? = none ∧ stances[i]? = none) ∨
    ∃ mode links stance clauses,
      Finished src b stances st i (modes.toArray.getD i .inert) mode links stance clauses := by
  rw [Array.getD_eq_getD_getElem?, List.getElem?_toArray]
  cases hcompiled : modes[i]? with
  | none =>
    have hlength := hmodes.length_eq
    have hsame := hclauses.length_eq
    have hnone := List.getElem?_eq_none_iff.1 hcompiled
    have hlinks := h.links_length
    simp only [List.length_zip, Array.length_toList] at hlength hsame
    have hsize : st.staged.size ≤ i := by omega
    exact .inl ⟨rfl, Array.getElem?_eq_none hsize,
      List.getElem?_eq_none (h.stances_length.le.trans hsize)⟩
  | some compiled =>
    obtain ⟨⟨⟨mode, l⟩, clauses⟩, hi, hfinish⟩ :=
      Regex.exists_getElem?_of_forall₂' hmodes hcompiled
    obtain ⟨stance, hmode, hsaid, hstance, hok, hadmits⟩ := h.exists_ruled hclauses hi
    exact .inr ⟨mode, l, stance, clauses, hmode, hsaid, hstance, hok, hadmits, hfinish⟩

end Surveyed

/-- **A source of which this can be said** compiles, every mode as is said of it. -/
theorem exists_compile {root : ModeId} {allLinks : List Links}
    (hvalidate : src.validate root = .ok ()) (hexpand : src.expand root = .ok (allLinks, st))
    (hillegal : ∀ source ∈ (src.definitions.getD root {}).illegal,
      b.admitsIllegal src.ignoreCase source = true)
    (hword : (Pattern.compile src.ignoreCase defaultWordPattern).toOption.isSome = true)
    (h : Surveyed src b stances allLinks st) :
    ∃ compiled : Source.Compiled, src.compile root = .ok compiled ∧
      ∀ i, (compiled.modes.getD i .inert = .inert ∧ st.staged[i]? = none ∧ stances[i]? = none) ∨
        ∃ mode links stance clauses, Finished src b stances st i (compiled.modes.getD i .inert)
          mode links stance clauses := by
  obtain ⟨clausesList, hclauses⟩ := h.exists_clauses
  have hruled := forall₂_of_mapM_eq_ok hclauses
  obtain ⟨modes, hmodes⟩ := h.exists_modes hruled hword
  have hcompile : ∃ illegal, src.compile root = .ok ⟨modes.toArray, illegal⟩ := by
    have hrest (illegal : Option Pattern) : (do
        let clauses ← (st.staged.toList.zip allLinks).mapM fun ((mode, links) : Staged × Links) =>
          src.clausesOf st mode links.children
        let modes ← ((st.staged.toList.zip allLinks).zip clauses).mapM
          fun (((mode, links), clauses) : (Staged × Links) × List Clause) =>
            src.finish mode links clauses
        return Source.Compiled.mk modes.toArray illegal) = .ok ⟨modes.toArray, illegal⟩ := by
      rw [hclauses]
      change (do
        let modes ← ((st.staged.toList.zip allLinks).zip clausesList).mapM
          fun (((mode, links), clauses) : (Staged × Links) × List Clause) =>
            src.finish mode links clauses
        return Source.Compiled.mk modes.toArray illegal) = .ok ⟨modes.toArray, illegal⟩
      rw [hmodes]
      rfl
    unfold Source.compile
    rw [hvalidate, hexpand]
    cases hroot : (src.definitions.getD root {}).illegal with
    | none => exact ⟨none, hrest none⟩
    | some source =>
      obtain ⟨p, hp, -⟩ := exists_of_admitsIllegal (hillegal source hroot)
      refine ⟨some p, ?_⟩
      simp only [Source.pattern_of_compile hp]
      exact hrest (some p)
  obtain ⟨illegal, hcompile⟩ := hcompile
  exact ⟨_, hcompile, h.finished hruled (forall₂_of_mapM_eq_ok hmodes)⟩

/-- **A draft of which this can be said** builds, and its grammar is graded. -/
theorem exists_graded {draft : Draft} (h : draft.isGraded b stances = true) :
    ∃ g, draft.build = .ok g ∧ g.Graded (rankIn stances) b.height b.breadth := by
  obtain ⟨root, hroot, h⟩ := (Option.any_eq_true _ _).1 h
  simp only [Bool.and_eq_true, Option.all_eq_true, ← Pattern.compile_eq] at h
  obtain ⟨⟨⟨hvalidate, hword⟩, hillegal⟩, hexpand⟩ := h
  obtain ⟨⟨⟩, hvalidate⟩ := exists_of_toOption_isSome hvalidate
  obtain ⟨⟨links, st⟩, hexpand, hall⟩ := exists_of_toOption_any hexpand
  have hexpand : draft.source.expand root = .ok (links, st) :=
    (draft.source.expand_eq root).trans hexpand
  simp only [Bool.and_eq_true, decide_eq_true_eq, List.all_eq_true] at hall
  obtain ⟨hsize, hall⟩ := hall
  obtain ⟨-, -, hlinks, -⟩ := expand_spec (Source.validated_of_validate hvalidate) hexpand
  have hsaid (i : Nat) (mode : Staged) (l : Links) (hmode : st.staged[i]? = some mode)
      (hl : links[i]? = some l) : ∃ stance, stances[i]? = some stance ∧
        Admitted b draft.ignoreCase mode ∧ stance.Of b draft.ignoreCase stances mode l := by
    have hi : i < stances.length := hsize ▸ (Array.getElem?_eq_some_iff.1 hmode).1
    have hmem : ((mode, l), stances[i]) ∈ (st.staged.toList.zip links).zip stances :=
      List.mem_of_getElem? (List.getElem?_zip_eq_some.2
        ⟨List.getElem?_zip_eq_some.2 ⟨by simpa using hmode, hl⟩, List.getElem?_eq_getElem hi⟩)
    obtain ⟨hadmitted, htakes⟩ := hall _ hmem
    exact ⟨_, List.getElem?_eq_getElem hi, admitted_of_isAdmitted hadmitted,
      stanceOf_of_takes htakes⟩
  have hsurveyed : Surveyed draft.source b stances links st := by
    refine ⟨hlinks, hsize.symm, fun mode hmode => ?_, fun i mode l hmode hl => ?_⟩
    · obtain ⟨i, hi, hmode⟩ := Array.getElem_of_mem hmode
      have hmode : st.staged[i]? = some mode := hmode ▸ Array.getElem?_eq_getElem hi
      obtain ⟨stance, -, hadmitted, -⟩ := hsaid i mode _ hmode (List.getElem?_eq_getElem (by omega))
      exact hadmitted
    · obtain ⟨stance, hstance, -, hof⟩ := hsaid i mode l hmode hl
      exact ⟨stance, hstance, hof⟩
  obtain ⟨compiled, hcompile, hmodes⟩ := exists_compile hvalidate hexpand hillegal hword hsurveyed
  refine ⟨⟨draft.name, draft.aliases, draft.ignoreCase, draft.autoDetect, compiled.illegal,
    compiled.modes⟩, ?_, graded_of_finished rfl hmodes⟩
  rw [Draft.build, hroot]
  show (do
    let compiled ← draft.source.compile root
    return Grammar.mk draft.name draft.aliases draft.ignoreCase draft.autoDetect compiled.illegal
      compiled.modes) = _
  rw [hcompile]
  rfl

end ModeStack.Grammar
