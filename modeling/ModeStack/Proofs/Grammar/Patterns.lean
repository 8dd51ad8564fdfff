import ModeStack.Proofs.Grammar.Compiled

/-!
# How the patterns of a grammar are compiled

Patterns come into a grammar in many places: a mode has a closing pattern and a pattern of words,
its rules join the patterns of illegal lexemes, terminators and children, and some are joined anew
without the first rules. `Mode.CompiledFor` says that each of them is compiled with one and the same
decision about case, and that keywords are compared under it too. `compiledFor_of_build` shows this
of every mode of a grammar that has been built, opening words and implicit patterns included.

The closing patterns are compiled while modes are staged. What staging a mode keeps, holds of all
modes that are staged (`expand_induction`).
-/

namespace ModeStack

open Regex (exists_of_bind_eq_ok eq_ok_of_mapError exists_getElem?_of_forall₂')

/-- The keywords of a grammar that ignores case are compared in lower case. -/
theorem Keyword.Table.ignoreCase_forGrammar (table : Keyword.Table) :
    (table.forGrammar true).ignoreCase = true := by
  unfold forGrammar
  cases h : table.ignoreCase with
  | true => simp [h]
  | false => rfl

namespace Grammar

variable {src : Source}

/-! ## What staging keeps -/

section Induction

variable {P : Stage → Prop}
  (hstage : ∀ {st st' : Stage} {id : ModeId} {variant : Option Nat} {parent : List Rule.Part}
    {index : Nat}, P st → src.stage st id variant parent = .ok (index, st') → P st')

include hstage

theorem stageEach_induction {parent : List Rule.Part} {st st' : Stage}
    {forms : List (ModeId × Option Nat)} {indices : List Nat} (hst : P st)
    (h : src.stageEach parent st forms = .ok (indices, st')) : P st' := by
  induction forms generalizing st indices with
  | nil =>
    cases h
    exact hst
  | cons form forms ih =>
    obtain ⟨⟨index, st₁⟩, hfirst, h⟩ := exists_of_bind_eq_ok h
    obtain ⟨⟨rest, st₂⟩, hrest, h⟩ := exists_of_bind_eq_ok h
    cases h
    exact ih (hstage hst hfirst) hrest

theorem stageChildren_induction {self : Nat} {parent : List Rule.Part} {st st' : Stage}
    {children : List Child} {indices : List Nat} (hst : P st)
    (h : src.stageChildren self parent st children = .ok (indices, st')) : P st' := by
  induction children generalizing st indices with
  | nil =>
    cases h
    exact hst
  | cons child children ih =>
    cases child with
    | self =>
      obtain ⟨⟨rest, st₁⟩, hrest, h⟩ := exists_of_bind_eq_ok h
      cases h
      exact ih hst hrest
    | mode id =>
      obtain ⟨⟨expanded, st₁⟩, heach, h⟩ := exists_of_bind_eq_ok h
      obtain ⟨⟨rest, st₂⟩, hrest, h⟩ := exists_of_bind_eq_ok h
      cases h
      exact ih (stageEach_induction hstage hst heach) hrest

theorem link_induction {self : Nat} {mode : Staged} {st st' : Stage} {links : Links} (hst : P st)
    (h : src.link st self mode = .ok (links, st')) : P st' := by
  obtain ⟨⟨children, st₁⟩, hchildren, h⟩ := exists_of_bind_eq_ok h
  have hst₁ := stageChildren_induction hstage hst hchildren
  cases hstarts : mode.definition.starts with
  | none =>
    simp only [hstarts] at h
    cases h
    exact hst₁
  | some id =>
    simp only [hstarts] at h
    obtain ⟨⟨next, st₂⟩, hnext, h⟩ := exists_of_bind_eq_ok h
    cases h
    exact hstage hst₁ hnext

theorem linkFrom_induction {rounds done : Nat} {st st' : Stage} {links : List Links} (hst : P st)
    (h : src.linkFrom rounds done st = .ok (links, st')) : P st' := by
  induction rounds generalizing done st links with
  | zero =>
    cases h
    exact hst
  | succ rounds ih =>
    unfold Source.linkFrom at h
    cases hmode : st.staged[done]? with
    | none =>
      simp only [hmode] at h
      cases h
      exact hst
    | some mode =>
      simp only [hmode] at h
      obtain ⟨⟨first, st₁⟩, hfirst, h⟩ := exists_of_bind_eq_ok h
      obtain ⟨⟨rest, st₂⟩, hrest, h⟩ := exists_of_bind_eq_ok h
      cases h
      exact ih (link_induction hstage hst hfirst) hrest

/-- **What holds of the root and is kept by staging a mode, holds of all that is staged.** -/
theorem expand_induction {root : ModeId} {st : Stage} {links : List Links}
    (hroot : P (src.stageRoot root)) (h : src.expand root = .ok (links, st)) : P st :=
  linkFrom_induction hstage hroot h

end Induction

/-! ## Closing patterns -/

/-- Every closing pattern of a stage has been compiled from its text. -/
def Stage.ClosingCompiled (src : Source) (st : Stage) : Prop :=
  ∀ mode ∈ st.staged, ∀ p ∈ mode.closing, Pattern.compile src.ignoreCase p.source = .ok p

theorem closingCompiled_stageRoot (root : ModeId) : (src.stageRoot root).ClosingCompiled src := by
  intro mode hmode p hp
  simp only [Source.stageRoot, List.mem_toArray, List.mem_singleton] at hmode
  rw [hmode] at hp
  cases hp

theorem Stage.ClosingCompiled.stage {st st' : Stage} {id : ModeId} {variant : Option Nat}
    {parent : List Rule.Part} {index : Nat} (hst : st.ClosingCompiled src)
    (h : src.stage st id variant parent = .ok (index, st')) : st'.ClosingCompiled src := by
  rcases stage_cases h with ⟨-, rfl⟩ | ⟨-, rfl, mode, hmode, rfl⟩
  · exact hst
  · intro other hother
    rcases Array.mem_push.1 hother with hother | rfl
    · exact hst other hother
    · exact (stagedFrom_of_compileStaged hmode).compiled

/-! ## Compiled modes -/

/-- The patterns of a mode are compiled, and its keywords compared, with this decision about
case. -/
structure Mode.CompiledFor (ignoreCase : Bool) (mode : Mode) : Prop where
  closing : ∀ p ∈ mode.closing, Pattern.compile ignoreCase p.source = .ok p
  word : Pattern.compile ignoreCase mode.wordPattern.source = .ok mode.wordPattern
  rules : Rule.RuleSet.build ignoreCase mode.rules.clauses.toList = .ok mode.rules
  keywords : ignoreCase = true → ∀ table ∈ mode.keywords, table.ignoreCase = true

theorem compiledFor_of_finish {mode : Staged} {links : Links} {clauses : List Rule.Clause}
    {compiled : Mode}
    (hclosing : ∀ p ∈ mode.closing, Pattern.compile src.ignoreCase p.source = .ok p)
    (h : src.finish mode links clauses = .ok compiled) : compiled.CompiledFor src.ignoreCase := by
  obtain ⟨word, hword, h⟩ := exists_of_bind_eq_ok h
  obtain ⟨rules, hrules, h⟩ := exists_of_bind_eq_ok h
  cases h
  have hcompile := Source.compile_of_pattern hword
  refine ⟨hclosing, ?_, ?_, ?_⟩
  · show Pattern.compile src.ignoreCase word.source = .ok word
    rw [Pattern.source_of_compile hcompile]
    exact hcompile
  · have hbuild : Rule.RuleSet.build src.ignoreCase clauses = .ok rules :=
      eq_ok_of_mapError hrules
    show Rule.RuleSet.build src.ignoreCase rules.clauses.toList = .ok rules
    rw [Rule.RuleSet.clauses_of_build hbuild]
    exact hbuild
  · intro hcase table htable
    obtain ⟨written, -, rfl⟩ := Option.map_eq_some_iff.1 htable
    rw [hcase]
    exact written.ignoreCase_forGrammar

/-- The mode that does nothing has nothing to compile but the empty pattern. -/
theorem compiledFor_inert (ignoreCase : Bool) : Mode.inert.CompiledFor ignoreCase where
  closing := by simp [Mode.inert]
  word := by
    have hword : (Pattern.compile ignoreCase "").toOption.map
        (fun p => (p.source, p.regex.plan, p.regex.groups)) = some ("", .direct .empty, 0) := by
      cases ignoreCase <;> decide +kernel
    cases hp : Pattern.compile ignoreCase "" with
    | error err =>
      rw [hp] at hword
      cases hword
    | ok p =>
      rw [hp] at hword
      obtain ⟨source, plan, groups⟩ := p
      cases hword
      exact hp
  rules := rfl
  keywords := by simp [Mode.inert]

/-- What is true of every compiled mode, and of the mode that does nothing, is true at every
index. -/
theorem mode_induction {g : Grammar} {P : Mode → Prop} (hmodes : ∀ i < g.modeCount, P (g.mode i))
    (hinert : P .inert) (index : Nat) : P (g.mode index) := by
  by_cases hi : index < g.modeCount
  · exact hmodes index hi
  · rw [mode_of_le (Nat.le_of_not_lt hi)]
    exact hinert

/-- **Every pattern of a grammar is compiled with its decision about case**, whatever its role. -/
theorem compiledFor_of_build {draft : Draft} {g : Grammar} (h : draft.build = .ok g)
    (index : Nat) : (g.mode index).CompiledFor draft.ignoreCase := by
  refine mode_induction (fun i hi => ?_) (compiledFor_inert _) index
  obtain ⟨root, links, st, -, -, hexpand, -, hfinished⟩ := exists_finished h
  have hst : st.ClosingCompiled draft.source :=
    expand_induction (fun hst h => hst.stage h) (closingCompiled_stageRoot root) hexpand
  obtain ⟨mode, l, clauses, hmode, -, -, hfinish⟩ := hfinished i hi
  exact compiledFor_of_finish (hst mode (Array.mem_of_getElem? hmode)) hfinish

end Grammar

end ModeStack
