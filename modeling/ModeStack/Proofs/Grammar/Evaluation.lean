import ModeStack.Proofs.Grammar.Pairing
import ModeStack.Proofs.Regex.Evaluation

/-!
# Evaluating an expansion

Expanding a source compiles the patterns of every mode that is staged. So how they are compiled is
made a parameter (`Source.expandWith`), and with `Pattern.evaluate` for it the expansion of a long
grammar can be evaluated (`Source.expand_eq`).
-/

namespace ModeStack.Grammar

open ModeStack.Regex (SyntaxError)
open ModeStack.Rule (Part)

namespace Source

section Compile

variable (compile : String → Except SyntaxError Pattern) (src : Source)

/-- Compiles what a mode declares itself. -/
def compileStagedWith (id : ModeId) (d : Definition) (parent : List Part) :
    Except Error Staged := do
  let pattern (role : Role) (source : String) : Except Error Pattern :=
    (compile source).mapError (.invalidPattern src.name id role source)
  let (openingSource, guard, resolved) ← openingOf d
  let opening ← pattern .opening openingSource
  let closing ← match closingOf d with
    | some source => some <$> pattern .closing source
    | none => pure none
  let own := closing.toList.map fun p => { source := p.source, groups := p.groups : Part }
  return {
    source := id
    definition := resolved
    opening := some { source := openingSource, groups := opening.groups }
    guard := guard
    closing := closing
    terminators := own ++ inherited d parent
    parentTerminators := parent }

/-- Finds a form reached from a parent with the given terminators, or stages it. -/
def stageWith (st : Stage) (id : ModeId) (variant : Option Nat) (parent : List Part) :
    Except Error (Nat × Stage) := do
  let d := src.resolve id variant
  let key := keyOf id variant d parent
  match st.index.lookup key with
  | some index => return (index, st)
  | none =>
    let mode ← src.compileStagedWith compile id d parent
    let index := st.staged.size
    return (index, { staged := st.staged.push mode, index := (key, index) :: st.index })

/-- Stages forms one after another, and the mode at `self` again where there is none. -/
def stageFormsWith (self : Nat) (parent : List Part) :
    Stage → List (Option Form) → Except Error (List Nat × Stage)
  | st, [] => return ([], st)
  | st, none :: rest => do
    let (indices, st) ← stageFormsWith self parent st rest
    return (self :: indices, st)
  | st, some (id, variant) :: rest => do
    let (index, st) ← src.stageWith compile st id variant parent
    let (indices, st) ← stageFormsWith self parent st rest
    return (index :: indices, st)

/-- Stages the children of a mode and the mode it starts. -/
def linkWith (st : Stage) (self : Nat) (mode : Staged) : Except Error (Links × Stage) := do
  let (children, st) ←
    src.stageFormsWith compile self mode.terminators st (src.formsOf mode.definition.contains)
  match mode.definition.starts with
  | none => return (⟨children, none⟩, st)
  | some id =>
    let (index, st) ← src.stageWith compile st id none mode.parentTerminators
    return (⟨children, some index⟩, st)

/-- Links the staged modes from place `done` on until all are linked. -/
def linkFromWith : (rounds done : Nat) → Stage → Except Error (List Links × Stage)
  | 0, _, st => return ([], st)
  | rounds + 1, done, st =>
    match st.staged[done]? with
    | none => return ([], st)
    | some mode => do
      let (links, st) ← src.linkWith compile st done mode
      let (rest, st) ← linkFromWith rounds (done + 1) st
      return (links :: rest, st)

/-- Stages and links all modes that can be reached from the root. -/
def expandWith (root : ModeId) : Except Error (List Links × Stage) :=
  src.linkFromWith compile src.maxModes 0 (src.stageRoot root)

end Compile

variable (src : Source)

theorem stageFormsWith_compile (self : Nat) (parent : List Part) (st : Stage)
    (forms : List (Option Form)) :
    src.stageFormsWith (Pattern.compile src.ignoreCase) self parent st forms =
      src.stageForms self parent st forms := by
  induction forms generalizing st with
  | nil => rfl
  | cons form forms ih =>
    cases form with
    | none => simp only [stageFormsWith, stageForms, ih]
    | some form =>
      simp only [stageFormsWith, stageForms, ih]
      rfl

theorem linkWith_compile (st : Stage) (self : Nat) (mode : Staged) :
    src.linkWith (Pattern.compile src.ignoreCase) st self mode = src.link st self mode := by
  unfold linkWith link
  rw [stageFormsWith_compile, ← stageChildren_eq]
  rfl

theorem linkFromWith_compile (rounds done : Nat) (st : Stage) :
    src.linkFromWith (Pattern.compile src.ignoreCase) rounds done st =
      src.linkFrom rounds done st := by
  induction rounds generalizing done st with
  | zero => rfl
  | succ rounds ih =>
    rw [linkFromWith, linkFrom]
    cases st.staged[done]? with
    | none => rfl
    | some mode => simp only [linkWith_compile, ih]

/-- **An expansion can be evaluated.** -/
theorem expand_eq (root : ModeId) :
    src.expand root = src.expandWith (Pattern.evaluate src.ignoreCase) root := by
  have hcompile : Pattern.evaluate src.ignoreCase = Pattern.compile src.ignoreCase :=
    funext fun source => (Pattern.compile_eq src.ignoreCase source).symm
  rw [hcompile]
  exact (linkFromWith_compile src src.maxModes 0 (src.stageRoot root)).symm

end Source

end ModeStack.Grammar
