import ModeStack.Proofs.Grammar.Terminators
import ModeStack.Proofs.Rule.Isolation
import ModeStack.Proofs.Scan.Stack

/-!
# Which mode ends

The end of a mode is found with one pattern that joins all its terminators: its own and those that
it inherits, each once, as they were when the grammar was compiled. Which mode ends there is found
out afterwards, by trying the closing pattern of one open mode after another. In a grammar without
modes that are started, the two agree: the terminators of the innermost mode are the closing
patterns along the stack (`terminators_cons`), so the first terminator that matches is the closing
pattern of the first mode that matches (`exists_first`).

Main result: `end_resolved`. It takes that the rule which is reported matches where it is reported,
also alone. Rules that are read under the flags they share do (`matchesAlone_of_flagsAt`); a flag
that the illegal pattern leaves behind can make the joined terminators match where none of them
does, and the end is taken for plain text (`leaky_end_passed`).
-/

namespace ModeStack.Scan

open ModeStack.Rule (FirstMatch Standalone)
open ModeStack.Grammar (inheriting patternsOf)

variable {scan : Scan} {s : State} {draft : Grammar.Draft} {g : Grammar} {t : Text}
  {pos stop : Nat} {stack : List Nat} {found : Rule.Found}

/-- An end at a position is that of a mode, up to `stop`: the modes inside it end with their
parents, and none of them closes there itself. -/
structure FirstEnd (g : Grammar) (t : Text) (pos stop : Nat) (inner : List Nat) (mode : Nat) :
    Prop where
  follow : ∀ i ∈ inner, (g.mode i).flags.endsWithParent = true
  silent : ∀ i ∈ inner, ∀ p ∈ (g.mode i).closing, p.matchAt t pos = none
  closes : ∃ p ∈ (g.mode mode).closing, p.matchAt t pos = some stop

/-! ## Terminators along the stack -/

section Stack

variable (hbuild : draft.build = .ok g) (hnever : draft.NeverStarts)

include hbuild hnever

/-- **The terminators of a mode** are its own and, if it ends with its parent, those of the mode
below it on the stack. -/
theorem terminators_cons {entry under : Nat} (habove : Above g under entry) :
    draft.terminators entry = inheriting (g.mode entry).closing
      (if (g.mode entry).flags.endsWithParent then draft.terminators under else []) := by
  obtain ⟨st, hbuilt⟩ := Grammar.built_of_build hbuild
  cases habove with
  | child hclause hc =>
    obtain ⟨hlt, hinherits⟩ := hbuilt.child_inherits hclause hc
    by_cases hends : (g.mode entry).flags.endsWithParent = true
    · rw [if_pos hends]
      exact hinherits hends
    · rw [if_neg hends, Grammar.terminators_eq_own hbuild hlt (Bool.eq_false_of_not_eq_true hends)]
      simp [inheriting]
  | started hm hnext =>
    rw [Grammar.starts_of_neverStarts hbuild hnever] at hnext
    cases hnext

/-- All terminators of the innermost mode are closing patterns of modes. -/
theorem exists_closing_of_mem (h : Stacked g stack) {part : Rule.Part} :
    part ∈ draft.terminators (stack.headD Grammar.root) →
      ∃ i, ∃ p ∈ (g.mode i).closing, part = ⟨p.source, p.groups⟩ := by
  refine Stacked.induction ?_ (fun entry under below _ habove ih => ?_) h
  · intro hpart
    rw [List.headD_cons, Grammar.terminators_root hbuild] at hpart
    cases hpart
  · intro hpart
    rw [List.headD_cons, terminators_cons hbuild hnever habove, inheriting,
      List.mem_append] at hpart
    rcases hpart with hown | hrest
    · obtain ⟨p, hp, rfl⟩ := List.mem_map.1 hown
      exact ⟨entry, p, Option.mem_toList.1 hp, rfl⟩
    · have hrest := List.mem_of_mem_filter hrest
      split_ifs at hrest
      · exact ih hrest
      · cases hrest

/-- **The first terminator that matches** is the closing pattern of the first mode that
matches. -/
theorem exists_first (h : Stacked g stack) :
    FirstMatch t pos stop
      (patternsOf draft.ignoreCase (draft.terminators (stack.headD Grammar.root))) →
    ∃ inner mode under below, stack = inner ++ mode :: under :: below ∧
      FirstEnd g t pos stop inner mode := by
  refine Stacked.induction ?_ (fun entry under below _ habove ih => ?_) h
  · intro hfirst
    rw [List.headD_cons, Grammar.terminators_root hbuild] at hfirst
    cases hfirst
  · intro hfirst
    rw [List.headD_cons, terminators_cons hbuild hnever habove] at hfirst
    rcases Grammar.firstMatch_inheriting (Grammar.compiledFor_of_build hbuild entry).closing
      hfirst with hown | ⟨hsilent, hrest⟩
    · exact ⟨[], entry, under, below, rfl, by simp, by simp, hown⟩
    · split_ifs at hrest with hends
      · obtain ⟨inner, mode, under', below', hstack, hend⟩ := ih hrest
        refine ⟨entry :: inner, mode, under', below', by rw [hstack, List.cons_append], ?_, ?_,
          hend.closes⟩
        · exact List.forall_mem_cons.2 ⟨hends, hend.follow⟩
        · exact List.forall_mem_cons.2 ⟨hsilent, hend.silent⟩
      · cases hrest

end Stack

/-- The walk along the stack stops at the first mode that matches. -/
theorem ending?_of_first {inner : List Nat} {mode under : Nat} {below : List Nat}
    (h : FirstEnd g t pos stop inner mode) :
    ending? g t pos (inner ++ mode :: under :: below) =
      some (outermost g mode (under :: below)) := by
  induction inner with
  | nil =>
    obtain ⟨p, hp, hmatch⟩ := h.closes
    rw [Option.mem_def] at hp
    rw [List.nil_append, ending?, hp]
    simp only [Option.any_some, hmatch, Option.isSome_some, if_true]
  | cons entry inner ih =>
    have hends := h.follow entry List.mem_cons_self
    have hsilent : (g.mode entry).closing.any (fun p => (p.matchAt t pos).isSome) = false := by
      cases hc : (g.mode entry).closing with
      | none => rfl
      | some p => simp [h.silent entry List.mem_cons_self p hc]
    have hrest := ih ⟨fun i hi => h.follow i (List.mem_cons_of_mem _ hi),
      fun i hi => h.silent i (List.mem_cons_of_mem _ hi), h.closes⟩
    obtain ⟨next, tail, hnext⟩ : ∃ next tail, inner ++ mode :: under :: below = next :: tail :=
      List.exists_cons_of_ne_nil (by simp)
    rw [List.cons_append, hnext, ending?]
    rw [hnext] at hrest
    simp only [hsilent, hends, if_true, Bool.false_eq_true, if_false]
    exact hrest

/-- The modes that end their parents, from one that ends on, and the last that ends: the next one
stays open, or is the root. -/
structure EndsAlong (g : Grammar) (pulling : List Nat) (ended : Nat) (kept : List Nat) : Prop where
  pulls : ∀ i ∈ pulling, (g.mode i).flags.endsParent = true
  last : (g.mode ended).flags.endsParent = true → kept.length = 1

/-- A mode that ends takes its parents along as far as their flags say, but not the root. -/
theorem outermost_along (g : Grammar) (mode under : Nat) (below : List Nat) :
    ∃ pulling ended kept, outermost g mode (under :: below) = (ended, kept) ∧ kept ≠ [] ∧
      mode :: under :: below = pulling ++ ended :: kept ∧ EndsAlong g pulling ended kept := by
  induction below generalizing mode under with
  | nil => exact ⟨[], mode, [under], rfl, by simp, rfl, by simp, fun _ => rfl⟩
  | cons under' below ih =>
    unfold outermost
    split_ifs with hends
    · obtain ⟨pulling, ended, kept, heq, hne, hstack, halong⟩ := ih under under'
      exact ⟨mode :: pulling, ended, kept, heq, hne, by rw [hstack, List.cons_append],
        List.forall_mem_cons.2 ⟨hends, halong.pulls⟩, halong.last⟩
    · exact ⟨[], mode, under :: under' :: below, rfl, by simp, rfl, by simp,
        fun hends' => absurd hends' hends⟩

/-! ## Ends that are found -/

/-- The closing patterns of a grammar parse completely on their own and hold nothing that depends
on their place, flags apart. -/
def ClosesAlone (g : Grammar) : Prop :=
  ∀ i, ∀ p ∈ (g.mode i).closing, (∃ e n, Regex.parse p.source = .ok (e, n)) ∧
    Regex.calm .outside false [] p.source.toList = true

/-- The rule that is reported matches where it is reported also if it is compiled alone. -/
def MatchesAlone (ignoreCase : Bool) (scan : Scan) (s : State) (found : Rule.Found) : Prop :=
  ∃ clause p, (scan.top s).rules.clauses[found.index]? = some clause ∧
    Pattern.compile ignoreCase clause.part.source = .ok p ∧
    p.matchAt scan.text found.span.start = some found.span.stop

/-- Where no flags but the shared ones are in force in front of a rule, it matches alone. -/
theorem matchesAlone_of_flagsAt {ignoreCase : Bool} {ps : List Pattern}
    (hcompiled : Rule.RuleSet.build ignoreCase (scan.top s).rules.clauses.toList =
      .ok (scan.top s).rules)
    (hrules : List.Forall₂ (fun clause p => Standalone ignoreCase clause.part p)
      (scan.top s).rules.clauses.toList ps)
    (hterse : ∀ first, ∀ index < (scan.top s).rules.size,
      (Rule.flagsAt ignoreCase (scan.top s).rules.clauses.toList first index).verbose = false)
    (hflags : ∀ first, Rule.flagsAt ignoreCase (scan.top s).rules.clauses.toList first
      found.index = Regex.sharedFlags ignoreCase)
    (hfound : scan.found? s = some found) : MatchesAlone ignoreCase scan s found := by
  obtain ⟨clause, hclause, -⟩ := clause_of_find hfound
  obtain ⟨first, next, -, hsearch⟩ := Rule.RuleSet.exists_search_of_find hfound
  obtain ⟨p, hp, hmatch⟩ := Rule.search_isolated hrules hcompiled (hterse first) hsearch
    (hflags first)
  obtain ⟨p', hp', hstandalone⟩ := Regex.exists_getElem?_of_forall₂ hrules
    (Array.getElem?_toList.trans hclause)
  cases hp.symm.trans hp'
  exact ⟨clause, p, hclause, hstandalone.compiles, hmatch⟩

/-- A mode that starts no other leaves what stays open. -/
theorem act_stack_of_ending {ended : Nat} {kept : List Nat} (hrule : found.rule = .ending)
    (hending : ending? scan.grammar scan.text found.span.start s.stack = some (ended, kept))
    (hstarts : (scan.grammar.mode ended).starts = none) : (scan.act s found).stack = kept := by
  simp only [act, hrule, closeModes, hending, startNext, hstarts]

/-- **An end resolves to the right mode and lexeme.** -/
theorem end_resolved (hbuild : draft.build = .ok scan.grammar) (hnever : draft.NeverStarts)
    (hcloses : ClosesAlone scan.grammar) (hs : Reachable scan s)
    (hfound : scan.found? s = some found) (hrule : found.rule = .ending)
    (halone : MatchesAlone draft.ignoreCase scan s found) :
    ∃ inner mode pulling ended kept, s.stack = inner ++ (pulling ++ ended :: kept) ∧
      (pulling ++ [ended]).head? = some mode ∧ kept ≠ [] ∧
      FirstEnd scan.grammar scan.text found.span.start found.span.stop inner mode ∧
      EndsAlong scan.grammar pulling ended kept ∧
      ending? scan.grammar scan.text found.span.start s.stack = some (ended, kept) ∧
      (isVacuousEnd s found = false → (scan.step s).stack = kept) := by
  obtain ⟨clause, p, hclause, hcompile, hmatch⟩ := halone
  obtain ⟨clause', hclause', hrule'⟩ := clause_of_find hfound
  cases hclause.symm.trans hclause'
  obtain ⟨st, hbuilt⟩ := Grammar.built_of_build hbuild
  have hstacked := stacked_of_reachable hbuilt.linkage hs
  -- The rule joins the terminators of the innermost mode.
  obtain ⟨hne, hsource⟩ := Grammar.part_of_ending hbuild (Array.mem_of_getElem? hclause)
    (hrule'.trans hrule)
  rw [hsource] at hcompile
  have hparts : ∀ part ∈ draft.terminators (s.stack.headD Grammar.root),
      ∃ p, Standalone draft.ignoreCase part p := by
    intro part hpart
    obtain ⟨i, q, hq, rfl⟩ := exists_closing_of_mem hbuild hnever hstacked hpart
    obtain ⟨hparse, hcalm⟩ := hcloses i q hq
    exact ⟨q, hparse, hcalm, (Grammar.compiledFor_of_build hbuild i).closing q hq, rfl⟩
  have hfirst := Rule.matchAt_alternation (Grammar.forall₂_patternsOf hparts) hne hcompile hmatch
  obtain ⟨inner, mode, under, below, hstack, hend⟩ := exists_first hbuild hnever hstacked hfirst
  obtain ⟨pulling, ended, kept, hcut, hkept, halong, hends⟩ :=
    outermost_along scan.grammar mode under below
  have hending : ending? scan.grammar scan.text found.span.start s.stack = some (ended, kept) := by
    rw [hstack, ending?_of_first hend, hcut]
  refine ⟨inner, mode, pulling, ended, kept, by rw [hstack, halong], ?_, hkept, hend, hends,
    hending, fun hv => ?_⟩
  · cases pulling with
    | nil => exact congrArg some (List.cons.inj halong).1.symm
    | cons _ _ => exact congrArg some (List.cons.inj halong).1.symm
  · rw [step_of_found hfound hv, countStall_stack]
    exact act_stack_of_ending hrule hending
      (Grammar.starts_of_neverStarts hbuild hnever ended)

/-! ## Deciding what it takes -/

instance (draft : Grammar.Draft) : Decidable draft.NeverStarts :=
  inferInstanceAs (Decidable (∀ d ∈ draft.definitions,
    d.starts = none ∧ ∀ v ∈ d.variants, v.starts = none))

/-- Whether the rule at a place matches alone. -/
def matchesAlone (ignoreCase : Bool) (scan : Scan) (s : State) (found : Rule.Found) : Bool :=
  (scan.top s).rules.clauses[found.index]?.any fun clause =>
    (Pattern.compile ignoreCase clause.part.source).toOption.any fun p =>
      p.matchAt scan.text found.span.start = some found.span.stop

theorem MatchesAlone.of_eq_true {ignoreCase : Bool}
    (h : matchesAlone ignoreCase scan s found = true) : MatchesAlone ignoreCase scan s found := by
  rw [matchesAlone, Option.any_eq_true] at h
  obtain ⟨clause, hclause, hany⟩ := h
  obtain ⟨p, hcompile, hmatch⟩ := Regex.exists_of_toOption_any hany
  exact ⟨clause, p, hclause, hcompile, of_decide_eq_true hmatch⟩

/-- Whether all closing patterns of a grammar are patterns of their own, flags apart. -/
def closesAlone (g : Grammar) : Bool :=
  g.modes.all fun mode => mode.closing.all fun p =>
    (Regex.parse p.source).toOption.isSome && Regex.calm .outside false [] p.source.toList

theorem ClosesAlone.of_eq_true (h : closesAlone g = true) : ClosesAlone g := by
  refine Grammar.mode_induction (P := fun mode => ∀ p ∈ mode.closing,
    (∃ e n, Regex.parse p.source = .ok (e, n)) ∧
      Regex.calm .outside false [] p.source.toList = true) ?_ (by simp [Grammar.Mode.inert])
  intro i hi p hp
  have hmode := Array.all_eq_true.1 h i hi
  have hget : g.mode i = g.modes[i] := by
    simp [Grammar.mode, Array.getD_eq_getD_getElem?, Array.getElem?_eq_getElem hi]
  rw [hget] at hp
  rw [Option.mem_def.1 hp, Option.all_some, Bool.and_eq_true] at hmode
  obtain ⟨⟨e, n⟩, hparse⟩ := Regex.exists_of_toOption_isSome hmode.1
  exact ⟨⟨e, n, hparse⟩, hmode.2⟩

/-! ## An end that closes three modes -/

/-- Square brackets that end with the parentheses in them, in which angle brackets end with their
parent. -/
def nested : Grammar.Draft where
  name := "nested"
  definitions := #[
    { scope := some "b", opening := some "\\[", closing := some "\\]", contains := [.mode 1] },
    { scope := some "p", opening := some "\\(", closing := some "\\)", contains := [.mode 2]
      flags := { endsParent := true } },
    { scope := some "q", opening := some "<", closing := some ">"
      flags := { endsWithParent := true } },
    { contains := [.mode 0] }]
  root := some 3

/-- A scan in which all are open. -/
def nestedScan (g : Grammar) : Scan where
  grammar := g
  text := #['[', '(', '<', ')']

/-- The state in which they are. -/
def nestedState (g : Grammar) : State :=
  (nestedScan g).step^[3] (nestedScan g).start

theorem nested_builds : ∃ g, nested.build = .ok g ∧
    closesAlone g = true ∧
    (∀ m < 3, ((nestedScan g).step^[m] (nestedScan g).start).closed = false) ∧
    (nestedScan g).found? (nestedState g) = some ⟨.ending, 0, ⟨3, 4⟩⟩ ∧
    matchesAlone nested.ignoreCase (nestedScan g) (nestedState g) ⟨.ending, 0, ⟨3, 4⟩⟩ = true ∧
    isVacuousEnd (nestedState g) ⟨.ending, 0, ⟨3, 4⟩⟩ = false :=
  nested.exists_built _ (by decide +kernel)

/-- The parentheses end, and the square brackets with them. -/
theorem nested_end_resolved : ∃ g, nested.build = .ok g ∧ nested.NeverStarts ∧ ClosesAlone g ∧
    ∃ s found, Reachable (nestedScan g) s ∧ (nestedScan g).found? s = some found ∧
      found.rule = .ending ∧ MatchesAlone nested.ignoreCase (nestedScan g) s found ∧
      ∃ inner mode pulling ended kept, s.stack = inner ++ (pulling ++ ended :: kept) ∧
        (pulling ++ [ended]).head? = some mode ∧ kept ≠ [] ∧
        FirstEnd g (nestedScan g).text found.span.start found.span.stop inner mode ∧
        EndsAlong g pulling ended kept ∧
        ending? g (nestedScan g).text found.span.start s.stack = some (ended, kept) ∧
        (isVacuousEnd s found = false → ((nestedScan g).step s).stack = kept) := by
  obtain ⟨g, hbuild, hcloses, hopen, hfound, halone, -⟩ := nested_builds
  have hnever : nested.NeverStarts := by decide
  have hcloses := ClosesAlone.of_eq_true hcloses
  have hs : Reachable (nestedScan g) (nestedState g) := reachable_iterate _ 3 hopen
  have halone := MatchesAlone.of_eq_true halone
  have hbuild' : nested.build = .ok (nestedScan g).grammar := hbuild
  exact ⟨g, hbuild, hnever, hcloses, nestedState g, _, hs, hfound, rfl, halone,
    end_resolved hbuild' hnever hcloses hs hfound rfl halone⟩

/-! ## An end that is taken for plain text -/

/-- A mode whose illegal pattern leaves a flag behind, with a child that begins with a capital. -/
def leaky : Grammar.Draft where
  name := "leaky"
  definitions := #[
    { scope := some "s", opening := some "a", closing := some "b", illegal := some "(?i)x"
      contains := [.mode 1] },
    { scope := some "c", opening := some "B" },
    { contains := [.mode 0] }]
  root := some 2

/-- A scan in which the child could begin. -/
def leakyScan (g : Grammar) : Scan where
  grammar := g
  text := #['a', 'B']

/-- The state before that. -/
def leakyState (g : Grammar) : State :=
  (leakyScan g).step (leakyScan g).start

theorem leaky_builds : ∃ g, leaky.build = .ok g ∧ closesAlone g = true ∧
    (leakyScan g).found? (leakyState g) = some ⟨.ending, 1, ⟨1, 2⟩⟩ ∧
    isVacuousEnd (leakyState g) ⟨.ending, 1, ⟨1, 2⟩⟩ = false ∧
    ending? g (leakyScan g).text 1 (leakyState g).stack = none ∧
    ((leakyScan g).step (leakyState g)).stack = (leakyState g).stack :=
  leaky.exists_built _ (by decide +kernel)

/-- **An end that no mode has**: the joined terminators match under a flag that the illegal pattern
has left in force, but the closing pattern of the mode does not, and the stack stays as it is. -/
theorem leaky_end_passed : ∃ g, leaky.build = .ok g ∧ leaky.NeverStarts ∧ ClosesAlone g ∧
    ∃ s found, Reachable (leakyScan g) s ∧ (leakyScan g).found? s = some found ∧
      found.rule = .ending ∧ isVacuousEnd s found = false ∧
      ending? g (leakyScan g).text found.span.start s.stack = none ∧
      ((leakyScan g).step s).stack = s.stack := by
  obtain ⟨g, hbuild, hcloses, hfound, hv, hending, hstack⟩ := leaky_builds
  have hnever : leaky.NeverStarts := by decide
  exact ⟨g, hbuild, hnever, ClosesAlone.of_eq_true hcloses, leakyState g, _, .step .start rfl,
    hfound, rfl, hv, hending, hstack⟩

end ModeStack.Scan
