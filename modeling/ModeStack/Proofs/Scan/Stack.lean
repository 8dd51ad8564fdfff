import ModeStack.Proofs.Grammar.Compiled
import ModeStack.Proofs.Scan.Bounds

/-!
# The stack of open modes

In every reachable state of a scan with a grammar that has been built, the root lies at the bottom
of the stack, every entry is the index of a mode, and every entry above the root can have been
opened in the one below it: it is a child of it, or it is started, directly or not, by such a
child (`Above`). Resuming after a rejected match happens in the mode in which it was rejected, so
it starts at one of its rules but not at the first. `Stacked` collects this, `stacked_step` is what
a step keeps, and `stacked_of_reachable` what a whole scan does.
-/

namespace ModeStack.Scan

open ModeStack.Regex (Span)
open ModeStack.Grammar (Linkage)

/-- The second mode can lie on the first: it is a child of it, or started by a mode that can lie
there. -/
inductive Above (g : Grammar) (under : Nat) : Nat → Prop
  | child {clause : Rule.Clause} {c : Nat} : clause ∈ (g.mode under).rules.clauses →
      clause.rule = .opening c → Above g under c
  | started {m next : Nat} : Above g under m → (g.mode m).starts = some next →
      Above g under next

/-- A stack of open modes as it should be: the root at the bottom, and every entry a mode that can
lie on the one below. -/
structure Stacked (g : Grammar) (stack : List Nat) : Prop where
  bottom : stack.getLast? = some Grammar.root
  entries : ∀ i ∈ stack, i < g.modeCount
  above : stack.IsChain fun entry under => Above g under entry

variable {scan : Scan} {s : State} {g : Grammar}

theorem Above.lt (hg : Linkage g) {under entry : Nat} (h : Above g under entry) :
    entry < g.modeCount := by
  cases h with
  | child hclause hc => exact hg.child_lt _ _ hclause _ hc
  | started _ hnext => exact hg.next_lt _ _ hnext

/-! ## What opening and closing keeps -/

theorem stacked_root (hg : Linkage g) : Stacked g [Grammar.root] :=
  ⟨rfl, by simpa using hg.root_lt, .singleton _⟩

theorem Stacked.ne_nil {stack : List Nat} (h : Stacked g stack) : stack ≠ [] := by
  rintro rfl
  simpa using h.bottom

theorem Stacked.cons (hg : Linkage g) {under entry : Nat} {below : List Nat}
    (h : Stacked g (under :: below)) (habove : Above g under entry) :
    Stacked g (entry :: under :: below) := by
  refine ⟨by simpa using h.bottom, fun i hi => ?_, h.above.cons_cons habove⟩
  rcases List.mem_cons.1 hi with rfl | hi
  · exact habove.lt hg
  · exact h.entries i hi

/-- What stays open when modes close that lie above the root. -/
theorem Stacked.of_append {inner : List Nat} {ended under : Nat} {below : List Nat}
    (h : Stacked g (inner ++ ended :: under :: below)) :
    Stacked g (under :: below) ∧ Above g under ended := by
  obtain ⟨hended, hbelow⟩ := List.isChain_cons_cons.1 (List.isChain_append.1 h.above).2.1
  refine ⟨⟨?_, fun i hi => h.entries i ?_, hbelow⟩, hended⟩
  · simpa [List.getLast?_append, List.getLast?_cons_cons] using h.bottom
  · exact List.mem_append_right _ (List.mem_cons_of_mem _ hi)

theorem Stacked.of_cons {entry under : Nat} {below : List Nat}
    (h : Stacked g (entry :: under :: below)) :
    Stacked g (under :: below) ∧ Above g under entry := by
  have hstack : Stacked g ([] ++ entry :: under :: below) := h
  exact hstack.of_append

/-- What is true of the root alone, and of every entry that can lie on a stack of which it is true,
is true of every stack. -/
@[elab_as_elim]
theorem Stacked.induction {motive : List Nat → Prop} (hroot : motive [Grammar.root])
    (hcons : ∀ entry under below, Stacked g (under :: below) → Above g under entry →
      motive (under :: below) → motive (entry :: under :: below))
    {stack : List Nat} (h : Stacked g stack) : motive stack := by
  induction stack with
  | nil => exact absurd rfl h.ne_nil
  | cons entry stack ih =>
    cases stack with
    | nil =>
      obtain rfl : entry = Grammar.root := by simpa using h.bottom
      exact hroot
    | cons under below =>
      obtain ⟨hbelow, habove⟩ := h.of_cons
      exact hcons entry under below hbelow habove (ih hbelow)

/-- Ending parents along with a mode stops above the root. -/
theorem outermost_spec (mode parent : Nat) (below : List Nat) :
    ∃ inner ended under rest, outermost g mode (parent :: below) = (ended, under :: rest) ∧
      mode :: parent :: below = inner ++ ended :: under :: rest := by
  induction below generalizing mode parent with
  | nil => exact ⟨[], mode, parent, [], rfl, rfl⟩
  | cons grandparent below ih =>
    unfold outermost
    split_ifs
    · obtain ⟨inner, ended, under, rest, heq, hstack⟩ := ih parent grandparent
      exact ⟨mode :: inner, ended, under, rest, heq, by rw [hstack, List.cons_append]⟩
    · exact ⟨[], mode, parent, grandparent :: below, rfl, rfl⟩

/-- The mode that ends lies above the root, with all that it ends. -/
theorem ending?_spec {t : Text} {pos ended : Nat} {stack below : List Nat}
    (h : ending? g t pos stack = some (ended, below)) :
    ∃ inner under rest, below = under :: rest ∧ stack = inner ++ ended :: under :: rest := by
  induction stack with
  | nil => cases h
  | cons index stack ih =>
    cases stack with
    | nil => cases h
    | cons parent stack =>
      unfold ending? at h
      dsimp only at h
      split_ifs at h
      · obtain ⟨inner, ended', under, rest, heq, hstack⟩ :=
          outermost_spec (g := g) index parent stack
        rw [heq] at h
        cases h
        exact ⟨inner, under, rest, rfl, hstack⟩
      · obtain ⟨inner, under, rest, hbelow, hstack⟩ := ih h
        exact ⟨index :: inner, under, rest, hbelow, by rw [hstack, List.cons_append]⟩

theorem Stacked.startNext (hg : Linkage scan.grammar) {ended under : Nat} {below : List Nat}
    (hs : s.stack = under :: below) (h : Stacked scan.grammar s.stack)
    (hended : Above scan.grammar under ended) :
    Stacked scan.grammar (scan.startNext s ended).stack := by
  rw [startNext_stack]
  cases hnext : (scan.grammar.mode ended).starts with
  | none => exact h
  | some next =>
    rw [hs] at h ⊢
    exact h.cons hg (hended.started hnext)

/-- A match comes from the rule at its place. -/
theorem clause_of_find {rules : Rule.RuleSet} {t : Text} {pos : Nat} {resume : Option Nat}
    {found : Rule.Found} (h : rules.find t pos resume = some found) :
    ∃ clause, rules.clauses[found.index]? = some clause ∧ clause.rule = found.rule := by
  obtain ⟨first, next, -, hsearch⟩ := Rule.RuleSet.exists_search_of_find h
  simp only [Rule.RuleSet.search, Option.bind_eq_bind, Option.bind_eq_some_iff] at hsearch
  obtain ⟨combined, -, ⟨offset, span⟩, -, clause, hclause, hfound⟩ := hsearch
  cases hfound
  exact ⟨clause, hclause, rfl⟩

/-- A match comes from one of the rules that were searched. -/
theorem exists_clause_of_find {rules : Rule.RuleSet} {t : Text} {pos : Nat}
    {resume : Option Nat} {found : Rule.Found} (h : rules.find t pos resume = some found) :
    ∃ clause ∈ rules.clauses, clause.rule = found.rule := by
  obtain ⟨clause, hclause, hrule⟩ := clause_of_find h
  exact ⟨clause, Array.mem_of_getElem? hclause, hrule⟩

/-! ## Steps -/

/-- Acting on a match of the innermost mode's rules keeps the stack as it should be. -/
theorem stacked_act (hg : Linkage scan.grammar) (h : Stacked scan.grammar s.stack)
    {found : Rule.Found}
    (hclause : ∃ clause ∈ (scan.top s).rules.clauses, clause.rule = found.rule) :
    Stacked scan.grammar (scan.act s found).stack := by
  rcases act_stack_cases scan s found with
    heq | ⟨child, hrule, heq⟩ | ⟨ended, below, -, hending, heq⟩
  · rw [heq]
    exact h
  · obtain ⟨clause, hmem, hc⟩ := hclause
    rw [heq]
    obtain ⟨under, below, hstack⟩ := List.exists_cons_of_ne_nil h.ne_nil
    simp only [top, hstack, List.headD_cons] at hmem
    rw [hstack] at h ⊢
    exact h.cons hg (.child hmem (hc.trans hrule))
  · obtain ⟨inner, under, rest, rfl, hstack⟩ := ending?_spec hending
    rw [hstack] at h
    obtain ⟨hbelow, hended⟩ := h.of_append
    rw [heq]
    exact Stacked.startNext hg rfl hbelow hended

/-- A step keeps the stack as it should be. -/
theorem stacked_step (hg : Linkage scan.grammar) (h : Stacked scan.grammar s.stack) :
    Stacked scan.grammar (scan.step s).stack := by
  rcases step_cases scan s with ⟨-, heq⟩ | ⟨found, -, -, heq⟩ | ⟨found, hfound, -, heq⟩
  · rw [heq, close_stack]
    exact h
  · rw [heq, passChar_stack]
    exact h
  · rw [heq, countStall_stack]
    exact stacked_act (s := s.noting found) hg h (exists_clause_of_find hfound)

/-- After a step, the scan resumes nowhere, or at a later rule of the innermost mode. -/
theorem step_resume {k : Nat} (h : (scan.step s).resume = some k) :
    1 ≤ k ∧ k < (scan.top (scan.step s)).rules.size := by
  rcases step_cases scan s with ⟨-, heq⟩ | ⟨found, -, -, heq⟩ | ⟨found, -, -, heq⟩
  · rw [heq] at h
    cases (flush_resume scan { s with resume := none } scan.text.size).symm.trans h
  · rw [heq, passChar_resume] at h
    cases h
  · rw [heq, countStall_resume] at h
    rw [heq, top, countStall_stack]
    rcases act_resume_cases scan (s.noting found) found with hr | ⟨hstack, hr, hsize⟩
    · rw [hr] at h
      cases h
    · rw [hr] at h
      cases h
      rw [hstack]
      exact ⟨Nat.succ_pos _, hsize⟩

/-! ## Whole scans -/

/-- **The stack of every reachable state is as it should be.** -/
theorem stacked_of_reachable (hg : Linkage scan.grammar) (h : Reachable scan s) :
    Stacked scan.grammar s.stack := by
  induction h with
  | start => exact stacked_root hg
  | step _ _ ih => exact stacked_step hg ih
  | take _ _ ih => exact ih

theorem resume_of_reachable (h : Reachable scan s) {k : Nat} (hk : s.resume = some k) :
    1 ≤ k ∧ k < (scan.top s).rules.size := by
  induction h with
  | start => cases hk
  | step _ _ _ => exact step_resume hk
  | take _ _ ih => exact ih hk

/-- **The state of a scan is always in order.** With a grammar that has been built, all links lead
to modes; the stack has the root at the bottom, and each entry above it can lie on the one below;
a scan that resumes does so at a rule of the innermost mode, and not the first; all positions lie
inside the text, at its end if the scan is over. If the searches of the grammar go onward, what has
been emitted lies before the cursor. -/
theorem state_in_order {draft : Grammar.Draft} (hbuild : draft.build = .ok scan.grammar)
    (h : Reachable scan s) :
    Linkage scan.grammar ∧ Stacked scan.grammar s.stack ∧
    (∀ k, s.resume = some k → 1 ≤ k ∧ k < (scan.top s).rules.size) ∧
    Bounded scan s ∧ (scan.grammar.SearchesOnward → s.flushed ≤ s.cursor) := by
  obtain ⟨st, hbuilt⟩ := Grammar.built_of_build hbuild
  exact ⟨hbuilt.linkage, stacked_of_reachable hbuilt.linkage h,
    fun k hk => resume_of_reachable h hk, bounded_of_reachable h,
    fun hg => (sound_of_reachable hg h).placed.flushed_le⟩

/-! ## A cursor that slips back -/

/-- A grammar whose searches do not go onward. The flag in the first pattern is still set when the
patterns are joined and the second is read, where it makes a comment of what would be a group. The
group numbers of the third are then those of the groups before them, so that its match is taken to
be what it looks back at. -/
def slipping : Grammar.Draft where
  name := "slipping"
  definitions := #[
    { scope := some "a", opening := some "(?x)a" },
    { scope := some "b", opening := some "#(b)\nq" },
    { scope := some "y", opening := some "(?<=(c))d", contains := [.mode 3],
      flags := { returnBegin := true } },
    { scope := some "z", opening := some "c" },
    { contains := [.mode 3, .mode 0, .mode 1, .mode 2] }]
  root := some 4

/-- A scan of a letter after the one that it looks back at. -/
def slippingScan (g : Grammar) : Scan where
  grammar := g
  text := #['c', 'd']

/-- The state after three steps of it. -/
def slippingState (g : Grammar) : State :=
  (slippingScan g).step^[3] (slippingScan g).start

/-- The third step moves the cursor back before what the second has emitted. -/
theorem slipping_builds : ∃ g, slipping.build = .ok g ∧
    (∀ m < 3, ((slippingScan g).step^[m] (slippingScan g).start).closed = false) ∧
    (slippingState g).cursor < (slippingState g).flushed :=
  slipping.exists_built _ (by decide +kernel)

/-- What has been emitted may lie behind the cursor. -/
theorem slipping_cursor_lt_flushed : ∃ g, slipping.build = .ok g ∧
    ∃ s, Reachable (slippingScan g) s ∧ s.cursor < s.flushed := by
  obtain ⟨g, hbuild, hopen, hlt⟩ := slipping_builds
  exact ⟨g, hbuild, slippingState g, reachable_iterate _ 3 hopen, hlt⟩

/-- Even then the stack is in order, and the cursor inside the text. -/
theorem slipping_state_in_order : ∃ g, slipping.build = .ok g ∧
    Reachable (slippingScan g) (slippingState g) ∧
    Stacked g (slippingState g).stack ∧ Bounded (slippingScan g) (slippingState g) := by
  obtain ⟨g, hbuild, hopen, -⟩ := slipping_builds
  have hreach : Reachable (slippingScan g) (slippingState g) := reachable_iterate _ 3 hopen
  obtain ⟨-, hstack, -, hbounded, -⟩ := state_in_order hbuild hreach
  exact ⟨g, hbuild, hreach, hstack, hbounded⟩

end ModeStack.Scan
