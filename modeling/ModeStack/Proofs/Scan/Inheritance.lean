import ModeStack.Proofs.Scan.Stack

/-!
# Terminators on the stack

A mode that ends with its parent is compiled with its own terminator and those of a parent. On the
stack of a scan, that parent should be the mode below. It is, for a mode opened as a child, however
many parents share it (`Built.child_inherits`). A mode that is started by another inherits from the
parent for which that other was first staged, though, and when parents share a mode that starts
another, only the first of them passes its terminators on. `inherits_or_started` says this of every
reachable state, and `sharing_loses_terminator` is a scan in which a mode cannot end with the mode
below it.
-/

namespace ModeStack.Scan

open ModeStack.Grammar (inheriting endingClauses)

variable {scan : Scan} {s : State} {draft : Grammar.Draft}

/-- **A mode that ends with its parent** is compiled with its own terminator and those of the mode
below it on the stack. Otherwise it has been started by a mode that was first reached from
elsewhere, and has the terminators of the mode there. -/
theorem inherits_or_started (hbuild : draft.build = .ok scan.grammar) (hs : Reachable scan s)
    {inner below : List Nat} {entry under : Nat} (hstack : s.stack = inner ++ entry :: under :: below)
    (hends : (scan.grammar.mode entry).flags.endsWithParent = true) :
    (scan.grammar.mode entry).rules.clauses.toList.filter (·.rule = .ending) =
      endingClauses (draft.terminators entry) ∧
    (draft.terminators entry =
        inheriting (scan.grammar.mode entry).closing (draft.terminators under) ∨
      ∃ m, Above scan.grammar under m ∧ (scan.grammar.mode m).starts = some entry ∧
        draft.firstParentTerminators m ≠ draft.terminators under ∧
        draft.terminators entry =
          inheriting (scan.grammar.mode entry).closing (draft.firstParentTerminators m)) := by
  obtain ⟨st, hbuilt⟩ := Grammar.built_of_build hbuild
  have hstacked := stacked_of_reachable hbuilt.linkage hs
  rw [hstack] at hstacked
  have habove := hstacked.of_append.2
  refine ⟨hbuilt.ending_eq (habove.lt hbuilt.linkage), ?_⟩
  cases habove with
  | child hclause hc => exact .inl ((hbuilt.child_inherits hclause hc).2 hends)
  | @started m _ hm hnext =>
    have hinherits := (hbuilt.started_inherits hnext).2 hends
    by_cases hfirst : draft.firstParentTerminators m = draft.terminators under
    · exact .inl (hfirst ▸ hinherits)
    · exact .inr ⟨m, hm, hnext, hfirst, hinherits⟩

/-! ## A mode shared by two parents -/

/-- Angle brackets, in parentheses and in square brackets, that start a mode which ends with its
parent. -/
def sharing : Grammar.Draft where
  name := "sharing"
  definitions := #[
    { scope := some "c", flags := { endsWithParent := true } },
    { scope := some "a", opening := some "<", closing := some ">", starts := some 0 },
    { scope := some "p", opening := some "\\(", closing := some "\\)", contains := [.mode 1] },
    { scope := some "q", opening := some "\\[", closing := some "\\]", contains := [.mode 1] },
    { contains := [.mode 2, .mode 3] }]
  root := some 4

/-- A scan of angle brackets in square brackets. -/
def sharingScan (g : Grammar) : Scan where
  grammar := g
  text := #['[', '<', '>', ']']

/-- The state after three steps of it. -/
def sharingState (g : Grammar) : State :=
  (sharingScan g).step^[3] (sharingScan g).start

/-- The third step starts mode 4 in the square brackets, with the terminator of the
parentheses. -/
theorem sharing_builds : ∃ g, sharing.build = .ok g ∧
    (∀ m < 3, ((sharingScan g).step^[m] (sharingScan g).start).closed = false) ∧
    (sharingState g).stack = [4, 2, 0] ∧ (g.mode 4).flags.endsWithParent = true ∧
    sharing.terminators 4 ≠ inheriting (g.mode 4).closing (sharing.terminators 2) :=
  sharing.exists_built _ (by decide +kernel)

/-- A mode that ends with its parent may lack the terminator of the mode below it. -/
theorem sharing_loses_terminator : ∃ g, sharing.build = .ok g ∧
    ∃ s entry under below, Reachable (sharingScan g) s ∧ s.stack = entry :: under :: below ∧
      (g.mode entry).flags.endsWithParent = true ∧
      sharing.terminators entry ≠
        inheriting (g.mode entry).closing (sharing.terminators under) := by
  obtain ⟨g, hbuild, hopen, hstack, hends, hne⟩ := sharing_builds
  exact ⟨g, hbuild, sharingState g, 4, 2, [0], reachable_iterate _ 3 hopen, hstack, hends, hne⟩

/-- It has been started by a mode that was first reached from elsewhere. -/
theorem sharing_started : ∃ g, sharing.build = .ok g ∧
    ∃ m, Above g 2 m ∧ (g.mode m).starts = some 4 ∧
      sharing.firstParentTerminators m ≠ sharing.terminators 2 := by
  obtain ⟨g, hbuild, hopen, hstack, hends, hne⟩ := sharing_builds
  have hreach : Reachable (sharingScan g) (sharingState g) := reachable_iterate _ 3 hopen
  have hstack : (sharingState g).stack = [] ++ 4 :: 2 :: [0] := hstack
  have hbuild' : sharing.build = .ok (sharingScan g).grammar := hbuild
  rcases (inherits_or_started hbuild' hreach hstack hends).2 with
    heq | ⟨m, habove, hstarts, hfirst, -⟩
  · exact absurd heq hne
  · exact ⟨g, hbuild, m, habove, hstarts, hfirst⟩

end ModeStack.Scan
