import ModeStack.Proofs.Rule.Searches

/-!
# A grammar that tends to stand still

`restless` gathers the ways in which a mode can be opened or closed without taking a character:
a mode without patterns of its own, which opens and closes everywhere and contains itself; a mode
that reads both its delimiters again; and a mode that starts itself anew whenever it ends. Its
root classifies words. It serves as the example for theorems about all grammars.
-/

namespace ModeStack.Grammar

/-- A mode that opens and closes everywhere, one that reads its delimiters again, and one that
starts itself when it ends. -/
def restless : Draft :=
  let keywords : Keyword.Table :=
    { entries := [("if", ⟨0, 1⟩)], classes := #["keyword"] }
  { name := "restless"
    definitions := #[
      { scope := some "blank", contains := [.self] },
      { scope := some "mirror", opening := some "<", closing := some ">", contains := [.mode 0],
        flags := { returnBegin := true, returnEnd := true } },
      { scope := some "cycle", opening := some "(?=!)", closing := some "!|\\b",
        starts := some 2 },
      { contains := [.mode 1, .mode 2], keywords := some keywords }]
    root := some 3 }

/-- It can be built, and its searches go onward. -/
theorem restless_builds : ∃ g, restless.build = .ok g ∧ g.SearchesOnward := by
  obtain ⟨g, hbuild, hforward⟩ := restless.exists_built (·.isForward = true) (by decide +kernel)
  exact ⟨g, hbuild, searchesOnward_of_isForward hforward⟩

end ModeStack.Grammar
