import ModeStack.Keyword.Table

/-!
# Mode definitions

A grammar is written as a list of mode definitions that refer to each other by their place in
the list, so that modes can be shared and can contain each other. A definition may have
variants; each of them, merged over the definition, is a mode of its own.
-/

namespace ModeStack

/-- The place of a definition in the list of its grammar. -/
abbrev ModeId := Nat

/-- A mode as shown in messages. -/
def ModeId.display (id : ModeId) : String := s!"#{id}"

namespace Grammar

/-- A reference to a child. -/
inductive Child where
  | mode (id : ModeId)
  /-- The mode itself, after its variants have been taken apart. -/
  | self
  deriving DecidableEq, Repr

/-- How a mode treats its delimiters and its parent. -/
structure Flags where
  /-- The opening delimiter belongs to the parent. -/
  excludeBegin : Bool := false
  /-- The closing delimiter belongs to the parent. -/
  excludeEnd : Bool := false
  /-- The opening delimiter is read again inside the mode. -/
  returnBegin : Bool := false
  /-- The closing delimiter is read again by the parent. -/
  returnEnd : Bool := false
  /-- The mode also ends wherever its parent would. -/
  endsWithParent : Bool := false
  /-- The end of the mode is the end of its parent too. -/
  endsParent : Bool := false
  /-- The text of the mode belongs to the parent and scores nothing. -/
  skip : Bool := false
  deriving DecidableEq, Repr

/-- The flags set on either side. -/
def Flags.merge (a b : Flags) : Flags where
  excludeBegin := a.excludeBegin || b.excludeBegin
  excludeEnd := a.excludeEnd || b.excludeEnd
  returnBegin := a.returnBegin || b.returnBegin
  returnEnd := a.returnEnd || b.returnEnd
  endsWithParent := a.endsWithParent || b.endsWithParent
  endsParent := a.endsParent || b.endsParent
  skip := a.skip || b.skip

/-- A mode as its author writes it. -/
structure Definition where
  /-- The label of the text inside the mode. -/
  scope : Option String := none
  /-- The pattern that opens the mode; matches anywhere if missing. -/
  opening : Option String := none
  /-- Words that open the mode where they stand alone and not after a dot. -/
  openingWords : Option String := none
  /-- The pattern that closes the mode. If it is missing and the mode does not end with its
  parent, the mode closes at once. -/
  closing : Option String := none
  /-- The pattern that must not occur inside the mode. -/
  illegal : Option String := none
  /-- The modes that can open inside, in order of preference. -/
  contains : List Child := []
  variants : List Definition := []
  /-- The words classified inside the mode. -/
  keywords : Option Keyword.Table := none
  /-- The pattern of a word; `\w+` if missing. -/
  wordPattern : Option String := none
  /-- What opening the mode is worth; 1 if missing. -/
  relevance : Option Nat := none
  /-- The mode that opens when this one ends. -/
  starts : Option ModeId := none
  flags : Flags := {}

instance : Inhabited Definition := ⟨{}⟩

namespace Definition

/-- A variant merged over the definition it belongs to: what the variant sets counts, flags of
both are set, and there are no further variants. -/
def merged (base variant : Definition) : Definition where
  scope := variant.scope.or base.scope
  opening := variant.opening.or base.opening
  openingWords := variant.openingWords.or base.openingWords
  closing := variant.closing.or base.closing
  illegal := variant.illegal.or base.illegal
  contains := if variant.contains.isEmpty then base.contains else variant.contains
  variants := []
  keywords := variant.keywords.or base.keywords
  wordPattern := variant.wordPattern.or base.wordPattern
  relevance := variant.relevance.or base.relevance
  starts := variant.starts.or base.starts
  flags := variant.flags.merge base.flags

/-- The modes among children. -/
def modesOf (children : List Child) : List ModeId :=
  children.filterMap fun
    | .mode id => some id
    | .self => none

/-- The modes that a definition and its variants refer to. -/
def references (d : Definition) : List ModeId :=
  modesOf d.contains ++ d.starts.toList
    ++ d.variants.flatMap fun v => modesOf v.contains ++ v.starts.toList

end Definition

end Grammar

end ModeStack
