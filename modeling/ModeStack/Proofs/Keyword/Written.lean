import Mathlib.Data.Set.Card
import ModeStack.Proofs.Grammar.Acceptance
import ModeStack.Proofs.Keyword.Entries

/-!
# Keyword tables as they are written

A table is written in steps: entries are added to classes, and whether case counts is decided, in
any order. What the finished table says can be read off the steps without running them.

**Runs.** The words of the draft after some steps are those of the entries so far, each with the
number that its class has among the names so far; numbers do not change as further names come.
A step keeps this (`Draft.Written.after`).

**Tables.** The table finds the last of the entries that are set for a word, and has as many words
as there are different ones (`lookup_insertAll`, `keys_insertAll`).

Main result: `build_described`, either the first malformed entry is reported or the table is as the
steps describe it (`Table.Describes`).
-/

namespace ModeStack.Keyword

open ModeStack.Text

/-! ## Steps -/

/-- A step of writing a table. -/
inductive Step
  | cls (name : String) (entries : List String)
  | ignoreCase (yes : Bool)

/-- The draft after one more step. -/
def Draft.after (draft : Draft) : Step → Draft
  | .cls name entries => draft.add name entries
  | .ignoreCase yes => draft.ignoringCase yes

/-- What has been written after some steps. -/
def written (steps : List Step) : Draft := steps.foldl Draft.after {}

/-- The table that the steps write, or the error that says why there is none. -/
def build (steps : List Step) : Except Grammar.Error Table :=
  (written steps).finish.mapError .invalidKeyword

namespace Step

/-- The entries of a step, each with the name of its class. -/
def entries : Step → List (String × String)
  | .cls name entries => entries.map (name, ·)
  | .ignoreCase _ => []

/-- The class that a step names. -/
def name? : Step → Option String
  | .cls name _ => some name
  | .ignoreCase _ => none

/-- What a step decides about case. -/
def choice? : Step → Option Bool
  | .cls _ _ => none
  | .ignoreCase yes => some yes

end Step

/-- All entries in order, each with the name of its class. -/
def entriesOf (steps : List Step) : List (String × String) := steps.flatMap Step.entries

/-- The names of the classes, in the order in which they are first used. -/
def classNames (steps : List Step) : List String := (steps.filterMap Step.name?).eraseDups

/-- Whether case is ignored: what was decided last, if anything was. -/
def folds (steps : List Step) : Bool := (steps.filterMap Step.choice?).getLast?.getD false

/-! ## What the steps say of a word -/

/-- The form of a word that is compared. -/
def form (fold : Bool) (word : String) : String := if fold then lowercase word else word

/-- The entry is for the word, once case is settled, and gives it the weight. -/
def EntryFor (fold : Bool) (word entry : String) (weight : Nat) : Prop :=
  ∃ read, Denotes entry read weight ∧ read ≠ "" ∧ form fold read = form fold word

/-- The last entry for the word is in the class and gives it the weight. -/
def LastEntry (steps : List Step) (word cls : String) (weight : Nat) : Prop :=
  ∃ before entry after, entriesOf steps = before ++ (cls, entry) :: after ∧
    EntryFor (folds steps) word entry weight ∧
    ∀ later ∈ after, ∀ n, ¬EntryFor (folds steps) word later.2 n

/-- The words of all entries, once case is settled. -/
def wordsOf (steps : List Step) : Set String :=
  {key | ∃ p ∈ entriesOf steps, ∃ word n, Denotes p.2 word n ∧ word ≠ "" ∧
    key = form (folds steps) word}

/-- The entry is the first one that is malformed. -/
def FirstMalformed (steps : List Step) (entry : String) : Prop :=
  ∃ before cls after, entriesOf steps = before ++ (cls, entry) :: after ∧ Malformed entry ∧
    ∀ earlier ∈ before, ¬Malformed earlier.2

/-- The table finds the words of the steps, with the weights of the last entries for them. -/
structure Table.Describes (table : Table) (steps : List Step) : Prop where
  ignoreCase_eq : table.ignoreCase = folds steps
  classify_isSome_iff : ∀ word, (table.classify word).isSome = true ↔
    ∃ p ∈ entriesOf steps, ∃ n, EntryFor (folds steps) word p.2 n
  weight_last : ∀ word found, table.classify word = some found →
    ∃ cls, LastEntry steps word cls found.weight
  size_eq : table.size = (wordsOf steps).ncard

/-! ## Running the steps -/

/-- What is noted of an entry, if it has a word: its number and its weight. -/
def note? (classes : List String) (p : String × String) : Option (String × Entry) :=
  (readEntry p.2).bind fun (word, weight) =>
    if word.isEmpty then none else some (word, ⟨(classes.idxOf p.1).toUInt16, weight⟩)

/-- The draft is what the steps write. -/
structure Draft.Written (draft : Draft) (steps : List Step) : Prop where
  fault_eq : draft.fault =
    ((entriesOf steps).map (·.2)).find? fun entry => (readEntry entry).isNone
  ignoreCase_eq : draft.ignoreCase = folds steps
  classes_eq : draft.classes.toList = classNames steps
  words_eq : draft.words.toList = (entriesOf steps).filterMap (note? (classNames steps))

section

variable {steps : List Step}

theorem entriesOf_concat (step : Step) :
    entriesOf (steps ++ [step]) = entriesOf steps ++ step.entries := by
  simp [entriesOf]

theorem classNames_concat_cls (name : String) (entries : List String) :
    classNames (steps ++ [Step.cls name entries]) =
      if name ∈ classNames steps then classNames steps else classNames steps ++ [name] := by
  have hname : [Step.cls name entries].filterMap Step.name? = [name] := rfl
  unfold classNames
  rw [List.filterMap_append, hname, List.eraseDups_append, List.cons_removeAll]
  simp only [List.nil_removeAll, List.mem_eraseDups, List.contains_eq_mem]
  split_ifs <;> simp_all [List.eraseDups_cons]

theorem classNames_concat_ignoreCase (yes : Bool) :
    classNames (steps ++ [Step.ignoreCase yes]) = classNames steps := by
  have hname : [Step.ignoreCase yes].filterMap Step.name? = [] := rfl
  unfold classNames
  rw [List.filterMap_append, hname, List.append_nil]

theorem folds_concat_cls (name : String) (entries : List String) :
    folds (steps ++ [Step.cls name entries]) = folds steps := by
  simp [folds, Step.choice?]

theorem folds_concat_ignoreCase (yes : Bool) : folds (steps ++ [Step.ignoreCase yes]) = yes := by
  simp [folds, Step.choice?]

/-- The class of every entry has a name. -/
theorem mem_classNames_of_mem {p : String × String} (h : p ∈ entriesOf steps) :
    p.1 ∈ classNames steps := by
  obtain ⟨step, hstep, hp⟩ := List.mem_flatMap.1 h
  cases step with
  | ignoreCase => cases hp
  | cls name entries =>
    obtain ⟨entry, -, rfl⟩ := List.mem_map.1 hp
    exact List.mem_eraseDups.2 (List.mem_filterMap.2 ⟨_, hstep, rfl⟩)

end

/-- A name keeps its number, or gets the next one. -/
theorem numberOf_eq (classes : Array String) (name : String) :
    (Draft.numberOf classes name).1 = classes.toList.idxOf name ∧
    (Draft.numberOf classes name).2.toList =
      if name ∈ classes.toList then classes.toList else classes.toList ++ [name] := by
  obtain ⟨names⟩ := classes
  have hfind : Array.findIdx? (· = name) ⟨names⟩ = names.findIdx? (· == name) := by
    rw [List.findIdx?_toArray]
    rfl
  unfold Draft.numberOf
  rw [hfind]
  by_cases hmem : name ∈ names
  · have hsome : names.findIdx? (· == name) = some (names.idxOf name) :=
      List.findIdx?_eq_some_of_exists ⟨name, hmem, beq_self_eq_true name⟩
    rw [hsome]
    exact ⟨rfl, (if_pos hmem).symm⟩
  · have hnone : names.findIdx? (· == name) = none := by
      refine List.findIdx?_eq_none_iff.2 fun other hother => ?_
      rw [beq_eq_false_iff_ne]
      exact fun heq => hmem (heq ▸ hother)
    rw [hnone]
    exact ⟨(List.idxOf_eq_length hmem).symm, by simp [hmem]⟩

namespace Draft

variable {draft : Draft} {steps : List Step}

theorem ignoreCase_addEntry (number : UInt16) (entry : String) :
    (draft.addEntry number entry).ignoreCase = draft.ignoreCase := by
  unfold addEntry
  split
  · rfl
  · split_ifs <;> rfl

theorem classes_addEntry (number : UInt16) (entry : String) :
    (draft.addEntry number entry).classes = draft.classes := by
  unfold addEntry
  split
  · rfl
  · split_ifs <;> rfl

theorem words_addEntry {classes : List String} {name : String} {number : UInt16}
    (hnumber : number = (classes.idxOf name).toUInt16) (entry : String) :
    (draft.addEntry number entry).words.toList =
      draft.words.toList ++ (note? classes (name, entry)).toList := by
  unfold addEntry note?
  cases readEntry entry with
  | none => simp
  | some read =>
    obtain ⟨word, weight⟩ := read
    simp only [Option.bind_some, hnumber]
    split_ifs <;> simp

/-- Adding entries to a class notes those that have a word. -/
theorem add_eq (draft : Draft) (name : String) (entries : List String) :
    (draft.add name entries).ignoreCase = draft.ignoreCase ∧
    (draft.add name entries).classes = (numberOf draft.classes name).2 ∧
    ∀ classes : List String, (numberOf draft.classes name).1 = classes.idxOf name →
      (draft.add name entries).words.toList = draft.words.toList ++
        (entries.map (name, ·)).filterMap (note? classes) := by
  have hfold (number : UInt16) (start : Draft) :
      (entries.foldl (·.addEntry number ·) start).ignoreCase = start.ignoreCase ∧
      (entries.foldl (·.addEntry number ·) start).classes = start.classes ∧
      ∀ classes : List String, number = (classes.idxOf name).toUInt16 →
        (entries.foldl (·.addEntry number ·) start).words.toList = start.words.toList ++
          (entries.map (name, ·)).filterMap (note? classes) := by
    induction entries generalizing start with
    | nil => simp
    | cons entry entries ih =>
      obtain ⟨hcase, hclasses, hwords⟩ := ih (start.addEntry number entry)
      refine ⟨hcase.trans (ignoreCase_addEntry ..), hclasses.trans (classes_addEntry ..), ?_⟩
      intro classes hnumber
      rw [List.foldl_cons, hwords classes hnumber, words_addEntry hnumber, List.append_assoc,
        List.map_cons, List.filterMap_cons]
      cases note? classes (name, entry) <;> rfl
  obtain ⟨hcase, hclasses, hwords⟩ := hfold (numberOf draft.classes name).1.toUInt16
    { draft with classes := (numberOf draft.classes name).2 }
  refine ⟨hcase, hclasses, fun classes hnumber => ?_⟩
  exact hwords classes (congrArg Nat.toUInt16 hnumber)

/-- The number of a class does not change as further names come. -/
theorem note?_append {names : List String} (more : List String) {p : String × String}
    (h : p.1 ∈ names) : note? (names ++ more) p = note? names p := by
  unfold note?
  rw [List.idxOf_append_of_mem h]

/-- **A step** keeps what is known of the draft. -/
theorem Written.after (h : draft.Written steps) (step : Step) :
    (draft.after step).Written (steps ++ [step]) := by
  cases step with
  | ignoreCase yes =>
    have hentries : entriesOf (steps ++ [Step.ignoreCase yes]) = entriesOf steps := by
      rw [entriesOf_concat]
      exact List.append_nil _
    refine ⟨?_, ?_, ?_, ?_⟩
    · rw [hentries]
      exact h.fault_eq
    · rw [folds_concat_ignoreCase]
      rfl
    · rw [classNames_concat_ignoreCase]
      exact h.classes_eq
    · rw [hentries, classNames_concat_ignoreCase]
      exact h.words_eq
  | cls name entries =>
    obtain ⟨hcase, hclasses, hwords⟩ := add_eq draft name entries
    obtain ⟨hnumber, hnames⟩ := numberOf_eq draft.classes name
    rw [h.classes_eq] at hnumber hnames
    rw [← classNames_concat_cls name entries] at hnames
    -- The class has the number that it has from now on.
    have hmore : ∃ more, classNames (steps ++ [Step.cls name entries]) = classNames steps ++ more := by
      rw [classNames_concat_cls]
      split_ifs
      · exact ⟨[], (List.append_nil _).symm⟩
      · exact ⟨[name], rfl⟩
    have hsame : (classNames steps).idxOf name =
        (classNames (steps ++ [Step.cls name entries])).idxOf name := by
      rw [classNames_concat_cls]
      split_ifs with hmem
      · rfl
      · rw [List.idxOf_append_of_notMem hmem, List.idxOf_eq_length hmem]
        simp
    refine ⟨?_, ?_, ?_, ?_⟩
    · have hraw : (Step.cls name entries).entries.map (·.2) = entries := by
        simp [Step.entries, Function.comp_def]
      rw [entriesOf_concat, List.map_append, hraw, List.find?_append, ← h.fault_eq]
      exact fault_add draft name entries
    · rw [folds_concat_cls]
      exact hcase.trans h.ignoreCase_eq
    · exact (congrArg Array.toList hclasses).trans hnames
    · refine (hwords _ (hnumber.trans hsame)).trans ?_
      rw [h.words_eq, entriesOf_concat, List.filterMap_append]
      congr 1
      obtain ⟨more, hmore⟩ := hmore
      refine List.filterMap_congr fun p hp => ?_
      rw [hmore, note?_append more (mem_classNames_of_mem hp)]

/-- **What the steps write** can be read off them. -/
theorem written_written (steps : List Step) : (written steps).Written steps := by
  induction steps using List.reverseRecOn with
  | nil => exact ⟨rfl, rfl, rfl, rfl⟩
  | append_singleton steps step ih =>
    unfold written
    rw [List.foldl_append]
    exact ih.after step

end Draft

/-! ## Setting entries -/

namespace Entries

theorem lookup_insert (entries : Entries) (word : String) (entry : Entry) (key : String) :
    (entries.insert word entry).lookup key =
      if key = word then some entry else entries.lookup key := by
  induction entries with
  | nil =>
    by_cases hkey : key = word
    · simp [insert, hkey]
    · simp [insert, hkey, List.lookup_cons, beq_eq_false_iff_ne.2 hkey]
  | cons first entries ih =>
    obtain ⟨w, e⟩ := first
    unfold insert
    split_ifs with hword hkey hkey
    · simp [hkey]
    · have hne : (key == w) = false := beq_eq_false_iff_ne.2 fun heq => hkey (heq.trans hword)
      have hne' : (key == word) = false := beq_eq_false_iff_ne.2 hkey
      rw [List.lookup_cons, List.lookup_cons, hne, hne']
    · have hne : (key == w) = false := beq_eq_false_iff_ne.2 fun heq => hword (heq.symm.trans hkey)
      rw [List.lookup_cons, hne, ih, if_pos hkey]
    · rw [List.lookup_cons, List.lookup_cons, ih, if_neg hkey]

/-- Setting an entry adds the word if it is new, and keeps words apart. -/
theorem keys_insert (entries : Entries) (word : String) (entry : Entry) :
    (entries.insert word entry).map Prod.fst =
      if word ∈ entries.map Prod.fst then entries.map Prod.fst
      else entries.map Prod.fst ++ [word] := by
  induction entries with
  | nil => rfl
  | cons first entries ih =>
    obtain ⟨w, e⟩ := first
    unfold insert
    by_cases hword : w = word
    · simp [hword]
    · rw [if_neg hword, List.map_cons, ih, List.map_cons]
      have hne : word ≠ w := fun heq => hword heq.symm
      simp only [List.mem_cons, hne, false_or]
      split_ifs <;> rfl

end Entries

/-- Sets entries in order, once case is settled. -/
def insertAll (fold : Bool) (notes : List (String × Entry)) : Entries :=
  notes.foldl (fun entries note => entries.insert (form fold note.1) note.2) []

/-- **The last entry** for a word is found. -/
theorem lookup_insertAll (fold : Bool) (notes : List (String × Entry)) (key : String) :
    (insertAll fold notes).lookup key =
      (notes.reverse.find? fun note => form fold note.1 = key).map (·.2) := by
  induction notes using List.reverseRecOn with
  | nil => rfl
  | append_singleton notes note ih =>
    unfold insertAll at ih ⊢
    rw [List.foldl_append, List.foldl_cons, List.foldl_nil, Entries.lookup_insert, ih,
      List.reverse_append, List.reverse_singleton, List.singleton_append, List.find?_cons]
    by_cases hkey : form fold note.1 = key
    · simp [hkey]
    · have hne : key ≠ form fold note.1 := fun heq => hkey heq.symm
      simp [hkey, hne]

/-- **The words** of a table are those that were set, each once. -/
theorem keys_insertAll (fold : Bool) (notes : List (String × Entry)) :
    ((insertAll fold notes).map Prod.fst).Nodup ∧
      ∀ key, key ∈ (insertAll fold notes).map Prod.fst ↔ ∃ note ∈ notes, form fold note.1 = key := by
  induction notes using List.reverseRecOn with
  | nil => simp [insertAll]
  | append_singleton notes note ih =>
    obtain ⟨hnodup, hmem⟩ := ih
    have hkeys := Entries.keys_insert (insertAll fold notes) (form fold note.1) note.2
    have hstep : insertAll fold (notes ++ [note]) =
        (insertAll fold notes).insert (form fold note.1) note.2 := by
      unfold insertAll
      rw [List.foldl_append, List.foldl_cons, List.foldl_nil]
    rw [hstep, hkeys]
    have hsplit (key : String) : (∃ other ∈ notes ++ [note], form fold other.1 = key) ↔
        key ∈ (insertAll fold notes).map Prod.fst ∨ form fold note.1 = key := by
      simp only [hmem, List.mem_append, List.mem_singleton, or_and_right, exists_or,
        exists_eq_left]
    simp only [hsplit]
    split_ifs with hold
    · refine ⟨hnodup, fun key => ⟨.inl, ?_⟩⟩
      rintro (h | rfl)
      · exact h
      · exact hold
    · refine ⟨?_, fun key => ?_⟩
      · rw [← List.concat_eq_append, List.nodup_concat]
        exact ⟨hold, hnodup⟩
      · rw [List.mem_append, List.mem_singleton, eq_comm (a := key)]

/-! ## The finished table -/

section

variable {steps : List Step} {table : Table}

/-- The notes of all entries, with the numbers that classes have in the end. -/
def notesOf (steps : List Step) : List (String × Entry) :=
  (entriesOf steps).filterMap (note? (classNames steps))

/-- The table that the steps write, if no entry is malformed. -/
def tableOf (steps : List Step) : Table where
  entries := insertAll (folds steps) (notesOf steps)
  classes := (classNames steps).toArray
  ignoreCase := folds steps

theorem build_eq (steps : List Step) :
    build steps = match ((entriesOf steps).map (·.2)).find? fun entry => (readEntry entry).isNone with
      | some entry => .error (.invalidKeyword entry)
      | none => .ok (tableOf steps) := by
  have h := Draft.written_written steps
  unfold build Draft.finish
  rw [h.fault_eq]
  cases ((entriesOf steps).map (·.2)).find? fun entry => (readEntry entry).isNone with
  | some entry => rfl
  | none =>
    have hclasses : (written steps).classes = (classNames steps).toArray :=
      congrArg List.toArray h.classes_eq
    have hwords : (written steps).words.toList = notesOf steps := h.words_eq
    dsimp only
    rw [← Array.foldl_toList, hwords, h.ignoreCase_eq, hclasses]
    rfl

/-- The table of steps that write one. -/
theorem eq_tableOf (h : build steps = .ok table) : table = tableOf steps := by
  rw [build_eq] at h
  split at h
  · cases h
  · exact (Except.ok.inj h).symm

theorem note?_eq_some_iff {classes : List String} {p : String × String} {word : String}
    {entry : Entry} : note? classes p = some (word, entry) ↔
      Denotes p.2 word entry.weight ∧ word ≠ "" ∧ entry.cls = (classes.idxOf p.1).toUInt16 := by
  obtain ⟨number, weight⟩ := entry
  unfold note?
  rw [Option.bind_eq_some_iff, ← readEntry_eq_some_iff]
  constructor
  · rintro ⟨⟨read, m⟩, hread, h⟩
    dsimp only at h
    split_ifs at h with hempty
    cases h
    exact ⟨hread, fun heq => hempty (String.isEmpty_iff.2 heq), rfl⟩
  · rintro ⟨hread, hword, hnumber⟩
    refine ⟨_, hread, ?_⟩
    dsimp only at hnumber ⊢
    rw [if_neg (fun hempty => hword (String.isEmpty_iff.1 hempty)), hnumber]

/-- Whether an entry is for a word can be seen from what is noted of it. -/
theorem exists_entryFor_iff {fold : Bool} {classes : List String} {p : String × String}
    {word : String} :
    (∃ n, EntryFor fold word p.2 n) ↔
      (note? classes p).any (fun note => form fold note.1 = form fold word) = true := by
  rw [Option.any_eq_true]
  constructor
  · rintro ⟨n, read, hread, hne, hform⟩
    exact ⟨(read, ⟨_, n⟩), note?_eq_some_iff.2 ⟨hread, hne, rfl⟩, decide_eq_true hform⟩
  · rintro ⟨⟨read, entry⟩, hnote, hform⟩
    obtain ⟨hread, hne, -⟩ := note?_eq_some_iff.1 hnote
    exact ⟨entry.weight, read, hread, hne, of_decide_eq_true hform⟩

/-- **What the table says of a word**: nothing if no entry is for it; otherwise the last entry
decides the weight, and the number of its class, in sixteen bits, the name of the class. -/
theorem classify_tableOf (steps : List Step) (word : String) :
    ((tableOf steps).classify word = none ∧
      ∀ p ∈ entriesOf steps, ¬∃ n, EntryFor (folds steps) word p.2 n) ∨
    ∃ cls n, LastEntry steps word cls n ∧ (tableOf steps).classify word =
      some ⟨(classNames steps).getD ((classNames steps).idxOf cls % 2 ^ 16) "", n⟩ := by
  let classes := classNames steps
  have hlookup : (tableOf steps).classify word =
      (((entriesOf steps).reverse.find? fun p => (note? classes p).any fun note =>
        form (folds steps) note.1 = form (folds steps) word).bind (note? classes)).map
          fun note => ⟨classes.getD note.2.cls.toNat "", note.2.weight⟩ := by
    rw [← List.find?_filterMap, List.filterMap_reverse]
    have hkey : (tableOf steps).key word = form (folds steps) word := rfl
    unfold Table.classify
    rw [hkey]
    refine (congrArg _ (lookup_insertAll _ _ _)).trans ?_
    rw [Option.map_map]
    have hname (number : Nat) : (tableOf steps).classes.getD number "" = classes.getD number "" := by
      simp [tableOf, classes]
    exact Option.map_congr fun note _ => congrArg (Classification.mk · note.2.weight) (hname _)
  cases hfind : (entriesOf steps).reverse.find? fun p => (note? classes p).any fun note =>
      form (folds steps) note.1 = form (folds steps) word with
  | none =>
    refine .inl ⟨by rw [hlookup, hfind]; rfl, fun p hp hex => ?_⟩
    exact List.find?_eq_none.1 hfind p (List.mem_reverse.2 hp) (exists_entryFor_iff.1 hex)
  | some p =>
    obtain ⟨cls, entry⟩ := p
    obtain ⟨hany, later, earlier, hentries, hlater⟩ := List.find?_eq_some_iff_append.1 hfind
    obtain ⟨⟨read, number, n⟩, hnote, hform⟩ := (Option.any_eq_true _ _).1 hany
    obtain ⟨hread, hne, hnumber⟩ := note?_eq_some_iff.1 hnote
    dsimp only at hread hne hnumber
    refine .inr ⟨cls, n, ⟨earlier.reverse, entry, later.reverse, ?_, ?_, ?_⟩, ?_⟩
    · simpa using congrArg List.reverse hentries
    · exact ⟨read, hread, hne, of_decide_eq_true hform⟩
    · intro p hp m hfor
      have hnot := hlater p (List.mem_reverse.1 hp)
      rw [exists_entryFor_iff.1 ⟨m, hfor⟩] at hnot
      cases hnot
    · rw [hlookup, hfind, Option.bind_some, hnote, Option.map_some, hnumber]
      rfl

/-- The table has as many words as there are different ones. -/
theorem size_tableOf (steps : List Step) : (tableOf steps).size = (wordsOf steps).ncard := by
  obtain ⟨hnodup, hmem⟩ := keys_insertAll (folds steps) (notesOf steps)
  have hwords : wordsOf steps =
      ↑((insertAll (folds steps) (notesOf steps)).map Prod.fst).toFinset := by
    ext key
    rw [List.coe_toFinset, Set.mem_ofPred_eq, hmem]
    constructor
    · rintro ⟨p, hp, word, n, hread, hne, rfl⟩
      exact ⟨(word, ⟨_, n⟩), List.mem_filterMap.2 ⟨p, hp, note?_eq_some_iff.2 ⟨hread, hne, rfl⟩⟩,
        rfl⟩
    · rintro ⟨⟨word, entry⟩, hnote, rfl⟩
      obtain ⟨p, hp, hread⟩ := List.mem_filterMap.1 hnote
      obtain ⟨hread, hne, -⟩ := note?_eq_some_iff.1 hread
      exact ⟨p, hp, word, entry.weight, hread, hne, rfl⟩
  rw [hwords, Set.ncard_coe_finset, List.toFinset_card_of_nodup hnodup, List.length_map]
  rfl

theorem describes_tableOf (steps : List Step) : (tableOf steps).Describes steps where
  ignoreCase_eq := rfl
  classify_isSome_iff word := by
    rcases classify_tableOf steps word with ⟨hnone, hno⟩ | ⟨cls, n, hlast, hsome⟩
    · rw [hnone]
      constructor
      · intro h
        cases h
      · rintro ⟨p, hp, hfor⟩
        exact absurd hfor (hno p hp)
    · rw [hsome]
      refine ⟨fun _ => ?_, fun _ => rfl⟩
      obtain ⟨before, entry, after, hentries, hfor, -⟩ := hlast
      exact ⟨(cls, entry), by simp [hentries], n, hfor⟩
  weight_last word found hfound := by
    rcases classify_tableOf steps word with ⟨hnone, -⟩ | ⟨cls, n, hlast, hsome⟩
    · rw [hnone] at hfound
      cases hfound
    · rw [hsome] at hfound
      cases hfound
      exact ⟨cls, hlast⟩
  size_eq := size_tableOf steps

/-- **Writing a table** either reports the first malformed entry, or gives the table that the
steps describe. -/
theorem build_described (steps : List Step) :
    (∃ entry, FirstMalformed steps entry ∧ build steps = .error (.invalidKeyword entry)) ∨
    ((∀ p ∈ entriesOf steps, ¬Malformed p.2) ∧
      ∃ table, build steps = .ok table ∧ table.Describes steps) := by
  have hbuild := build_eq steps
  rw [List.find?_map] at hbuild
  cases hfind : (entriesOf steps).find? ((fun entry => (readEntry entry).isNone) ∘ (·.2)) with
  | some p =>
    obtain ⟨cls, entry⟩ := p
    rw [hfind] at hbuild
    obtain ⟨hnone, before, after, hentries, hbefore⟩ := List.find?_eq_some_iff_append.1 hfind
    refine .inl ⟨entry, ⟨before, cls, after, hentries, ?_, fun earlier hearlier hbad => ?_⟩, hbuild⟩
    · exact readEntry_eq_none_iff.1 (Option.isNone_iff_eq_none.1 hnone)
    · have hgood := hbefore earlier hearlier
      simp [readEntry_eq_none_iff.2 hbad] at hgood
  | none =>
    rw [hfind] at hbuild
    refine .inr ⟨fun p hp hbad => ?_, _, hbuild, describes_tableOf steps⟩
    have hgood := List.find?_eq_none.1 hfind p hp
    simp [readEntry_eq_none_iff.2 hbad] at hgood

end

end ModeStack.Keyword
