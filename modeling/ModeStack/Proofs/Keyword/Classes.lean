import Mathlib.Data.List.GetD
import ModeStack.Proofs.Keyword.Written

/-!
# The names of classes

The entries of a keyword table refer to their classes by numbers of sixteen bits, and classes are
numbered in the order in which they are first named. So a word has the class of the last entry for
it if fewer than `2 ^ 16` other names come before that class. From the next name on, numbers start
over, and words are found in a class that they were not added to.

Main results: `classify_cls`, when the class that is found is the one that the word was added to;
`crowded_mixed`, a table where it is not.
-/

namespace ModeStack.Keyword

variable {steps : List Step} {table : Table} {word cls cls' : String} {n n' : Nat}

/-- An entry gives one weight. -/
theorem EntryFor.weight_eq {fold : Bool} {entry : String} (h : EntryFor fold word entry n)
    (h' : EntryFor fold word entry n') : n = n' := by
  obtain ⟨read, hread, -⟩ := h
  obtain ⟨read', hread', -⟩ := h'
  have hsame := (readEntry_eq_some_iff.2 hread).symm.trans (readEntry_eq_some_iff.2 hread')
  cases hsame
  rfl

/-- Only one entry is the last one for a word. -/
theorem LastEntry.unique (h : LastEntry steps word cls n) (h' : LastEntry steps word cls' n') :
    cls = cls' ∧ n = n' := by
  obtain ⟨before, entry, after, hentries, hfor, hafter⟩ := h
  obtain ⟨before', entry', after', hentries', hfor', hafter'⟩ := h'
  have hsame := hentries.symm.trans hentries'
  rcases List.append_eq_append_iff.1 hsame with ⟨between, -, hrest⟩ | ⟨between, -, hrest⟩
  · cases between with
    | nil =>
      cases hrest
      exact ⟨rfl, hfor.weight_eq hfor'⟩
    | cons first between =>
      cases hrest
      exact absurd hfor' (hafter (cls', entry') (by simp) _)
  · cases between with
    | nil =>
      cases hrest
      exact ⟨rfl, hfor.weight_eq hfor'⟩
    | cons first between =>
      cases hrest
      exact absurd hfor (hafter' (cls, entry) (by simp) _)

theorem LastEntry.mem_classNames (h : LastEntry steps word cls n) : cls ∈ classNames steps := by
  obtain ⟨before, entry, after, hentries, -, -⟩ := h
  have hmem : (cls, entry) ∈ entriesOf steps := by simp [hentries]
  exact mem_classNames_of_mem hmem

/-- A name stands at its number in sixteen bits if that is its number. -/
theorem getD_wrapped_iff {names : List String} (hmem : cls ∈ names) :
    names.getD (names.idxOf cls % 2 ^ 16) "" = cls ↔ names.idxOf cls < 2 ^ 16 := by
  have hlt := List.idxOf_lt_length_iff.2 hmem
  have hle : names.idxOf cls % 2 ^ 16 < names.length := (Nat.mod_le ..).trans_lt hlt
  rw [List.getD_eq_getElem _ _ hle]
  constructor
  · intro heq
    have hfirst : ¬names.idxOf cls % 2 ^ 16 < names.idxOf cls := by
      intro hbefore
      have hother := List.not_of_lt_findIdx hbefore
      rw [heq, beq_self_eq_true] at hother
      cases hother
    have hmod := Nat.mod_lt (names.idxOf cls) (show 0 < 2 ^ 16 by decide)
    omega
  · intro hsmall
    simp only [Nat.mod_eq_of_lt hsmall]
    exact List.getElem_idxOf hlt

/-- **The class of a word** that a table finds is that of the last entry for it, exactly if the
number of that class has sixteen bits; the class that is found has that number in sixteen bits. -/
theorem classify_cls {found : Classification} (h : build steps = .ok table)
    (hfound : table.classify word = some found) :
    ∃ cls, (∃ n, LastEntry steps word cls n) ∧
      (∀ other n, LastEntry steps word other n → other = cls) ∧
      found.cls = (classNames steps).getD ((classNames steps).idxOf cls % 2 ^ 16) "" ∧
      (found.cls = cls ↔ (classNames steps).idxOf cls < 2 ^ 16) := by
  cases eq_tableOf h
  rcases classify_tableOf steps word with ⟨hnone, -⟩ | ⟨cls, n, hlast, hsome⟩
  · rw [hnone] at hfound
    cases hfound
  · rw [hsome] at hfound
    cases hfound
    exact ⟨cls, ⟨n, hlast⟩, fun other m hother => (hother.unique hlast).1, rfl,
      getD_wrapped_iff hlast.mem_classNames⟩

/-- A word that is added to a second class, ignoring case, and a class that is named twice. -/
def moving : List Step :=
  [.cls "keyword" ["if", "True"], .ignoreCase true, .cls "literal" ["true|3", "None"],
    .cls "keyword" ["else"]]

theorem moving_classify_cls :
    build moving = .ok (tableOf moving) ∧
    (tableOf moving).classify "TRUE" = some ⟨"literal", 3⟩ ∧
    ∃ cls, (∃ n, LastEntry moving "TRUE" cls n) ∧
      (∀ other n, LastEntry moving "TRUE" other n → other = cls) ∧
      "literal" = (classNames moving).getD ((classNames moving).idxOf cls % 2 ^ 16) "" ∧
      ("literal" = cls ↔ (classNames moving).idxOf cls < 2 ^ 16) := by
  have hbuild : build moving = .ok (tableOf moving) := by
    have hread : (["if", "True", "true|3", "None", "else"].find? fun entry =>
        (readEntry entry).isNone) = none := by
      decide +kernel
    exact (build_eq moving).trans (by simp [entriesOf, moving, Step.entries, hread])
  have hfound : (tableOf moving).classify "TRUE" = some ⟨"literal", 3⟩ := by decide +kernel
  exact ⟨hbuild, hfound, classify_cls hbuild hfound⟩

/-! ## A crowded table -/

/-- Steps that name a class with one word first, then other classes without words, and a class
with another word last. -/
def crowd (names : List String) : List Step :=
  .cls "a" ["x"] :: names.map (.cls · []) ++ [.cls "z" ["y"]]

theorem entriesOf_crowd (names : List String) :
    entriesOf (crowd names) = [("a", "x"), ("z", "y")] := by
  simp [entriesOf, crowd, Step.entries, List.flatMap_map]

/-- Names that differ keep their order. -/
theorem eraseDups_of_nodup {names : List String} (h : names.Nodup) : names.eraseDups = names := by
  induction names using List.reverseRecOn with
  | nil => rfl
  | append_singleton names name ih =>
    obtain ⟨hnodup, -, hnew⟩ := List.nodup_append.1 h
    have hfresh : name ∉ names := fun hmem => hnew name hmem name (by simp) rfl
    rw [List.eraseDups_append, ih hnodup, List.cons_removeAll, List.nil_removeAll]
    simp [hfresh, List.eraseDups_cons]

theorem classNames_crowd {names : List String} (h : ("a" :: names ++ ["z"]).Nodup) :
    classNames (crowd names) = "a" :: names ++ ["z"] := by
  have hnames : (crowd names).filterMap Step.name? = "a" :: names ++ ["z"] := by
    simp [crowd, Step.name?, List.filterMap_map, Function.comp_def]
  unfold classNames
  rw [hnames, eraseDups_of_nodup h]

/-- The word of the last class is last in it. -/
theorem lastEntry_crowd (names : List String) : LastEntry (crowd names) "y" "z" 1 := by
  refine ⟨[("a", "x")], "y", [], entriesOf_crowd names, ⟨"y", ?_, by decide, rfl⟩, by simp⟩
  exact readEntry_eq_some_iff.1 (by decide +kernel)

theorem build_crowd (names : List String) : build (crowd names) = .ok (tableOf (crowd names)) := by
  rw [build_eq, entriesOf_crowd]
  have hread : (["x", "y"].find? fun entry => (readEntry entry).isNone) = none := by
    decide +kernel
  simp only [List.map_cons, List.map_nil, hread]

/-- With `2 ^ 16 - 1` names between them, the word of the last class is found in the first. -/
theorem classify_crowd {names : List String} (h : ("a" :: names ++ ["z"]).Nodup)
    (hlength : names.length = 2 ^ 16 - 1) :
    (tableOf (crowd names)).classify "y" = some ⟨"a", 1⟩ := by
  have hlast := lastEntry_crowd names
  rcases classify_tableOf (crowd names) "y" with ⟨-, hno⟩ | ⟨cls, n, hlast', hsome⟩
  · obtain ⟨before, entry, after, hentries, hfor, -⟩ := hlast
    exact absurd ⟨_, hfor⟩ (hno ("z", entry) (by simp [hentries]))
  · obtain ⟨rfl, rfl⟩ := hlast'.unique hlast
    have hz : "z" ∉ "a" :: names := fun hmem =>
      (List.nodup_append.1 h).2.2 "z" hmem "z" (by simp) rfl
    have hnumber : (classNames (crowd names)).idxOf "z" = 2 ^ 16 := by
      rw [classNames_crowd h, List.idxOf_append_of_notMem hz, List.length_cons, hlength]
      rfl
    rw [hsome, hnumber, Nat.mod_self, classNames_crowd h]
    rfl

/-- The names of the filling classes: a character of its own each, and a few underscores. -/
def filler (number : Nat) : String :=
  String.ofList (Char.ofNat (0x10000 + number) :: List.replicate (number % 24) '_')

theorem filler_head {number : Nat} (h : number < 2 ^ 16 - 1) :
    ((filler number).toList.head?.map Char.toNat) = some (0x10000 + number) := by
  have hvalid : (0x10000 + number).isValidChar := .inr ⟨by omega, by omega⟩
  have hvalue : (Char.ofNat (0x10000 + number)).toNat = 0x10000 + number := by
    unfold Char.ofNat
    rw [dif_pos hvalid]
    rfl
  unfold filler
  rw [String.toList_ofList, List.head?_cons, Option.map_some, hvalue]

/-- The names of many classes. -/
def fillers : List String := (List.range (2 ^ 16 - 1)).map filler

theorem nodup_fillers : ("a" :: fillers ++ ["z"]).Nodup := by
  have hhead {name : String} (hname : name ∈ fillers) :
      ∃ number, name.toList.head?.map Char.toNat = some (0x10000 + number) := by
    obtain ⟨number, hnumber, rfl⟩ := List.mem_map.1 hname
    exact ⟨number, filler_head (List.mem_range.1 hnumber)⟩
  have hnew {name : String} (value : Nat) (hvalue : value < 0x10000)
      (hname : name.toList.head?.map Char.toNat = some value) : name ∉ fillers := by
    intro hmem
    obtain ⟨number, hnumber⟩ := hhead hmem
    have heq := Option.some.inj (hname.symm.trans hnumber)
    omega
  have ha : "a" ∉ fillers := hnew 97 (by decide) (by decide)
  have hz : "z" ∉ fillers := hnew 122 (by decide) (by decide)
  have hfillers : fillers.Nodup := by
    refine List.Nodup.map_on (fun number hnumber other hother heq => ?_) List.nodup_range
    have hhead := filler_head (List.mem_range.1 hnumber)
    rw [heq, filler_head (List.mem_range.1 hother)] at hhead
    have heads := Option.some.inj hhead
    omega
  refine List.nodup_append.2 ⟨List.nodup_cons.2 ⟨ha, hfillers⟩, List.nodup_singleton _, ?_⟩
  intro name hname other hother heq
  rw [List.mem_singleton.1 hother] at heq
  subst heq
  rcases List.mem_cons.1 hname with h | h
  · exact absurd h (by decide)
  · exact hz h

/-- **Classes are mixed up** in a crowded table: a word that is added to one class only is found
in another. -/
theorem crowded_mixed : ∃ table, build (crowd fillers) = .ok table ∧
    LastEntry (crowd fillers) "y" "z" 1 ∧ table.classify "y" = some ⟨"a", 1⟩ :=
  ⟨_, build_crowd fillers, lastEntry_crowd fillers, classify_crowd nodup_fillers (by simp [fillers])⟩

end ModeStack.Keyword
