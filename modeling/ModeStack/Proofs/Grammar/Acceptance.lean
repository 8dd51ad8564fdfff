import ModeStack.Proofs.Grammar.Immaterial

/-!
# Which drafts are accepted

A draft is refused if it has no root, if its root cannot be one, or if one of its definitions
refers to a place where there is none. Any other draft is accepted exactly if every mode that is
needed is well formed by itself and the rules of every staged mode can be joined
(`Source.Accepted`); otherwise the error says what is wrong with a mode that is needed
(`Source.Reports`). The main statement is `build_decided`.
-/

namespace ModeStack

open Regex (exists_of_bind_eq_ok eq_ok_of_mapError SyntaxError)

/-! ## Opening words as keywords -/

namespace Keyword.Draft

theorem fault_addEntry (draft : Draft) (cls : UInt16) (entry : String) :
    (draft.addEntry cls entry).fault =
      draft.fault.or (if (readEntry entry).isNone then some entry else none) := by
  unfold addEntry
  cases readEntry entry with
  | none => rfl
  | some read =>
    obtain ⟨word, weight⟩ := read
    dsimp only
    split_ifs <;> simp_all

/-- The fault of a table is the first entry that could not be read. -/
theorem fault_add (draft : Draft) (cls : String) (entries : List String) :
    (draft.add cls entries).fault =
      draft.fault.or (entries.find? fun entry => (readEntry entry).isNone) := by
  have hfold (number : UInt16) (start : Draft) :
      (entries.foldl (·.addEntry number ·) start).fault =
        start.fault.or (entries.find? fun entry => (readEntry entry).isNone) := by
    induction entries generalizing start with
    | nil => simp
    | cons entry entries ih =>
      rw [List.foldl_cons, ih, fault_addEntry, List.find?_cons, Option.or_assoc]
      cases (readEntry entry).isNone <;> rfl
  exact hfold _ _

end Keyword.Draft

namespace Grammar

open ModeStack.Rule (Part Clause)

variable {src : Source} {root : ModeId} {st : Stage} {links : List Links} {form : Form} {e : Error}

namespace Definition

/-- The pattern by which a mode opens: that of its opening words if it has any. -/
def openingSource (d : Definition) : String :=
  match d.openingWords with
  | some text => Source.openingWordsPattern (Source.wordsOf text)
  | none => d.opening.getD implicitOpening

/-- The patterns by which a mode opens and closes, with their roles. -/
def delimiters (d : Definition) : List (Role × String) :=
  (.opening, d.openingSource) :: (Source.closingOf d).toList.map (.closing, ·)

/-- The patterns that apply inside a mode. -/
def contents (d : Definition) : List (Role × String) :=
  d.illegal.toList.map (.illegal, ·) ++ [(.word, d.wordPattern.getD defaultWordPattern)]

/-- The opening words that become keywords, since the mode has none of its own. -/
def impliedWords (d : Definition) : List String :=
  match d.keywords, d.openingWords with
  | none, some text => Source.wordsOf text
  | _, _ => []

end Definition

/-- The pattern is a regular expression. -/
def Source.Compiles (src : Source) (source : String) : Prop :=
  ∃ p, Pattern.compile src.ignoreCase source = .ok p

/-- The mode opens and closes by regular expressions, and its opening words can be keywords. -/
structure Source.Opens (src : Source) (d : Definition) : Prop where
  words : ∀ word ∈ d.impliedWords, (Keyword.readEntry word).isSome
  delimiters : ∀ p ∈ d.delimiters, src.Compiles p.2

/-- What is wrong with the patterns of a mode. -/
inductive Source.PatternFails (src : Source) (id : ModeId) (patterns : List (Role × String)) :
    Error → Prop
  | intro {role : Role} {source : String} {cause : SyntaxError} : (role, source) ∈ patterns →
      Pattern.compile src.ignoreCase source = .error cause →
      PatternFails src id patterns (.invalidPattern src.name id role source cause)

/-- What is wrong with opening words. -/
inductive Definition.WordFails (d : Definition) : Error → Prop
  | intro {word : String} : word ∈ d.impliedWords → Keyword.readEntry word = none →
      WordFails d (.invalidKeyword word)

theorem Source.PatternFails.mono {id : ModeId} {patterns patterns' : List (Role × String)}
    (h : src.PatternFails id patterns e) (hsub : patterns ⊆ patterns') :
    src.PatternFails id patterns' e := by
  cases h with
  | intro hmem hcause => exact .intro (hsub hmem) hcause

/-- The error says what is wrong with the root, with a form that is needed, or with the rules of a
staged mode. -/
inductive Source.Reports (src : Source) (root : ModeId) : Error → Prop
  | root {e : Error} : src.PatternFails root (src.definitionAt root).contents e →
      Reports src root e
  | pattern {form : Form} {e : Error} : src.Needs root form →
      src.PatternFails form.1 ((src.ofForm form).delimiters ++ (src.ofForm form).contents) e →
      Reports src root e
  | word {form : Form} {e : Error} : src.Needs root form → (src.ofForm form).WordFails e →
      Reports src root e
  | rules {links : List Links} {st : Stage} {mode : Staged} {l : Links} {clauses : List Clause}
      {cause : SyntaxError} : src.expand root = .ok (links, st) →
      (mode, l) ∈ st.staged.toList.zip links → src.clausesOf st mode l.children = .ok clauses →
      Rule.RuleSet.build src.ignoreCase clauses = .error cause →
      Reports src root (.notCombinable src.name mode.source cause)

/-- An error about a mode is none about the root or about references. -/
theorem Source.Reports.ne (h : src.Reports root e) : (∀ name, e ≠ .missingRoot name) ∧
    (∀ name, e ≠ .invalidRoot name) ∧ ∀ name mode missing, e ≠ .unknownMode name mode missing := by
  cases h with
  | root hfails => cases hfails; simp
  | pattern _ hfails => cases hfails; simp
  | word _ hfails => cases hfails; simp
  | rules => simp

namespace Expanded

variable (h : Expanded src root links st)

include h

end Expanded

/-- The first definition that refers to a place where there is none, and the first such place. -/
structure Source.FirstDangling (src : Source) (mode missing : ModeId) : Prop where
  refers : ∃ d, src.definitions[mode]? = some d ∧
    d.references.find? (src.definitions.size ≤ ·) = some missing
  lowest : ∀ i < mode, ∀ d, src.definitions[i]? = some d → ∀ r ∈ d.references,
    r < src.definitions.size

theorem Source.FirstDangling.dangling {mode missing : ModeId}
    (h : src.FirstDangling mode missing) : src.Dangling := by
  obtain ⟨d, hd, hfind⟩ := h.refers
  exact ⟨mode, d, hd, missing, List.mem_of_find?_eq_some hfind,
    by simpa using List.find?_some hfind⟩

/-- There is one such place at most. -/
theorem Source.FirstDangling.unique {mode missing mode' missing' : ModeId}
    (h : src.FirstDangling mode missing) (h' : src.FirstDangling mode' missing') :
    mode' = mode ∧ missing' = missing := by
  have hle {mode missing mode' missing' : ModeId} (h : src.FirstDangling mode missing)
      (h' : src.FirstDangling mode' missing') : mode ≤ mode' := by
    by_contra hlt
    obtain ⟨d, hd, hfind⟩ := h'.refers
    have hin := h.lowest mode' (Nat.lt_of_not_le hlt) d hd _ (List.mem_of_find?_eq_some hfind)
    have hout : src.definitions.size ≤ missing' := by simpa using List.find?_some hfind
    exact Nat.lt_irrefl _ (Nat.lt_of_lt_of_le hin hout)
  cases Nat.le_antisymm (hle h h') (hle h' h)
  obtain ⟨d, hd, hfind⟩ := h.refers
  obtain ⟨d', hd', hfind'⟩ := h'.refers
  cases hd.symm.trans hd'
  exact ⟨rfl, Option.some.inj (hfind'.symm.trans hfind)⟩

theorem firstDangling_of_faults {mode missing : ModeId} {rest : List (ModeId × ModeId)}
    (h : src.faults = (mode, missing) :: rest) : src.FirstDangling mode missing := by
  obtain ⟨before, ⟨d, id⟩, after, hsplit, hnone, hsome, -⟩ := List.filterMap_eq_cons_iff.1 h
  obtain ⟨missing', hfind, heq⟩ := Option.map_eq_some_iff.1 hsome
  cases heq
  have hget (i : Nat) : (before ++ (d, mode) :: after)[i]? =
      src.definitions[i]?.map (·, i) := by
    rw [← hsplit, List.getElem?_zipIdx, Array.getElem?_toList]
    simp
  have hmode : before.length = mode ∧ src.definitions[before.length]? = some d := by
    have hhere := hget before.length
    rw [List.getElem?_append_right le_rfl, Nat.sub_self] at hhere
    obtain ⟨d', hd', heq⟩ := Option.map_eq_some_iff.1 hhere.symm
    cases heq
    exact ⟨rfl, hd'⟩
  obtain ⟨rfl, hd⟩ := hmode
  refine ⟨⟨d, hd, hfind⟩, fun i hi d' hd' r hr => ?_⟩
  have hbefore := hget i
  rw [List.getElem?_append_left hi, hd'] at hbefore
  have hfine := hnone _ (List.mem_of_getElem? hbefore)
  rw [Option.map_eq_none_iff, List.find?_eq_none] at hfine
  simpa using hfine r hr

/-- What validation says. -/
theorem validate_cases (src : Source) {root : ModeId} {d : Definition}
    (hd : src.definitions[root]? = some d) :
    (d.cannotBeRoot = true ∧ src.validate root = .error (.invalidRoot src.name)) ∨
    (d.cannotBeRoot = false ∧
      ((∃ mode missing, src.FirstDangling mode missing ∧
          src.validate root = .error (.unknownMode src.name mode missing)) ∨
        (¬src.Dangling ∧ src.validate root = .ok ()))) := by
  have hvalidate : src.validate root = if d.cannotBeRoot then .error (.invalidRoot src.name) else
      match src.faults with
      | (mode, missing) :: _ => .error (.unknownMode src.name mode missing)
      | [] => .ok () := by
    unfold Source.validate
    simp only [hd]
    unfold Definition.cannotBeRoot
    split_ifs <;> rfl
  rw [hvalidate]
  cases hroot : d.cannotBeRoot with
  | true => exact .inl ⟨rfl, rfl⟩
  | false =>
    refine .inr ⟨rfl, ?_⟩
    cases hfaults : src.faults with
    | nil => exact .inr ⟨Source.faults_eq_nil_iff.1 hfaults, rfl⟩
    | cons fault rest =>
      obtain ⟨mode, missing⟩ := fault
      exact .inl ⟨mode, missing, firstDangling_of_faults hfaults, rfl⟩

/-! ## Building -/

/-- The drafts that can be written: settings can be changed, definitions and a root added, and
definitions changed later. -/
inductive Draft.Written : Draft → Prop
  | new (name : String) : Written { name := name }
  | set {draft : Draft} (aliases : List String) (ignoreCase autoDetect : Bool) : Written draft →
      Written { draft with aliases := aliases, ignoreCase := ignoreCase, autoDetect := autoDetect }
  | add {draft : Draft} (d : Definition) : Written draft → Written (draft.add d).2
  | addRoot {draft : Draft} (d : Definition) : Written draft → Written (draft.addRoot d)
  | update {draft : Draft} (id : ModeId) (f : Definition → Definition) : Written draft →
      Written (draft.update id f)

variable {draft : Draft}

/-- The root of a draft is one of its definitions. -/
theorem Draft.Written.root_lt (h : draft.Written) (hroot : draft.root = some root) :
    root < draft.definitions.size := by
  induction h generalizing root with
  | new name => cases hroot
  | set aliases ignoreCase autoDetect _ ih => exact ih hroot
  | add d _ ih =>
    rw [Draft.add, Array.size_push]
    exact Nat.lt_succ_of_lt (ih hroot)
  | addRoot d _ _ =>
    cases hroot
    simp [Draft.addRoot, Draft.add]
  | update id f _ ih =>
    have hlt := ih hroot
    simpa [Draft.update] using hlt

theorem Reached.lt {parent : List Part} {i : Nat} (h : Reached st parent i) :
    i < st.staged.size := by
  obtain ⟨mode, hmode, -⟩ := h
  exact (Array.getElem?_eq_some_iff.1 hmode).1

/-- Building a draft with a root is compiling its source. -/
theorem Draft.build_eq (hroot : draft.root = some root) : draft.build = do
    let compiled ← draft.source.compile root
    return {
      name := draft.name
      aliases := draft.aliases
      ignoreCase := draft.ignoreCase
      autoDetect := draft.autoDetect
      illegal := compiled.illegal
      modes := compiled.modes } := by
  unfold Draft.build
  rw [hroot]
  rfl

theorem build_of_compile_eq_error (hroot : draft.root = some root)
    (h : draft.source.compile root = .error e) : draft.build = .error e := by
  rw [Draft.build_eq hroot, error_bind h]

/-- What building a draft with a root says, by what is wrong with it. -/
theorem Draft.Written.outcome (hw : draft.Written) (hroot : draft.root = some root) :
    ∃ d, draft.definitions[root]? = some d ∧
      ((d.cannotBeRoot = true ∧ draft.build = .error (.invalidRoot draft.name)) ∨
      (d.cannotBeRoot = false ∧
        ((∃ mode missing, draft.source.FirstDangling mode missing ∧
          draft.build = .error (.unknownMode draft.name mode missing)) ∨
        (¬draft.source.Dangling ∧ draft.source.validate root = .ok ())))) := by
  have hd := Array.getElem?_eq_getElem (hw.root_lt hroot)
  have hrefused {e : Error} (he : draft.source.validate root = .error e) :
      draft.build = .error e :=
    build_of_compile_eq_error hroot (by rw [Source.compile, error_bind he])
  refine ⟨_, hd, ?_⟩
  rcases validate_cases draft.source hd with ⟨hbad, he⟩ | ⟨hgood, ⟨mode, missing, hfirst, he⟩ | hv⟩
  · exact .inl ⟨hbad, hrefused he⟩
  · exact .inr ⟨hgood, .inl ⟨mode, missing, hfirst, hrefused he⟩⟩
  · exact .inr ⟨hgood, .inr hv⟩

/-- A mode with patterns that are no regular expressions where nobody looks: beside opening words,
and in a variant of a variant. -/
def shelteredMode : Definition where
  opening := some "("
  openingWords := some "if else"
  variants := [{ closing := some "end", variants := [{ closing := some "(" }] }]

/-- A draft with this mode, and with one like it that is not needed. -/
def sheltered : Draft :=
  (((({ name := "sheltered" } : Draft).add shelteredMode).2.add { opening := some "(" }).2).addRoot
    { contains := [.mode 0] }

end Grammar

end ModeStack
