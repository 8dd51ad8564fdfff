import ModeStack.Proofs.Grammar.Compiled
import ModeStack.Proofs.Scan.Alike

/-!
# Two sources compiled side by side

The modes of two sources can correspond although they are written differently: at other places,
with variants written out, with other scores. A `Pairing` gives for the forms of the first source,
which are definitions with or without a variant, their images among those of the second. It is
`Faithful` if the images are distinct, and if the definitions of a form and of its image say the
same and refer to forms and to their images.

Then the two sources are staged and linked in lockstep: at every moment the same number of modes
has been staged, each alike the one at the same index, and the keys of the second stage are the
images of those of the first (`Pairing.StageAlike`). So the compilations agree, either with alike
grammars or with errors that differ in the places they name only (`Pairing.build_agree`).
-/

namespace ModeStack.Grammar

open ModeStack.Rule (Part Clause)
open ModeStack.Regex (exists_of_bind_eq_ok exists_getElem?_of_forall₂)

/-! ## Results that agree -/

/-- An error without the places that it names. -/
def Error.unplaced : Error → Error
  | .invalidPattern grammar _ role pattern cause => .invalidPattern grammar 0 role pattern cause
  | .notCombinable grammar _ cause => .notCombinable grammar 0 cause
  | .unknownMode grammar _ _ => .unknownMode grammar 0 0
  | .missingRoot grammar => .missingRoot grammar
  | .invalidRoot grammar => .invalidRoot grammar
  | .invalidKeyword entry => .invalidKeyword entry

/-- Both results are values, which are related, or both are errors, which are the same up to
places. -/
inductive Agree {α β : Type} (R : α → β → Prop) : Except Error α → Except Error β → Prop
  | ok {a : α} {b : β} : R a b → Agree R (.ok a) (.ok b)
  | error {e e' : Error} : e'.unplaced = e.unplaced → Agree R (.error e) (.error e')

namespace Agree

variable {α β γ δ : Type} {R : α → β → Prop} {S : γ → δ → Prop}

/-- Steps that agree, followed by steps that agree on what they give. -/
theorem bind_of_ok {x : Except Error α} {y : Except Error β} {f : α → Except Error γ}
    {f' : β → Except Error δ} (h : Agree R x y)
    (hf : ∀ a b, x = .ok a → y = .ok b → R a b → Agree S (f a) (f' b)) :
    Agree S (x >>= f) (y >>= f') := by
  cases h with
  | ok hab => exact hf _ _ rfl rfl hab
  | error he => exact .error he

theorem bind {x : Except Error α} {y : Except Error β} {f : α → Except Error γ}
    {f' : β → Except Error δ} (h : Agree R x y) (hf : ∀ a b, R a b → Agree S (f a) (f' b)) :
    Agree S (x >>= f) (y >>= f') :=
  h.bind_of_ok fun a b _ _ => hf a b

theorem of_ok {a : α} {b : β} (h : Agree R (.ok a) (.ok b)) : R a b := by
  cases h with
  | ok hab => exact hab

theorem mono {R' : α → β → Prop} {x : Except Error α} {y : Except Error β} (h : Agree R x y)
    (hR : ∀ a b, R a b → R' a b) : Agree R' x y := by
  cases h with
  | ok hab => exact .ok (hR _ _ hab)
  | error he => exact .error he

theorem mapM {Q : γ → δ → Prop} {f : γ → Except Error α} {k : δ → Except Error β}
    {l : List γ} {l' : List δ} (hl : List.Forall₂ Q l l')
    (hf : ∀ c d, Q c d → Agree R (f c) (k d)) :
    Agree (List.Forall₂ R) (l.mapM f) (l'.mapM k) := by
  induction hl with
  | nil => exact .ok .nil
  | cons hq _ ih =>
    rw [List.mapM_cons, List.mapM_cons]
    exact (hf _ _ hq).bind fun _ _ hab => ih.bind fun _ _ habs => .ok (.cons hab habs)

theorem map_some {x y : Except Error α} (h : Agree Eq x y) : Agree Eq (some <$> x) (some <$> y) := by
  cases h with
  | ok hab => exact .ok (congrArg some hab)
  | error he => exact .error he

/-- A step that does not name the places of modes agrees with itself. -/
theorem mapError {ε : Type} (x : Except ε α) {f f' : ε → Error}
    (hf : ∀ e, (f' e).unplaced = (f e).unplaced) : Agree Eq (x.mapError f) (x.mapError f') := by
  cases x with
  | ok a => exact .ok rfl
  | error e => exact .error (hf e)

end Agree

/-- Lists that are related element by element have related elements at a place, or none. -/
theorem getElem?_of_forall₂ {α β : Type} {R : α → β → Prop} {l : List α} {l' : List β}
    (h : List.Forall₂ R l l') (i : Nat) :
    (l[i]? = none ∧ l'[i]? = none) ∨ ∃ a b, l[i]? = some a ∧ l'[i]? = some b ∧ R a b := by
  cases ha : l[i]? with
  | none =>
    rw [List.getElem?_eq_none_iff] at ha
    exact .inl ⟨rfl, List.getElem?_eq_none_iff.2 (h.length_eq ▸ ha)⟩
  | some a =>
    obtain ⟨b, hb, hab⟩ := exists_getElem?_of_forall₂ h ha
    exact .inr ⟨a, b, rfl, hb, hab⟩

/-- Lists that are related element by element, each zipped with the same list. -/
theorem zip_right {α β γ : Type} {R : α → β → Prop} {l : List α} {l' : List β}
    (h : List.Forall₂ R l l') (r : List γ) :
    List.Forall₂ (fun x x' => R x.1 x'.1 ∧ x'.2 = x.2) (l.zip r) (l'.zip r) := by
  induction h generalizing r with
  | nil => exact .nil
  | cons hab _ ih =>
    cases r with
    | nil => exact .nil
    | cons c r => exact .cons ⟨hab, rfl⟩ (ih r)

/-! ## Definitions that say the same -/

/-- The definitions say the same, but for the modes they refer to. With `scored` they are worth
the same too. -/
structure Definition.Alike (scored : Bool) (d d' : Definition) : Prop where
  scope_eq : d'.scope = d.scope
  opening_eq : d'.opening = d.opening
  openingWords_eq : d'.openingWords = d.openingWords
  closing_eq : d'.closing = d.closing
  illegal_eq : d'.illegal = d.illegal
  words_eq : d'.keywords.map (·.unweighted) = d.keywords.map (·.unweighted)
  wordPattern_eq : d'.wordPattern = d.wordPattern
  flags_eq : d'.flags = d.flags
  worth_eq : scored = true → d'.keywords = d.keywords ∧ d'.relevance = d.relevance

/-- A definition with one of its variants or none. -/
abbrev Form := ModeId × Option Nat

namespace Source

variable {src : Source}

/-- The forms that children stand for, in order; none for the mode itself. -/
def formsOf (src : Source) (children : List Child) : List (Option Form) :=
  children.flatMap fun
    | .self => [none]
    | .mode id => (src.variantsOf id).map fun variant => some (id, variant)

/-- Stages forms one after another, and the mode at `self` again where there is none. -/
def stageForms (src : Source) (self : Nat) (parent : List Part) :
    Stage → List (Option Form) → Except Error (List Nat × Stage)
  | st, [] => return ([], st)
  | st, none :: rest => do
    let (indices, st) ← stageForms src self parent st rest
    return (self :: indices, st)
  | st, some (id, variant) :: rest => do
    let (index, st) ← src.stage st id variant parent
    let (indices, st) ← stageForms src self parent st rest
    return (index :: indices, st)

theorem stageForms_append (self : Nat) (parent : List Part) (st : Stage) (forms : List Form)
    (rest : List (Option Form)) :
    src.stageForms self parent st (forms.map some ++ rest) = do
      let (expanded, st) ← src.stageEach parent st forms
      let (indices, st) ← src.stageForms self parent st rest
      return (expanded ++ indices, st) := by
  induction forms generalizing st with
  | nil =>
    simp only [List.map_nil, List.nil_append, stageEach, pure_bind]
    exact (bind_pure _).symm
  | cons form forms ih =>
    obtain ⟨id, variant⟩ := form
    simp only [List.map_cons, List.cons_append, stageForms, stageEach, ih, bind_assoc, pure_bind]

/-- Staging children is staging the forms that they stand for. -/
theorem stageChildren_eq (self : Nat) (parent : List Part) (st : Stage) (children : List Child) :
    src.stageChildren self parent st children =
      src.stageForms self parent st (src.formsOf children) := by
  induction children generalizing st with
  | nil => rfl
  | cons child children ih =>
    cases child with
    | self =>
      show _ = src.stageForms self parent st (none :: src.formsOf children)
      simp only [stageChildren, stageForms, ih]
    | mode id =>
      have hforms : src.formsOf (.mode id :: children) =
          ((src.variantsOf id).map (id, ·)).map some ++ src.formsOf children := by
        simp [formsOf]
      rw [hforms, stageForms_append]
      simp only [stageChildren, ih]

end Source

/-! ## Pairings -/

/-- The forms of a source and their images among those of another. -/
structure Pairing (src src' : Source) where
  /-- Whether scores are compared. -/
  scored : Bool
  forms : Set Form
  image : Form → Form

namespace Pairing

variable {src src' : Source} (p : Pairing src src')

/-- The definitions say the same, and the second refers to the images of what the first refers
to. -/
structure Counterpart (d d' : Definition) : Prop where
  alike : d.Alike p.scored d'
  contains_eq : src'.formsOf d'.contains = (src.formsOf d.contains).map (Option.map p.image)
  starts_eq : d'.starts.map (·, (none : Option Nat)) = (d.starts.map (·, none)).map p.image
  contains_mem : ∀ form, some form ∈ src.formsOf d.contains → form ∈ p.forms
  starts_mem : ∀ id, d.starts = some id → (id, none) ∈ p.forms

/-- The images of forms are distinct and say the same. -/
structure Faithful : Prop where
  name_eq : src'.name = src.name
  ignoreCase_eq : src'.ignoreCase = src.ignoreCase
  injOn : Set.InjOn p.image p.forms
  counterpart : ∀ form ∈ p.forms, p.Counterpart (src.resolve form.1 form.2)
    (src'.resolve (p.image form).1 (p.image form).2)

/-- The key of the image of a form. -/
def rename (key : Key) : Key where
  source := (p.image (key.source, key.variant)).1
  variant := (p.image (key.source, key.variant)).2
  terminators := key.terminators

/-- The staged modes differ in their places only. -/
structure StagedAlike (mode mode' : Staged) : Prop where
  definition : p.Counterpart mode.definition mode'.definition
  opening_eq : mode'.opening = mode.opening
  guard_eq : mode'.guard = mode.guard
  closing_eq : mode'.closing = mode.closing
  terminators_eq : mode'.terminators = mode.terminators
  parentTerminators_eq : mode'.parentTerminators = mode.parentTerminators

/-- The same modes have been staged, under the images of their keys. -/
structure StageAlike (st st' : Stage) : Prop where
  staged : List.Forall₂ p.StagedAlike st.staged.toList st'.staged.toList
  index_eq : st'.index = st.index.map fun entry => (p.rename entry.1, entry.2)
  keyed : ∀ entry ∈ st.index, (entry.1.source, entry.1.variant) ∈ p.forms

/-- Both sides have the same value and alike stages. -/
def Staged {α : Type} (r r' : α × Stage) : Prop := r'.1 = r.1 ∧ p.StageAlike r.2 r'.2

/-! ## Staging -/

section

variable {p} {d d' : Definition} {parent : List Part} {mode mode' : Grammar.Staged}
  {st st' : Stage}

theorem StageAlike.size_eq (h : p.StageAlike st st') : st'.staged.size = st.staged.size :=
  h.staged.length_eq.symm

theorem StageAlike.opening_eq (h : p.StageAlike st st') (index : Nat) :
    st'.staged[index]?.bind (·.opening) = st.staged[index]?.bind (·.opening) := by
  rw [← Array.getElem?_toList, ← Array.getElem?_toList]
  rcases getElem?_of_forall₂ h.staged index with
    ⟨hnone, hnone'⟩ | ⟨mode, mode', hmode, hmode', halike⟩
  · rw [hnone, hnone']
  · rw [hmode, hmode']
    exact halike.opening_eq

theorem closingOf_alike {scored : Bool} (h : d.Alike scored d') :
    Source.closingOf d' = Source.closingOf d := by
  simp only [Source.closingOf, h.closing_eq, h.flags_eq]

theorem inherited_alike {scored : Bool} (h : d.Alike scored d') :
    Source.inherited d' parent = Source.inherited d parent := by
  simp only [Source.inherited, h.flags_eq, closingOf_alike h]

theorem keyOf_alike {form : Form} (h : d.Alike p.scored d') :
    Source.keyOf (p.image form).1 (p.image form).2 d' parent =
      p.rename (Source.keyOf form.1 form.2 d parent) := by
  simp only [Source.keyOf, rename, h.flags_eq, closingOf_alike h, inherited_alike h]

theorem Counterpart.of_keeps (h : p.Counterpart d d') {e e' : Definition}
    (halike : e.Alike p.scored e') (hcontains : e.contains = d.contains)
    (hcontains' : e'.contains = d'.contains) (hstarts : e.starts = d.starts)
    (hstarts' : e'.starts = d'.starts) : p.Counterpart e e' := by
  refine ⟨halike, ?_, ?_, ?_, ?_⟩
  · rw [hcontains, hcontains', h.contains_eq]
  · rw [hstarts, hstarts', h.starts_eq]
  · rw [hcontains]
    exact h.contains_mem
  · rw [hstarts]
    exact h.starts_mem

/-- What opening words imply keeps definitions alike. -/
theorem alike_of_words {scored : Bool} (h : d.Alike scored d') {table table' : Keyword.Table}
    (heq : table'.unweighted = table.unweighted) (hsame : scored = true → table' = table) :
    Definition.Alike scored
      { d with keywords := some table, relevance := d.relevance.or (some 0) }
      { d' with keywords := some table', relevance := d'.relevance.or (some 0) } where
  scope_eq := h.scope_eq
  opening_eq := h.opening_eq
  openingWords_eq := h.openingWords_eq
  closing_eq := h.closing_eq
  illegal_eq := h.illegal_eq
  words_eq := congrArg some heq
  wordPattern_eq := h.wordPattern_eq
  flags_eq := h.flags_eq
  worth_eq hscored := ⟨congrArg some (hsame hscored), by rw [(h.worth_eq hscored).2]⟩

/-- Definitions that say the same have the same opening pattern and guard, and still say the same
with what opening words imply. -/
theorem openingOf_agree {scored : Bool} (h : d.Alike scored d') :
    Agree (fun r r' => r'.1 = r.1 ∧ r'.2.1 = r.2.1 ∧ Definition.Alike scored r.2.2 r'.2.2)
      (Source.openingOf d) (Source.openingOf d') := by
  unfold Source.openingOf
  rw [h.openingWords_eq]
  cases hopening : d.openingWords with
  | none => exact .ok ⟨by rw [h.opening_eq], rfl, h⟩
  | some text =>
    have hwords := h.words_eq
    have hworth := fun hscored => (h.worth_eq hscored).1
    cases htable : d.keywords with
    | none =>
      have hnone : d'.keywords = none := by simpa [htable] using hwords
      simp only [hnone]
      refine Agree.bind (.mapError _ fun _ => rfl) fun table _ heq => ?_
      cases heq
      have hend := alike_of_words h (rfl : table.unweighted = _) fun _ => rfl
      rw [hopening, h.openingWords_eq.trans hopening] at hend
      exact .ok ⟨rfl, rfl, hend⟩
    | some table =>
      rw [htable] at hwords hworth
      obtain ⟨table', htable', heq⟩ := Option.map_eq_some_iff.1 hwords
      rw [htable'] at hworth
      simp only [htable']
      have hend := alike_of_words h heq fun hscored => Option.some.inj (hworth hscored)
      rw [hopening, h.openingWords_eq.trans hopening] at hend
      exact .ok ⟨rfl, rfl, hend⟩

section

variable (hp : p.Faithful)

include hp

theorem pattern_agree (id id' : ModeId) (role : Role) (source : String) :
    Agree Eq (src.pattern id role source) (src'.pattern id' role source) := by
  unfold Source.pattern
  rw [hp.ignoreCase_eq, hp.name_eq]
  exact .mapError _ fun _ => rfl

theorem compileStaged_agree (id id' : ModeId) (h : p.Counterpart d d') :
    Agree p.StagedAlike (src.compileStaged id d parent) (src'.compileStaged id' d' parent) := by
  unfold Source.compileStaged
  refine (openingOf_agree h.alike).bind_of_ok ?_
  rintro ⟨source, guard, e⟩ ⟨source', guard', e'⟩ hok hok' ⟨hsource, hguard, halike⟩
  cases hsource
  cases hguard
  obtain ⟨-, hcontains, hstarts⟩ := Source.openingOf_keeps hok
  obtain ⟨-, hcontains', hstarts'⟩ := Source.openingOf_keeps hok'
  have hcounterpart := h.of_keeps halike hcontains hcontains' hstarts hstarts'
  refine (pattern_agree hp id id' .opening source).bind fun opening _ hopening => ?_
  cases hopening
  dsimp only
  rw [closingOf_alike h.alike, inherited_alike h.alike]
  cases Source.closingOf d with
  | none => exact .ok ⟨hcounterpart, rfl, rfl, rfl, rfl, rfl⟩
  | some closing =>
    refine (pattern_agree hp id id' .closing closing).map_some.bind fun q _ hq => ?_
    cases hq
    exact .ok ⟨hcounterpart, rfl, rfl, rfl, rfl, rfl⟩

/-- A key is found at the same index as its image. -/
theorem StageAlike.lookup_eq (h : p.StageAlike st st') {key : Key}
    (hkey : (key.source, key.variant) ∈ p.forms) :
    st'.index.lookup (p.rename key) = st.index.lookup key := by
  rw [h.index_eq]
  have hkeyed := h.keyed
  generalize st.index = index at hkeyed
  induction index with
  | nil => rfl
  | cons entry index ih =>
    have hrest := ih fun entry hentry => hkeyed entry (List.mem_cons_of_mem _ hentry)
    have hentry := hkeyed entry List.mem_cons_self
    have hsame : (p.rename key == p.rename entry.1) = (key == entry.1) := by
      rw [Bool.eq_iff_iff, beq_iff_eq, beq_iff_eq]
      refine ⟨fun heq => ?_, congrArg p.rename⟩
      simp only [rename, Key.mk.injEq] at heq
      obtain ⟨hsource, hvariant, hterminators⟩ := heq
      have hform := hp.injOn hkey hentry (Prod.ext hsource hvariant)
      simp only [Prod.mk.injEq] at hform
      obtain ⟨source, variant, terminators⟩ := key
      obtain ⟨⟨source', variant', terminators'⟩, place⟩ := entry
      simp_all
    rw [List.map_cons, List.lookup_cons, List.lookup_cons, hsame, hrest]

/-- **A form and its image are staged in the same way.** -/
theorem stage_agree (h : p.StageAlike st st') {form : Form} (hform : form ∈ p.forms)
    (parent : List Part) :
    Agree p.Staged (src.stage st form.1 form.2 parent)
      (src'.stage st' (p.image form).1 (p.image form).2 parent) := by
  have hcounterpart := hp.counterpart form hform
  unfold Source.stage
  dsimp only
  rw [keyOf_alike hcounterpart.alike, h.lookup_eq hp hform]
  cases st.index.lookup
      (Source.keyOf form.1 form.2 (src.resolve form.1 form.2) parent) with
  | some index => exact .ok ⟨rfl, h⟩
  | none =>
    refine (compileStaged_agree hp form.1 (p.image form).1 hcounterpart).bind
      fun mode mode' hmode => .ok ⟨h.size_eq, ?_, ?_, ?_⟩
    · simp only [Array.toList_push]
      exact List.rel_append h.staged (.cons hmode .nil)
    · simp only [List.map_cons, h.index_eq, h.size_eq]
    · rintro entry (_ | ⟨_, hentry⟩)
      · exact hform
      · exact h.keyed entry hentry

theorem stageForms_agree (h : p.StageAlike st st') (self : Nat) {forms : List (Option Form)}
    (hforms : ∀ form, some form ∈ forms → form ∈ p.forms) :
    Agree p.Staged (src.stageForms self parent st forms)
      (src'.stageForms self parent st' (forms.map (Option.map p.image))) := by
  induction forms generalizing st st' with
  | nil => exact .ok ⟨rfl, h⟩
  | cons form forms ih =>
    have hrest (form : Form) (hform : some form ∈ forms) :=
      hforms form (List.mem_cons_of_mem _ hform)
    cases form with
    | none =>
      refine (ih h hrest).bind ?_
      rintro ⟨indices, st₁⟩ ⟨_, st₁'⟩ ⟨heq, h₁⟩
      cases heq
      exact .ok ⟨rfl, h₁⟩
    | some form =>
      refine (stage_agree hp h (hforms form List.mem_cons_self) parent).bind ?_
      rintro ⟨index, st₁⟩ ⟨_, st₁'⟩ ⟨heq, h₁⟩
      cases heq
      refine (ih h₁ hrest).bind ?_
      rintro ⟨indices, st₂⟩ ⟨_, st₂'⟩ ⟨heq, h₂⟩
      cases heq
      exact .ok ⟨rfl, h₂⟩

/-! ## Linking -/

theorem link_agree (h : p.StageAlike st st') (self : Nat) (hmode : p.StagedAlike mode mode') :
    Agree p.Staged (src.link st self mode) (src'.link st' self mode') := by
  unfold Source.link
  rw [Source.stageChildren_eq, Source.stageChildren_eq, hmode.definition.contains_eq,
    hmode.terminators_eq, hmode.parentTerminators_eq]
  refine (stageForms_agree hp h self hmode.definition.contains_mem).bind ?_
  rintro ⟨children, st₁⟩ ⟨_, st₁'⟩ ⟨heq, h₁⟩
  cases heq
  have hstarts := hmode.definition.starts_eq
  dsimp only
  cases hs : mode.definition.starts with
  | none =>
    have hnone : mode'.definition.starts = none := by simpa [hs] using hstarts
    rw [hnone]
    exact .ok ⟨rfl, h₁⟩
  | some id =>
    rw [hs] at hstarts
    obtain ⟨id', hid', himage⟩ := Option.map_eq_some_iff.1 hstarts
    have hmem := hmode.definition.starts_mem id hs
    have hstage := stage_agree hp h₁ hmem mode.parentTerminators
    rw [hid']
    rw [← himage] at hstage
    refine hstage.bind ?_
    rintro ⟨next, st₂⟩ ⟨_, st₂'⟩ ⟨heq, h₂⟩
    cases heq
    exact .ok ⟨rfl, h₂⟩

/-- Linking agrees, whatever the numbers of rounds, if neither runs out of them. -/
theorem linkFrom_agree {root root' : ModeId} (hv : src.Validated root)
    (hv' : src'.Validated root') {rounds rounds' done : Nat} (hst : st.Sound src)
    (hst' : st'.Sound src') (h : p.StageAlike st st') (hdone : done ≤ st.staged.size)
    (hrounds : src.maxModes ≤ done + rounds) (hrounds' : src'.maxModes ≤ done + rounds') :
    Agree p.Staged (src.linkFrom rounds done st) (src'.linkFrom rounds' done st') := by
  have hlt := hst.size_lt
  have hlt' := hst'.size_lt
  have hsize := h.size_eq
  induction rounds generalizing st st' done rounds' with
  | zero => omega
  | succ rounds ih =>
    cases rounds' with
    | zero => omega
    | succ rounds' =>
      unfold Source.linkFrom
      rw [← Array.getElem?_toList, ← Array.getElem?_toList]
      rcases getElem?_of_forall₂ h.staged done with
        ⟨hnone, hnone'⟩ | ⟨mode, mode', hmode, hmode', halike⟩
      · rw [hnone, hnone']
        exact .ok ⟨rfl, h⟩
      · rw [hmode, hmode']
        rw [Array.getElem?_toList] at hmode hmode'
        refine (link_agree hp h done halike).bind_of_ok ?_
        rintro ⟨links, st₁⟩ ⟨_, st₁'⟩ hlink hlink' ⟨heq, h₁⟩
        cases heq
        obtain ⟨hst₁, hext, -⟩ := link_spec hv hst hmode hlink
        obtain ⟨hst₁', -, -⟩ := link_spec hv' hst' hmode' hlink'
        have hdone₁ : done + 1 ≤ st₁.staged.size :=
          (Array.getElem?_eq_some_iff.1 (hext done mode hmode)).1
        refine (ih hst₁ hst₁' h₁ hdone₁ (by omega) (by omega) hst₁.size_lt hst₁'.size_lt
          h₁.size_eq).bind ?_
        rintro ⟨rest, st₂⟩ ⟨_, st₂'⟩ ⟨heq, h₂⟩
        cases heq
        exact .ok ⟨rfl, h₂⟩

/-- **All modes are staged and linked alike.** -/
theorem expand_agree {root root' : ModeId} (hv : src.Validated root) (hv' : src'.Validated root')
    (hroot : (root, none) ∈ p.forms) (himage : p.image (root, none) = (root', none)) :
    Agree p.Staged (src.expand root) (src'.expand root') := by
  have hcounterpart := hp.counterpart _ hroot
  rw [himage] at hcounterpart
  have hstage : p.StageAlike (src.stageRoot root) (src'.stageRoot root') :=
    ⟨.cons ⟨hcounterpart, rfl, rfl, rfl, rfl, rfl⟩ .nil, rfl, by simp [Source.stageRoot]⟩
  exact linkFrom_agree hp hv hv' (sound_stageRoot root hv) (sound_stageRoot root' hv') hstage
    (Nat.zero_le _) (by omega) (by omega)

/-! ## Rules and modes -/

theorem clausesOf_agree (h : p.StageAlike st st') (hmode : p.StagedAlike mode mode')
    (children : List Nat) :
    Agree Eq (src.clausesOf st mode children) (src'.clausesOf st' mode' children) := by
  unfold Source.clausesOf
  simp only [hmode.definition.alike.illegal_eq, hmode.terminators_eq, h.opening_eq]
  cases mode.definition.illegal with
  | none => exact .ok rfl
  | some source =>
    refine (pattern_agree hp mode.source mode'.source .illegal source).bind fun q _ hq => ?_
    cases hq
    exact .ok rfl

theorem finish_agree (hmode : p.StagedAlike mode mode') (links : Links) (clauses : List Clause) :
    Agree (Mode.Alike p.scored) (src.finish mode links clauses)
      (src'.finish mode' links clauses) := by
  have halike := hmode.definition.alike
  unfold Source.finish
  dsimp only
  rw [halike.wordPattern_eq]
  refine (pattern_agree hp mode.source mode'.source .word _).bind fun word _ hword => ?_
  cases hword
  rw [hp.ignoreCase_eq, hp.name_eq]
  refine Agree.bind (.mapError _ fun _ => rfl) fun rules _ hrules => ?_
  cases hrules
  refine .ok ⟨halike.scope_eq, hmode.closing_eq, hmode.guard_eq, ?_, rfl, halike.flags_eq, rfl,
    rfl, fun hscored => ?_⟩
  · have hfold (table : Option Keyword.Table) :
        (table.map (·.forGrammar src.ignoreCase)).map (·.unweighted) =
          (table.map (·.unweighted)).map (·.forGrammar src.ignoreCase) := by
      simp only [Option.map_map, Function.comp_def, Keyword.Table.forGrammar_unweighted]
    rw [hfold, hfold, halike.words_eq]
  · rw [(halike.worth_eq hscored).1, (halike.worth_eq hscored).2]
    exact ⟨rfl, rfl⟩

section

variable {linked linked' : List (Grammar.Staged × Links)}
  (hlinked : List.Forall₂ (fun l l' => p.StagedAlike l.1 l'.1 ∧ l'.2 = l.2) linked linked')

include hlinked

/-- All modes have the same rules. -/
theorem clauses_agree (h : p.StageAlike st st') :
    Agree Eq (linked.mapM fun l => src.clausesOf st l.1 l.2.children)
      (linked'.mapM fun l => src'.clausesOf st' l.1 l.2.children) := by
  refine (Agree.mapM (R := Eq) hlinked ?_).mono fun clauses clauses' heq => ?_
  · rintro ⟨mode, links⟩ ⟨mode', _⟩ ⟨hmode, heq⟩
    cases heq
    exact clausesOf_agree hp h hmode links.children
  · exact List.forall₂_eq_eq_eq ▸ heq

/-- With the same rules, all modes are compiled alike. -/
theorem modes_agree (clauses : List (List Clause)) :
    Agree (List.Forall₂ (Mode.Alike p.scored))
      ((linked.zip clauses).mapM fun ruled => src.finish ruled.1.1 ruled.1.2 ruled.2)
      ((linked'.zip clauses).mapM fun ruled => src'.finish ruled.1.1 ruled.1.2 ruled.2) := by
  refine Agree.mapM (zip_right hlinked clauses) ?_
  rintro ⟨⟨mode, links⟩, clauses⟩ ⟨⟨mode', _⟩, _⟩ ⟨⟨hmode, heq⟩, heq'⟩
  cases heq
  cases heq'
  exact finish_agree hp hmode links clauses

end

/-! ## Compilation -/

omit hp in
/-- Sources of which the first is valid only if the pairing is faithful are compiled alike. -/
theorem compile_agree {root root' : ModeId}
    (hv : Agree (fun _ _ => True) (src.validate root) (src'.validate root'))
    (hp : src.validate root = .ok () → p.Faithful ∧ (root, none) ∈ p.forms ∧
      p.image (root, none) = (root', none)) :
    Agree (fun c c' => List.Forall₂ (Mode.Alike p.scored) c.modes.toList c'.modes.toList)
      (src.compile root) (src'.compile root') := by
  unfold Source.compile
  refine hv.bind_of_ok fun _ _ hvalid hvalid' _ => ?_
  obtain ⟨hp, hroot, himage⟩ := hp hvalid
  refine (expand_agree hp (Source.validated_of_validate hvalid)
    (Source.validated_of_validate hvalid') hroot himage).bind ?_
  rintro ⟨links, st⟩ ⟨_, st'⟩ ⟨heq, h⟩
  cases heq
  have hdefinition := hp.counterpart _ hroot
  rw [himage] at hdefinition
  have heq : (src'.definitions.getD root' {}).illegal = (src.definitions.getD root {}).illegal :=
    hdefinition.alike.illegal_eq
  have hlinked := zip_right h.staged links
  dsimp only
  rw [heq]
  cases (src.definitions.getD root {}).illegal with
  | none =>
    refine (clauses_agree hp hlinked h).bind fun clauses _ hclauses => ?_
    cases hclauses
    exact (modes_agree hp hlinked clauses).bind fun _ _ hmodes => .ok hmodes
  | some source =>
    refine (pattern_agree hp root root' .illegal source).map_some.bind fun illegal _ hillegal => ?_
    cases hillegal
    refine (clauses_agree hp hlinked h).bind fun clauses _ hclauses => ?_
    cases hclauses
    exact (modes_agree hp hlinked clauses).bind fun _ _ hmodes => .ok hmodes

end

end

end Pairing

/-! ## Validation -/

/-- A definition that cannot be the root: one that can end before the text, or has variants. -/
def Definition.cannotBeRoot (d : Definition) : Bool :=
  d.closing.isSome || !d.variants.isEmpty || d.flags.endsWithParent

/-- Some definition refers to a place where there is none. -/
def Source.Dangling (src : Source) : Prop :=
  ∃ (id : ModeId) (d : Definition), src.definitions[id]? = some d ∧
    ∃ r ∈ d.references, src.definitions.size ≤ r

/-- The definitions that refer to a place where there is none, each with the first such place. -/
def Source.faults (src : Source) : List (ModeId × ModeId) :=
  src.definitions.toList.zipIdx.filterMap fun (d, mode) =>
    (d.references.find? (src.definitions.size ≤ ·)).map fun missing => (mode, missing)

section

variable {src src' : Source} {root root' : ModeId}

theorem Source.faults_eq_nil_iff : src.faults = [] ↔ ¬src.Dangling := by
  rw [faults, List.filterMap_eq_nil_iff]
  constructor
  · rintro hnone ⟨id, d, hd, r, hr, hle⟩
    have hmem : (d, id) ∈ src.definitions.toList.zipIdx :=
      List.mem_zipIdx_iff_getElem?.2 (by simpa using hd)
    have hfind := hnone _ hmem
    rw [Option.map_eq_none_iff, List.find?_eq_none] at hfind
    exact hfind r hr (by simpa using hle)
  · rintro hnot ⟨d, id⟩ hmem
    rw [Option.map_eq_none_iff, List.find?_eq_none]
    intro r hr hle
    have hd : src.definitions[id]? = some d := by
      simpa using List.mem_zipIdx_iff_getElem?.1 hmem
    exact hnot ⟨id, d, hd, r, hr, by simpa using hle⟩

/-- A definition that passes as the root can be it. -/
theorem cannotBeRoot_of_validate (h : src.validate root = .ok ()) {d : Definition}
    (hd : src.definitions[root]? = some d) : d.cannotBeRoot = false := by
  unfold Source.validate at h
  simp only [hd] at h
  unfold Definition.cannotBeRoot
  split_ifs at h with hroot
  · cases h
  · simpa using hroot

/-- **Sources are refused alike** if their roots are fit to be roots or not, and both have dangling
references or neither has. -/
theorem validate_agree (hname : src'.name = src.name)
    (hroot : src'.definitions[root']?.map Definition.cannotBeRoot =
      src.definitions[root]?.map Definition.cannotBeRoot)
    (hdangling : src'.Dangling ↔ src.Dangling) :
    Agree (fun _ _ => True) (src.validate root) (src'.validate root') := by
  have hfaults : src'.faults = [] ↔ src.faults = [] := by
    rw [Source.faults_eq_nil_iff, Source.faults_eq_nil_iff, not_iff_not, hdangling]
  have hlast : Agree (fun _ _ => True)
      (match src.faults with
        | (mode, missing) :: _ => throw (.unknownMode src.name mode missing)
        | [] => return ())
      (match src'.faults with
        | (mode, missing) :: _ => throw (.unknownMode src'.name mode missing)
        | [] => return ()) := by
    cases hf : src.faults with
    | nil =>
      rw [hfaults.2 hf]
      exact .ok trivial
    | cons fault faults =>
      cases hf' : src'.faults with
      | nil => simp [hfaults.1 hf'] at hf
      | cons fault' faults' => exact .error (by simp only [Error.unplaced, hname])
  unfold Source.validate
  cases hd : src.definitions[root]? with
  | none =>
    have hnone : src'.definitions[root']? = none := by simpa [hd] using hroot
    rw [hnone]
    exact .error (by simp only [Error.unplaced, hname])
  | some d =>
    rw [hd] at hroot
    obtain ⟨d', hd', heq⟩ := Option.map_eq_some_iff.1 hroot
    rw [hd']
    unfold Definition.cannotBeRoot at heq
    dsimp only
    rw [heq]
    split_ifs
    · exact .error (by simp only [Error.unplaced, hname])
    · exact hlast

end

/-! ## Building -/

theorem alike_of_modes {scored : Bool} {g g' : Grammar}
    (h : List.Forall₂ (Mode.Alike scored) g.modes.toList g'.modes.toList) : g.Alike scored g' := by
  refine ⟨h.length_eq.symm, fun index => ?_⟩
  unfold mode
  rw [Array.getD_eq_getD_getElem?, Array.getD_eq_getD_getElem?, ← Array.getElem?_toList,
    ← Array.getElem?_toList]
  rcases getElem?_of_forall₂ h index with ⟨hnone, hnone'⟩ | ⟨mode, mode', hmode, hmode', halike⟩
  · rw [hnone, hnone']
    exact .refl scored .inert
  · rw [hmode, hmode']
    exact halike

/-- **Drafts that correspond are built alike**, or refused with errors that are the same up to the
places they name. -/
theorem Pairing.build_agree {draft draft' : Draft} {root root' : ModeId}
    {p : Pairing draft.source draft'.source} (hr : draft.root = some root)
    (hr' : draft'.root = some root')
    (hv : Agree (fun _ _ => True) (draft.source.validate root) (draft'.source.validate root'))
    (hp : draft.source.validate root = .ok () → p.Faithful ∧ (root, none) ∈ p.forms ∧
      p.image (root, none) = (root', none)) :
    Agree (Grammar.Alike p.scored) draft.build draft'.build := by
  unfold Draft.build
  rw [hr, hr']
  exact (Pairing.compile_agree hv hp).bind fun _ _ h => .ok (alike_of_modes h)

theorem Draft.build_of_no_root {draft draft' : Draft} {R : Grammar → Grammar → Prop}
    (hr : draft.root = none) (hr' : draft'.root = none) (hname : draft'.name = draft.name) :
    Agree R draft.build draft'.build := by
  unfold Draft.build
  rw [hr, hr', hname]
  exact .error rfl

end ModeStack.Grammar
