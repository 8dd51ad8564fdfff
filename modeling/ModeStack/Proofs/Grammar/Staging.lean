import ModeStack.Proofs.Grammar.Forms

/-!
# Staged modes

What it means for a mode to be staged from a definition and a parent's terminators, and what
`stage` does: it finds a mode staged before under the same key, or adds one at the end.

A key leaves out the parent's terminators unless the mode ends with its parent. So a mode may have
been staged for another parent than the one it is found for. `Reached` says what is still true of
it: if it ends with its parent, its terminators are those it would have been given
(`StagedFrom.inherits_of_keyOf_eq`). Its `parentTerminators` are those of the first parent.
-/

namespace ModeStack

open Regex (exists_of_bind_eq_ok eq_ok_of_mapError)

theorem Pattern.source_of_compile {ignoreCase : Bool} {source : String} {p : Pattern}
    (h : Pattern.compile ignoreCase source = .ok p) : p.source = source := by
  obtain ⟨regex, -, h⟩ := exists_of_bind_eq_ok h
  cases h
  rfl

namespace Grammar

open ModeStack.Rule (Part)

variable {src : Source} {id : ModeId} {variant : Option Nat} {d : Definition} {parent : List Part}
  {mode : Staged}

/-! ## Terminators -/

/-- The closing pattern of a mode as a part to be joined. -/
def ownParts (closing : Option Pattern) : List Part :=
  closing.toList.map fun p => { source := p.source, groups := p.groups }

/-- The terminators of a mode with this closing pattern that ends with its parent: its own, and
those of the parent, each once. -/
def inheriting (closing : Option Pattern) (parent : List Part) : List Part :=
  ownParts closing ++ parent.filter fun part => closing.map (·.source) ≠ some part.source

/-- Inheriting once more changes nothing: a mode may contain itself. -/
theorem inheriting_inheriting (closing : Option Pattern) (parent : List Part) :
    inheriting closing (inheriting closing parent) = inheriting closing parent := by
  unfold inheriting
  cases closing with
  | none => simp [ownParts]
  | some p => simp [ownParts, List.filter_filter]

/-- What compiling a mode for a parent with the given terminators leaves. -/
structure StagedFrom (src : Source) (d : Definition) (parent : List Part) (mode : Staged) :
    Prop where
  opening : mode.opening.isSome
  closing_eq : mode.closing.map (·.source) = Source.closingOf d
  compiled : ∀ p ∈ mode.closing, Pattern.compile src.ignoreCase p.source = .ok p
  flags_eq : mode.definition.flags = d.flags
  contains_eq : mode.definition.contains = d.contains
  starts_eq : mode.definition.starts = d.starts
  terminators_eq : mode.terminators = ownParts mode.closing ++ Source.inherited d parent
  parent_eq : mode.parentTerminators = parent

theorem Source.compile_of_pattern {role : Role} {source : String} {p : Pattern}
    (h : src.pattern id role source = .ok p) : Pattern.compile src.ignoreCase source = .ok p :=
  eq_ok_of_mapError h

/-- Opening words change the keywords and the relevance of a definition only. -/
theorem Source.openingOf_keeps {opening : String} {guard : Guard} {d' : Definition}
    (h : Source.openingOf d = .ok (opening, guard, d')) :
    d'.flags = d.flags ∧ d'.contains = d.contains ∧ d'.starts = d.starts := by
  unfold Source.openingOf at h
  cases hw : d.openingWords with
  | none =>
    simp only [hw] at h
    cases h
    exact ⟨rfl, rfl, rfl⟩
  | some text =>
    simp only [hw] at h
    cases hk : d.keywords with
    | none =>
      simp only [hk] at h
      obtain ⟨table, -, h⟩ := exists_of_bind_eq_ok h
      cases h
      exact ⟨rfl, rfl, rfl⟩
    | some table =>
      simp only [hk] at h
      cases h
      exact ⟨rfl, rfl, rfl⟩

theorem stagedFrom_of_compileStaged (h : src.compileStaged id d parent = .ok mode) :
    StagedFrom src d parent mode := by
  unfold Source.compileStaged at h
  obtain ⟨⟨opening, guard, resolved⟩, hopening, h⟩ := exists_of_bind_eq_ok h
  obtain ⟨p, -, h⟩ := exists_of_bind_eq_ok h
  obtain ⟨hflags, hcontains, hstarts⟩ := Source.openingOf_keeps hopening
  cases hc : Source.closingOf d with
  | none =>
    simp only [hc] at h
    cases h
    exact ⟨rfl, hc.symm, by simp, hflags, hcontains, hstarts, rfl, rfl⟩
  | some source =>
    simp only [hc] at h
    obtain ⟨closing, hclosing, h⟩ := exists_of_bind_eq_ok h
    obtain ⟨q, hq, hclosing⟩ := exists_of_bind_eq_ok hclosing
    cases hclosing
    cases h
    have hcompile := Source.compile_of_pattern hq
    have hsource := Pattern.source_of_compile hcompile
    refine ⟨rfl, by simp [hc, hsource], fun p hp => ?_, hflags, hcontains, hstarts, rfl, rfl⟩
    cases hp
    rw [hsource]
    exact hcompile

/-! ## Proper lists of terminators -/

/-- The part for a closing pattern. -/
def Source.partOf (src : Source) (source : String) : Part where
  source := source
  groups := ((Pattern.compile src.ignoreCase source).toOption.map (·.groups)).getD 0

/-- Terminators as they are staged: closing patterns of definitions, none twice. -/
structure Proper (src : Source) (parts : List Part) : Prop where
  part_eq : ∀ part ∈ parts, src.partOf part.source = part
  nodup : (parts.map (·.source)).Nodup
  declared : ∀ part ∈ parts, part.source ∈ src.closings

theorem proper_nil (src : Source) : Proper src [] := ⟨by simp, by simp, by simp⟩

/-- The number of groups of a part follows from its text. -/
theorem Proper.eq_of_sources {parts parts' : List Part} (h : Proper src parts)
    (h' : Proper src parts') (heq : parts.map (·.source) = parts'.map (·.source)) :
    parts = parts' := by
  have hmap {parts : List Part} (h : Proper src parts) :
      (parts.map (·.source)).map src.partOf = parts := by
    rw [List.map_map]
    exact (List.map_congr_left (g := id) h.part_eq).trans (List.map_id parts)
  rw [← hmap h, ← hmap h', heq]

theorem Proper.filter {parts : List Part} (h : Proper src parts) (keep : Part → Bool) :
    Proper src (parts.filter keep) where
  part_eq part hp := h.part_eq part (List.mem_of_mem_filter hp)
  nodup := h.nodup.sublist (List.filter_sublist.map _)
  declared part hp := h.declared part (List.mem_of_mem_filter hp)

theorem Proper.inherited (h : Proper src parent) (d : Definition) :
    Proper src (Source.inherited d parent) := by
  unfold Source.inherited
  split_ifs
  · exact h.filter _
  · exact proper_nil src

theorem mem_inherited {part : Part} (h : part ∈ Source.inherited d parent) :
    Source.closingOf d ≠ some part.source := by
  unfold Source.inherited at h
  split_ifs at h
  · simpa using List.of_mem_filter h
  · cases h

/-- **The terminators of a staged mode are proper** if those of its parent are. -/
theorem StagedFrom.proper (h : StagedFrom src (src.resolve id variant) parent mode)
    (hform : (id, variant) ∈ src.forms) (hparent : Proper src parent) :
    Proper src mode.terminators := by
  have hrest := hparent.inherited (src.resolve id variant)
  rw [h.terminators_eq]
  cases hc : mode.closing with
  | none => exact hrest
  | some p =>
    have hclosing := h.closing_eq
    have hcompile := h.compiled p hc
    rw [hc] at hclosing
    have hnew : p.source ∉ (Source.inherited (src.resolve id variant) parent).map (·.source) := by
      intro hmem
      obtain ⟨part, hpart, heq⟩ := List.mem_map.1 hmem
      exact mem_inherited hpart (by rw [← hclosing, heq]; rfl)
    refine ⟨?_, List.nodup_cons.2 ⟨hnew, hrest.nodup⟩, ?_⟩
    · rintro part (_ | ⟨_, hpart⟩)
      · simp [Source.partOf, hcompile, Except.toOption]
      · exact hrest.part_eq part hpart
    · rintro part (_ | ⟨_, hpart⟩)
      · exact Source.mem_closings hform hclosing.symm
      · exact hrest.declared part hpart

/-- Under one key, a mode that ends with its parent inherits the same. -/
theorem inherited_eq_of_keyOf_eq {first : List Part} (hends : d.flags.endsWithParent = true)
    (hfirst : Proper src first) (hparent : Proper src parent)
    (hkey : Source.keyOf id variant d first = Source.keyOf id variant d parent) :
    Source.inherited d first = Source.inherited d parent := by
  have hterms := congrArg Key.terminators hkey
  simp only [Source.keyOf, hends, if_true, List.append_cancel_left_eq] at hterms
  exact (hfirst.inherited d).eq_of_sources (hparent.inherited d) hterms

theorem StagedFrom.inheriting_eq {first : List Part} (h : StagedFrom src d first mode)
    (hends : mode.definition.flags.endsWithParent = true) (parent : List Part) :
    inheriting mode.closing parent = ownParts mode.closing ++ Source.inherited d parent := by
  rw [h.flags_eq] at hends
  simp only [inheriting, Source.inherited, hends, if_true, h.closing_eq]

theorem StagedFrom.inherits (h : StagedFrom src d parent mode)
    (hends : mode.definition.flags.endsWithParent = true) :
    mode.terminators = inheriting mode.closing parent := by
  rw [h.terminators_eq, h.inheriting_eq hends]

/-- **A mode staged for one parent and found for another** has the terminators that it inherits
from the other, if it ends with its parent. -/
theorem StagedFrom.inherits_of_keyOf_eq {first : List Part}
    (h : StagedFrom src d first mode) (hfirst : Proper src first) (hparent : Proper src parent)
    (hkey : Source.keyOf id variant d first = Source.keyOf id variant d parent)
    (hends : mode.definition.flags.endsWithParent = true) :
    mode.terminators = inheriting mode.closing parent := by
  have hinherited := inherited_eq_of_keyOf_eq (h.flags_eq ▸ hends) hfirst hparent hkey
  rw [h.terminators_eq, h.inheriting_eq hends, hinherited]

/-! ## The stage -/

/-- Every mode of the first stage has its place in the second. -/
def Stage.Extends (st st' : Stage) : Prop :=
  ∀ (i : Nat) (mode : Staged), st.staged[i]? = some mode → st'.staged[i]? = some mode

theorem Stage.Extends.refl (st : Stage) : st.Extends st := fun _ _ h => h

theorem Stage.Extends.trans {st st' st'' : Stage} (h : st.Extends st') (h' : st'.Extends st'') :
    st.Extends st'' := fun i mode hi => h' i mode (h i mode hi)

/-- The mode at a place can be a child of one with the given terminators: it opens, and if it ends
with its parent, it has those terminators too. -/
def Reached (st : Stage) (parent : List Part) (i : Nat) : Prop :=
  ∃ mode, st.staged[i]? = some mode ∧ mode.opening.isSome ∧
    (mode.definition.flags.endsWithParent = true →
      mode.terminators = inheriting mode.closing parent)

theorem Reached.mono {st st' : Stage} {i : Nat} (h : Reached st parent i) (he : st.Extends st') :
    Reached st' parent i := by
  obtain ⟨mode, hi, hmode⟩ := h
  exact ⟨mode, he i mode hi, hmode⟩

/-- What holds of a stage: terminators are proper and inherited, references are to definitions, every key is
that of the mode found under it, and there is one key for every mode but the root. -/
structure Stage.Sound (src : Source) (st : Stage) : Prop where
  proper : ∀ mode ∈ st.staged, Proper src mode.terminators ∧ Proper src mode.parentTerminators
  inherits : ∀ mode ∈ st.staged, mode.definition.flags.endsWithParent = true →
    ∃ parent, mode.terminators = inheriting mode.closing parent
  refers : ∀ mode ∈ st.staged, ∀ r,
    .mode r ∈ mode.definition.contains ∨ mode.definition.starts = some r →
      r < src.definitions.size
  indexed : ∀ entry ∈ st.index, (entry.1.source, entry.1.variant) ∈ src.forms ∧
    ∃ mode, st.staged[entry.2]? = some mode ∧
      StagedFrom src (src.resolve entry.1.source entry.1.variant) mode.parentTerminators mode ∧
      entry.1 = Source.keyOf entry.1.source entry.1.variant
        (src.resolve entry.1.source entry.1.variant) mode.parentTerminators
  keys_nodup : (st.index.map (·.1)).Nodup
  size_eq : st.staged.size = st.index.length + 1

/-- The keys of a sound stage are among those there can be. -/
theorem Stage.Sound.keys_subset {st : Stage} (h : st.Sound src) :
    st.index.map (·.1) ⊆ src.keys := by
  intro key hkey
  obtain ⟨entry, hentry, rfl⟩ := List.mem_map.1 hkey
  obtain ⟨hform, mode, hmode, hfrom, heq⟩ := h.indexed entry hentry
  have hproper := (h.proper mode (Array.mem_of_getElem? hmode)).1
  have hsources : mode.terminators.map (·.source) =
      (Source.closingOf (src.resolve entry.1.source entry.1.variant)).toList ++
        (Source.inherited (src.resolve entry.1.source entry.1.variant)
          mode.parentTerminators).map (·.source) := by
    rw [hfrom.terminators_eq, List.map_append, ← hfrom.closing_eq]
    cases mode.closing <;> rfl
  have hterms : entry.1.terminators = [] ∨
      entry.1.terminators = mode.terminators.map (·.source) := by
    rw [heq, hsources]
    simp only [Source.keyOf]
    split_ifs
    · exact .inr rfl
    · exact .inl rfl
  refine Source.mem_keys hform ?_ ?_
  · rcases hterms with h | h
    · simp [h]
    · rw [h]
      exact hproper.nodup
  · rcases hterms with h | h
    · simp [h]
    · rw [h]
      intro source hmem
      obtain ⟨part, hpart, rfl⟩ := List.mem_map.1 hmem
      exact hproper.declared part hpart

/-- **There is room for every mode that can be staged.** -/
theorem Stage.Sound.size_lt {st : Stage} (h : st.Sound src) : st.staged.size < src.maxModes := by
  have hle := (List.subperm_of_subset h.keys_nodup h.keys_subset).length_le
  have hlt := Source.length_keys_lt src
  rw [List.length_map] at hle
  rw [h.size_eq]
  omega

theorem sound_stageRoot (root : ModeId) (hv : src.Validated root) :
    (src.stageRoot root).Sound src where
  proper mode hmode := by
    simp only [Source.stageRoot, List.mem_toArray, List.mem_singleton] at hmode
    subst hmode
    exact ⟨proper_nil src, proper_nil src⟩
  inherits mode hmode _ := by
    simp only [Source.stageRoot, List.mem_toArray, List.mem_singleton] at hmode
    subst hmode
    exact ⟨[], rfl⟩
  refers mode hmode r hr := by
    simp only [Source.stageRoot, List.mem_toArray, List.mem_singleton] at hmode
    subst hmode
    obtain ⟨d, hd, hmem⟩ := src.resolve_references root none hr
    exact hv.references_lt root d hd r hmem
  indexed entry hentry := by cases hentry
  keys_nodup := by simp [Source.stageRoot]
  size_eq := rfl

theorem Stage.extends_push (st : Stage) (mode : Staged) (index : List (Key × Nat)) :
    st.Extends { staged := st.staged.push mode, index := index } := by
  intro i other hi
  have hlt := (Array.getElem?_eq_some_iff.1 hi).1
  rw [Array.getElem?_push, if_neg (Nat.ne_of_lt hlt)]
  exact hi

/-- Adding a mode under a new key keeps a stage sound. -/
theorem Stage.Sound.push {st : Stage} {root : ModeId} (h : st.Sound src)
    (hv : src.Validated root) (hform : (id, variant) ∈ src.forms) (hparent : Proper src parent)
    (hfrom : StagedFrom src (src.resolve id variant) parent mode)
    (hnew : st.index.lookup (Source.keyOf id variant (src.resolve id variant) parent) = none) :
    Stage.Sound src
      { staged := st.staged.push mode
        index := (Source.keyOf id variant (src.resolve id variant) parent, st.staged.size)
          :: st.index } where
  proper other hother := by
    rcases Array.mem_push.1 hother with hother | rfl
    · exact h.proper other hother
    · rw [hfrom.parent_eq]
      exact ⟨hfrom.proper hform hparent, hparent⟩
  inherits other hother hends := by
    rcases Array.mem_push.1 hother with hother | rfl
    · exact h.inherits other hother hends
    · exact ⟨parent, hfrom.inherits hends⟩
  refers other hother r hr := by
    rcases Array.mem_push.1 hother with hother | rfl
    · exact h.refers other hother r hr
    · rw [hfrom.contains_eq, hfrom.starts_eq] at hr
      obtain ⟨d, hd, hmem⟩ := src.resolve_references id variant hr
      exact hv.references_lt id d hd r hmem
  indexed entry hentry := by
    rcases List.mem_cons.1 hentry with rfl | hentry
    · refine ⟨hform, mode, by simp, ?_⟩
      rw [hfrom.parent_eq]
      exact ⟨hfrom, rfl⟩
    · obtain ⟨hform', other, hother, hrest⟩ := h.indexed entry hentry
      exact ⟨hform', other, st.extends_push mode _ _ _ hother, hrest⟩
  keys_nodup := by
    refine List.nodup_cons.2 ⟨fun hmem => ?_, h.keys_nodup⟩
    obtain ⟨entry, hentry, heq⟩ := List.mem_map.1 hmem
    simpa [heq] using List.lookup_eq_none_iff.1 hnew entry hentry
  size_eq := by simp [h.size_eq]

/-- Staging a mode finds it under its key, or compiles it and adds it at the end. -/
theorem stage_cases {st st' : Stage} {i : Nat}
    (h : src.stage st id variant parent = .ok (i, st')) :
    (st.index.lookup (Source.keyOf id variant (src.resolve id variant) parent) = some i ∧
      st' = st) ∨
    (st.index.lookup (Source.keyOf id variant (src.resolve id variant) parent) = none ∧
      i = st.staged.size ∧
      ∃ mode, src.compileStaged id (src.resolve id variant) parent = .ok mode ∧
        st' = {
          staged := st.staged.push mode
          index := (Source.keyOf id variant (src.resolve id variant) parent, st.staged.size)
            :: st.index }) := by
  unfold Source.stage at h
  dsimp only at h
  cases hlookup : st.index.lookup
      (Source.keyOf id variant (src.resolve id variant) parent) with
  | some found =>
    simp only [hlookup] at h
    cases h
    exact .inl ⟨rfl, rfl⟩
  | none =>
    simp only [hlookup] at h
    obtain ⟨mode, hmode, h⟩ := exists_of_bind_eq_ok h
    cases h
    exact .inr ⟨rfl, rfl, mode, hmode, rfl⟩

/-- **What staging does**: it adds a mode at most, and gives the place of one that can be a child
of the parent. -/
theorem stage_spec {st st' : Stage} {root i : Nat} (hv : src.Validated root) (hst : st.Sound src)
    (hform : (id, variant) ∈ src.forms) (hparent : Proper src parent)
    (h : src.stage st id variant parent = .ok (i, st')) :
    st'.Sound src ∧ st.Extends st' ∧ Reached st' parent i := by
  rcases stage_cases h with ⟨hlookup, rfl⟩ | ⟨hlookup, rfl, mode, hmode, rfl⟩
  · obtain ⟨before, after, heq, -⟩ := List.lookup_eq_some_iff.1 hlookup
    have hentry : (Source.keyOf id variant (src.resolve id variant) parent, i) ∈ st'.index := by
      rw [heq]
      simp
    obtain ⟨-, mode, hmode, hfrom, hkey⟩ := hst.indexed _ hentry
    have hfirst := (hst.proper mode (Array.mem_of_getElem? hmode)).2
    exact ⟨hst, .refl st', mode, hmode, hfrom.opening,
      hfrom.inherits_of_keyOf_eq hfirst hparent hkey.symm⟩
  · have hfrom := stagedFrom_of_compileStaged hmode
    exact ⟨hst.push hv hform hparent hfrom hlookup, st.extends_push mode _, mode, by simp,
      hfrom.opening, hfrom.inherits⟩

end Grammar

end ModeStack
