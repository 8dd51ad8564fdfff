import ModeStack.Proofs.Grammar.Staging

/-!
# Linking staged modes

Linking a mode stages its children and the mode it starts. `linkFrom` does so for one mode after
another, and every mode that is staged on the way is linked too: the rounds never run out, since
there are fewer keys than rounds (`expand_spec`).
-/

namespace ModeStack.Grammar

open ModeStack.Rule (Part)
open ModeStack.Regex (exists_of_bind_eq_ok)

variable {src : Source} {root : ModeId} {st st' : Stage} {parent : List Part}

/-- The links of a mode lead to modes that can be its children: itself, or modes reached with its
terminators. The mode it starts is reached with the terminators of its own parent. -/
structure Linked (st : Stage) (place : Nat) (mode : Staged) (links : Links) : Prop where
  children : ∀ c ∈ links.children, c = place ∨ Reached st mode.terminators c
  starts : ∀ next, links.starts = some next → Reached st mode.parentTerminators next

theorem Linked.mono {place : Nat} {mode : Staged} {links : Links}
    (h : Linked st place mode links) (he : st.Extends st') : Linked st' place mode links :=
  ⟨fun c hc => (h.children c hc).imp_right (·.mono he), fun next hn => (h.starts next hn).mono he⟩

theorem mem_forms_of_mem_variantsOf {id : ModeId} (hid : id < src.definitions.size)
    {variant : Option Nat} (h : variant ∈ src.variantsOf id) : (id, variant) ∈ src.forms := by
  have hd : src.definitions[id]? = some src.definitions[id] := Array.getElem?_eq_getElem hid
  refine Source.mem_forms hd fun v hv => ?_
  cases hv
  have hget : src.definitions.getD id {} = src.definitions[id] := by
    simp [Array.getD_eq_getD_getElem?, hd]
  unfold Source.variantsOf at h
  rw [hget] at h
  cases hlen : src.definitions[id].variants.length with
  | zero => simp [hlen] at h
  | succ n => simpa [hlen] using h

section

variable (hv : src.Validated root)

include hv

theorem stageEach_spec (hst : st.Sound src) (hparent : Proper src parent)
    {forms : List (ModeId × Option Nat)} (hforms : forms ⊆ src.forms) {indices : List Nat}
    (h : src.stageEach parent st forms = .ok (indices, st')) :
    st'.Sound src ∧ st.Extends st' ∧ ∀ c ∈ indices, Reached st' parent c := by
  induction forms generalizing st indices with
  | nil =>
    cases h
    exact ⟨hst, .refl _, by simp⟩
  | cons form forms ih =>
    obtain ⟨id, variant⟩ := form
    obtain ⟨⟨i, st₁⟩, hstage, h⟩ := exists_of_bind_eq_ok h
    obtain ⟨⟨rest, st₂⟩, hrest, h⟩ := exists_of_bind_eq_ok h
    cases h
    obtain ⟨hsound, hext, hreached⟩ := stage_spec hv hst (hforms List.mem_cons_self) hparent hstage
    obtain ⟨hsound', hext', hall⟩ :=
      ih hsound (fun form hform => hforms (List.mem_cons_of_mem _ hform)) hrest
    refine ⟨hsound', hext.trans hext', ?_⟩
    rintro c (_ | ⟨_, hc⟩)
    · exact hreached.mono hext'
    · exact hall c hc

theorem stageChildren_spec {place : Nat} (hst : st.Sound src) (hparent : Proper src parent)
    {children : List Child} (hrefers : ∀ r, .mode r ∈ children → r < src.definitions.size)
    {indices : List Nat} (h : src.stageChildren place parent st children = .ok (indices, st')) :
    st'.Sound src ∧ st.Extends st' ∧ ∀ c ∈ indices, c = place ∨ Reached st' parent c := by
  induction children generalizing st indices with
  | nil =>
    cases h
    exact ⟨hst, .refl _, by simp⟩
  | cons child children ih =>
    have hrefers' (r : ModeId) (hr : .mode r ∈ children) := hrefers r (List.mem_cons_of_mem _ hr)
    cases child with
    | self =>
      obtain ⟨⟨rest, st₁⟩, hrest, h⟩ := exists_of_bind_eq_ok h
      cases h
      obtain ⟨hsound, hext, hall⟩ := ih hst hrefers' hrest
      refine ⟨hsound, hext, ?_⟩
      rintro c (_ | ⟨_, hc⟩)
      · exact .inl rfl
      · exact hall c hc
    | mode id =>
      obtain ⟨⟨expanded, st₁⟩, heach, h⟩ := exists_of_bind_eq_ok h
      obtain ⟨⟨rest, st₂⟩, hrest, h⟩ := exists_of_bind_eq_ok h
      cases h
      have hforms : (src.variantsOf id).map (id, ·) ⊆ src.forms := by
        intro form hform
        obtain ⟨variant, hvariant, rfl⟩ := List.mem_map.1 hform
        exact mem_forms_of_mem_variantsOf (hrefers id List.mem_cons_self) hvariant
      obtain ⟨hsound, hext, hreached⟩ := stageEach_spec hv hst hparent hforms heach
      obtain ⟨hsound', hext', hall⟩ := ih hsound hrefers' hrest
      refine ⟨hsound', hext.trans hext', fun c hc => ?_⟩
      rcases List.mem_append.1 hc with hc | hc
      · exact .inr ((hreached c hc).mono hext')
      · exact hall c hc

theorem link_spec (hst : st.Sound src) {place : Nat} {mode : Staged}
    (hmode : st.staged[place]? = some mode) {links : Links}
    (h : src.link st place mode = .ok (links, st')) :
    st'.Sound src ∧ st.Extends st' ∧ Linked st' place mode links := by
  have hmem := Array.mem_of_getElem? hmode
  obtain ⟨hterms, hparents⟩ := hst.proper mode hmem
  have hrefers := hst.refers mode hmem
  obtain ⟨⟨children, st₁⟩, hchildren, h⟩ := exists_of_bind_eq_ok h
  obtain ⟨hsound, hext, hall⟩ :=
    stageChildren_spec hv hst hterms (fun r hr => hrefers r (.inl hr)) hchildren
  cases hs : mode.definition.starts with
  | none =>
    simp only [hs] at h
    cases h
    exact ⟨hsound, hext, hall, by simp⟩
  | some id =>
    simp only [hs] at h
    obtain ⟨⟨next, st₂⟩, hstage, h⟩ := exists_of_bind_eq_ok h
    cases h
    have hid := hrefers id (.inr hs)
    have hform : (id, none) ∈ src.forms :=
      Source.mem_forms (Array.getElem?_eq_getElem hid) (by simp)
    obtain ⟨hsound', hext', hreached⟩ := stage_spec hv hsound hform hparents hstage
    refine ⟨hsound', hext.trans hext', fun c hc => (hall c hc).imp_right (·.mono hext'), ?_⟩
    rintro _ ⟨⟩
    exact hreached

/-- Linking with enough rounds leaves no staged mode without links. -/
theorem linkFrom_spec {rounds done : Nat} (hst : st.Sound src) (hdone : done ≤ st.staged.size)
    (hrounds : src.maxModes ≤ done + rounds) {links : List Links}
    (h : src.linkFrom rounds done st = .ok (links, st')) :
    st'.Sound src ∧ st.Extends st' ∧ st'.staged.size = done + links.length ∧
      ∀ (k : Nat) (l : Links), links[k]? = some l →
        ∃ mode, st'.staged[done + k]? = some mode ∧ Linked st' (done + k) mode l := by
  induction rounds generalizing st done links with
  | zero =>
    have hlt := hst.size_lt
    omega
  | succ rounds ih =>
    unfold Source.linkFrom at h
    cases hmode : st.staged[done]? with
    | none =>
      have hsize := Array.getElem?_eq_none_iff.1 hmode
      simp only [hmode] at h
      cases h
      exact ⟨hst, .refl _, by simp; omega, by simp⟩
    | some mode =>
      have hlt := (Array.getElem?_eq_some_iff.1 hmode).1
      simp only [hmode] at h
      obtain ⟨⟨first, st₁⟩, hlink, h⟩ := exists_of_bind_eq_ok h
      obtain ⟨⟨rest, st₂⟩, hrest, h⟩ := exists_of_bind_eq_ok h
      cases h
      obtain ⟨hsound, hext, hlinked⟩ := link_spec hv hst hmode hlink
      have hdone' : done + 1 ≤ st₁.staged.size :=
        (Array.getElem?_eq_some_iff.1 (hext done mode hmode)).1
      obtain ⟨hsound', hext', hsize, hall⟩ := ih hsound hdone' (by omega) hrest
      refine ⟨hsound', hext.trans hext', ?_, fun k l hl => ?_⟩
      · have hsize : st₂.staged.size = done + 1 + rest.length := hsize
        show st₂.staged.size = done + (rest.length + 1)
        omega
      cases k with
      | zero =>
        cases hl
        exact ⟨mode, hext' done mode (hext done mode hmode), hlinked.mono hext'⟩
      | succ k =>
        have hk := hall k l hl
        rwa [Nat.add_right_comm, Nat.add_assoc] at hk

end

/-- **Every mode that is reached from the root is staged and linked.** -/
theorem expand_spec (hv : src.Validated root) {links : List Links}
    (h : src.expand root = .ok (links, st)) :
    st.Sound src ∧ 0 < st.staged.size ∧ links.length = st.staged.size ∧
      ∀ (i : Nat) (l : Links), links[i]? = some l →
        ∃ mode, st.staged[i]? = some mode ∧ Linked st i mode l := by
  obtain ⟨hsound, hext, hsize, hall⟩ :=
    linkFrom_spec hv (sound_stageRoot root hv) (Nat.zero_le _) (Nat.le_add_left _ 0) h
  have hroot := hext 0 _ (rfl : (src.stageRoot root).staged[0]? = some _)
  refine ⟨hsound, (Array.getElem?_eq_some_iff.1 hroot).1, by omega, fun i l hl => ?_⟩
  simpa using hall i l hl

end ModeStack.Grammar
