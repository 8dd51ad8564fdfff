import ModeStack.Proofs.Grammar.Pairing

/-!
# How a stage grows

A stage grows by staging forms, one after another (`Source.Grows`). On the way nothing is lost: a
mode keeps its place, and a key its mode. Places are given out in order, and under each key stands
the mode that was compiled for it (`Stage.Numbered`).

So whatever a mode was linked to is found again in every later stage: linking it anew gives the
same links and stages nothing (`relink`).
-/

namespace ModeStack.Grammar

open ModeStack.Rule (Part)
open ModeStack.Regex (exists_of_bind_eq_ok)

variable {src : Source} {root : ModeId} {st st' : Stage} {parent : List Part} {form : Form}

/-- The key of a form that is reached from a parent with the given terminators. -/
def Source.keyOfForm (src : Source) (form : Form) (parent : List Part) : Key :=
  Source.keyOf form.1 form.2 (src.resolve form.1 form.2) parent

/-- The second stage comes from the first by staging allowed forms, one after another. -/
inductive Source.Grows (src : Source) (allowed : Set Form) : Stage → Stage → Prop
  | refl (st : Stage) : Grows src allowed st st
  | step {st st₁ st' : Stage} {form : Form} {parent : List Part} {i : Nat} : form ∈ allowed →
      src.stage st form.1 form.2 parent = .ok (i, st₁) → Grows src allowed st₁ st' →
      Grows src allowed st st'

namespace Source.Grows

variable {allowed allowed' : Set Form} {st'' : Stage}

theorem trans (h : src.Grows allowed st st') (h' : src.Grows allowed st' st'') :
    src.Grows allowed st st'' := by
  induction h with
  | refl => exact h'
  | step hform hstage _ ih => exact .step hform hstage (ih h')

theorem one {i : Nat} (hform : form ∈ allowed)
    (h : src.stage st form.1 form.2 parent = .ok (i, st')) : src.Grows allowed st st' :=
  .step hform h (.refl st')

theorem mono (h : src.Grows allowed st st') (hsub : allowed ⊆ allowed') :
    src.Grows allowed' st st' := by
  induction h with
  | refl => exact .refl _
  | step hform hstage _ ih => exact .step (hsub hform) hstage ih

end Source.Grows

/-! ## What is kept -/

/-- A form that is staged is found under its key. -/
theorem lookup_of_stage {i : Nat} (h : src.stage st form.1 form.2 parent = .ok (i, st')) :
    st'.index.lookup (src.keyOfForm form parent) = some i := by
  rcases stage_cases h with ⟨hlookup, rfl⟩ | ⟨-, rfl, mode, -, rfl⟩
  · exact hlookup
  · simp [Source.keyOfForm]

/-- A form that is found under its key is not staged anew. -/
theorem stage_of_lookup {i : Nat} (h : st.index.lookup (src.keyOfForm form parent) = some i) :
    src.stage st form.1 form.2 parent = .ok (i, st) := by
  have h : st.index.lookup
      (Source.keyOf form.1 form.2 (src.resolve form.1 form.2) parent) = some i := h
  unfold Source.stage
  simp only [h]
  rfl

/-- Every key that is found in the first stage is found in the second, at the same place. -/
def Stage.Keeps (st st' : Stage) : Prop :=
  ∀ (key : Key) (i : Nat), st.index.lookup key = some i → st'.index.lookup key = some i

theorem keeps_of_stage {i : Nat} (h : src.stage st form.1 form.2 parent = .ok (i, st')) :
    st.Keeps st' := by
  rcases stage_cases h with ⟨-, rfl⟩ | ⟨hnew, rfl, mode, -, rfl⟩
  · exact fun _ _ h => h
  · intro key place hkey
    have hne : key ≠ Source.keyOf form.1 form.2 (src.resolve form.1 form.2) parent := by
      rintro rfl
      rw [hnew] at hkey
      cases hkey
    rw [List.lookup_cons, beq_eq_false_iff_ne.2 hne]
    exact hkey

theorem extends_of_stage {i : Nat} (h : src.stage st form.1 form.2 parent = .ok (i, st')) :
    st.Extends st' := by
  rcases stage_cases h with ⟨-, rfl⟩ | ⟨-, rfl, mode, -, rfl⟩
  · exact .refl st'
  · exact st.extends_push mode _

namespace Source.Grows

variable {allowed : Set Form}

/-- **Keys keep their places.** -/
theorem keeps (h : src.Grows allowed st st') : st.Keeps st' := by
  induction h with
  | refl => exact fun _ _ h => h
  | step _ hstage _ ih => exact fun key i hkey => ih key i (keeps_of_stage hstage key i hkey)

/-- **Modes keep their places.** -/
theorem extension (h : src.Grows allowed st st') : st.Extends st' := by
  induction h with
  | refl => exact .refl _
  | step _ hstage _ ih => exact (extends_of_stage hstage).trans ih

/-- Only allowed forms are added. -/
theorem mem_index (h : src.Grows allowed st st') {entry : Key × Nat} (hentry : entry ∈ st'.index) :
    entry ∈ st.index ∨ (entry.1.source, entry.1.variant) ∈ allowed := by
  induction h with
  | refl => exact .inl hentry
  | step hform hstage _ ih =>
    rcases ih hentry with hmem | hmem
    · rcases stage_cases hstage with ⟨-, rfl⟩ | ⟨-, rfl, mode, -, rfl⟩
      · exact .inl hmem
      · rcases List.mem_cons.1 hmem with rfl | hmem
        · exact .inr hform
        · exact .inl hmem
    · exact .inr hmem

end Source.Grows

/-! ## Places -/

/-- Places are given out in order, one for every key, and under each key stands the mode that was
compiled for it. The root, at the first place, has no key. -/
structure Stage.Numbered (src : Source) (st : Stage) : Prop where
  places_nodup : (st.index.map (·.2)).Nodup
  mem_places : ∀ i, i ∈ st.index.map (·.2) ↔ 0 < i ∧ i < st.staged.size
  root : 0 < st.staged.size
  compiled : ∀ entry ∈ st.index, ∃ mode, st.staged[entry.2]? = some mode ∧
    src.compileStaged entry.1.source (src.resolve entry.1.source entry.1.variant)
      mode.parentTerminators = .ok mode

theorem numbered_stageRoot (src : Source) (root : ModeId) : (src.stageRoot root).Numbered src where
  places_nodup := .nil
  mem_places i := by
    simp only [Source.stageRoot, List.map_nil, List.not_mem_nil, false_iff, List.size_toArray,
      List.length_singleton]
    omega
  root := Nat.one_pos
  compiled entry hentry := by cases hentry

theorem Stage.Numbered.stage {i : Nat} (hst : st.Numbered src)
    (h : src.stage st form.1 form.2 parent = .ok (i, st')) : st'.Numbered src := by
  rcases stage_cases h with ⟨-, rfl⟩ | ⟨-, rfl, mode, hmode, rfl⟩
  · exact hst
  · have hparent := (stagedFrom_of_compileStaged hmode).parent_eq
    refine ⟨List.nodup_cons.2 ⟨fun hmem => ?_, hst.places_nodup⟩, fun i => ?_, by simp, ?_⟩
    · exact Nat.lt_irrefl _ ((hst.mem_places _).1 hmem).2
    · have hmem := hst.mem_places i
      have hroot := hst.root
      simp only [List.map_cons, List.mem_cons, hmem, Array.size_push]
      omega
    · rintro entry (_ | ⟨_, hentry⟩)
      · refine ⟨mode, by simp, ?_⟩
        rw [hparent]
        exact hmode
      · obtain ⟨other, hother, hcompiled⟩ := hst.compiled entry hentry
        exact ⟨other, st.extends_push mode _ _ _ hother, hcompiled⟩

theorem Source.Grows.numbered {allowed : Set Form} (h : src.Grows allowed st st')
    (hst : st.Numbered src) : st'.Numbered src := by
  induction h with
  | refl => exact hst
  | step _ hstage _ ih => exact ih (hst.stage hstage)

/-! ## Staging and linking -/

/-- The forms that a definition refers to: those its children stand for, and the mode it starts,
without variant. -/
def Source.referred (src : Source) (d : Definition) : Set Form :=
  {form | some form ∈ src.formsOf d.contains ∨ (form.2 = none ∧ d.starts = some form.1)}

/-- Staging forms stages those forms, and in every later stage they are found again. -/
theorem stageForms_grows {self : Nat} {forms : List (Option Form)} {indices : List Nat}
    (h : src.stageForms self parent st forms = .ok (indices, st')) :
    src.Grows {form | some form ∈ forms} st st' ∧
      ∀ later, st'.Keeps later → src.stageForms self parent later forms = .ok (indices, later) := by
  induction forms generalizing st indices with
  | nil =>
    cases h
    exact ⟨.refl _, fun _ _ => rfl⟩
  | cons form forms ih =>
    have hsub : {form | some form ∈ forms} ⊆ {f | some f ∈ form :: forms} :=
      fun f hf => List.mem_cons_of_mem _ hf
    cases form with
    | none =>
      obtain ⟨⟨rest, st₁⟩, hrest, h⟩ := exists_of_bind_eq_ok h
      cases h
      obtain ⟨hgrows, hagain⟩ := ih hrest
      refine ⟨hgrows.mono hsub, fun later hlater => ?_⟩
      simp only [Source.stageForms, hagain later hlater]
      rfl
    | some form =>
      obtain ⟨⟨i, st₁⟩, hstage, h⟩ := exists_of_bind_eq_ok h
      obtain ⟨⟨rest, st₂⟩, hrest, h⟩ := exists_of_bind_eq_ok h
      cases h
      obtain ⟨hgrows, hagain⟩ := ih hrest
      refine ⟨.step List.mem_cons_self hstage (hgrows.mono hsub), fun later hlater => ?_⟩
      have hkey := hlater _ _ (hgrows.keeps _ _ (lookup_of_stage hstage))
      rw [Source.stageForms, stage_of_lookup hkey]
      show (src.stageForms self parent later forms >>= fun r => pure (i :: r.1, r.2)) = _
      rw [hagain later hlater]
      rfl

/-- **Linking stages what a mode refers to**, and in every later stage it finds the same. -/
theorem link_grows {place : Nat} {mode : Staged} {links : Links}
    (h : src.link st place mode = .ok (links, st')) :
    src.Grows (src.referred mode.definition) st st' ∧
      ∀ later, st'.Keeps later → src.link later place mode = .ok (links, later) := by
  unfold Source.link at h
  rw [Source.stageChildren_eq] at h
  obtain ⟨⟨children, st₁⟩, hchildren, h⟩ := exists_of_bind_eq_ok h
  obtain ⟨hgrows, hagain⟩ := stageForms_grows hchildren
  have hsub : {form | some form ∈ src.formsOf mode.definition.contains} ⊆
      src.referred mode.definition := fun form hform => .inl hform
  cases hs : mode.definition.starts with
  | none =>
    simp only [hs] at h
    cases h
    refine ⟨hgrows.mono hsub, fun later hlater => ?_⟩
    simp only [Source.link, Source.stageChildren_eq, hagain later hlater, hs]
    rfl
  | some id =>
    simp only [hs] at h
    obtain ⟨⟨next, st₂⟩, hstage, h⟩ := exists_of_bind_eq_ok h
    cases h
    have hstage : src.stage st₁ ((id, none) : Form).1 ((id, none) : Form).2 mode.parentTerminators =
        .ok (next, st₂) := hstage
    refine ⟨(hgrows.mono hsub).trans (.one (.inr ⟨rfl, hs⟩) hstage), fun later hlater => ?_⟩
    have hchildren := hagain later fun key i hkey =>
      hlater key i (keeps_of_stage hstage key i hkey)
    have hkey : later.index.lookup (src.keyOfForm (id, none) mode.parentTerminators) = some next :=
      hlater _ _ (lookup_of_stage hstage)
    have hnext : src.stage later id none mode.parentTerminators = .ok (next, later) :=
      stage_of_lookup hkey
    rw [Source.link, Source.stageChildren_eq, hchildren, hs]
    show (src.stage later id none mode.parentTerminators >>= fun r =>
      pure ((⟨children, some r.1⟩, r.2) : Links × Stage)) = _
    rw [hnext]
    rfl

/-- **Linking anew changes nothing**: once all modes are linked, every mode is linked to the same
modes again, and nothing is staged. -/
theorem relink {rounds done : Nat} {links : List Links}
    (h : src.linkFrom rounds done st = .ok (links, st')) :
    src.Grows Set.univ st st' ∧ ∀ (k : Nat) (mode : Staged) (l : Links),
      st'.staged[done + k]? = some mode → links[k]? = some l →
        src.link st' (done + k) mode = .ok (l, st') := by
  induction rounds generalizing st done links with
  | zero =>
    cases h
    exact ⟨.refl _, by simp⟩
  | succ rounds ih =>
    unfold Source.linkFrom at h
    cases hmode : st.staged[done]? with
    | none =>
      simp only [hmode] at h
      cases h
      exact ⟨.refl _, by simp⟩
    | some mode =>
      simp only [hmode] at h
      obtain ⟨⟨first, st₁⟩, hlink, h⟩ := exists_of_bind_eq_ok h
      obtain ⟨⟨rest, st₂⟩, hrest, h⟩ := exists_of_bind_eq_ok h
      cases h
      obtain ⟨hfirst, hagain⟩ := link_grows hlink
      obtain ⟨hgrows, hall⟩ := ih hrest
      have hgrown := (hfirst.mono (Set.subset_univ _)).trans hgrows
      refine ⟨hgrown, fun k other l hother hl => ?_⟩
      cases k with
      | zero =>
        have hsame := hgrown.extension done mode hmode
        rw [Nat.add_zero, hsame] at hother
        cases hother
        cases hl
        exact hagain st₂ hgrows.keeps
      | succ k =>
        have hplace : done + (k + 1) = done + 1 + k := by omega
        rw [hplace] at hother ⊢
        exact hall k other l hother hl

end ModeStack.Grammar
