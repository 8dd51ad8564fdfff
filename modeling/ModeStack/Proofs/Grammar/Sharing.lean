import ModeStack.Proofs.Grammar.Needed

/-!
# Sharing modes

Definitions may refer to each other in circles, and every mode that is staged on the way has to be
linked too. `Source.Linking` is this loop without any bound on its rounds. It always ends, with
the result of `expand` (`linking_iff`), since every round links a mode with a key of its own.

When it ends well, each mode is linked to modes that are found again under their keys, terminators
are listed once, and no two modes stand for the same form with the same terminators
(`expand_shares`).
-/

namespace ModeStack.Grammar

open ModeStack.Rule (Part)
open ModeStack.Regex (exists_of_bind_eq_ok)

variable {src : Source} {root : ModeId} {st st' : Stage} {form : Form}

/-! ## The loop -/

/-- Links the staged modes from place `done` on, one after another, until all are linked or one of
them cannot be. -/
inductive Source.Linking (src : Source) :
    (done : Nat) → Stage → Except Error (List Links × Stage) → Prop
  | done {done : Nat} {st : Stage} : st.staged[done]? = none → Linking src done st (.ok ([], st))
  | failed {done : Nat} {st : Stage} {mode : Staged} {e : Error} :
      st.staged[done]? = some mode → src.link st done mode = .error e →
      Linking src done st (.error e)
  | next {done : Nat} {st st₁ : Stage} {mode : Staged} {links : Links}
      {r : Except Error (List Links × Stage)} :
      st.staged[done]? = some mode → src.link st done mode = .ok (links, st₁) →
      Linking src (done + 1) st₁ r →
      Linking src done st (r.map fun rest => (links :: rest.1, rest.2))

/-- The loop has one result at most. -/
theorem Source.Linking.unique {done : Nat} {r r' : Except Error (List Links × Stage)}
    (h : src.Linking done st r) (h' : src.Linking done st r') : r = r' := by
  induction h generalizing r' with
  | done hnone =>
    cases h' with
    | done => rfl
    | failed hmode => simp [hnone] at hmode
    | next hmode => simp [hnone] at hmode
  | failed hmode hlink =>
    cases h' with
    | done hnone => simp [hnone] at hmode
    | failed hmode' hlink' =>
      cases hmode.symm.trans hmode'
      cases hlink.symm.trans hlink'
      rfl
    | next hmode' hlink' =>
      cases hmode.symm.trans hmode'
      cases hlink.symm.trans hlink'
  | next hmode hlink _ ih =>
    cases h' with
    | done hnone => simp [hnone] at hmode
    | failed hmode' hlink' =>
      cases hmode.symm.trans hmode'
      cases hlink.symm.trans hlink'
    | next hmode' hlink' hrest' =>
      cases hmode.symm.trans hmode'
      cases hlink.symm.trans hlink'
      rw [ih hrest']

/-- **The loop ends** before as many rounds as there can be modes. -/
theorem linking_linkFrom (hv : src.Validated root) {rounds done : Nat} (hst : st.Sound src)
    (hdone : done ≤ st.staged.size) (hrounds : src.maxModes ≤ done + rounds) :
    src.Linking done st (src.linkFrom rounds done st) := by
  induction rounds generalizing st done with
  | zero =>
    have hlt := hst.size_lt
    omega
  | succ rounds ih =>
    unfold Source.linkFrom
    cases hmode : st.staged[done]? with
    | none => exact .done hmode
    | some mode =>
      dsimp only
      cases hlink : src.link st done mode with
      | error e => exact .failed hmode hlink
      | ok linked =>
        obtain ⟨links, st₁⟩ := linked
        obtain ⟨hsound, hext, -⟩ := link_spec hv hst hmode hlink
        have hdone₁ : done + 1 ≤ st₁.staged.size :=
          (Array.getElem?_eq_some_iff.1 (hext done mode hmode)).1
        have hnext := Source.Linking.next hmode hlink (ih hsound hdone₁ (by omega))
        show src.Linking done st (src.linkFrom rounds (done + 1) st₁ >>= fun rest =>
          pure ((links :: rest.1, rest.2) : List Links × Stage))
        cases hrest : src.linkFrom rounds (done + 1) st₁ with
        | error e =>
          rw [hrest] at hnext
          exact hnext
        | ok rest =>
          rw [hrest] at hnext
          exact hnext

/-! ## One mode for every key -/

/-- Modes are shared as much as they can be. -/
structure Stage.Shared (src : Source) (st : Stage) : Prop where
  /-- No terminator is listed twice. -/
  nodup : ∀ mode ∈ st.staged, (mode.terminators.map (·.source)).Nodup ∧
    (mode.parentTerminators.map (·.source)).Nodup
  /-- Every mode but the root is staged for one form. -/
  form : ∀ place, 0 < place → place < st.staged.size → ∃! form, st.StagedAs form place
  /-- It is what compiling that form gives. -/
  compiled : ∀ form place, st.StagedAs form place → ∃ mode, st.staged[place]? = some mode ∧
    src.compileStaged form.1 (src.resolve form.1 form.2) mode.parentTerminators = .ok mode
  /-- No other mode is staged for the form, unless it ends with its parent and has other
  terminators. -/
  once : ∀ form place place' mode mode', st.StagedAs form place → st.StagedAs form place' →
    st.staged[place]? = some mode → st.staged[place']? = some mode' →
    (mode.definition.flags.endsWithParent = true →
      mode'.terminators.map (·.source) = mode.terminators.map (·.source)) → place' = place

/-- The terminators of a staged mode by their texts: its own, then those it inherits. -/
theorem StagedFrom.sources_eq {d : Definition} {parent : List Part} {mode : Staged}
    (h : StagedFrom src d parent mode) : mode.terminators.map (·.source) =
      (Source.closingOf d).toList ++ (Source.inherited d parent).map (·.source) := by
  rw [h.terminators_eq, List.map_append, ← h.closing_eq]
  cases mode.closing <;> rfl

/-- The key of a staged mode in terms of its terminators. -/
theorem StagedFrom.keyOf_eq {parent : List Part} {mode : Staged}
    (h : StagedFrom src (src.resolve form.1 form.2) parent mode) :
    src.keyOfForm form parent = ⟨form.1, form.2,
      if mode.definition.flags.endsWithParent then mode.terminators.map (·.source) else []⟩ := by
  rw [h.flags_eq, h.sources_eq]
  rfl

/-- An entry of the index of a sound stage has the key of its mode. -/
theorem Stage.Sound.keyOf_eq (hst : st.Sound src) {entry : Key × Nat} (hentry : entry ∈ st.index)
    {mode : Staged} (hmode : st.staged[entry.2]? = some mode) :
    entry.1 = ⟨entry.1.source, entry.1.variant,
      if mode.definition.flags.endsWithParent then mode.terminators.map (·.source) else []⟩ := by
  obtain ⟨-, other, hother, hfrom, hkey⟩ := hst.indexed entry hentry
  cases hmode.symm.trans hother
  have hfrom : StagedFrom src (src.resolve (entry.1.source, entry.1.variant).1
      (entry.1.source, entry.1.variant).2) mode.parentTerminators mode := hfrom
  rw [← hfrom.keyOf_eq]
  exact hkey

/-- A key stands at one place of a sound stage. -/
theorem Stage.Sound.place_eq (hst : st.Sound src) {key : Key} {place place' : Nat}
    (h : (key, place) ∈ st.index) (h' : (key, place') ∈ st.index) : place' = place :=
  congrArg Prod.snd (List.inj_on_of_nodup_map hst.keys_nodup h' h rfl)

/-- A place of a numbered stage has one key. -/
theorem Stage.Numbered.key_eq (hst : st.Numbered src) {key key' : Key} {place : Nat}
    (h : (key, place) ∈ st.index) (h' : (key', place) ∈ st.index) : key' = key :=
  congrArg Prod.fst (List.inj_on_of_nodup_map hst.places_nodup h' h rfl)

theorem shared_of_sound (hst : st.Sound src) (hnum : st.Numbered src) : st.Shared src where
  nodup mode hmode := ⟨(hst.proper mode hmode).1.nodup, (hst.proper mode hmode).2.nodup⟩
  form place hpos hlt := by
    obtain ⟨⟨key, _⟩, hentry, rfl⟩ := List.mem_map.1 ((hnum.mem_places place).2 ⟨hpos, hlt⟩)
    refine ⟨(key.source, key.variant), ⟨key, hentry, rfl, rfl⟩, ?_⟩
    rintro ⟨source, variant⟩ ⟨key', hentry', rfl, rfl⟩
    rw [hnum.key_eq hentry hentry']
  compiled := by
    rintro ⟨source, variant⟩ place ⟨key, hentry, rfl, rfl⟩
    exact hnum.compiled _ hentry
  once := by
    rintro ⟨source, variant⟩ place place' mode mode' ⟨key, hentry, rfl, rfl⟩
      ⟨key', hentry', hsource, hvariant⟩ hmode hmode' hterms
    have hkey := hst.keyOf_eq hentry hmode
    have hkey' := hst.keyOf_eq hentry' hmode'
    have hflags : mode'.definition.flags = mode.definition.flags := by
      obtain ⟨-, other, hother, hfrom, -⟩ := hst.indexed _ hentry
      obtain ⟨-, other', hother', hfrom', -⟩ := hst.indexed _ hentry'
      cases hmode.symm.trans hother
      cases hmode'.symm.trans hother'
      have hsource : key'.source = key.source := hsource
      have hvariant : key'.variant = key.variant := hvariant
      rw [hfrom.flags_eq, hfrom'.flags_eq]
      dsimp only
      rw [hsource, hvariant]
    have hsame : key' = key := by
      dsimp only at hkey hkey' hsource hvariant
      rw [hkey, hkey', hsource, hvariant, hflags]
      split_ifs with hends
      · rw [hterms hends]
      · rfl
    rw [hsame] at hentry'
    exact hst.place_eq hentry hentry'

/-! ## Main statement -/

/-- A compiled mode is the staged one, with its rules joined. -/
def Staged.CompiledTo (staged : Staged) (mode : Mode) : Prop :=
  mode.source = staged.source ∧ mode.scope = staged.definition.scope ∧
    mode.flags = staged.definition.flags ∧ mode.closing = staged.closing

theorem compiledTo_of_finish {staged : Staged} {links : Links} {clauses : List Rule.Clause}
    {mode : Mode} (h : src.finish staged links clauses = .ok mode) : staged.CompiledTo mode := by
  obtain ⟨word, -, h⟩ := exists_of_bind_eq_ok h
  obtain ⟨rules, -, h⟩ := exists_of_bind_eq_ok h
  cases h
  exact ⟨rfl, rfl, rfl, rfl⟩

/-- Every compiled mode is one of the staged modes, and every staged mode is compiled once. -/
theorem compiledTo_of_compile (hexpand : src.expand root = .ok (links, st))
    {compiled : Source.Compiled} (h : src.compile root = .ok compiled) :
    List.Forall₂ Staged.CompiledTo st.staged.toList compiled.modes.toList := by
  obtain ⟨hv, links', st', clauses, hexpand', hclauses, hmodes⟩ := compile_spec h
  cases hexpand.symm.trans hexpand'
  obtain ⟨-, -, hlen, -⟩ := expand_spec hv hexpand
  have hstaged : ((st.staged.toList.zip links).zip clauses).map (·.1.1) = st.staged.toList := by
    have hfirst : (·.1.1) = Prod.fst ∘ (Prod.fst : (Staged × Links) × List Rule.Clause → _) := rfl
    rw [hfirst, ← List.map_map, List.map_fst_zip hclauses.length_eq.le, List.map_fst_zip]
    rw [Array.length_toList, hlen]
  rw [← hstaged, List.forall₂_map_left_iff]
  exact hmodes.imp fun _ _ hfinish => compiledTo_of_finish hfinish

/-- **Staging terminates and shares modes.** For every source that passes validation, in whatever
circles its definitions refer to each other, linking all modes without any bound on the rounds
has one result, which is that of `expand`. If no pattern is refused on the way, then all staged
modes are linked; linking any of them anew gives the same links and stages nothing; modes are
shared as much as they can be; and if the grammar can be compiled, its modes are these. -/
theorem expand_shares (hv : src.validate root = .ok ()) :
    (∀ r, src.Linking 0 (src.stageRoot root) r ↔ r = src.expand root) ∧
      ∀ links st, src.expand root = .ok (links, st) →
        links.length = st.staged.size ∧
        (∀ place mode l, st.staged[place]? = some mode → links[place]? = some l →
          src.link st place mode = .ok (l, st)) ∧
        st.Shared src ∧
        ∀ compiled, src.compile root = .ok compiled →
          List.Forall₂ Staged.CompiledTo st.staged.toList compiled.modes.toList := by
  have hvalid := Source.validated_of_validate hv
  have hends : src.Linking 0 (src.stageRoot root) (src.expand root) :=
    linking_linkFrom hvalid (sound_stageRoot root hvalid) (Nat.zero_le _) (by omega)
  refine ⟨fun r => ⟨fun h => h.unique hends, fun h => h ▸ hends⟩, fun links st hexpand => ?_⟩
  have h := expanded_of_expand hvalid hexpand
  exact ⟨h.length_eq, h.relinked, shared_of_sound h.sound h.numbered,
    fun compiled => compiledTo_of_compile hexpand⟩

/-- Modes in circles: the first contains itself and the second, the second contains the third and
the first, and each variant of the third contains the second and itself, and starts the first. -/
def entangled : Draft where
  name := "entangled"
  definitions := #[
    { opening := some "<", closing := some ">", contains := [.self, .mode 1] },
    { opening := some "a", closing := some ";", contains := [.mode 2, .mode 0],
      flags := { endsWithParent := true } },
    { opening := some "b", variants := [{ closing := some "," }, {}],
      contains := [.mode 1, .self], starts := some 0, flags := { endsWithParent := true } },
    { contains := [.mode 0, .mode 1] }]
  root := some 3

/-- The three definitions become eleven modes beside the root: the second and the variants of the
third are staged once for each list of terminators that they can have. -/
theorem entangled_shares : entangled.source.validate 3 = .ok () ∧
    ∃ links st, entangled.source.expand 3 = .ok (links, st) ∧ st.staged.size = 12 ∧
      links.length = 12 ∧ st.Shared entangled.source := by
  have hv : entangled.source.validate 3 = .ok () := by decide +kernel
  have hsize : (entangled.source.expand 3).toOption.map (·.2.staged.size) = some 12 := by
    decide +kernel
  cases hexpand : entangled.source.expand 3 with
  | error e =>
    rw [hexpand] at hsize
    cases hsize
  | ok expanded =>
    obtain ⟨links, st⟩ := expanded
    rw [hexpand] at hsize
    have hsize : st.staged.size = 12 := Option.some.inj hsize
    obtain ⟨hlen, -, hshared, -⟩ := (expand_shares hv).2 links st hexpand
    exact ⟨hv, links, st, rfl, hsize, hlen.trans hsize, hshared⟩

end ModeStack.Grammar
