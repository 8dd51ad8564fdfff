import Mathlib.Data.List.Basic
import Mathlib.Data.List.Perm.Subperm
import ModeStack.Grammar.Basic
import ModeStack.Proofs.Regex.Shift

/-!
# The modes that definitions can become

A staged mode is told from others by its key: a definition, one of its variants or none, and a
list of terminators without repetition, each the closing pattern of some definition. There are
finitely many keys, fewer than the rounds for which modes are linked (`length_keys_lt`).
-/

namespace ModeStack.Grammar

open ModeStack.Regex (exists_of_bind_eq_ok)

/-! ## Forms -/

/-- The definitions of a list, numbered from `first` on, each without variant and with each of
them. -/
def formsFrom : (first : ModeId) → List Definition → List (ModeId × Option Nat)
  | _, [] => []
  | first, d :: ds =>
    (first, none) :: (List.range d.variants.length).map (fun v => (first, some v))
      ++ formsFrom (first + 1) ds

theorem length_formsFrom (first : ModeId) (ds : List Definition) :
    (formsFrom first ds).length = Source.formCount ds := by
  induction ds generalizing first with
  | nil => rfl
  | cons d ds ih =>
    simp only [formsFrom, List.length_append, List.length_cons, List.length_map, List.length_range,
      ih, Source.formCount]

theorem mem_formsFrom (first : ModeId) {k : Nat} {ds : List Definition} {d : Definition}
    (h : ds[k]? = some d) {variant : Option Nat} (hv : ∀ v ∈ variant, v < d.variants.length) :
    (first + k, variant) ∈ formsFrom first ds := by
  induction ds generalizing first k with
  | nil => simp at h
  | cons e ds ih =>
    cases k with
    | zero =>
      simp only [List.getElem?_cons_zero, Option.some.injEq] at h
      subst h
      cases variant with
      | none => simp [formsFrom]
      | some v => simp [formsFrom, hv v rfl]
    | succ k =>
      have hmem := ih (first + 1) h
      rw [Nat.add_right_comm] at hmem
      exact List.mem_append_right _ hmem

namespace Source

variable (src : Source)

/-- The definitions of a source, each without variant and with each of them. -/
def forms : List (ModeId × Option Nat) := formsFrom 0 src.definitions.toList

/-- The closing patterns of all forms. -/
def closings : List String :=
  src.forms.filterMap fun form => closingOf (src.resolve form.1 form.2)

variable {src}

theorem mem_forms {id : ModeId} {d : Definition} (h : src.definitions[id]? = some d)
    {variant : Option Nat} (hv : ∀ v ∈ variant, v < d.variants.length) :
    (id, variant) ∈ src.forms := by
  have hd : src.definitions.toList[id]? = some d := by simpa using h
  have hmem := mem_formsFrom 0 hd hv
  rwa [Nat.zero_add] at hmem

theorem mem_closings {id : ModeId} {variant : Option Nat} (h : (id, variant) ∈ src.forms)
    {source : String} (hc : closingOf (src.resolve id variant) = some source) :
    source ∈ src.closings :=
  List.mem_filterMap.2 ⟨(id, variant), h, hc⟩

end Source

/-! ## Counting keys -/

/-- The lists of at most `n` elements of a pool. -/
def listsUpTo (pool : List String) : Nat → List (List String)
  | 0 => [[]]
  | n + 1 => [] :: pool.flatMap fun x => (listsUpTo pool n).map (x :: ·)

theorem mem_listsUpTo {pool : List String} {n : Nat} {l : List String} (hlen : l.length ≤ n)
    (hsub : l ⊆ pool) : l ∈ listsUpTo pool n := by
  induction l generalizing n with
  | nil => cases n <;> simp [listsUpTo]
  | cons x l ih =>
    cases n with
    | zero => simp at hlen
    | succ n =>
      have hx : x ∈ pool := hsub List.mem_cons_self
      have hl := ih (Nat.le_of_succ_le_succ hlen) fun y hy => hsub (List.mem_cons_of_mem _ hy)
      exact List.mem_cons_of_mem _ (List.mem_flatMap.2 ⟨x, hx, List.mem_map_of_mem hl⟩)

theorem length_listsUpTo_le (pool : List String) (n : Nat) :
    (listsUpTo pool n).length ≤ (pool.length + 1) ^ n := by
  induction n with
  | zero => simp [listsUpTo]
  | succ n ih =>
    have hlen : (listsUpTo pool (n + 1)).length = pool.length * (listsUpTo pool n).length + 1 := by
      simp [listsUpTo, List.length_flatMap]
    have hpos : 1 ≤ (pool.length + 1) ^ n := Nat.one_le_pow _ _ (by omega)
    have hmul := Nat.mul_le_mul_left pool.length ih
    rw [hlen, Nat.pow_succ, Nat.mul_comm _ (pool.length + 1), Nat.add_mul]
    omega

namespace Source

variable (src : Source)

/-- The keys that staged modes can have. -/
def keys : List Key :=
  src.forms.flatMap fun form =>
    (listsUpTo src.closings src.closings.length).map fun terminators =>
      ⟨form.1, form.2, terminators⟩

variable {src}

theorem mem_keys {key : Key} (hform : (key.source, key.variant) ∈ src.forms)
    (hnodup : key.terminators.Nodup) (hsub : key.terminators ⊆ src.closings) :
    key ∈ src.keys := by
  have hlen : key.terminators.length ≤ src.closings.length :=
    (List.subperm_of_subset hnodup hsub).length_le
  exact List.mem_flatMap.2 ⟨_, hform, List.mem_map.2 ⟨_, mem_listsUpTo hlen hsub, rfl⟩⟩

/-- **There are fewer keys than rounds of linking.** -/
theorem length_keys_lt (src : Source) : src.keys.length + 1 < src.maxModes := by
  have hforms : src.forms.length = formCount src.definitions.toList := length_formsFrom 0 _
  have hclosings : src.closings.length ≤ src.forms.length := List.length_filterMap_le _ _
  have hlists := length_listsUpTo_le src.closings src.closings.length
  have hlen : src.keys.length =
      src.forms.length * (listsUpTo src.closings src.closings.length).length := by
    simp [keys, List.length_flatMap]
  rw [hforms] at hclosings hlen
  unfold maxModes
  generalize formCount src.definitions.toList = n at hclosings hlen ⊢
  have hpow : (src.closings.length + 1) ^ src.closings.length < (n + 2) ^ (n + 1) := by
    calc (src.closings.length + 1) ^ src.closings.length
        ≤ (n + 2) ^ src.closings.length := Nat.pow_le_pow_left (by omega) _
      _ < (n + 2) ^ (n + 1) := Nat.pow_lt_pow_right (by omega) (by omega)
  have hmul : n * (listsUpTo src.closings src.closings.length).length ≤ n * (n + 2) ^ (n + 1) :=
    Nat.mul_le_mul_left n (hlists.trans hpow.le)
  have hpos : 1 < (n + 2) ^ (n + 1) := Nat.one_lt_pow (by omega) (by omega)
  show src.keys.length + 1 < (n + 1) * (n + 2) ^ (n + 1) + 1
  rw [hlen, Nat.add_mul, Nat.one_mul]
  omega

/-! ## References -/

/-- What a validated source has: a root that ends with the text only, and references to
definitions only. -/
structure Validated (src : Source) (root : ModeId) : Prop where
  root_lt : root < src.definitions.size
  references_lt : ∀ (id : ModeId) (d : Definition), src.definitions[id]? = some d → ∀ r ∈ d.references,
    r < src.definitions.size

theorem validated_of_validate {root : ModeId} (h : src.validate root = .ok ()) :
    src.Validated root := by
  unfold validate at h
  cases hroot : src.definitions[root]? with
  | none =>
    simp only [hroot] at h
    cases h
  | some rootDefinition =>
    simp only [hroot] at h
    split_ifs at h
    · cases h
    · generalize hfaults : List.filterMap _ _ = faults at h
      cases faults with
      | cons fault faults => cases h
      | nil =>
        refine ⟨(Array.getElem?_eq_some_iff.1 hroot).1, fun id d hd r hr => ?_⟩
        have hmem : (d, id) ∈ src.definitions.toList.zipIdx :=
          List.mem_zipIdx_iff_getElem?.2 (by simpa using hd)
        have hnone := List.filterMap_eq_nil_iff.1 hfaults _ hmem
        rw [Option.map_eq_none_iff, List.find?_eq_none] at hnone
        simpa using hnone r hr

theorem resolve_cases (src : Source) (id : ModeId) (variant : Option Nat) :
    src.resolve id variant = {} ∨ ∃ d, src.definitions[id]? = some d ∧
      (src.resolve id variant = d ∨ ∃ v ∈ d.variants, src.resolve id variant = d.merged v) := by
  unfold resolve
  rw [Array.getD_eq_getD_getElem?]
  cases hd : src.definitions[id]? with
  | none => exact .inl (by simp)
  | some d =>
    refine .inr ⟨d, rfl, ?_⟩
    simp only [Option.getD_some]
    cases hv : variant.bind (d.variants[·]?) with
    | none => exact .inl rfl
    | some v =>
      obtain ⟨k, -, hk⟩ := Option.bind_eq_some_iff.1 hv
      exact .inr ⟨v, List.mem_of_getElem? hk, rfl⟩

/-- What a definition refers to, with a variant merged in, it refers to itself. -/
theorem resolve_references (src : Source) (id : ModeId) (variant : Option Nat) {r : ModeId}
    (hr : .mode r ∈ (src.resolve id variant).contains ∨
      (src.resolve id variant).starts = some r) :
    ∃ d, src.definitions[id]? = some d ∧ r ∈ d.references := by
  have hmodes {children : List Child} (h : .mode r ∈ children) : r ∈ Definition.modesOf children :=
    List.mem_filterMap.2 ⟨_, h, rfl⟩
  rcases resolve_cases src id variant with heq | ⟨d, hd, heq | ⟨v, hv, heq⟩⟩
  · rw [heq] at hr
    simp at hr
  · rw [heq] at hr
    refine ⟨d, hd, ?_⟩
    rcases hr with hr | hr
    · simp [Definition.references, hmodes hr]
    · simp [Definition.references, hr]
  · rw [heq] at hr
    refine ⟨d, hd, ?_⟩
    have hvariant (h : r ∈ Definition.modesOf v.contains ++ v.starts.toList) :
        r ∈ d.references :=
      List.mem_append_right _ (List.mem_flatMap.2 ⟨v, hv, h⟩)
    simp only [Definition.merged] at hr
    rcases hr with hr | hr
    · split_ifs at hr
      · simp [Definition.references, hmodes hr]
      · exact hvariant (List.mem_append_left _ (hmodes hr))
    · rcases Option.or_eq_some_iff.1 hr with hr | ⟨-, hr⟩
      · exact hvariant (by simp [hr])
      · simp [Definition.references, hr]

end Source

end ModeStack.Grammar
