import ModeStack.Proofs.Rule.Naive

/-!
# Rules that can always be joined

Joining rules can fail although each pattern compiles: in the joined pattern a reference is read
with a greater number, a pattern nests two groups deeper, and names and references may be mixed. A
pattern that is accepted after `limit` groups, and neither names groups nor refers to them, is
accepted wherever there are fewer. Rules with such patterns and no more groups than that can be
joined (`exists_build`).
-/

namespace ModeStack.Rule

open ModeStack.Regex
open ModeStack.Text (charactersOf charactersOf_eq)

/-- The inside of a group that `limit` groups precede, this one included. -/
def roomy (limit : Nat) : Context where
  offset := limit
  names := []
  numbered := false
  depth := 62
  after := []

/-- Whether the pattern of a rule is accepted after `limit` groups, and neither names groups nor
refers to them. -/
def Part.fitsAfter (ignoreCase : Bool) (limit : Nat) : Part → Bool
  | ⟨source, _⟩ =>
    match expression 62
      ((roomy limit).place { rest := charactersOf source, flags := sharedFlags ignoreCase }) with
    | .ok (_, r) => r.names.isEmpty && !r.numbered
    | .error _ => false

/-- The text fits after `limit` groups, and neither names groups nor refers to them. -/
structure FitsAfter (ignoreCase : Bool) (limit : Nat) (m : Movable) : Prop where
  fits : m.Fits (sharedFlags ignoreCase) (roomy limit)
  names_eq : m.names = []
  numbered_eq : m.numbered = false

variable {ignoreCase : Bool} {limit : Nat} {clauses : List Clause} {ms : List Movable}

theorem fitsAfter_of_stands {part : Part} {m : Movable} (hstands : Stands part m)
    (h : part.fitsAfter ignoreCase limit = true) : FitsAfter ignoreCase limit m := by
  have hplace : (roomy limit).place { rest := part.source.toList, flags := sharedFlags ignoreCase } =
      (roomy limit).place (m.start (sharedFlags ignoreCase)) := by
    rw [← hstands.text]
    rfl
  obtain ⟨source, groups⟩ := part
  rw [Part.fitsAfter, charactersOf_eq, hplace] at h
  have hfits : m.Fits (sharedFlags ignoreCase) (roomy limit) := by
    by_contra hnot
    obtain ⟨err, herror⟩ := Movable.error_of_not_fits hnot rfl
    have herror : expression 62 ((roomy limit).place (m.start (sharedFlags ignoreCase))) =
      .error err := herror
    rw [herror] at h
    cases h
  have hread : expression 62 ((roomy limit).place (m.start (sharedFlags ignoreCase))) = _ := hfits
  rw [hread] at h
  simp only [Context.place, Movable.stop, roomy, Bool.and_eq_true, List.isEmpty_iff,
    Bool.not_eq_true', List.append_nil, List.map_eq_nil_iff, Bool.or_false] at h
  exact ⟨hfits, h.1, h.2⟩

/-- The groups of parts, with the one that wraps each. -/
def roomOf (ms : List Movable) : Nat := (ms.map (·.groups + 1)).sum

/-- Where there is room for all parts, they are accepted, and names and numbers are not mixed. -/
theorem accepts_of_fitsAfter {b : Before} (hsteady : ∀ m ∈ ms, m.Steady)
    (hfits : ∀ m ∈ ms, FitsAfter ignoreCase limit m) (hflags : b.flags = sharedFlags ignoreCase)
    (hnames : b.names = []) (hnumbered : b.numbered = false)
    (hroom : b.groups + roomOf ms ≤ limit) :
    Accepts b ms ∧ (ms.foldl .step b : Before).isMixed = false := by
  induction ms generalizing b with
  | nil => exact ⟨trivial, by rw [List.foldl_nil, Before.isMixed, hnumbered]; rfl⟩
  | cons m ms ih =>
    have hm := hfits m List.mem_cons_self
    have hroom' : b.groups + (m.groups + 1 + roomOf ms) ≤ limit := hroom
    have hfit : m.Fits b.flags (b.context []) := by
      rw [hflags]
      refine hm.fits.mono rfl ⟨?_, fun _ => hnames, fun _ => hnumbered, le_rfl⟩
      show b.groups + 1 ≤ limit
      omega
    have hrest := ih (b := b.step m) (fun m' hm' => hsteady m' (List.mem_cons_of_mem _ hm'))
      (fun m' hm' => hfits m' (List.mem_cons_of_mem _ hm'))
      ((hsteady m List.mem_cons_self b.flags (by rw [hflags]; rfl)).trans hflags)
      (by simp [Before.step, hm.names_eq, hnames])
      (by simp [Before.step, hm.numbered_eq, hnumbered])
      (by show b.groups + 1 + m.groups + roomOf ms ≤ limit; omega)
    exact ⟨⟨hfit, hrest.1⟩, hrest.2⟩

theorem roomOf_eq (hstands : List.Forall₂ Stands (clauses.map (·.part)) ms) :
    roomOf ms = clauses.length + groupCount (clauses.map (·.part)) := by
  induction clauses generalizing ms with
  | nil =>
    cases hstands
    rfl
  | cons clause clauses ih =>
    cases hstands with
    | @cons _ m _ ms hpart hrest =>
      have hm : roomOf (m :: ms) = m.groups + 1 + roomOf ms := rfl
      rw [hm, ih hrest, hpart.groups, List.map_cons, groupCount, List.length_cons]
      dsimp only
      omega

/-- **Rules with room for their groups can be joined.** -/
theorem RuleSet.exists_build
    (hself : ∀ clause ∈ clauses, clause.part.isSelfContained ignoreCase = true)
    (hfits : ∀ clause ∈ clauses, clause.part.fitsAfter ignoreCase limit = true)
    (hroom : clauses.length + groupCount (clauses.map (·.part)) ≤ limit) :
    ∃ s, RuleSet.build ignoreCase clauses = .ok s := by
  obtain ⟨ps, hps⟩ := exists_patterns ignoreCase clauses (List.all_eq_true.2 hself)
  obtain ⟨ms, plans, hcast⟩ := exists_cast hps
  have hall : ∀ m ∈ ms, FitsAfter ignoreCase limit m := by
    intro m hm
    obtain ⟨k, hk⟩ := List.getElem?_of_mem hm
    obtain ⟨part, hpart, hstands⟩ := exists_getElem?_of_forall₂' hcast.stands hk
    obtain ⟨clause, hclause, rfl⟩ := List.mem_map.1 (List.mem_of_getElem? hpart)
    exact fitsAfter_of_stands hstands (hfits clause hclause)
  unfold RuleSet.build
  cases clauses with
  | nil => exact ⟨_, rfl⟩
  | cons clause clauses =>
    obtain ⟨m, ms, rfl⟩ := List.exists_cons_of_ne_nil (l := ms) fun hnil => by
      have hlength := hcast.stands.length_eq
      rw [hnil] at hlength
      cases hlength
    have hroom : 0 + roomOf (m :: ms) ≤ limit := by
      rw [roomOf_eq hcast.stands, Nat.zero_add]
      exact hroom
    obtain ⟨haccepts, hmixed⟩ := accepts_of_fitsAfter (b := .start ignoreCase) hcast.steady hall rfl
      rfl rfl hroom
    obtain ⟨c, hc, -⟩ := exists_combine hcast haccepts hmixed
    rw [List.isEmpty_cons, if_neg Bool.false_ne_true, hc]
    exact ⟨_, rfl⟩

end ModeStack.Rule
