import ModeStack.Proofs.Rule.Naive

/-!
# Flags that rules leave behind

A flag that a rule sets for the rest of itself stays in force behind the group that wraps the rule,
so the rules after it are read under that flag when they are joined. `flagsAt` are the flags under
which a rule is read.

Where these are the flags that all patterns share, a match that is reported for the rule is a match
of its pattern alone (`search_isolated`), whatever flags the rules set within themselves. Otherwise
it need not be (`exists_flags_leak`).
-/

namespace ModeStack.Rule

open ModeStack.Regex
open ModeStack.Text (charactersOf charactersOf_eq)

/-! ## The flags under which rules are read -/

/-- The flags in force after rules that are read one after another. -/
def flagsPast (flags : Flags) (clauses : List Clause) : Flags :=
  clauses.foldl (fun flags clause => flagsAfter flags clause.part.source.toList) flags

/-- The flags under which the rule at place `index` is read, where the rules from place `first` on
are joined. -/
def flagsAt (ignoreCase : Bool) (clauses : List Clause) (first index : Nat) : Flags :=
  flagsPast (sharedFlags ignoreCase) ((clauses.drop first).take (index - first))

variable {ignoreCase : Bool} {clauses : List Clause} {ps : List Pattern} {ms : List Movable}
  {b : Before}

theorem terse_of_flagsPast (hstands : List.Forall₂ Stands (clauses.map (·.part)) ms)
    (hterse : ∀ k < clauses.length, (flagsPast b.flags (clauses.take k)).verbose = false) :
    Terse b ms := by
  induction clauses generalizing b ms with
  | nil =>
    cases hstands
    trivial
  | cons clause clauses ih =>
    cases hstands with
    | @cons _ m _ ms hpart hrest =>
      refine ⟨hterse 0 (Nat.succ_pos _), ih hrest fun k hk => ?_⟩
      have hflags := hterse (k + 1) (Nat.succ_lt_succ hk)
      rw [Before.step, hpart.text]
      exact hflags

/-- A part means what it means under the flags that the parts before it leave. -/
theorem getElem?_bodies (hstands : List.Forall₂ Stands (clauses.map (·.part)) ms) (k : Nat) :
    (bodies b ms)[k]? = ms[k]?.map (·.body (flagsPast b.flags (clauses.take k))) := by
  induction clauses generalizing b ms k with
  | nil =>
    cases hstands
    rfl
  | cons clause clauses ih =>
    cases hstands with
    | @cons _ m _ ms hpart hrest =>
      cases k with
      | zero => rfl
      | succ k =>
        have hstep := ih (b := b.step m) hrest k
        rw [Before.step, hpart.text] at hstep
        rw [bodies, List.getElem?_cons_succ, List.getElem?_cons_succ, Before.step, hpart.text,
          hstep]
        rfl

/-! ## Rules that are read under the shared flags -/

/-- What is reported for a rule that is read under the shared flags, its pattern matches. -/
theorem combined_isolated {c : Combined} {t : Text} {pos index : Nat} {span : Span}
    (hrules : List.Forall₂ (fun clause p => Standalone ignoreCase clause.part p) clauses ps)
    (hne : clauses ≠ []) (hc : combine ignoreCase clauses = .ok c)
    (hterse : ∀ k < clauses.length,
      (flagsPast (sharedFlags ignoreCase) (clauses.take k)).verbose = false)
    (hsearch : c.search t pos = some (index, span))
    (hflags : flagsPast (sharedFlags ignoreCase) (clauses.take index) = sharedFlags ignoreCase) :
    ∃ p, ps[index]? = some p ∧ p.matchAt t span.start = some span.stop := by
  obtain ⟨ms, hstands, hplanned⟩ := exists_movables (List.forall₂_map_left_iff.2 hrules)
  have hterse := terse_of_flagsPast (b := .start ignoreCase) hstands hterse
  cases ms with
  | nil => exact absurd (List.map_eq_nil_iff.1 (List.forall₂_nil_right_iff.1 hstands)) hne
  | cons m ms =>
    have hjoined := joinedOf_of_combine hstands hterse rfl hc
    obtain ⟨plans, hplans⟩ := exists_plans_of_joined (refers_joined _) hjoined.plan
    cases houtcome : c.regex.outcome t pos with
    | givenUp | absent =>
      rw [Combined.search, search_eq_match?, houtcome] at hsearch
      cases hsearch
    | found start hit =>
      obtain ⟨-, hsize, -, index', plan, found, left, hplan, hattempt, -, hreport⟩ :=
        hjoined.found hplans houtcome
      rw [hreport] at hsearch
      cases hsearch
      obtain ⟨body, hbody, hplan'⟩ := exists_getElem?_of_forall₂' hplans hplan
      -- The rule is read under the shared flags, so it means what its pattern means.
      have hread : (bodies (.start ignoreCase) (m :: ms))[index]? = some body := hbody
      rw [getElem?_bodies hstands] at hread
      obtain ⟨m', hm', rfl⟩ := Option.map_eq_some_iff.1 hread
      obtain ⟨p, hp, plan', hpattern⟩ := exists_getElem?_of_forall₂ hplanned hm'
      have hsame : flagsPast (Before.start ignoreCase).flags (clauses.take index) =
          sharedFlags ignoreCase := hflags
      rw [hsame, hpattern.plan?] at hplan'
      cases hplan'
      exact ⟨p, hp, hpattern.matchAt_eq_some_iff.2 ⟨hsize, found, left, hattempt, rfl⟩⟩

/-- **A rule is not affected by the flags of others** where none are left in force before it: a
match that is reported for it is a match of its pattern alone. -/
theorem search_isolated {s : RuleSet} {first pos : Nat} {t : Text} {found : Found}
    (hrules : List.Forall₂ (fun clause p => Standalone ignoreCase clause.part p) clauses ps)
    (hbuild : RuleSet.build ignoreCase clauses = .ok s)
    (hterse : ∀ index < clauses.length, (flagsAt ignoreCase clauses first index).verbose = false)
    (hfound : s.search first t pos = some found)
    (hflags : flagsAt ignoreCase clauses first found.index = sharedFlags ignoreCase) :
    ∃ p, ps[found.index]? = some p ∧ p.matchAt t found.span.start = some found.span.stop := by
  obtain ⟨hclauses, hnone, hfrom⟩ := RuleSet.from?_of_build hbuild
  obtain ⟨c, hc, hfound⟩ := Option.bind_eq_some_iff.1 hfound
  obtain ⟨⟨index, span⟩, hsearch, hfound⟩ := Option.bind_eq_some_iff.1 hfound
  obtain ⟨clause, -, hfound⟩ := Option.bind_eq_some_iff.1 hfound
  cases hfound
  have hlt : first < clauses.length := by
    by_contra hle
    rw [hnone first (Nat.le_of_not_lt hle)] at hc
    cases hc
  have hcombine : combine ignoreCase (clauses.drop first) = .ok c := by
    rw [(hfrom first hlt).2] at hc
    cases hjoin : combine ignoreCase (clauses.drop first) with
    | error err =>
      rw [hjoin] at hc
      cases hc
    | ok c' =>
      rw [hjoin] at hc
      cases hc
      rfl
  have hpast (k : Nat) : flagsAt ignoreCase clauses first (first + k) =
      flagsPast (sharedFlags ignoreCase) ((clauses.drop first).take k) := by
    rw [flagsAt, Nat.add_sub_cancel_left]
  have hne : clauses.drop first ≠ [] := fun hnil => by
    rw [List.drop_eq_nil_iff] at hnil
    omega
  obtain ⟨p, hp, hmatch⟩ := combined_isolated (List.forall₂_drop first hrules) hne hcombine
    (fun k hk => by
      rw [List.length_drop] at hk
      rw [← hpast]
      exact hterse (first + k) (by omega))
    hsearch (by rw [← hpast]; exact hflags)
  rw [List.getElem?_drop] at hp
  exact ⟨p, hp, hmatch⟩

/-- Whether the pattern of a rule is one of its own, flags apart. -/
def Part.isStandalone (ignoreCase : Bool) (part : Part) : Bool :=
  part.isWhole ignoreCase && calm .outside false [] (charactersOf part.source)

theorem exists_standalone (ignoreCase : Bool) (clauses : List Clause)
    (h : clauses.all (·.part.isStandalone ignoreCase) = true) :
    ∃ ps, List.Forall₂ (fun clause p => Standalone ignoreCase clause.part p) clauses ps := by
  refine exists_forall₂ fun clause hclause => ?_
  have hpart := List.all_eq_true.1 h clause hclause
  rw [Part.isStandalone, charactersOf_eq, Bool.and_eq_true] at hpart
  obtain ⟨p, hparses, hcompiles, hgroups⟩ := exists_of_isWhole hpart.1
  exact ⟨p, hparses, hpart.2, hcompiles, hgroups⟩

/-- Rules that set flags within themselves, and a last one that sets a flag for what follows. -/
def sheltered : List Clause :=
  [⟨.illegal, ⟨"(?i:end)x", 0⟩⟩, ⟨.ending, ⟨"(?x: ( a | b ) \\1 )", 1⟩⟩,
    ⟨.opening 1, ⟨"(?i)end", 0⟩⟩]

/-- The end doubles a letter in lower case, although its neighbours ignore case. -/
theorem sheltered_search_isolated : ∃ ps s,
    List.Forall₂ (fun clause p => Standalone false clause.part p) sheltered ps ∧
    RuleSet.build false sheltered = .ok s ∧
    (∀ index < sheltered.length, (flagsAt false sheltered 0 index).verbose = false) ∧
    s.search 0 "BBbb".toList.toArray 0 = some ⟨.ending, 1, ⟨2, 4⟩⟩ ∧
    flagsAt false sheltered 0 1 = sharedFlags false ∧
    ∃ p, ps[1]? = some p ∧ p.matchAt "BBbb".toList.toArray 2 = some 4 := by
  obtain ⟨ps, hps⟩ := exists_standalone false sheltered (by decide +kernel)
  have hterse : ∀ index < sheltered.length, (flagsAt false sheltered 0 index).verbose = false := by
    decide +kernel
  have hflags : flagsAt false sheltered 0 1 = sharedFlags false := by decide +kernel
  have hfound : ((RuleSet.build false sheltered).toOption.bind fun s =>
      s.search 0 "BBbb".toList.toArray 0) = some ⟨.ending, 1, ⟨2, 4⟩⟩ := by decide +kernel
  cases hbuild : RuleSet.build false sheltered with
  | error err =>
    rw [hbuild] at hfound
    cases hfound
  | ok s =>
    rw [hbuild] at hfound
    have hfound : s.search 0 "BBbb".toList.toArray 0 = some ⟨.ending, 1, ⟨2, 4⟩⟩ := hfound
    exact ⟨ps, s, hps, rfl, hterse, hfound, hflags,
      search_isolated hps hbuild hterse hfound hflags⟩

/-! ## Flags that leak -/

/-- A rule that sets a flag for what follows, and a rule that sets none. -/
def leaking : List Clause := [⟨.opening 1, ⟨"(?i)a", 0⟩⟩, ⟨.opening 2, ⟨"b", 0⟩⟩]

/-- **Flags leak**: the second rule is reported for a capital letter, which its pattern alone does
not match. -/
theorem exists_flags_leak : ∃ ps s,
    List.Forall₂ (fun clause p => Standalone false clause.part p) leaking ps ∧
    RuleSet.build false leaking = .ok s ∧
    s.search 0 #['B'] 0 = some ⟨.opening 2, 1, ⟨0, 1⟩⟩ ∧
    ∃ p, ps[1]? = some p ∧ p.matchAt #['B'] 0 = none := by
  obtain ⟨ps, hps⟩ := exists_standalone false leaking (by decide +kernel)
  have hfound : ((RuleSet.build false leaking).toOption.bind fun s =>
      s.search 0 #['B'] 0) = some ⟨.opening 2, 1, ⟨0, 1⟩⟩ := by decide +kernel
  have halone : (Pattern.compile false "b").toOption.map (·.matchAt #['B'] 0) = some none := by
    decide +kernel
  cases hbuild : RuleSet.build false leaking with
  | error err =>
    rw [hbuild] at hfound
    cases hfound
  | ok s =>
    rw [hbuild] at hfound
    rcases hps with _ | ⟨_, _ | ⟨hb, _⟩⟩
    rw [hb.compiles] at halone
    exact ⟨_, s, .cons ‹_› (.cons hb ‹_›), rfl, hfound, _, rfl, Option.some.inj halone⟩

end ModeStack.Rule
