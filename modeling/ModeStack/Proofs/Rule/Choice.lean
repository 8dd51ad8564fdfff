import ModeStack.Proofs.Rule.Planned

/-!
# Patterns joined without capturing

The terminators of a mode are joined into one pattern, each inside a group that does not capture.
Such a group ends the flags that are set in it, so all parts are read under the flags that all
patterns share. The joined pattern is a `Body` of its own (`choice`), and what it does at a position
is what the first part does that matches there (`run_choice`).

Main result: `matchAt_alternation`.
-/

namespace ModeStack.Regex

/-! ## Shifted expressions -/

namespace Expr

variable {n : Nat}

theorem isPlain_shift (e : Expr) : (e.shift n).isPlain = e.isPlain := by
  induction e with
  | seq a b iha ihb | alt a b iha ihb => rw [shift, isPlain, isPlain, iha, ihb]
  | group _ e ih | rep e _ _ _ ih | look _ _ e ih | atomic e ih => exact ih
  | _ => rfl

theorem captured_shift {e : Expr} (he : e.isPlain = true) :
    (e.shift n).captured = e.captured.map (· + n) := by
  induction e with
  | seq a b iha ihb | alt a b iha ihb =>
    rw [isPlain, Bool.and_eq_true] at he
    rw [shift, captured, captured, iha he.1, ihb he.2, List.map_append]
  | group _ e ih => rw [shift, captured, captured, ih he, List.map_cons]
  | rep e _ _ _ ih | look _ _ e ih | atomic e ih => exact ih he
  | keep => cases he
  | _ => rfl

theorem shift_shift (e : Expr) (m : Nat) : (e.shift n).shift m = e.shift (n + m) := by
  induction e with
  | seq a b iha ihb | alt a b iha ihb => rw [shift, shift, shift, iha, ihb]
  | group _ e ih => rw [shift, shift, shift, ih, Nat.add_assoc]
  | rep e _ _ _ ih | look _ _ e ih | atomic e ih => rw [shift, shift, shift, ih]
  | ref => rw [shift, shift, shift, Nat.add_assoc]
  | _ => rfl

end Expr

/-! ## Parsers that give one thing or refuse -/

/-- The parser gives a value and leaves a state, or it refuses. -/
def Gives {α : Type} (p : Parser α) (s : Reading) (a : α) (s' : Reading) : Prop :=
  p s = .ok (a, s') ∨ ∃ e, p s = .error e

section Gives

variable {α β : Type} {p : Parser α} {f : α → Parser β} {s s₁ s₂ : Reading} {a : α} {b : β}

theorem Gives.bind (h : Gives p s a s₁) (hf : Gives (f a) s₁ b s₂) : Gives (p >>= f) s b s₂ := by
  rcases h with h | ⟨e, h⟩
  · rw [Gives, parser_bind_of_ok h]
    exact hf
  · exact .inr ⟨e, parser_bind_of_error h⟩

theorem Gives.congr {p' : Parser α} {s' : Reading} (h : Gives p s a s₁) (heq : p' s' = p s) :
    Gives p' s' a s₁ := by
  rw [Gives, heq]
  exact h

/-- A piece that nothing repeats is its atom. -/
theorem gives_piece {g : Parser Expr} {e : Expr} (h : Gives (atom g) s e s₁)
    (hstop : isStop (next s₁.rest) = true) : Gives (piece g) s e s₁ := by
  rcases h with h | ⟨err, h⟩
  · refine .inl (piece_of_atom h (skip_stop hstop) ?_)
    rcases cases_of_isStop hstop with h | h <;> rw [h] <;> rfl
  · exact .inr ⟨err, piece_of_error h⟩

/-- A sequence of one piece is that piece. -/
theorem gives_sequence {g : Parser Expr} {e : Expr} (h : Gives (piece g) s e s₁)
    (hskip : skip s = .ok ((), s)) (hmore : isStop (next s.rest) = false)
    (hstop : isStop (next s₁.rest) = true) : Gives (sequence g) s e s₁ := by
  have hpieces (rounds : Nat) :
      Gives (pieces g (rounds + 2)) s (if e = .empty then [] else [e]) s₁ := by
    have hlast : Gives (pieces g (rounds + 1)) s₁ [] s₁ := .inl (pieces_stop hstop)
    exact (h.bind (hlast.bind (.inl rfl))).congr (pieces_more hskip hmore)
  have hvalue : Expr.ofSequence (if e = .empty then [] else [e]) = e := by
    by_cases he : e = .empty
    · simp [he, Expr.ofSequence]
    · simp [he, Expr.ofSequence]
  obtain ⟨c, cs, hcs⟩ : ∃ c cs, s.rest = c :: cs := by
    refine List.exists_cons_of_ne_nil fun hnil => ?_
    rw [hnil] at hmore
    cases hmore
  have hall := (hpieces cs.length).bind (f := fun es => pure (Expr.ofSequence es)) (.inl rfl)
  rw [hvalue] at hall
  refine hall.congr ?_
  unfold Regex.sequence
  rw [bind_remaining, hcs]
  rfl

end Gives

end ModeStack.Regex

namespace ModeStack.Rule

open ModeStack.Regex

/-! ## Reading parts that do not capture -/

/-- A part has been read, inside a group that does not capture. -/
def Before.pass (b : Before) (m : Movable) : Before where
  flags := b.flags
  groups := b.groups + m.groups
  names := m.names.map (fun (id, index) => (id, index + b.groups)) ++ b.names
  numbered := m.numbered || b.numbered

/-- The place of a part inside a group that does not capture. -/
def Before.inside (b : Before) (after : List Char) : Context where
  offset := b.groups
  names := b.names
  numbered := b.numbered
  depth := 62
  after := after

/-- The text of a part inside its group, and what comes after it. -/
def plainText (before : Nat) (m : Movable) (after : List Char) : List Char :=
  '(' :: '?' :: ':' :: (raised before m.text ++ ')' :: after)

/-- The text after a part: the other parts, and the end of the group around all. -/
def plainTail : (before : Nat) → List Movable → List Char
  | _, [] => [')']
  | before, m :: ms => '|' :: plainText before m (plainTail (before + m.groups) ms)

/-- What parts mean, where `before` groups precede. -/
def choices : (before : Nat) → List Body → List Expr
  | _, [] => []
  | before, body :: bodies => body.expr.shift before :: choices (before + body.groups) bodies

section Read

variable {b : Before} {m : Movable} {ms : List Movable} {after : List Char}

theorem isStop_plainTail (before : Nat) (ms : List Movable) :
    isStop (next (plainTail before ms)) = true := by
  cases ms <;> rfl

theorem length_lt_length_plainTail (before : Nat) (ms : List Movable) :
    ms.length < (plainTail before ms).length := by
  induction ms generalizing before with
  | nil => exact Nat.one_pos
  | cons m ms ih =>
    have := ih (before + m.groups)
    simp only [plainTail, plainText, List.length_cons, List.length_append]
    omega

/-- A part is read in its place, or refused. The flags that it leaves end with its group. -/
theorem gives_atom (hterse : b.flags.verbose = false) (after : List Char) :
    Gives (atom (group (expression 62))) (b.reading (plainText b.groups m after))
      ((m.body b.flags).expr.shift (b.groups + 1)) ((b.pass m).reading after) := by
  have hread : Gives (expression 62) ((b.inside after).place (m.start b.flags))
      ((m.body b.flags).expr.shift (b.groups + 1)) ((b.inside after).place (m.stop b.flags)) :=
    (m.reads b.flags hterse).run (b.inside after)
  have hclose : closeGroup ((b.inside after).place (m.stop b.flags)) =
      .ok ((), ((b.inside after).place (m.stop b.flags)).withRest after) :=
    closeGroup_close (skip_stop rfl) rfl
  have hclosed := hread.bind (f := fun e => do closeGroup; return e)
    (.inl (parser_bind_of_ok hclose))
  have hbounded := Gives.bind (p := closed (expression 62)) hclosed
    (f := fun e => do modify fun r => { r with flags := b.flags }; return e) (.inl rfl)
  have hplace : (b.inside after).place (m.start b.flags) =
      b.reading (raised b.groups m.text ++ ')' :: after) := by
    simp [Context.place, Before.inside, Movable.start, Before.reading, Context.tail]
  have hstop : (fun r : Reading => { r with flags := b.flags })
      (((b.inside after).place (m.stop b.flags)).withRest after) = (b.pass m).reading after := by
    simp [Context.place, Before.inside, Movable.stop, Before.reading, Before.pass,
      Reading.withRest, Nat.add_comm]
  rw [hplace, hstop] at hbounded
  refine hbounded.congr ?_
  rw [atom_group rfl]
  exact group_flags rfl

/-- A part is read as a sequence of one, or refused. -/
theorem gives_part (hterse : b.flags.verbose = false) (hafter : isStop (next after) = true) :
    Gives (Regex.sequence (group (expression 62))) (b.reading (plainText b.groups m after))
      ((m.body b.flags).expr.shift (b.groups + 1)) ((b.pass m).reading after) := by
  have hopen : Uncommented false (plainText b.groups m after) := by
    refine ⟨?_, fun hverbose => (Bool.false_ne_true hverbose).elim⟩
    rintro ⟨rest, hrest⟩
    cases (List.cons.inj (List.cons.inj (List.cons.inj hrest).2).2).1
  exact gives_sequence (gives_piece (gives_atom hterse after) hafter)
    (skip_of_terse hterse hopen) rfl hafter

/-- What has been read after parts that do not capture. -/
def Before.passAll (b : Before) (ms : List Movable) : Before := ms.foldl .pass b

/-- The other parts are read as alternatives, or refused. -/
theorem gives_alternatives (hterse : b.flags.verbose = false) {rounds : Nat}
    (hrounds : ms.length < rounds) :
    Gives (alternatives (group (expression 62)) rounds)
      (b.reading (plainTail b.groups ms))
      ((choices b.groups (ms.map (·.body b.flags))).map (·.shift 1))
      ((b.passAll ms).reading [')']) := by
  induction ms generalizing b rounds with
  | nil =>
    obtain ⟨rounds, rfl⟩ := Nat.exists_eq_succ_of_ne_zero (Nat.ne_zero_of_lt hrounds)
    exact .inl (alternatives_close rfl)
  | cons m ms ih =>
    obtain ⟨rounds, rfl⟩ := Nat.exists_eq_succ_of_ne_zero (Nat.ne_zero_of_lt hrounds)
    have hpart := gives_part (m := m) hterse (isStop_plainTail (b.groups + m.groups) ms)
    have hrest := ih (b := b.pass m) hterse (Nat.lt_of_succ_lt_succ hrounds)
    have hall := hpart.bind (f := fun e => do
      let es ← alternatives (group (expression 62)) rounds
      return e :: es) (hrest.bind (.inl rfl))
    rw [List.map_cons, choices, List.map_cons, Expr.shift_shift, m.groups_body]
    exact hall.congr (alternatives_bar rfl)

end Read

/-! ## What the joined text means -/

/-- What parts mean together, where `before` groups precede: any of them, the first preferred. -/
def choiceExpr (before : Nat) (body : Body) (rest : List Body) : Expr :=
  .ofAlternatives (body.expr.shift before) (choices (before + body.groups) rest)

theorem shift_ofAlternatives (e : Expr) (es : List Expr) (n : Nat) :
    (Expr.ofAlternatives e es).shift n = .ofAlternatives (e.shift n) (es.map (·.shift n)) := by
  induction es generalizing e with
  | nil => rfl
  | cons f es ih => simp only [Expr.ofAlternatives, Expr.shift, List.map_cons, ih]

/-- The text of parts and the parenthesis after them. -/
def choiceText (m : Movable) (ms : List Movable) : List Char :=
  plainText 0 m (plainTail m.groups ms)

variable {ignoreCase : Bool} {parts : List Part} {m : Movable} {ms : List Movable}

/-- Joined parts are read as a choice, or refused. -/
theorem gives_choice (ignoreCase : Bool) (m : Movable) (ms : List Movable) :
    Gives (expression 63) ((Before.start ignoreCase).reading (choiceText m ms))
      ((choiceExpr 0 (m.body (sharedFlags ignoreCase))
        (ms.map (·.body (sharedFlags ignoreCase)))).shift 1)
      (((Before.start ignoreCase).passAll (m :: ms)).reading [')']) := by
  let b := Before.start ignoreCase
  have hpart : Gives _ (b.reading (choiceText m ms)) _
      ((b.pass m).reading (plainTail m.groups ms)) :=
    gives_part (m := m) rfl (isStop_plainTail m.groups ms)
  have hrest := gives_alternatives (b := b.pass m) rfl
    ((length_lt_length_plainTail (b.pass m).groups ms).trans (Nat.lt_succ_self _))
  rw [choiceExpr, shift_ofAlternatives, Expr.shift_shift, Nat.zero_add, Nat.zero_add, m.groups_body]
  show Gives (Regex.alternation (group (expression 62))) _ _ _
  unfold Regex.alternation
  refine hpart.bind ?_
  refine Gives.congr ?_ (bind_remaining _ _)
  have hgroups : (b.pass m).groups = m.groups := Nat.zero_add _
  rw [hgroups] at hrest
  refine hrest.bind ?_
  refine Gives.congr ?_ (bind_get _ _)
  split_ifs
  · exact .inr ⟨_, rfl⟩
  · exact .inl rfl

theorem wrapped_plainTexts (before : Nat) {m : Movable} (h : List.Forall₂ Stands parts (m :: ms)) :
    (String.intercalate "|" (wrapped false before parts).1).toList ++ [')'] =
      plainText before m (plainTail (before + m.groups) ms) := by
  induction ms generalizing before m parts with
  | nil =>
    cases h with
    | cons hpart hrest =>
      cases hrest
      simp [wrapped, String.toList_append, renumber_eq_raised, plainText, plainTail, hpart.text]
  | cons m' ms ih =>
    cases h with
    | @cons part _ parts _ hpart hrest =>
      have htail := ih (before + part.groups) hrest
      have hne : (wrapped false (before + part.groups) parts).1 ≠ [] := by
        cases hrest
        simp [wrapped]
      have hwrapped : (wrapped false before (part :: parts)).1 =
          ("(?:" ++ renumber part.source before ++ ")") ::
            (wrapped false (before + part.groups) parts).1 := rfl
      rw [hwrapped, String.intercalate_cons_of_ne_nil hne, String.toList_append,
        String.toList_append, List.append_assoc, List.append_assoc, htail, ← hpart.groups]
      simp [String.toList_append, renumber_eq_raised, plainText, plainTail, hpart.text]

/-! ## The numbers of groups -/

section Numbers

variable {before : Nat} {body : Body} {rest : List Body}

/-- The groups that parts refer to. -/
def choiceReferences : (before : Nat) → List Body → List Nat
  | _, [] => []
  | before, body :: bodies =>
    body.expr.references.map (· + before) ++ choiceReferences (before + body.groups) bodies

/-- The groups of parts together. -/
def choiceGroups (bodies : List Body) : Nat := (bodies.map (·.groups)).sum

theorem references_choiceExpr (before : Nat) (body : Body) (rest : List Body) :
    (choiceExpr before body rest).references = choiceReferences before (body :: rest) := by
  induction rest generalizing before body with
  | nil => simp [choiceExpr, choices, Expr.ofAlternatives, choiceReferences]
  | cons body' rest ih =>
    have hrest := ih (before + body.groups) body'
    rw [choiceExpr] at hrest
    rw [choiceExpr, choices, Expr.ofAlternatives, Expr.references, hrest, Expr.references_shift]
    rfl

theorem isPlain_choiceExpr (before : Nat) (body : Body) (rest : List Body) :
    (choiceExpr before body rest).isPlain = true := by
  induction rest generalizing before body with
  | nil => exact (Expr.isPlain_shift _).trans body.isPlain
  | cons body' rest ih =>
    have hhead := (Expr.isPlain_shift (n := before) body.expr).trans body.isPlain
    exact Bool.and_eq_true_iff.2 ⟨hhead, ih (before + body.groups) body'⟩

theorem of_mem_choiceReferences {bodies : List Body} {i : Nat}
    (h : i ∈ choiceReferences before bodies) : before ≤ i ∧ i < before + choiceGroups bodies := by
  induction bodies generalizing before with
  | nil => cases h
  | cons body bodies ih =>
    rw [choiceReferences, List.mem_append, List.mem_map] at h
    simp only [choiceGroups, List.map_cons, List.sum_cons] at ih ⊢
    rcases h with ⟨j, hj, rfl⟩ | h
    · have := body.references_lt j hj
      omega
    · have := ih h
      omega

theorem lt_of_mem_captured_choiceExpr {i : Nat}
    (h : i ∈ (choiceExpr before body rest).captured) :
    i < before + choiceGroups (body :: rest) := by
  induction rest generalizing before body with
  | nil =>
    have h : i ∈ (body.expr.shift before).captured := h
    rw [Expr.captured_shift body.isPlain, List.mem_map] at h
    obtain ⟨j, hj, rfl⟩ := h
    have := body.captured_lt j hj
    simp only [choiceGroups, List.map_cons, List.sum_cons]
    omega
  | cons body' rest ih =>
    have h : i ∈ (body.expr.shift before).captured ++
        (choiceExpr (before + body.groups) body' rest).captured := h
    simp only [choiceGroups, List.map_cons, List.sum_cons] at ih ⊢
    rw [List.mem_append, Expr.captured_shift body.isPlain, List.mem_map] at h
    rcases h with ⟨j, hj, rfl⟩ | h
    · have := body.captured_lt j hj
      omega
    · have := ih h
      omega

/-- **A choice of parts** is again what a text means. -/
def choice (body : Body) (rest : List Body) : Body where
  expr := choiceExpr 0 body rest
  groups := choiceGroups (body :: rest)
  isPlain := isPlain_choiceExpr 0 body rest
  captured_lt i hi := by simpa using lt_of_mem_captured_choiceExpr hi
  references_lt i hi := by
    rw [references_choiceExpr] at hi
    simpa using (of_mem_choiceReferences hi).2

end Numbers

/-- A joined text that is a pattern means a choice of its parts. -/
theorem of_parse_alternation (h : List.Forall₂ Stands parts (m :: ms)) {e : Expr} {n : Nat}
    (hparse : parse (Pattern.flagged ignoreCase (alternation false parts).1) = .ok (e, n)) :
    e = (choice (m.body (sharedFlags ignoreCase))
      (ms.map (·.body (sharedFlags ignoreCase)))).expr.shift 1 := by
  have hstart : flaggedStart ignoreCase (alternation false parts).1.toList =
      (Before.start ignoreCase).reading (choiceText m ms) := by
    have htexts := wrapped_plainTexts 0 h
    rw [Nat.zero_add] at htexts
    rw [choiceText, ← htexts]
    rfl
  rcases gives_choice ignoreCase m ms with hread | ⟨err, herror⟩
  · rw [← hstart] at hread
    rw [parse_flagged_of_ok hread rfl] at hparse
    split_ifs at hparse
    cases hparse
    rfl
  · rw [← hstart] at herror
    rw [parse_flagged_of_error herror] at hparse
    cases hparse

/-! ## The first part that matches -/

/-- The first of these patterns that matches at a position matches up to `stop`. -/
inductive FirstMatch (t : Text) (pos stop : Nat) : List Pattern → Prop
  | here {p : Pattern} {ps : List Pattern} : p.matchAt t pos = some stop →
      FirstMatch t pos stop (p :: ps)
  | later {p : Pattern} {ps : List Pattern} : p.matchAt t pos = none → FirstMatch t pos stop ps →
      FirstMatch t pos stop (p :: ps)

section Run

variable {before : Nat} {body : Body} {rest : List Body} {captured : List Nat}

/-- From `before` on, the listed groups are those that the parts refer to. -/
def RefersWithin (captured : List Nat) (before : Nat) (bodies : List Body) : Prop :=
  ∀ i, before ≤ i → (i ∈ captured ↔ i ∈ choiceReferences before bodies)

theorem RefersWithin.agree (h : RefersWithin captured before (body :: rest)) :
    Expr.Agree before body.expr.references captured body.expr.spread := by
  intro i hi
  rw [Expr.captured_spread] at hi
  have hlt := body.captured_lt i hi
  rw [Bool.eq_iff_iff, List.contains_iff_mem, List.contains_iff_mem, h _ (Nat.le_add_left _ _),
    choiceReferences, List.mem_append, List.mem_map]
  constructor
  · rintro (⟨j, hj, hji⟩ | hrest)
    · obtain rfl : j = i := Nat.add_right_cancel hji
      exact hj
    · have := (of_mem_choiceReferences hrest).1
      omega
  · exact fun hi => .inl ⟨i, hi, rfl⟩

theorem RefersWithin.tail (h : RefersWithin captured before (body :: rest)) :
    RefersWithin captured (before + body.groups) rest := by
  intro i hi
  rw [h i (by omega), choiceReferences, List.mem_append, List.mem_map]
  refine or_iff_right ?_
  rintro ⟨j, hj, rfl⟩
  have := body.references_lt j hj
  omega

variable {t : Text} {pos budget left : Nat} {p q : Plan} {found : Hit}

/-- What a single part does. -/
theorem run_part (hrefers : RefersWithin captured before (body :: rest)) (hp : body.plan? = .ok p)
    (hq : (body.expr.shift before).spread.plan captured false = .ok q) :
    q.run t 0 accepted { pos := pos } budget =
      (p.run t 0 accepted { pos := pos } budget).map (Hit.shift before) := by
  have hplain := Expr.isPlain_plan (Expr.isPlain_spread body.isPlain) hp
  have hshift := Expr.plan_shift hrefers.agree false
  rw [Body.plan?] at hp
  rw [Expr.spread_shift, hshift, hp] at hq
  cases hq
  exact run_shift hplain _ _ _ follows_accepted { pos := pos } budget

/-- **Of a choice, the first part that matches is taken.** -/
theorem firstMatch_of_run {ps : List Pattern} (hpos : pos ≤ t.size)
    (hplanned : List.Forall₂ (fun body p => ∃ plan, Planned body p plan) (body :: rest) ps)
    (hrefers : RefersWithin captured before (body :: rest))
    (hq : (choiceExpr before body rest).spread.plan captured false = .ok q)
    (hbudget : budget ≤ maxBacktracks)
    (hrun : q.run t 0 accepted { pos := pos } budget = .matched found left) :
    FirstMatch t pos found.pos ps := by
  induction rest generalizing before body ps budget q with
  | nil =>
    cases hplanned with
    | @cons _ pattern _ _ hhead hrest =>
      obtain ⟨plan, hplan⟩ := hhead
      rw [run_part hrefers hplan.plan? hq] at hrun
      obtain ⟨hit, hmatched, rfl⟩ := exists_of_map_eq_matched hrun
      obtain ⟨left', hattempt⟩ := Plan.attempt_of_matched hbudget hmatched
      exact .here (hplan.matchAt_eq_some_iff.2 ⟨hpos, hit, left', hattempt, rfl⟩)
  | cons body' rest ih =>
    cases hplanned with
    | @cons _ pattern _ ps hhead hrest =>
      obtain ⟨plan, hplan⟩ := hhead
      have hq : (Expr.alt (body.expr.shift before).spread
          (choiceExpr (before + body.groups) body' rest).spread).plan captured false = .ok q := hq
      obtain ⟨⟨qa, hqa⟩, qb, hqb⟩ := exists_plans_of_alt hq
      have hpart : qa.run t 0 accepted { pos := pos } budget =
          (plan.run t 0 accepted { pos := pos } budget).map (Hit.shift before) :=
        run_part hrefers hplan.plan? hqa
      rcases run_alt hq hqa hqb { pos := pos } budget with
        hspent | ⟨hit, left', ha, hmatched⟩ | ⟨left', ha, budget', hle, hnext⟩
      · rw [hspent] at hrun
        cases hrun
      · rw [hmatched] at hrun
        cases hrun
        rw [hpart] at ha
        obtain ⟨hit', hmatched', rfl⟩ := exists_of_map_eq_matched ha
        obtain ⟨left'', hattempt⟩ := Plan.attempt_of_matched hbudget hmatched'
        exact .here (hplan.matchAt_eq_some_iff.2 ⟨hpos, hit', left'', hattempt, rfl⟩)
      · rw [hpart] at ha
        obtain ⟨hleft, left'', hattempt⟩ :=
          Plan.attempt_of_failed hbudget (eq_failed_of_map_eq_failed ha)
        rw [hnext] at hrun
        exact .later (hplan.matchAt_of_failed hattempt)
          (ih hrest hrefers.tail hqb ((hle.trans hleft).trans hbudget) hrun)

end Run

/-- **What joined patterns match without capturing** is what the first of them matches that matches
there at all. -/
theorem matchAt_alternation {ps : List Pattern} {p : Pattern} {t : Text} {pos stop : Nat}
    (hparts : List.Forall₂ (Standalone ignoreCase) parts ps) (hne : parts ≠ [])
    (hcompile : Pattern.compile ignoreCase (alternation false parts).1 = .ok p)
    (hmatch : p.matchAt t pos = some stop) : FirstMatch t pos stop ps := by
  obtain ⟨ms, hstands, hplanned⟩ := exists_movables hparts
  cases ms with
  | nil => exact absurd (List.forall₂_nil_right_iff.1 hstands) hne
  | cons m ms =>
    obtain ⟨plan, hplan⟩ := exists_planned_of_parse hcompile
      fun e n hparse => of_parse_alternation hstands hparse
    obtain ⟨hpos, found, left, hattempt, rfl⟩ := hplan.matchAt_eq_some_iff.1 hmatch
    have hrefers : RefersWithin (choiceReferences 0
        (m.body (sharedFlags ignoreCase) :: ms.map (·.body (sharedFlags ignoreCase)))) 0
        (m.body (sharedFlags ignoreCase) :: ms.map (·.body (sharedFlags ignoreCase))) :=
      fun _ _ => Iff.rfl
    have hq := hplan.plan?
    rw [Body.plan?, choice, references_choiceExpr] at hq
    have hbodies : List.Forall₂ (fun body p => ∃ plan, Planned body p plan)
        ((m :: ms).map (·.body (sharedFlags ignoreCase))) ps :=
      List.forall₂_map_left_iff.2 hplanned
    exact firstMatch_of_run hpos hbodies hrefers hq le_rfl hattempt

end ModeStack.Rule
