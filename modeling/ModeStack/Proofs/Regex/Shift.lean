import ModeStack.Proofs.Regex.Onward

/-!
# Groups under other numbers

When patterns are joined, the groups of each get other numbers. `Expr.shift` adds to every number
of a group, where it is opened and where it is referred to. Nothing else about the expression
depends on the numbers: it has the same widths, the same plan (`plan_shift`), and it matches in
the same ways, with captures under the new numbers (`ends_shift`, `run_shift`).

The position at which a search started is not kept, so the statements about matching exclude
`keep` and `resume` (`isPlain`).
-/

namespace ModeStack.Regex

/-- Where two steps in a row succeed, each does. -/
theorem exists_of_bind_eq_ok {ε α β : Type} {x : Except ε α} {f : α → Except ε β} {b : β}
    (h : x >>= f = .ok b) : ∃ a, x = .ok a ∧ f a = .ok b := by
  cases x with
  | error e => cases h
  | ok a => exact ⟨a, rfl, h⟩

/-- Errors can be told in another way, but not taken back. -/
theorem eq_ok_of_mapError {ε ε' α : Type} {x : Except ε α} {f : ε → ε'} {a : α}
    (h : x.mapError f = .ok a) : x = .ok a := by
  cases x with
  | error e => cases h
  | ok b =>
    cases h
    rfl

theorem exists_of_toOption_any {ε α : Type} {x : Except ε α} {p : α → Bool}
    (h : x.toOption.any p = true) : ∃ a, x = .ok a ∧ p a = true := by
  cases x with
  | error e => cases h
  | ok a => exact ⟨a, rfl, h⟩

theorem exists_of_toOption_isSome {ε α : Type} {x : Except ε α} (h : x.toOption.isSome = true) :
    ∃ a, x = .ok a := by
  cases x with
  | error e => cases h
  | ok a => exact ⟨a, rfl⟩

/-- Lists that are related element by element have related elements at each place. -/
theorem exists_getElem?_of_forall₂ {α β : Type} {R : α → β → Prop} {l : List α} {r : List β}
    (h : List.Forall₂ R l r) {i : Nat} {a : α} (ha : l[i]? = some a) :
    ∃ b, r[i]? = some b ∧ R a b := by
  induction h generalizing i with
  | nil => simp at ha
  | cons hab _ ih =>
    cases i with
    | zero =>
      cases ha
      exact ⟨_, rfl, hab⟩
    | succ i => exact ih ha

theorem exists_getElem?_of_forall₂' {α β : Type} {R : α → β → Prop} {l : List α} {r : List β}
    (h : List.Forall₂ R l r) {i : Nat} {b : β} (hb : r[i]? = some b) :
    ∃ a, l[i]? = some a ∧ R a b :=
  exists_getElem?_of_forall₂ (List.Forall₂.flip (R := flip R) h) hb

theorem exists_forall₂ {α β : Type} {R : α → β → Prop} {l : List α}
    (h : ∀ a ∈ l, ∃ b, R a b) : ∃ r, List.Forall₂ R l r := by
  induction l with
  | nil => exact ⟨[], .nil⟩
  | cons a l ih =>
    obtain ⟨b, hb⟩ := h a List.mem_cons_self
    obtain ⟨r, hr⟩ := ih fun a ha => h a (List.mem_cons_of_mem _ ha)
    exact ⟨b :: r, .cons hb hr⟩

/-! ## Shifted expressions and plans -/

namespace Expr

/-- The expression with its groups numbered from `n` on. -/
def shift (n : Nat) : Expr → Expr
  | seq a b => seq (a.shift n) (b.shift n)
  | alt a b => alt (a.shift n) (b.shift n)
  | group index e => group (index + n) (e.shift n)
  | rep e lo hi greedy => rep (e.shift n) lo hi greedy
  | ref index ignoreCase => ref (index + n) ignoreCase
  | look d negated e => look d negated (e.shift n)
  | atomic e => atomic (e.shift n)
  | e => e

/-- Whether the start of the search and of the match play no part. -/
def isPlain : Expr → Bool
  | seq a b | alt a b => a.isPlain && b.isPlain
  | group _ e | rep e _ _ _ | look _ _ e | atomic e => e.isPlain
  | keep | resume => false
  | _ => true

variable {n : Nat}

@[simp]
theorem references_shift (e : Expr) : (e.shift n).references = e.references.map (· + n) := by
  induction e with
  | seq a b iha ihb | alt a b iha ihb =>
    rw [shift, references, references, iha, ihb, List.map_append]
  | group _ e ih | rep e _ _ _ ih | look _ _ e ih | atomic e ih => exact ih
  | _ => rfl

@[simp]
theorem minWidth_shift (e : Expr) : (e.shift n).minWidth = e.minWidth := by
  induction e with
  | seq a b iha ihb | alt a b iha ihb => rw [shift, minWidth, minWidth, iha, ihb]
  | group _ e ih | atomic e ih => exact ih
  | rep e _ _ _ ih => rw [shift, minWidth, minWidth, ih]
  | _ => rfl

@[simp]
theorem width?_shift (e : Expr) : (e.shift n).width? = e.width? := by
  induction e with
  | seq a b iha ihb | alt a b iha ihb => rw [shift, width?, width?, iha, ihb]
  | group _ e ih | atomic e ih => exact ih
  | rep e _ _ _ ih => rw [shift, width?, width?, ih]
  | _ => rfl

theorem spreadBehind_shift (negated : Bool) (e : Expr) :
    spreadBehind negated (e.shift n) = (spreadBehind negated e).shift n := by
  induction e with
  | alt a b iha ihb =>
    simp only [shift, spreadBehind]
    cases negated
    · simp only [Bool.false_eq_true, if_false, iha, ihb, shift]
    · simp only [if_true, iha, ihb, shift]
  | _ => rfl

@[simp]
theorem spread_shift (e : Expr) : (e.shift n).spread = e.spread.shift n := by
  induction e with
  | seq a b iha ihb | alt a b iha ihb => rw [shift, spread, spread, shift, iha, ihb]
  | group _ e ih | rep e _ _ _ ih | atomic e ih => rw [shift, spread, spread, shift, ih]
  | look d negated e ih =>
    cases d with
    | ahead => rw [shift, spread, spread, shift, ih]
    | behind => rw [shift, spread, spread, ih, spreadBehind_shift]
  | _ => rfl

theorem isPlain_spreadBehind (negated : Bool) {e : Expr} (he : e.isPlain = true) :
    (spreadBehind negated e).isPlain = true := by
  induction e with
  | alt a b iha ihb =>
    simp only [isPlain, Bool.and_eq_true] at he
    cases negated <;> exact Bool.and_eq_true_iff.2 ⟨iha he.1, ihb he.2⟩
  | _ => exact he

theorem isPlain_spread {e : Expr} (he : e.isPlain = true) : e.spread.isPlain = true := by
  induction e with
  | seq a b iha ihb | alt a b iha ihb =>
    simp only [isPlain, Bool.and_eq_true] at he
    exact Bool.and_eq_true_iff.2 ⟨iha he.1, ihb he.2⟩
  | group _ e ih | rep e _ _ _ ih | atomic e ih => exact ih he
  | look d negated e ih =>
    cases d
    · exact ih he
    · exact isPlain_spreadBehind _ (ih he)
  | _ => exact he

theorem captured_spreadBehind (negated : Bool) (e : Expr) :
    (spreadBehind negated e).captured = e.captured := by
  induction e with
  | alt a b iha ihb => cases negated <;> exact congrArg₂ (· ++ ·) iha ihb
  | _ => rfl

@[simp]
theorem captured_spread (e : Expr) : e.spread.captured = e.captured := by
  induction e with
  | seq a b iha ihb | alt a b iha ihb => rw [spread, captured, captured, iha, ihb]
  | group _ e ih => rw [spread, captured, captured, ih]
  | rep e _ _ _ ih | atomic e ih => exact ih
  | look d negated e ih =>
    cases d with
    | ahead => exact ih
    | behind => exact (captured_spreadBehind negated e.spread).trans ih
  | _ => rfl

/-- Two lists of referred groups agree on what an expression captures. -/
def Agree (n : Nat) (captured captured' : List Nat) (e : Expr) : Prop :=
  ∀ i ∈ e.captured, captured'.contains (i + n) = captured.contains i

theorem backtracks_shift {captured captured' : List Nat} {e : Expr}
    (h : Agree n captured captured' e) :
    (e.shift n).backtracks captured' = e.backtracks captured := by
  induction e with
  | seq a b iha ihb | alt a b iha ihb =>
    simp only [Agree, Expr.captured, List.mem_append] at h iha ihb
    simp only [shift, backtracks, iha fun i hi => h i (.inl hi), ihb fun i hi => h i (.inr hi)]
  | group index e ih =>
    simp only [Agree, Expr.captured, List.mem_cons] at h ih
    simp only [shift, backtracks, h index (.inl rfl), ih fun i hi => h i (.inr hi)]
  | rep e _ _ _ ih => exact ih h
  | _ => rfl

end Expr

/-- The plan with its groups numbered from `n` on. -/
def Plan.shift (n : Nat) : Plan → Plan
  | direct e => direct (e.shift n)
  | seq a b => seq (a.shift n) (b.shift n)
  | alt a b => alt (a.shift n) (b.shift n)
  | group index p => group (index + n) (p.shift n)
  | rep p lo hi greedy nullable => rep (p.shift n) lo hi greedy nullable
  | ref index ignoreCase => ref (index + n) ignoreCase
  | ahead negated p => ahead negated (p.shift n)
  | behind negated width p => behind negated width (p.shift n)
  | atomic p => atomic (p.shift n)

/-- Whether the start of the search and of the match play no part. -/
def Plan.isPlain : Plan → Bool
  | direct e => e.isPlain
  | seq a b | alt a b => a.isPlain && b.isPlain
  | group _ p | rep p _ _ _ _ | ahead _ p | behind _ _ p | atomic p => p.isPlain
  | ref .. => true

/-! ## Plans of shifted expressions -/

namespace Expr

variable {n : Nat} {captured captured' : List Nat}

theorem isDirect_shift {e : Expr} (h : Agree n captured captured' e) (revisited : Bool) :
    plan.isDirect captured' (e.shift n) revisited = plan.isDirect captured e revisited := by
  simp only [plan.isDirect, backtracks_shift h, width?_shift]

/-- The plan of a shifted expression is the shifted plan. -/
theorem plan_shift {e : Expr} (h : Agree n captured captured' e) (revisited : Bool) :
    (e.shift n).plan captured' revisited = (e.plan captured revisited).map (Plan.shift n) := by
  induction e generalizing revisited with
  | seq a b iha ihb =>
    have hdirect := isDirect_shift h revisited
    simp only [Agree, Expr.captured, List.mem_append] at h iha ihb
    have ha := iha fun i hi => h i (.inl hi)
    have hb := ihb fun i hi => h i (.inr hi)
    simp only [shift, plan, ha, hb] at hdirect ⊢
    rw [hdirect]
    split_ifs
    · rfl
    · cases a.plan captured true with
      | error => rfl
      | ok p => cases b.plan captured revisited <;> rfl
  | alt a b iha ihb =>
    have hdirect := isDirect_shift h revisited
    simp only [Agree, Expr.captured, List.mem_append] at h iha ihb
    have ha := iha fun i hi => h i (.inl hi)
    have hb := ihb fun i hi => h i (.inr hi)
    simp only [shift, plan, ha, hb] at hdirect ⊢
    rw [hdirect]
    split_ifs
    · rfl
    · cases a.plan captured revisited with
      | error => rfl
      | ok p => cases b.plan captured revisited <;> rfl
  | group index e ih =>
    have hdirect := isDirect_shift h revisited
    simp only [Agree, Expr.captured, List.mem_cons] at h ih
    have he := ih fun i hi => h i (.inr hi)
    simp only [shift, plan, he] at hdirect ⊢
    rw [hdirect]
    split_ifs
    · rfl
    · cases e.plan captured revisited <;> rfl
  | rep e lo hi greedy ih =>
    have hdirect := isDirect_shift h revisited
    have hback : (e.shift n).backtracks captured' = e.backtracks captured := backtracks_shift h
    simp only [shift, plan, ih h, hback, minWidth_shift] at hdirect ⊢
    rw [hdirect]
    split_ifs
    · rfl
    · cases e.plan captured _ <;> rfl
  | look d negated e ih =>
    have hback : (e.shift n).backtracks captured' = e.backtracks captured := backtracks_shift h
    cases d with
    | ahead =>
      simp only [shift, plan, ih h]
      cases e.plan captured false <;> rfl
    | behind =>
      simp only [shift, plan, width?_shift, ih h, hback]
      cases e.width? with
      | some width => cases e.plan captured false <;> rfl
      | none =>
        dsimp only
        split_ifs <;> rfl
  | atomic e ih =>
    simp only [shift, plan, ih h]
    cases e.plan captured false <;> rfl
  | _ => rfl

/-- The plan of a plain expression is plain. -/
theorem isPlain_plan {e : Expr} (he : e.isPlain = true) {revisited : Bool} {p : Plan}
    (hp : e.plan captured revisited = .ok p) : p.isPlain = true := by
  induction e generalizing revisited p with
  | seq a b iha ihb | alt a b iha ihb =>
    have hab := he
    simp only [isPlain, Bool.and_eq_true] at hab
    simp only [plan] at hp
    split_ifs at hp
    · cases hp
      exact he
    · obtain ⟨pa, hpa, hp⟩ := exists_of_bind_eq_ok hp
      obtain ⟨pb, hpb, hp⟩ := exists_of_bind_eq_ok hp
      cases hp
      simp [Plan.isPlain, iha hab.1 hpa, ihb hab.2 hpb]
  | group _ e ih | rep e _ _ _ ih =>
    simp only [plan] at hp
    split_ifs at hp
    · cases hp
      exact he
    · obtain ⟨p', hp', hp⟩ := exists_of_bind_eq_ok hp
      cases hp
      simpa only [Plan.isPlain] using ih he hp'
  | look d negated e ih =>
    cases d with
    | ahead =>
      obtain ⟨p', hp', hp⟩ := exists_of_bind_eq_ok hp
      cases hp
      simpa only [Plan.isPlain] using ih he hp'
    | behind =>
      simp only [plan] at hp
      split at hp
      · obtain ⟨p', hp', hp⟩ := exists_of_bind_eq_ok hp
        cases hp
        simpa only [Plan.isPlain] using ih he hp'
      · split_ifs at hp
        cases hp
        exact he
  | atomic e ih =>
    obtain ⟨p', hp', hp⟩ := exists_of_bind_eq_ok hp
    cases hp
    simpa only [Plan.isPlain] using ih he hp'
  | _ =>
    cases hp
    exact he

end Expr

/-! ## Repetition under a map -/

section Repetition

variable {f : Hit → Hit} (hf : ∀ h, (f h).pos = h.pos) {body body' : Hit → List Hit}

include hf

theorem distinctFrom_map (seen : List Nat) (hs : List Hit) :
    distinctFrom seen (hs.map f) = (distinctFrom seen hs).map f := by
  induction hs generalizing seen with
  | nil => rfl
  | cons h hs ih =>
    simp only [List.map_cons, distinctFrom, hf, ih]
    split_ifs <;> rfl

theorem distinct_map (hs : List Hit) : distinct (hs.map f) = (distinct hs).map f := by
  match hs with
  | [] => rfl
  | [h] => rfl
  | h :: h' :: hs => exact distinctFrom_map hf [] (h :: h' :: hs)

theorem any_pos_map (found : List Hit) (pos : Nat) :
    (found.map f).any (·.pos = pos) = found.any (·.pos = pos) := by
  simp [List.any_map, Function.comp_def, hf]

theorem filter_pos_map (hs : List Hit) (pos : Nat) :
    (hs.map f).filter (·.pos ≠ pos) = (hs.filter (·.pos ≠ pos)).map f := by
  rw [List.filter_map]
  simp [Function.comp_def, hf]

theorem add_map (s : Explored) (h : Hit) :
    Explored.add (s.1, s.2.map f) (f h) = ((s.add h).1, (s.add h).2.map f) := by
  simp only [Explored.add, hf, any_pos_map hf]
  split_ifs <;> rfl

variable (hbody : ∀ h, body' (f h) = (body h).map f)

include hbody

theorem repeated_map (greedy : Bool) (rounds : Nat) (found : List Hit) (h : Hit) :
    repeated body' greedy rounds (found.map f) (f h) =
      (repeated body greedy rounds found h).map f := by
  induction rounds generalizing found h with
  | zero =>
    simp only [repeated, hf, any_pos_map hf]
    split_ifs <;> rfl
  | succ rounds ih =>
    have hfold (hs found : List Hit) :
        (hs.map f).foldl (repeated body' greedy rounds) (found.map f) =
          (hs.foldl (repeated body greedy rounds) found).map f := by
      rw [List.foldl_map]
      exact List.foldl_hom (List.map f) ih
    simp only [repeated, hf, any_pos_map hf, hbody, filter_pos_map hf]
    split_ifs
    · rfl
    · rw [hfold]
      rfl
    · rw [← List.map_cons, hfold]

theorem repeatedOnce_map (greedy : Bool) (size : Nat) (h : Hit) :
    repeatedOnce body' greedy size (f h) = (repeatedOnce body greedy size h).map f := by
  simp only [repeatedOnce, hbody, hf]
  rw [List.map_reverse, List.foldl_map, ← List.foldl_hom (List.map f)]
  · rfl
  · intro found first
    simp only [hf, any_pos_map hf, repeated_map hf hbody]
    split_ifs <;> rfl

theorem repeatedUpTo_map (greedy : Bool) (left : Nat) (s : Explored) (h : Hit) :
    repeatedUpTo body' greedy left (s.1, s.2.map f) (f h) =
      ((repeatedUpTo body greedy left s h).1, (repeatedUpTo body greedy left s h).2.map f) := by
  induction left generalizing s h with
  | zero => exact add_map hf s h
  | succ left ih =>
    have hfold (hs : List Hit) (s : Explored) :
        (hs.map f).foldl (repeatedUpTo body' greedy left) (s.1, s.2.map f) =
          ((hs.foldl (repeatedUpTo body greedy left) s).1,
            (hs.foldl (repeatedUpTo body greedy left) s).2.map f) := by
      rw [List.foldl_map]
      exact List.foldl_hom (fun s : Explored => (s.1, s.2.map f)) ih
    simp only [repeatedUpTo, hf, hbody]
    split_ifs
    · rfl
    · have hall := hfold (body h) ((left + 1, h.pos) :: s.1, s.2)
      rw [hall, add_map hf]
    · have hadd := add_map hf ((left + 1, h.pos) :: s.1, s.2) h
      rw [hadd, hfold]

theorem repeatedExactly_map (count : Nat) (hs : List Hit) :
    repeatedExactly body' count (hs.map f) = (repeatedExactly body count hs).map f := by
  induction count generalizing hs with
  | zero => rfl
  | succ count ih =>
    cases hs with
    | nil => rfl
    | cons h hs =>
      simp only [List.map_cons, repeatedExactly]
      rw [← List.map_cons, ← ih, ← distinct_map hf, List.flatMap_map, List.map_flatMap]
      simp only [hbody]

/-- What can be reached by repetition from a mapped hit is what can be reached, mapped. -/
theorem repetitions_map (lo : Nat) (hi : Option Nat) (greedy : Bool) (size : Nat) (h : Hit) :
    repetitions body' lo hi greedy size (f h) = (repetitions body lo hi greedy size h).map f := by
  have honce := repeatedOnce_map hf hbody greedy size
  have hexactly := repeatedExactly_map hf hbody
  cases hi with
  | some hi =>
    have hupTo (h : Hit) := repeatedUpTo_map hf hbody greedy (hi - lo) ([], []) h
    simp only [List.map_nil] at hupTo
    simp only [repetitions]
    rw [← List.map_singleton, hexactly, List.flatMap_map, ← distinct_map hf, List.map_flatMap]
    simp only [hupTo, List.map_reverse]
  | none =>
    cases lo with
    | zero =>
      simp only [repetitions, honce]
      rw [← distinct_map hf]
      split_ifs <;> simp
    | succ lo =>
      simp only [repetitions]
      rw [← List.map_singleton, hexactly, List.flatMap_map, ← distinct_map hf, List.map_flatMap]
      simp only [honce]

end Repetition

/-! ## Matching shifted expressions -/

/-- The capture under the new number of its group. -/
def Capture.shift (n : Nat) (c : Capture) : Capture := { c with group := c.group + n }

/-- The hit with its captures under the new numbers of their groups. -/
def Hit.shift (n : Nat) (h : Hit) : Hit := { h with captures := h.captures.map (Capture.shift n) }

variable {n : Nat} {t : Text} {origin origin' : Nat}

@[simp]
theorem Hit.pos_shift (h : Hit) : (h.shift n).pos = h.pos := rfl

theorem Hit.shift_moveTo (h : Hit) (pos : Nat) : (h.shift n).moveTo pos = (h.moveTo pos).shift n :=
  rfl

theorem Hit.shift_capture (h : Hit) (group start : Nat) :
    (h.shift n).capture (group + n) start = (h.capture group start).shift n :=
  rfl

theorem Hit.captureOf?_shift (h : Hit) (group : Nat) :
    (h.shift n).captureOf? (group + n) = (h.captureOf? group).map (Capture.shift n) := by
  simp [Hit.captureOf?, Hit.shift, List.find?_map, Capture.shift]

@[simp]
theorem referenceEnd?_shift (index : Nat) (ignoreCase : Bool) (h : Hit) :
    referenceEnd? t (index + n) ignoreCase (h.shift n) = referenceEnd? t index ignoreCase h := by
  simp only [referenceEnd?, Hit.captureOf?_shift]
  cases h.captureOf? index <;> rfl

theorem step_shift (p : Char → Bool) (h : Hit) :
    Expr.step t p (h.shift n) = (Expr.step t p h).map (Hit.shift n) := by
  simp only [Expr.step, Hit.pos_shift]
  cases t[h.pos]? with
  | none => rfl
  | some c =>
    dsimp only
    split_ifs <;> rfl

/-- **Shifted expressions match in the same ways**, wherever the search started. -/
theorem ends_shift (origin origin' : Nat) {e : Expr} (he : e.isPlain = true) (h : Hit) :
    (e.shift n).ends t origin' (h.shift n) = (e.ends t origin h).map (Hit.shift n) := by
  induction e generalizing h with
  | empty => rfl
  | char c ignoreCase => cases ignoreCase <;> exact step_shift _ h
  | any newline => exact step_shift _ h
  | set s ignoreCase => exact step_shift _ h
  | assert a =>
    by_cases hholds : a.holds t h.pos = true
    · simp [Expr.shift, Expr.ends, hholds]
    · simp [Expr.shift, Expr.ends, hholds]
  | seq a b iha ihb =>
    simp only [Expr.isPlain, Bool.and_eq_true] at he
    simp only [Expr.shift, Expr.ends, iha he.1]
    rcases a.ends t origin h with _ | ⟨h₁, _ | ⟨h₂, hs⟩⟩
    · rfl
    · exact ihb he.2 h₁
    · simp only [List.map_cons]
      rw [← List.map_cons, ← List.map_cons, List.flatMap_map, ← distinct_map Hit.pos_shift,
        List.map_flatMap]
      simp only [ihb he.2]
  | alt a b iha ihb =>
    simp only [Expr.isPlain, Bool.and_eq_true] at he
    simp only [Expr.shift, Expr.ends, iha he.1, ihb he.2, ← List.map_append,
      distinct_map Hit.pos_shift]
  | group index e ih =>
    simp only [Expr.shift, Expr.ends, ih he, List.map_map, Function.comp_def, Hit.pos_shift,
      Hit.shift_capture]
  | rep e lo hi greedy ih =>
    exact repetitions_map Hit.pos_shift (ih he) lo hi greedy t.size h
  | ref index ignoreCase =>
    simp only [Expr.shift, Expr.ends, referenceEnd?_shift]
    cases referenceEnd? t index ignoreCase h <;> rfl
  | look d negated e ih =>
    cases d with
    | ahead =>
      simp only [Expr.shift, Expr.ends, ih he]
      cases e.ends t origin h <;> cases negated <;> rfl
    | behind =>
      have hfound (start : Nat) :
          ((e.shift n).ends t origin' ((h.shift n).moveTo start)).any (·.pos = (h.shift n).pos) =
            (e.ends t origin (h.moveTo start)).any (·.pos = h.pos) := by
        rw [Hit.shift_moveTo, ih he, any_pos_map Hit.pos_shift, Hit.pos_shift]
      simp only [Expr.shift, Expr.ends, hfound]
      rw [Hit.pos_shift]
      split_ifs <;> rfl
  | atomic e ih => simp only [Expr.shift, Expr.ends, ih he, List.map_take]
  | keep | resume => cases he

/-! ## Running shifted plans -/

/-- The verdict with its hit mapped. -/
def Verdict.map (g : Hit → Hit) : Verdict → Verdict
  | matched h budget => matched (g h) budget
  | v => v

/-- From mapped hits, the second continuation does what the first does, and maps its verdict. -/
def Follows (f g : Hit → Hit) (k k' : Continuation) : Prop :=
  ∀ h budget, k' (f h) budget = (k h budget).map g

variable {f g : Hit → Hit} {k k' : Continuation}

theorem follows_accepted : Follows f f accepted accepted := fun _ _ => rfl

theorem Verdict.orElse_map {v : Verdict} {second second' : Nat → Verdict}
    (h : ∀ budget, second' budget = (second budget).map g) :
    (v.map g).orElse second' = (v.orElse second).map g := by
  match v with
  | matched _ _ | exhausted | failed 0 => rfl
  | failed (budget + 1) => exact h budget

theorem choose_map {greedy : Bool} {more less more' less' : Nat → Verdict}
    (hmore : ∀ budget, more' budget = (more budget).map g)
    (hless : ∀ budget, less' budget = (less budget).map g) (budget : Nat) :
    choose greedy more' less' budget = (choose greedy more less budget).map g := by
  simp only [choose]
  split_ifs
  · rw [hmore, Verdict.orElse_map hless]
  · rw [hless, Verdict.orElse_map hmore]

theorem fromEach_map (hk : Follows f g k k') (hs : List Hit) (budget : Nat) :
    fromEach k' (hs.map f) budget = (fromEach k hs budget).map g := by
  induction hs generalizing budget with
  | nil => rfl
  | cons h hs ih =>
    cases hs with
    | nil => exact hk h budget
    | cons h' hs =>
      simp only [List.map_cons] at ih
      simp only [List.map_cons, fromEach, hk h budget]
      exact Verdict.orElse_map ih

theorem afterLook_map (hk : Follows (Hit.shift n) g k k') (negated : Bool) (h : Hit)
    (v : Verdict) :
    afterLook negated (h.shift n) k' (v.map (Hit.shift n)) = (afterLook negated h k v).map g := by
  cases v with
  | exhausted => rfl
  | matched found budget =>
    simp only [Verdict.map, afterLook, Hit.pos_shift, Hit.shift_moveTo]
    split_ifs
    · rfl
    · exact hk _ _
  | failed budget =>
    simp only [Verdict.map, afterLook]
    split_ifs
    · exact hk _ _
    · rfl

/-- From shifted hits, the second body does what the first does, whatever follows. -/
def BodyFollows (n : Nat) (body body' : Continuation → Continuation) : Prop :=
  ∀ g k k', Follows (Hit.shift n) g k k' → Follows (Hit.shift n) g (body k) (body' k')

variable {body body' : Continuation → Continuation}

theorem runCounted_map (hbody : BodyFollows n body body') (hk : Follows (Hit.shift n) g k k')
    {lo : Nat} {hi : Option Nat} {greedy : Bool} (rounds done : Nat) :
    Follows (Hit.shift n) g (runCounted body lo hi greedy k rounds done)
      (runCounted body' lo hi greedy k' rounds done) := by
  induction rounds generalizing done with
  | zero => exact hk
  | succ rounds ih =>
    intro h budget
    have hmore := hbody _ _ _ (ih (done + 1)) h
    simp only [runCounted]
    split_ifs
    · exact hk h budget
    · exact hmore budget
    · exact choose_map hmore (hk h) budget

theorem runNullable_map (hbody : BodyFollows n body body') (hk : Follows (Hit.shift n) g k k')
    {lo : Nat} {greedy : Bool} (rounds done : Nat) (last : Option Nat) :
    Follows (Hit.shift n) g (runNullable body lo greedy k rounds done last)
      (runNullable body' lo greedy k' rounds done last) := by
  induction rounds generalizing done last with
  | zero => exact hk
  | succ rounds ih =>
    intro h budget
    simp only [runNullable]
    rw [Hit.pos_shift]
    split_ifs
    · exact hk h budget
    · exact hbody _ _ _ (ih (done + 1) last) h budget
    · exact choose_map (hbody _ _ _ (ih (done + 1) (some h.pos)) h) (hk h) budget

/-- **Shifted plans run in the same way**, wherever the search started. -/
theorem run_shift {p : Plan} (hp : p.isPlain = true) :
    BodyFollows n (p.run t origin) ((p.shift n).run t origin') := by
  induction p with
  | direct e =>
    intro g k k' hk h budget
    simp only [Plan.shift, Plan.run, ends_shift origin origin' hp]
    exact fromEach_map hk _ budget
  | seq a b iha ihb =>
    simp only [Plan.isPlain, Bool.and_eq_true] at hp
    intro g k k' hk
    exact iha hp.1 _ _ _ (ihb hp.2 _ _ _ hk)
  | alt a b iha ihb =>
    simp only [Plan.isPlain, Bool.and_eq_true] at hp
    intro g k k' hk h budget
    simp only [Plan.shift, Plan.run, iha hp.1 _ _ _ hk h budget]
    exact Verdict.orElse_map (ihb hp.2 _ _ _ hk h)
  | group index p ih =>
    intro g k k' hk h budget
    refine ih hp _ _ _ (fun h' budget => ?_) h budget
    simp only [Hit.pos_shift, Hit.shift_capture]
    exact hk _ _
  | rep p lo hi greedy nullable ih =>
    intro g k k' hk h budget
    simp only [Plan.shift, Plan.run, Hit.pos_shift]
    split
    · exact runNullable_map (ih hp) hk _ _ _ h budget
    · exact runCounted_map (ih hp) hk _ _ h budget
    · exact runCounted_map (ih hp) hk _ _ h budget
  | ref index ignoreCase =>
    intro g k k' hk h budget
    simp only [Plan.shift, Plan.run, referenceEnd?_shift]
    cases referenceEnd? t index ignoreCase h with
    | none => rfl
    | some pos => exact hk (h.moveTo pos) budget
  | ahead negated p ih =>
    intro g k k' hk h budget
    simp only [Plan.shift, Plan.run, ih hp _ _ _ follows_accepted h budget]
    exact afterLook_map hk negated h _
  | behind negated width p ih =>
    intro g k k' hk h budget
    simp only [Plan.shift, Plan.run, Hit.pos_shift, Hit.shift_moveTo,
      ih hp _ _ _ follows_accepted _ budget]
    split_ifs
    · exact afterLook_map hk negated h _
    · exact afterLook_map hk negated h (.failed budget)
  | atomic p ih =>
    intro g k k' hk h budget
    simp only [Plan.shift, Plan.run, ih hp _ _ _ follows_accepted h budget]
    cases p.run t origin accepted h budget with
    | matched found budget => exact hk _ _
    | failed budget => rfl
    | exhausted => rfl

end ModeStack.Regex
