import ModeStack.Proofs.Regex.Spans
import ModeStack.Proofs.Rule.Attempt

/-!
# Which end an expression prefers

The ends of an expression are listed in order of preference, and a search takes the first. Which one
that is, is `Expr.Prefers`; it has one rule for each way to build an expression. A sequence prefers
what its second part prefers after the first way to match its first part that the second can follow
(`prefers_seq`), and a greedy repetition follows the preferred ends as far as they go
(`Leads.prefers`).
-/

namespace ModeStack.Regex.Expr

variable {t : Text} {origin : Nat}

/-! ## The preferred end -/

/-- From one position the expression matches to another first, however it was reached. -/
def Prefers (t : Text) (e : Expr) (p q : Nat) : Prop :=
  ∀ (origin : Nat) (h : Hit), h.pos = p → ((e.ends t origin h).head?.map Hit.pos) = some q

/-- Nothing matches from the position. -/
def Refuses (t : Text) (e : Expr) (p : Nat) : Prop := ∀ q, ¬e.Spans t p q

section Preferred

variable {a b e : Expr} {p m q : Nat}

theorem ends_eq_nil_iff (origin : Nat) (he : e.isRegular = true) {h : Hit} (hpos : h.pos ≤ t.size) :
    e.ends t origin h = [] ↔ e.Refuses t h.pos := by
  constructor
  · intro hnil q hq
    have hreach := (reach_ends_iff origin he hpos).2 hq
    rw [hnil] at hreach
    exact not_reach_nil hreach
  · intro hno
    rw [List.eq_nil_iff_forall_not_mem]
    intro x hx
    exact hno x.pos ((reach_ends_iff origin he hpos).1 ⟨x, hx, rfl⟩)

theorem Prefers.spans (he : e.isRegular = true) (hp : p ≤ t.size) (h : e.Prefers t p q) :
    e.Spans t p q := by
  obtain ⟨x, hx, hpos⟩ := Option.map_eq_some_iff.1 (h 0 { pos := p } rfl)
  have hstart : Hit.pos { pos := p } ≤ t.size := hp
  exact (reach_ends_iff 0 he hstart).1 ⟨x, List.mem_of_head? hx, hpos⟩

/-- An only end is preferred. -/
theorem prefers_of_unique (he : e.isRegular = true) (hp : p ≤ t.size) (h : e.Spans t p q)
    (hunique : ∀ r, e.Spans t p r → r = q) : e.Prefers t p q := by
  rintro origin h' rfl
  obtain ⟨x, hx, rfl⟩ := (reach_ends_iff origin he hp).2 h
  cases hends : e.ends t origin h' with
  | nil =>
    rw [hends] at hx
    cases hx
  | cons first rest =>
    have hfirst := hunique first.pos
      ((reach_ends_iff origin he hp).1 ⟨first, by simp [hends], rfl⟩)
    simp [hfirst]

theorem head?_flatMap_of_forall {hs : List Hit} {f : Hit → List Hit}
    (hsome : ∃ x ∈ hs, f x ≠ []) (hall : ∀ x ∈ hs, f x ≠ [] → (f x).head?.map Hit.pos = some q) :
    ((hs.flatMap f).head?.map Hit.pos) = some q := by
  induction hs with
  | nil =>
    obtain ⟨x, hx, -⟩ := hsome
    cases hx
  | cons h hs ih =>
    rw [List.flatMap_cons]
    by_cases hnil : f h = []
    · rw [hnil, List.nil_append]
      refine ih ?_ fun x hx => hall x (List.mem_cons_of_mem _ hx)
      obtain ⟨x, hx, hne⟩ := hsome
      rcases List.mem_cons.1 hx with rfl | hx
      · exact absurd hnil hne
      · exact ⟨x, hx, hne⟩
    · rw [List.head?_append_of_ne_nil _ hnil]
      exact hall h List.mem_cons_self hnil

theorem head?_ends_seq (h : Hit) :
    ((seq a b).ends t origin h).head? = ((a.ends t origin h).flatMap (b.ends t origin)).head? := by
  simp only [ends]
  split
  · rename_i hnone
    rw [hnone]
    rfl
  · rename_i x hx
    rw [hx, List.flatMap_cons, List.flatMap_nil, List.append_nil]
  · exact head?_distinct _

/-- A sequence prefers what its second part prefers wherever the first part can lead and the second
can go on. -/
theorem prefers_seq (ha : a.isRegular = true) (hb : b.isRegular = true) (hp : p ≤ t.size)
    (hgo : ∃ r, (seq a b).Spans t p r)
    (hall : ∀ m, a.Spans t p m → ¬b.Refuses t m → b.Prefers t m q) : (seq a b).Prefers t p q := by
  rintro origin h rfl
  rw [head?_ends_seq]
  refine head?_flatMap_of_forall ?_ fun x hx hne => ?_
  · obtain ⟨r, m, hm, hr⟩ := hgo
    obtain ⟨x, hx, rfl⟩ := (reach_ends_iff origin ha hp).2 hm
    refine ⟨x, hx, fun hnil => ?_⟩
    exact (ends_eq_nil_iff origin hb (mem_ends_minWidth a hp hx).2).1 hnil r hr
  · have hsize := (mem_ends_minWidth a hp hx).2
    refine hall x.pos ((reach_ends_iff origin ha hp).1 ⟨x, hx, rfl⟩) (fun hno => ?_) origin x rfl
    exact hne ((ends_eq_nil_iff origin hb hsize).2 hno)

/-- A sequence prefers what its second part prefers after what its first part prefers. -/
theorem prefers_seq_of_prefers (ha : a.Prefers t p m) (hb : b.Prefers t m q) :
    (seq a b).Prefers t p q := by
  intro origin h hp
  obtain ⟨x, hx, hm⟩ := Option.map_eq_some_iff.1 (ha origin h hp)
  obtain ⟨rest, hends⟩ := List.head?_eq_some_iff.1 hx
  obtain ⟨y, hy, hq⟩ := Option.map_eq_some_iff.1 (hb origin x hm)
  rw [head?_ends_seq, hends, List.flatMap_cons, List.head?_append, hy]
  exact congrArg some hq

theorem prefers_alt_left (h : a.Prefers t p q) : (alt a b).Prefers t p q := by
  intro origin h' hp
  rw [ends, head?_distinct, List.head?_append]
  obtain ⟨x, hx, rfl⟩ := Option.map_eq_some_iff.1 (h origin h' hp)
  rw [hx]
  rfl

theorem prefers_alt_right (ha : a.isRegular = true) (hp : p ≤ t.size) (hno : a.Refuses t p)
    (h : b.Prefers t p q) : (alt a b).Prefers t p q := by
  rintro origin h' rfl
  rw [ends, head?_distinct, (ends_eq_nil_iff origin ha hp).2 hno]
  exact h origin h' rfl

theorem prefers_group {index : Nat} (h : e.Prefers t p q) : (group index e).Prefers t p q := by
  intro origin h' hp
  obtain ⟨x, hx, rfl⟩ := Option.map_eq_some_iff.1 (h origin h' hp)
  rw [ends, List.head?_map, hx]
  rfl

/-! ## The first of several -/

/-- Of several expressions the one at a place is the first that matches, and it prefers that end. -/
inductive Chooses (t : Text) (p q : Nat) : List Expr → (index : Nat) → Prop
  | here {e : Expr} {es : List Expr} : e.Prefers t p q → Chooses t p q (e :: es) 0
  | later {e : Expr} {es : List Expr} {index : Nat} :
      e.Refuses t p → Chooses t p q es index → Chooses t p q (e :: es) (index + 1)

theorem Chooses.getElem? {es : List Expr} {index : Nat} (h : Chooses t p q es index) :
    (∃ e, es[index]? = some e ∧ e.Prefers t p q) ∧
      ∀ j < index, ∀ e, es[j]? = some e → e.Refuses t p := by
  induction h with
  | here hprefers => exact ⟨⟨_, rfl, hprefers⟩, fun j hj => absurd hj (Nat.not_lt_zero j)⟩
  | later hrefuses _ ih =>
    refine ⟨ih.1, fun j hj e he => ?_⟩
    cases j with
    | zero =>
      cases he
      exact hrefuses
    | succ j => exact ih.2 j (Nat.lt_of_succ_lt_succ hj) e he

/-- What comes after does not matter. -/
theorem Chooses.append {es : List Expr} {index : Nat} (h : Chooses t p q es index)
    (more : List Expr) : Chooses t p q (es ++ more) index := by
  induction h with
  | here hprefers => exact .here hprefers
  | later hrefuses _ ih => exact .later hrefuses ih

/-- Where all that match prefer the same end, one of them is the first. -/
theorem exists_chooses {es : List Expr} (hall : ∀ e ∈ es, e.Refuses t p ∨ e.Prefers t p q)
    (hsome : ∃ e ∈ es, e.Prefers t p q) : ∃ index < es.length, Chooses t p q es index := by
  induction es with
  | nil =>
    obtain ⟨e, he, -⟩ := hsome
    cases he
  | cons e es ih =>
    by_cases hprefers : e.Prefers t p q
    · exact ⟨0, Nat.succ_pos _, .here hprefers⟩
    · obtain ⟨e', he', hprefers'⟩ := hsome
      have hmem : e' ∈ es := (List.mem_cons.1 he').resolve_left fun heq => hprefers (heq ▸ hprefers')
      obtain ⟨index, hlt, hindex⟩ :=
        ih (fun e'' he'' => hall e'' (List.mem_cons_of_mem _ he'')) ⟨e', hmem, hprefers'⟩
      exact ⟨index + 1, Nat.succ_lt_succ hlt,
        .later ((hall e List.mem_cons_self).resolve_right hprefers) hindex⟩

/-! ## Greedy repetition -/

/-- The preferred ends lead from one position to another, where nothing more matches. -/
inductive Leads (t : Text) (e : Expr) : Nat → Nat → Prop
  | stop {p : Nat} : e.Refuses t p → Leads t e p p
  | go {p m q : Nat} : e.Prefers t p m → p < m → Leads t e m q → Leads t e p q

theorem suffix_foldl {explore : List Hit → Hit → List Hit}
    (hexplore : ∀ found x, found <:+ explore found x) (firsts found : List Hit) :
    found <:+ firsts.foldl explore found := by
  induction firsts generalizing found with
  | nil => exact List.suffix_rfl
  | cons first firsts ih => exact (hexplore found first).trans (ih _)

/-- What has been found stays behind what is found later. -/
theorem suffix_repeated (body : Hit → List Hit) (rounds : Nat) (found : List Hit) (h : Hit) :
    found <:+ repeated body true rounds found h := by
  induction rounds generalizing found h with
  | zero =>
    unfold repeated
    split_ifs
    · exact List.suffix_rfl
    · exact List.suffix_cons _ _
  | succ rounds ih =>
    unfold repeated
    by_cases hold : (found.any (·.pos = h.pos)) = true
    · rw [if_pos hold]
    · rw [if_neg hold, if_pos rfl]
      exact (suffix_foldl ih _ _).trans (List.suffix_cons _ _)

theorem getLast?_of_suffix {hs hs' : List Hit} {x : Hit} (h : hs <:+ hs')
    (hx : hs.getLast? = some x) : hs'.getLast? = some x := by
  obtain ⟨before, rfl⟩ := h
  rw [List.getLast?_append, hx]
  rfl

/-- Repeating finds first where the preferred ends lead. -/
theorem Leads.getLast?_repeated (h : Leads t e p q) (he : e.isRegular = true)
    (hp : p ≤ t.size) (rounds origin : Nat) {start : Hit} (hstart : start.pos = p)
    (hrounds : t.size ≤ p + rounds) :
    ∃ x, (repeated (e.ends t origin) true rounds [] start).getLast? = some x ∧ x.pos = q := by
  induction h generalizing rounds start with
  | stop hno =>
    subst hstart
    have hnil := (ends_eq_nil_iff origin he hp).2 hno
    cases rounds with
    | zero => exact ⟨start, rfl, rfl⟩
    | succ rounds => exact ⟨start, by simp [repeated, hnil], rfl⟩
  | @go p m q hfirst hlt _ ih =>
    subst hstart
    have hm := spans_width he hp (hfirst.spans he hp)
    obtain ⟨rounds, rfl⟩ := Nat.exists_eq_succ_of_ne_zero (by omega : rounds ≠ 0)
    obtain ⟨x, hx, rfl⟩ := Option.map_eq_some_iff.1 (hfirst origin start rfl)
    obtain ⟨rest, hends⟩ := List.head?_eq_some_iff.1 hx
    obtain ⟨last, hlast, hq⟩ := ih hm.2 rounds rfl (by omega)
    refine ⟨last, ?_, hq⟩
    have hkeep : (decide (x.pos ≠ start.pos)) = true := decide_eq_true (Nat.ne_of_gt hlt)
    have hfurther : (e.ends t origin start).filter (·.pos ≠ start.pos) =
        x :: rest.filter (·.pos ≠ start.pos) := by
      rw [hends]
      exact List.filter_cons_of_pos hkeep
    have hnew : ¬(([] : List Hit).any (·.pos = start.pos)) = true := by simp
    unfold repeated
    rw [if_neg hnew, if_pos rfl]
    simp only [hfurther, List.foldl_cons]
    refine getLast?_of_suffix (List.suffix_cons _ _) ?_
    exact getLast?_of_suffix (suffix_foldl (suffix_repeated _ rounds) _ _) hlast

/-- **A greedy repetition prefers** where the preferred ends lead. -/
theorem Leads.prefers (h : Leads t e p q) (he : e.isRegular = true) (hp : p ≤ t.size) :
    (rep e 0 none true).Prefers t p q := by
  rintro origin start rfl
  rw [ends, repetitions]
  simp only [if_true]
  rw [head?_distinct, List.head?_append, repeatedOnce, List.head?_reverse]
  cases h with
  | stop hno =>
    rw [(ends_eq_nil_iff origin he hp).2 hno]
    rfl
  | @go _ m _ hfirst hlt hrest =>
    have hm := spans_width he hp (hfirst.spans he hp)
    obtain ⟨x, hx, rfl⟩ := Option.map_eq_some_iff.1 (hfirst origin start rfl)
    obtain ⟨rest, hends⟩ := List.head?_eq_some_iff.1 hx
    obtain ⟨last, hlast, hq⟩ :=
      hrest.getLast?_repeated he hm.2 (t.size - x.pos) origin rfl (by omega)
    have hne : x.pos ≠ start.pos := Nat.ne_of_gt hlt
    rw [hends, List.foldl_cons, if_neg hne, getLast?_of_suffix (suffix_foldl ?_ _ _) hlast]
    · simp [hq]
    · intro found y
      split_ifs
      · exact List.suffix_rfl
      · exact List.suffix_cons _ _
      · exact suffix_repeated _ _ _ _

theorem ends_optional (origin : Nat) (start : Hit) :
    (((rep e 0 (some 1) true).ends t origin start).head?) =
      (((e.ends t origin start).foldl (repeatedUpTo (e.ends t origin) true 0)
        ([(1, start.pos)], [])).add start).2.getLast? := by
  rw [ends, repetitions]
  simp only [repeatedExactly, List.flatMap_cons, List.flatMap_nil, List.append_nil, head?_distinct,
    List.head?_reverse]
  rfl

/-- An optional part is taken where it matches, as it prefers. -/
theorem prefers_optional (h : e.Prefers t p q) : (rep e 0 (some 1) true).Prefers t p q := by
  rintro origin start rfl
  have hadd (s : Explored) (x : Hit) : s.2 <:+ (s.add x).2 := by
    unfold Explored.add
    split_ifs
    · exact List.suffix_rfl
    · exact List.suffix_cons _ _
  have hfold (xs : List Hit) (s : Explored) :
      s.2 <:+ (xs.foldl (repeatedUpTo (e.ends t origin) true 0) s).2 := by
    induction xs generalizing s with
    | nil => exact List.suffix_rfl
    | cons x xs ih => exact (hadd s x).trans (ih _)
  obtain ⟨x, hx, rfl⟩ := Option.map_eq_some_iff.1 (h origin start rfl)
  obtain ⟨rest, hends⟩ := List.head?_eq_some_iff.1 hx
  have hfirst : (Explored.add ([(1, start.pos)], []) x).2.getLast? = some x := rfl
  rw [ends_optional, hends, List.foldl_cons, repeatedUpTo,
    getLast?_of_suffix ((hfold rest _).trans (hadd _ start)) hfirst]
  rfl

/-- An optional part is left out where it does not match. -/
theorem prefers_optional_none (he : e.isRegular = true) (hp : p ≤ t.size) (hno : e.Refuses t p) :
    (rep e 0 (some 1) true).Prefers t p p := by
  rintro origin start rfl
  rw [ends_optional, (ends_eq_nil_iff origin he hp).2 hno]
  rfl

end Preferred

end ModeStack.Regex.Expr
