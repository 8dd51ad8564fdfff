import ModeStack.Proofs.Regex.Width

/-!
# From where to where an expression matches

Without references, look-around and atomic groups, the positions at which an expression can end
depend on nothing but the position at which it starts: not on captures, and not on where the search
began. `Expr.Spans` says from where to where an expression can match, by recursion on the
expression, and `reach_ends_iff` that its list of ends holds these positions and no others.

Repetitions are greedy here, and either without an upper bound or optional at most once more than
they must be (`Expr.isRegular`).
-/

namespace ModeStack.Regex

/-! ## The positions of hits -/

/-- One of the hits is at the position. -/
def Reach (hs : List Hit) (q : Nat) : Prop := ∃ x ∈ hs, x.pos = q

theorem not_reach_nil {q : Nat} : ¬Reach [] q := by
  rintro ⟨x, hx, -⟩
  cases hx

theorem reach_cons {h : Hit} {hs : List Hit} {q : Nat} :
    Reach (h :: hs) q ↔ h.pos = q ∨ Reach hs q := by
  simp [Reach]

theorem reach_append {hs hs' : List Hit} {q : Nat} :
    Reach (hs ++ hs') q ↔ Reach hs q ∨ Reach hs' q := by
  simp [Reach, or_and_right, exists_or]

theorem reach_reverse {hs : List Hit} {q : Nat} : Reach hs.reverse q ↔ Reach hs q := by
  simp [Reach]

theorem reach_flatMap {hs : List Hit} {f : Hit → List Hit} {q : Nat} :
    Reach (hs.flatMap f) q ↔ ∃ x ∈ hs, Reach (f x) q := by
  simp only [Reach, List.mem_flatMap]
  constructor
  · rintro ⟨y, ⟨x, hx, hy⟩, hq⟩
    exact ⟨x, hx, y, hy, hq⟩
  · rintro ⟨x, hx, y, hy, hq⟩
    exact ⟨y, ⟨x, hx, hy⟩, hq⟩

theorem any_pos_iff {hs : List Hit} {q : Nat} :
    (hs.any (·.pos = q)) = true ↔ Reach hs q := by
  simp [Reach]

theorem reach_distinctFrom {seen : List Nat} {hs : List Hit} {q : Nat} (hq : q ∉ seen) :
    Reach (distinctFrom seen hs) q ↔ Reach hs q := by
  induction hs generalizing seen with
  | nil => rfl
  | cons h hs ih =>
    unfold distinctFrom
    split_ifs with hseen
    · have hne : h.pos ≠ q := by
        rintro rfl
        exact hq (List.contains_iff_mem.1 hseen)
      rw [ih hq, reach_cons]
      exact (or_iff_right hne).symm
    · rw [reach_cons, reach_cons]
      by_cases heq : h.pos = q
      · simp only [heq, true_or]
      · rw [ih (by simp [hq, Ne.symm heq])]

theorem reach_distinct {hs : List Hit} {q : Nat} : Reach (distinct hs) q ↔ Reach hs q := by
  match hs with
  | [] => rfl
  | [_] => rfl
  | _ :: _ :: _ => exact reach_distinctFrom (by simp)

/-! ## Steps in a row -/

/-- The relation leads from one position to another in a number of steps. -/
def Iterated (R : Nat → Nat → Prop) : (count : Nat) → Nat → Nat → Prop
  | 0, p, q => q = p
  | count + 1, p, q => ∃ m, R p m ∧ Iterated R count m q

theorem Iterated.append {R : Nat → Nat → Prop} {m n p q r : Nat} (h : Iterated R m p q)
    (h' : Iterated R n q r) : Iterated R (m + n) p r := by
  induction m generalizing p with
  | zero =>
    cases h
    rwa [Nat.zero_add]
  | succ m ih =>
    obtain ⟨p', hp, hrest⟩ := h
    rw [Nat.succ_add]
    exact ⟨p', hp, ih hrest⟩

theorem Iterated.split {R : Nat → Nat → Prop} {m n p r : Nat} (h : Iterated R (m + n) p r) :
    ∃ q, Iterated R m p q ∧ Iterated R n q r := by
  induction m generalizing p with
  | zero => exact ⟨p, rfl, by rwa [Nat.zero_add] at h⟩
  | succ m ih =>
    rw [Nat.succ_add] at h
    obtain ⟨p', hp, hrest⟩ := h
    obtain ⟨q, hq, hrest⟩ := ih hrest
    exact ⟨q, ⟨p', hp, hq⟩, hrest⟩

theorem iterated_one {R : Nat → Nat → Prop} {p q : Nat} : Iterated R 1 p q ↔ R p q := by
  constructor
  · rintro ⟨m, hm, rfl⟩
    exact hm
  · exact fun h => ⟨q, h, rfl⟩

/-! ## Repetition -/

section Repetition

variable {body : Hit → List Hit} {R : Nat → Nat → Prop} {size : Nat}

/-- Inside a text of the given size, `body` leads from position to position as the relation says,
and onward. -/
structure Walks (body : Hit → List Hit) (R : Nat → Nat → Prop) (size : Nat) : Prop where
  reach_iff : ∀ h : Hit, h.pos ≤ size → ∀ q, Reach (body h) q ↔ R h.pos q
  onward : ∀ {p q}, p ≤ size → R p q → p ≤ q ∧ q ≤ size

/-- Where one hit is, there is one wherever the relation leads. -/
def ClosedUnder (R : Nat → Nat → Prop) (found : List Hit) : Prop :=
  ∀ p q, Reach found p → R p q → Reach found q

theorem ClosedUnder.iterated {found : List Hit} (h : ClosedUnder R found) {count p q : Nat}
    (hp : Reach found p) (hq : Iterated R count p q) : Reach found q := by
  induction count generalizing p with
  | zero =>
    cases hq
    exact hp
  | succ count ih =>
    obtain ⟨m, hm, hrest⟩ := hq
    exact ih (h p m hp hm) hrest

/-- From a hit everything is found that can be reached, and what was found stays found. -/
structure Explores (R : Nat → Nat → Prop) (found : List Hit) (h : Hit) (found' : List Hit) :
    Prop where
  kept : ∀ q, Reach found q → Reach found' q
  here : Reach found' h.pos
  closed : ClosedUnder R found'

/-- Exploring from several hits, one after the other. -/
theorem foldl_explores {explore : List Hit → Hit → List Hit} {firsts : List Hit}
    (hexplore : ∀ x ∈ firsts, ∀ found, ClosedUnder R found →
      Explores R found x (explore found x))
    {found : List Hit} (hfound : ClosedUnder R found) :
    (∀ q, Reach found q ∨ Reach firsts q → Reach (firsts.foldl explore found) q) ∧
      ClosedUnder R (firsts.foldl explore found) := by
  induction firsts generalizing found with
  | nil => exact ⟨fun q hq => hq.resolve_right not_reach_nil, hfound⟩
  | cons first firsts ih =>
    have hfirst := hexplore first List.mem_cons_self found hfound
    obtain ⟨hall, hclosed⟩ :=
      ih (fun x hx => hexplore x (List.mem_cons_of_mem _ hx)) hfirst.closed
    refine ⟨fun q hq => hall q ?_, hclosed⟩
    rcases hq with hq | hq
    · exact .inl (hfirst.kept q hq)
    · rcases reach_cons.1 hq with rfl | hq
      · exact .inl hfirst.here
      · exact .inr hq

namespace Walks

variable (hbody : Walks body R size)

include hbody

theorem iterated_onward {count p q : Nat} (hp : p ≤ size) (h : Iterated R count p q) :
    p ≤ q ∧ q ≤ size := by
  induction count generalizing p with
  | zero =>
    cases h
    exact ⟨le_rfl, hp⟩
  | succ count ih =>
    obtain ⟨m, hm, hrest⟩ := h
    have hstep := hbody.onward hp hm
    have hmore := ih hstep.2 hrest
    exact ⟨hstep.1.trans hmore.1, hmore.2⟩

/-- Where repeating leads, the relation leads in some number of steps. -/
theorem carries (p : Nat) (hp : p ≤ size) :
    Carries (fun x => ∃ count, Iterated R (count + 1) p x.pos) body := by
  rintro h ⟨count, hcount⟩ x hx
  have hstep := (hbody.reach_iff h (hbody.iterated_onward hp hcount).2 x.pos).1 ⟨x, hx, rfl⟩
  exact ⟨count + 1, hcount.append (iterated_one.2 hstep)⟩

/-- Repeating explores. -/
theorem explores_repeated (rounds : Nat) {found : List Hit} {h : Hit} (hpos : h.pos ≤ size)
    (hrounds : size ≤ h.pos + rounds) (hfound : ClosedUnder R found) :
    Explores R found h (repeated body true rounds found h) := by
  induction rounds generalizing found h with
  | zero =>
    unfold repeated
    split_ifs with hold
    · exact ⟨fun q hq => hq, any_pos_iff.1 hold, hfound⟩
    · refine ⟨fun q hq => reach_cons.2 (.inr hq), reach_cons.2 (.inl rfl), ?_⟩
      intro p q hp hstep
      rcases reach_cons.1 hp with rfl | hp
      · -- At the end of the text nothing leads further.
        have hend := hbody.onward hpos hstep
        exact reach_cons.2 (.inl (by omega))
      · exact reach_cons.2 (.inr (hfound p q hp hstep))
  | succ rounds ih =>
    unfold repeated
    by_cases hold : (found.any (·.pos = h.pos)) = true
    · rw [if_pos hold]
      exact ⟨fun q hq => hq, any_pos_iff.1 hold, hfound⟩
    · rw [if_neg hold, if_pos rfl]
      have hfurther : ∀ x ∈ (body h).filter (·.pos ≠ h.pos), ∀ found, ClosedUnder R found →
          Explores R found x (repeated body true rounds found x) := by
        intro x hx found hfound
        obtain ⟨hx, hne⟩ := List.mem_filter.1 hx
        have honward := hbody.onward hpos ((hbody.reach_iff h hpos x.pos).1 ⟨x, hx, rfl⟩)
        have hne : x.pos ≠ h.pos := of_decide_eq_true hne
        exact ih honward.2 (by omega) hfound
      obtain ⟨hall, hclosed⟩ := foldl_explores hfurther hfound
      refine ⟨fun q hq => reach_cons.2 (.inr (hall q (.inl hq))), reach_cons.2 (.inl rfl), ?_⟩
      intro p q hp hstep
      rcases reach_cons.1 hp with rfl | hp
      · by_cases heq : h.pos = q
        · exact reach_cons.2 (.inl heq)
        · obtain ⟨x, hx, rfl⟩ := (hbody.reach_iff h hpos q).2 hstep
          have hmem : x ∈ (body h).filter (·.pos ≠ h.pos) :=
            List.mem_filter.2 ⟨hx, decide_eq_true fun hsame => heq hsame.symm⟩
          exact reach_cons.2 (.inr (hall _ (.inr ⟨x, hmem, rfl⟩)))
      · exact reach_cons.2 (.inr (hclosed p q hp hstep))

/-- **Repetition at least once** leads where some number of steps leads, if each step takes
something. -/
theorem reach_repeatedOnce (hstrict : ∀ p q, p ≤ size → R p q → p ≠ q) {h : Hit} (hpos : h.pos ≤ size)
    (q : Nat) :
    Reach (repeatedOnce body true size h) q ↔ ∃ count, Iterated R (count + 1) h.pos q := by
  constructor
  · rintro ⟨x, hx, rfl⟩
    refine forall_mem_repeatedOnce (P := fun x => ∃ count, Iterated R (count + 1) h.pos x.pos)
      (hbody.carries h.pos hpos) true size (fun b hb => ?_) x hx
    exact ⟨0, iterated_one.2 ((hbody.reach_iff h hpos b.pos).1 ⟨b, hb, rfl⟩)⟩
  · rintro ⟨count, first, hfirst, hrest⟩
    let grow (found : List Hit) (first : Hit) : List Hit :=
      if first.pos = h.pos then
        if found.any (·.pos = h.pos) then found else first :: found
      else repeated body true (size - first.pos) found first
    have hgrow : ∀ x ∈ body h, ∀ found, ClosedUnder R found → Explores R found x (grow found x) := by
      intro x hx found hfound
      have hstep := (hbody.reach_iff h hpos x.pos).1 ⟨x, hx, rfl⟩
      have heq : grow found x = repeated body true (size - x.pos) found x :=
        if_neg (Ne.symm (hstrict _ _ hpos hstep))
      rw [heq]
      exact hbody.explores_repeated _ (hbody.onward hpos hstep).2 (by omega) hfound
    have hnone : ClosedUnder R [] := fun p q hp => absurd hp not_reach_nil
    obtain ⟨hall, hclosed⟩ := foldl_explores hgrow hnone
    exact reach_reverse.2
      (hclosed.iterated (hall first (.inr ((hbody.reach_iff h hpos first).2 hfirst))) hrest)

theorem reach_repeatedExactly (count : Nat) {hs : List Hit} (hhs : ∀ h ∈ hs, h.pos ≤ size)
    (q : Nat) :
    Reach (repeatedExactly body count hs) q ↔ ∃ h ∈ hs, Iterated R count h.pos q := by
  induction count generalizing hs with
  | zero =>
    unfold repeatedExactly Reach Iterated
    simp only [eq_comm]
  | succ count ih =>
    cases hs with
    | nil => simp [repeatedExactly, Reach]
    | cons h hs =>
      have hnext : ∀ x ∈ distinct ((h :: hs).flatMap body), x.pos ≤ size := by
        intro x hx
        obtain ⟨y, hy, hxy⟩ := List.mem_flatMap.1 (mem_of_mem_distinct hx)
        exact (hbody.onward (hhs y hy)
          ((hbody.reach_iff y (hhs y hy) x.pos).1 ⟨x, hxy, rfl⟩)).2
      rw [repeatedExactly, ih hnext]
      constructor
      · rintro ⟨x, hx, hrest⟩
        obtain ⟨y, hy, hxy⟩ := List.mem_flatMap.1 (mem_of_mem_distinct hx)
        exact ⟨y, hy, x.pos, (hbody.reach_iff y (hhs y hy) x.pos).1 ⟨x, hxy, rfl⟩, hrest⟩
      · rintro ⟨y, hy, m, hm, hrest⟩
        have hreach : Reach (distinct ((h :: hs).flatMap body)) m :=
          reach_distinct.2 (reach_flatMap.2 ⟨y, hy, (hbody.reach_iff y (hhs y hy) m).2 hm⟩)
        obtain ⟨x, hx, rfl⟩ := hreach
        exact ⟨x, hx, hrest⟩

/-- Repetition at most once more. -/
theorem reach_repeatedUpTo {left : Nat} (hleft : left ≤ 1) {h : Hit} (hpos : h.pos ≤ size)
    (q : Nat) :
    Reach (repeatedUpTo body true left ([], []) h).2.reverse q ↔
      ∃ count ≤ left, Iterated R count h.pos q := by
  rw [reach_reverse]
  have hadd (s : Explored) (x : Hit) : Reach (s.add x).2 q ↔ x.pos = q ∨ Reach s.2 q := by
    unfold Explored.add
    split_ifs with hold
    · have hx := any_pos_iff.1 hold
      exact ⟨.inr, fun hor => hor.elim (fun heq => heq ▸ hx) id⟩
    · exact reach_cons
  have hfold (xs : List Hit) (s : Explored) :
      Reach (xs.foldl (repeatedUpTo body true 0) s).2 q ↔ Reach xs q ∨ Reach s.2 q := by
    induction xs generalizing s with
    | nil => simp [not_reach_nil]
    | cons x xs ih =>
      rw [List.foldl_cons, ih, repeatedUpTo, hadd, reach_cons]
      tauto
  have hsteps : (∃ count ≤ left, Iterated R count h.pos q) ↔ q = h.pos ∨ (left = 1 ∧ R h.pos q) := by
    constructor
    · rintro ⟨count, hle, hcount⟩
      rcases Nat.eq_zero_or_pos count with rfl | hpos
      · exact .inl hcount
      · obtain rfl : count = 1 := by omega
        exact .inr ⟨by omega, iterated_one.1 hcount⟩
    · rintro (rfl | ⟨rfl, hstep⟩)
      · exact ⟨0, Nat.zero_le _, rfl⟩
      · exact ⟨1, le_rfl, iterated_one.2 hstep⟩
  rw [hsteps]
  rcases Nat.eq_zero_or_pos left with rfl | hone
  · rw [repeatedUpTo, hadd]
    simp [not_reach_nil, eq_comm]
  · obtain rfl : left = 1 := by omega
    unfold repeatedUpTo
    simp only [List.contains_nil, Bool.false_eq_true, if_false, if_true]
    rw [hadd, hfold, hbody.reach_iff h hpos q]
    simp [not_reach_nil, eq_comm]

/-- **Repetition between bounds** leads where a number of steps within the bounds leads, if the
upper bound is at most one more than the lower, or there is none and each step takes something. -/
theorem reach_repetitions {lo : Nat} {hi : Option Nat}
    (hhi : match hi with
      | some hi => hi = lo ∨ hi = lo + 1
      | none => ∀ p q, p ≤ size → R p q → p ≠ q)
    {h : Hit} (hpos : h.pos ≤ size) (q : Nat) :
    Reach (repetitions body lo hi true size h) q ↔
      ∃ count, lo ≤ count ∧ (∀ m ∈ hi, count ≤ m) ∧ Iterated R count h.pos q := by
  have hsingle : ∀ x ∈ [h], x.pos ≤ size := by
    intro x hx
    rw [List.mem_singleton.1 hx]
    exact hpos
  have hbounded {count : Nat} {x : Hit} (hx : x ∈ repeatedExactly body count [h]) :
      x.pos ≤ size := by
    obtain ⟨y, hy, hsteps⟩ := (hbody.reach_repeatedExactly count hsingle x.pos).1 ⟨x, hx, rfl⟩
    exact (hbody.iterated_onward (hsingle y hy) hsteps).2
  have hexactly (count m : Nat) :
      Reach (repeatedExactly body count [h]) m ↔ Iterated R count h.pos m := by
    simp [hbody.reach_repeatedExactly count hsingle m]
  have hafter {count : Nat} {more : Hit → List Hit} {steps : Nat → Prop}
      (hmore : ∀ x : Hit, x.pos ≤ size →
        (Reach (more x) q ↔ ∃ n, steps n ∧ Iterated R n x.pos q)) :
      Reach (distinct ((repeatedExactly body count [h]).flatMap more)) q ↔
        ∃ n, steps n ∧ Iterated R (count + n) h.pos q := by
    rw [reach_distinct, reach_flatMap]
    constructor
    · rintro ⟨x, hx, hq⟩
      obtain ⟨n, hn, hsteps⟩ := (hmore x (hbounded hx)).1 hq
      exact ⟨n, hn, ((hexactly count x.pos).1 ⟨x, hx, rfl⟩).append hsteps⟩
    · rintro ⟨n, hn, hsteps⟩
      obtain ⟨m, hm, hrest⟩ := hsteps.split
      obtain ⟨x, hx, rfl⟩ := (hexactly count m).2 hm
      exact ⟨x, hx, (hmore x (hbounded hx)).2 ⟨n, hn, hrest⟩⟩
  cases hi with
  | some hi =>
    have hleft : hi - lo ≤ 1 := by
      rcases hhi with rfl | rfl <;> omega
    have hle : lo ≤ hi := by
      rcases hhi with rfl | rfl <;> omega
    unfold repetitions
    simp only
    rw [hafter fun x hx => hbody.reach_repeatedUpTo hleft hx q]
    constructor
    · rintro ⟨n, hn, hsteps⟩
      exact ⟨lo + n, by omega, fun m hm => by cases hm; omega, hsteps⟩
    · rintro ⟨count, hlo, hcount, hsteps⟩
      have hcount := hcount hi rfl
      refine ⟨count - lo, by omega, ?_⟩
      rwa [Nat.add_sub_cancel' hlo]
  | none =>
    have honce (x : Hit) (hx : x.pos ≤ size) :
        Reach (repeatedOnce body true size x) q ↔ ∃ n, 0 < n ∧ Iterated R n x.pos q := by
      rw [hbody.reach_repeatedOnce hhi hx q]
      constructor
      · rintro ⟨n, hsteps⟩
        exact ⟨n + 1, n.succ_pos, hsteps⟩
      · rintro ⟨n, hn, hsteps⟩
        exact ⟨n - 1, by rwa [Nat.sub_add_cancel hn]⟩
    cases lo with
    | zero =>
      unfold repetitions
      simp only [if_true]
      rw [reach_distinct, reach_append, honce h hpos]
      constructor
      · rintro (⟨n, -, hsteps⟩ | hself)
        · exact ⟨n, n.zero_le, by simp, hsteps⟩
        · obtain rfl | hno := reach_cons.1 hself
          · exact ⟨0, le_rfl, by simp, rfl⟩
          · exact absurd hno not_reach_nil
      · rintro ⟨n, -, -, hsteps⟩
        rcases Nat.eq_zero_or_pos n with rfl | hn
        · cases hsteps
          exact .inr (reach_cons.2 (.inl rfl))
        · exact .inl ⟨n, hn, hsteps⟩
    | succ lo =>
      unfold repetitions
      simp only
      rw [hafter honce]
      constructor
      · rintro ⟨n, hn, hsteps⟩
        exact ⟨lo + n, by omega, by simp, hsteps⟩
      · rintro ⟨count, hlo, -, hsteps⟩
        refine ⟨count - lo, by omega, ?_⟩
        rwa [Nat.add_sub_cancel' (by omega)]

end Walks

end Repetition

/-! ## Spans -/

namespace Expr

/-- Whether the ends of an expression can be read off the expression. -/
def isRegular : Expr → Bool
  | empty | char .. | any _ | set .. | assert _ => true
  | seq a b | alt a b => a.isRegular && b.isRegular
  | group _ e => e.isRegular
  | rep e lo hi greedy =>
    e.isRegular && greedy &&
      match hi with
      | some hi => hi = lo || hi = lo + 1
      | none => 0 < e.minWidth
  | _ => false

/-- Takes one character that satisfies a predicate. -/
def SpansOne (t : Text) (f : Char → Bool) (p q : Nat) : Prop :=
  q = p + 1 ∧ ∃ c, t[p]? = some c ∧ f c = true

/-- From where to where an expression can match. -/
def Spans (t : Text) : Expr → Nat → Nat → Prop
  | empty, p, q => q = p
  | char c false, p, q => SpansOne t (· = c) p q
  | char c true, p, q => SpansOne t (Text.sameUpToCase c) p q
  | any newline, p, q => SpansOne t (fun c => newline || c ≠ '\n') p q
  | set s ignoreCase, p, q => SpansOne t (s.contains ignoreCase) p q
  | assert a, p, q => a.holds t p = true ∧ q = p
  | seq a b, p, q => ∃ m, a.Spans t p m ∧ b.Spans t m q
  | alt a b, p, q => a.Spans t p q ∨ b.Spans t p q
  | group _ e, p, q => e.Spans t p q
  | rep e lo hi _, p, q =>
    ∃ count, lo ≤ count ∧ (∀ m ∈ hi, count ≤ m) ∧ Iterated (e.Spans t) count p q
  | _, _, _ => False

variable {t : Text} {origin : Nat}

theorem reach_step {f : Char → Bool} {h : Hit} {q : Nat} :
    Reach (step t f h) q ↔ SpansOne t f h.pos q := by
  unfold step SpansOne
  cases t[h.pos]? with
  | none => simp [not_reach_nil]
  | some c =>
    by_cases hc : f c = true
    · simp only [hc, if_true, reach_cons, not_reach_nil, or_false, Hit.moveTo, Option.some.injEq,
        exists_eq_left', and_true]
      exact eq_comm
    · simp [hc, not_reach_nil]

theorem reach_ends_seq {a b : Expr} {h : Hit} {q : Nat} :
    Reach ((seq a b).ends t origin h) q ↔
      ∃ x ∈ a.ends t origin h, Reach (b.ends t origin x) q := by
  rw [← reach_flatMap]
  simp only [ends]
  split
  · rename_i hnone
    rw [hnone]
    rfl
  · rename_i x hx
    rw [hx, List.flatMap_cons, List.flatMap_nil, List.append_nil]
  · exact reach_distinct

/-- **The ends of an expression** are where it can match to. -/
theorem reach_ends_iff (origin : Nat) {e : Expr} (he : e.isRegular = true) {h : Hit} (hpos : h.pos ≤ t.size)
    {q : Nat} : Reach (e.ends t origin h) q ↔ e.Spans t h.pos q := by
  induction e generalizing h q with
  | empty => simp [ends, Spans, Reach, eq_comm]
  | char c ignoreCase => cases ignoreCase <;> exact reach_step
  | any newline => exact reach_step
  | set s ignoreCase => exact reach_step
  | assert a =>
    simp only [ends, Spans]
    split_ifs with ha
    · simp [Reach, ha, eq_comm]
    · simp [not_reach_nil, ha]
  | seq a b iha ihb =>
    obtain ⟨ha, hb⟩ := Bool.and_eq_true_iff.1 he
    rw [reach_ends_seq]
    constructor
    · rintro ⟨x, hx, hq⟩
      have hsize := (mem_ends_minWidth a hpos hx).2
      exact ⟨x.pos, (iha ha hpos).1 ⟨x, hx, rfl⟩, (ihb hb hsize).1 hq⟩
    · rintro ⟨m, hm, hq⟩
      obtain ⟨x, hx, rfl⟩ := (iha ha hpos).2 hm
      have hsize := (mem_ends_minWidth a hpos hx).2
      exact ⟨x, hx, (ihb hb hsize).2 hq⟩
  | alt a b iha ihb =>
    obtain ⟨ha, hb⟩ := Bool.and_eq_true_iff.1 he
    rw [ends, reach_distinct, reach_append, iha ha hpos, ihb hb hpos]
    rfl
  | group index e ih =>
    rw [Spans, ← ih he hpos]
    simp [ends, Reach, Hit.capture]
  | rep e lo hi greedy ih =>
    simp only [isRegular, Bool.and_eq_true] at he
    obtain ⟨⟨he, rfl⟩, hhi⟩ := he
    have hwidth {p q : Nat} (hp : p ≤ t.size) (hq : e.Spans t p q) :
        p + e.minWidth ≤ q ∧ q ≤ t.size := by
      have hstart : Hit.pos { pos := p } ≤ t.size := hp
      obtain ⟨x, hx, rfl⟩ := (ih he hstart).2 hq
      exact mem_ends_minWidth e hstart hx
    have hwalks : Walks (e.ends t origin) (e.Spans t) t.size :=
      ⟨fun h hpos q => ih he hpos, fun hp hq =>
        ⟨(Nat.le_add_right _ _).trans (hwidth hp hq).1, (hwidth hp hq).2⟩⟩
    refine hwalks.reach_repetitions ?_ hpos q
    cases hi with
    | some hi => simpa using hhi
    | none =>
      intro p q hp hq
      have hle := (hwidth hp hq).1
      have hpos : 0 < e.minWidth := of_decide_eq_true hhi
      omega
  | _ => cases he

theorem spans_width {e : Expr} (he : e.isRegular = true) {p q : Nat} (hp : p ≤ t.size)
    (h : e.Spans t p q) : p + e.minWidth ≤ q ∧ q ≤ t.size := by
  have hstart : Hit.pos { pos := p } ≤ t.size := hp
  obtain ⟨x, hx, rfl⟩ := (reach_ends_iff 0 he hstart).2 h
  exact mem_ends_minWidth e hstart hx

end Expr

end ModeStack.Regex
