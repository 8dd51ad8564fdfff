import ModeStack.Proofs.Regex.Onward

/-!
# How much a match takes

`Expr.minWidth` counts the characters that an expression cannot do without. That a match takes as
many is `mem_ends_minWidth` for the list of ends and `run_minWidth` for backtracking, so a pattern
of a positive width never matches the empty text (`minWidth_of_matched`).
-/

namespace ModeStack.Regex

/-- The least number of characters that a run of a plan takes. -/
def Plan.minWidth : Plan → Nat
  | direct e => e.minWidth
  | seq a b => a.minWidth + b.minWidth
  | alt a b => min a.minWidth b.minWidth
  | group _ p | atomic p => p.minWidth
  | rep p lo hi _ _ => p.minWidth * hi.elim lo (min lo)
  | ref .. | ahead .. | behind .. => 0

/-- A position that lies in a text of `size` characters, at `lo` or after it. -/
def Beyond (size lo : Nat) (h : Hit) : Prop := lo ≤ h.pos ∧ h.pos ≤ size

variable {t : Text} {origin : Nat}

theorem Beyond.mono {size lo lo' : Nat} {h : Hit} (hh : Beyond size lo h) (hle : lo' ≤ lo) :
    Beyond size lo' h :=
  ⟨hle.trans hh.1, hh.2⟩

/-! ## Ends -/

theorem mem_step_beyond {p : Char → Bool} {h h' : Hit} (hh' : h' ∈ Expr.step t p h) :
    Beyond t.size (h.pos + 1) h' := by
  simp only [Expr.step] at hh'
  split at hh'
  · rename_i c hc
    split_ifs at hh'
    · rw [List.mem_singleton.1 hh']
      exact ⟨le_rfl, (Array.getElem?_eq_some_iff.1 hc).1⟩
    · simp at hh'
  · simp at hh'

/-- **Every end takes the least width.** -/
theorem mem_ends_minWidth (e : Expr) {h h' : Hit} (hpos : h.pos ≤ t.size)
    (hh' : h' ∈ e.ends t origin h) : Beyond t.size (h.pos + e.minWidth) h' := by
  -- An expression of no least width ends onward.
  have honward {e : Expr} {h h' : Hit} (hpos : h.pos ≤ t.size) (hh' : h' ∈ e.ends t origin h) :
      Beyond t.size h.pos h' :=
    have h : Onward t.size false e.captured h h' := mem_ends_onward e hpos hh'
    ⟨h.le, h.pos_le⟩
  induction e generalizing h h' with
  | char c ignoreCase => cases ignoreCase <;> exact mem_step_beyond hh'
  | any newline => exact mem_step_beyond hh'
  | set s ignoreCase => exact mem_step_beyond hh'
  | seq a b iha ihb =>
    have key : ∃ x ∈ a.ends t origin h, h' ∈ b.ends t origin x := by
      simp only [Expr.ends] at hh'
      split at hh'
      · simp at hh'
      · rename_i x hx
        exact ⟨x, by simp [hx], hh'⟩
      · exact List.mem_flatMap.1 (mem_of_mem_distinct hh')
    obtain ⟨x, hx, hx'⟩ := key
    obtain ⟨hax, hsize⟩ := iha hpos hx
    refine (ihb hsize hx').mono ?_
    rw [Expr.minWidth]
    omega
  | alt a b iha ihb =>
    rcases List.mem_append.1 (mem_of_mem_distinct hh') with hx | hx
    · exact (iha hpos hx).mono (Nat.add_le_add_left (Nat.min_le_left _ _) _)
    · exact (ihb hpos hx).mono (Nat.add_le_add_left (Nat.min_le_right _ _) _)
  | group index e ih =>
    obtain ⟨x, hx, rfl⟩ := List.mem_map.1 hh'
    have hx := ih hpos hx
    exact ⟨hx.1, hx.2⟩
  | rep e lo hi greedy ih =>
    have hbody (n : Nat) (x : Hit) (hx : Beyond t.size (h.pos + e.minWidth * n) x) :
        ∀ y ∈ e.ends t origin x, Beyond t.size (h.pos + e.minWidth * (n + 1)) y := by
      intro y hy
      refine (ih hx.2 hy).mono ?_
      have := hx.1
      rw [Nat.mul_succ]
      omega
    have hless (n : Nat) (x : Hit) (hx : Beyond t.size (h.pos + e.minWidth * (n + 1)) x) :
        Beyond t.size (h.pos + e.minWidth * n) x :=
      hx.mono (Nat.add_le_add_left (Nat.mul_le_mul_left _ (Nat.le_succ n)) _)
    exact forall_mem_repetitions_counted hbody hless lo hi greedy t.size ⟨le_rfl, hpos⟩ h' hh'
  | atomic e ih => exact ih hpos (List.mem_of_mem_take hh')
  | _ => exact honward hpos hh'

/-! ## Backtracking -/

/-- A verdict of success that `k` gave at `lo` or after it. -/
def GivenBeyond (size lo : Nat) (k : Continuation) (v : Verdict) : Prop :=
  ∀ found budget, v = .matched found budget →
    ∃ x left, Beyond size lo x ∧ k x left = .matched found budget

section Backtracking

variable {size lo lo' : Nat} {k : Continuation} {h : Hit}

theorem GivenBeyond.self (hh : Beyond size lo h) (budget : Nat) : GivenBeyond size lo k (k h budget) :=
  fun _ _ hv => ⟨h, budget, hh, hv⟩

theorem GivenBeyond.failed (budget : Nat) : GivenBeyond size lo k (.failed budget) :=
  fun _ _ hv => by cases hv

theorem GivenBeyond.mono {v : Verdict} (hv : GivenBeyond size lo k v) (hle : lo' ≤ lo) :
    GivenBeyond size lo' k v := by
  intro found budget he
  obtain ⟨x, left, hx, hk⟩ := hv found budget he
  exact ⟨x, left, hx.mono hle, hk⟩

theorem GivenBeyond.orElse {v : Verdict} {second : Nat → Verdict} (hv : GivenBeyond size lo k v)
    (hs : ∀ budget, GivenBeyond size lo k (second budget)) :
    GivenBeyond size lo k (v.orElse second) := by
  cases v with
  | matched found budget => exact hv
  | exhausted => exact fun _ _ he => by cases he
  | failed budget =>
    cases budget with
    | zero => exact fun _ _ he => by cases he
    | succ budget => exact hs budget

theorem GivenBeyond.choose {greedy : Bool} {more less : Nat → Verdict} (budget : Nat)
    (hm : ∀ budget, GivenBeyond size lo k (more budget))
    (hl : ∀ budget, GivenBeyond size lo k (less budget)) :
    GivenBeyond size lo k (choose greedy more less budget) := by
  unfold Regex.choose
  split_ifs
  · exact (hm budget).orElse hl
  · exact (hl budget).orElse hm

theorem givenBeyond_fromEach {hs : List Hit} (budget : Nat) (hall : ∀ x ∈ hs, Beyond size lo x) :
    GivenBeyond size lo k (fromEach k hs budget) := by
  induction hs generalizing budget with
  | nil => exact .failed budget
  | cons x hs ih =>
    have hx := hall x List.mem_cons_self
    cases hs with
    | nil => exact .self hx budget
    | cons y hs =>
      exact (GivenBeyond.self hx budget).orElse
        fun left => ih left fun z hz => hall z (List.mem_cons_of_mem _ hz)

/-- A body that takes at least `width` characters before it hands over. -/
def BodyTakes (size width : Nat) (body : Continuation → Continuation) : Prop :=
  ∀ k h budget, h.pos ≤ size → GivenBeyond size (h.pos + width) k (body k h budget)

/-- What follows the body begins where the body has taken its width. -/
theorem BodyTakes.bind {width : Nat} {body : Continuation → Continuation} {next : Continuation}
    (hbody : BodyTakes size width body) (hpos : h.pos ≤ size) (budget : Nat)
    (hnext : ∀ x left, Beyond size (h.pos + width) x → GivenBeyond size lo k (next x left)) :
    GivenBeyond size lo k (body next h budget) := by
  intro found left he
  obtain ⟨x, between, hx, hk⟩ := hbody next h budget hpos found left he
  exact hnext x between hx found left hk

variable {width : Nat} {body : Continuation → Continuation} (hbody : BodyTakes size width body)
  {start : Nat}

include hbody

/-- What has been repeated `done` times has taken its width as often. -/
theorem BodyTakes.repeated {n done : Nat} (hh : Beyond size (start + width * done) h) (budget : Nat)
    {next : Continuation}
    (hnext : ∀ x left, Beyond size (start + width * (done + 1)) x →
      GivenBeyond size (start + width * n) k (next x left)) :
    GivenBeyond size (start + width * n) k (body next h budget) := by
  refine hbody.bind hh.2 budget fun x left hx => hnext x left (hx.mono ?_)
  have := hh.1
  rw [Nat.mul_succ]
  omega

theorem givenBeyond_runCounted {lo n : Nat} {hi : Option Nat} (hlo : n ≤ lo)
    (hhi : ∀ m ∈ hi, n ≤ m) (greedy : Bool) (rounds : Nat) :
    ∀ (done : Nat) (h : Hit) (budget : Nat), Beyond size (start + width * done) h →
      n ≤ done + rounds →
      GivenBeyond size (start + width * n) k
        (runCounted body lo hi greedy k rounds done h budget) := by
  induction rounds with
  | zero =>
    intro done h budget hh hn
    exact .self (hh.mono (Nat.add_le_add_left (Nat.mul_le_mul_left _ hn) _)) budget
  | succ rounds ih =>
    intro done h budget hh hn
    have henough (hle : n ≤ done) (budget : Nat) :
        GivenBeyond size (start + width * n) k (k h budget) :=
      .self (hh.mono (Nat.add_le_add_left (Nat.mul_le_mul_left _ hle) _)) budget
    have hmore (budget : Nat) := hbody.repeated hh budget fun x left hx =>
      ih (done + 1) x left hx (by omega)
    simp only [runCounted]
    split_ifs with hdone hfew
    · exact henough (hhi done hdone) budget
    · exact hmore budget
    · exact .choose budget hmore (henough (by omega))

theorem givenBeyond_runNullable {lo : Nat} (greedy : Bool) (rounds : Nat) :
    ∀ (done : Nat) (last : Option Nat) (h : Hit) (budget : Nat),
      Beyond size (start + width * done) h → lo ≤ done + rounds → (last.isSome → lo ≤ done) →
      GivenBeyond size (start + width * lo) k
        (runNullable body lo greedy k rounds done last h budget) := by
  induction rounds with
  | zero =>
    intro done last h budget hh hn _
    exact .self (hh.mono (Nat.add_le_add_left (Nat.mul_le_mul_left _ hn) _)) budget
  | succ rounds ih =>
    intro done last h budget hh hn hlast
    have henough (hle : lo ≤ done) (budget : Nat) :
        GivenBeyond size (start + width * lo) k (k h budget) :=
      .self (hh.mono (Nat.add_le_add_left (Nat.mul_le_mul_left _ hle) _)) budget
    have hmore (last : Option Nat) (hlast : last.isSome → lo ≤ done) (budget : Nat) :=
      hbody.repeated hh budget fun x left hx =>
        ih (done + 1) last x left hx (by omega) fun hsome => (hlast hsome).trans (Nat.le_succ _)
    simp only [runNullable]
    split_ifs with hend hfew
    · -- Only a repetition beyond those there must be is remembered.
      simp only [Bool.and_eq_true, decide_eq_true_eq] at hend
      exact henough (hlast (by simp [hend.2])) budget
    · exact hmore last hlast budget
    · exact .choose budget (hmore _ fun _ => by omega) (henough (by omega))

end Backtracking

theorem givenBeyond_afterLook {size : Nat} {k : Continuation} {h : Hit} (negated : Bool)
    (v : Verdict) (hpos : h.pos ≤ size) : GivenBeyond size h.pos k (afterLook negated h k v) := by
  cases v with
  | matched found budget =>
    simp only [afterLook]
    split_ifs
    · exact .failed budget
    · exact .self (h := found.moveTo h.pos) ⟨le_rfl, hpos⟩ budget
  | failed budget =>
    simp only [afterLook]
    split_ifs
    · exact .self ⟨le_rfl, hpos⟩ budget
    · exact .failed budget
  | exhausted => exact fun _ _ he => by cases he

/-- **Every run takes the least width** before it hands over to what follows. -/
theorem run_minWidth (p : Plan) : BodyTakes t.size p.minWidth (p.run t origin) := by
  induction p with
  | direct e =>
    intro k h budget hpos
    exact givenBeyond_fromEach budget fun x hx => mem_ends_minWidth e hpos hx
  | seq a b iha ihb =>
    intro k h budget hpos
    refine iha.bind hpos budget fun x left hx => (ihb k x left hx.2).mono ?_
    have := hx.1
    rw [Plan.minWidth]
    omega
  | alt a b iha ihb =>
    intro k h budget hpos
    refine GivenBeyond.orElse ?_ fun left => ?_
    · exact (iha k h budget hpos).mono (Nat.add_le_add_left (Nat.min_le_left _ _) _)
    · exact (ihb k h left hpos).mono (Nat.add_le_add_left (Nat.min_le_right _ _) _)
  | group index p ih =>
    intro k h budget hpos found left he
    obtain ⟨x, between, hx, hk⟩ := ih _ h budget hpos found left he
    exact ⟨x.capture index h.pos, between, hx, hk⟩
  | rep p lo hi greedy nullable ih =>
    intro k h budget hpos
    have hstart : Beyond t.size (h.pos + p.minWidth * 0) h := ⟨le_rfl, hpos⟩
    cases hi with
    | none =>
      have hrounds : lo ≤ 0 + (lo + (t.size - h.pos) + 2) := by omega
      cases nullable
      · exact givenBeyond_runCounted ih le_rfl (by simp) greedy _ 0 h budget hstart hrounds
      · exact givenBeyond_runNullable ih greedy _ 0 none h budget hstart hrounds (by simp)
    | some hi =>
      have hrounds : min lo hi ≤ 0 + (hi + 1) := by omega
      exact givenBeyond_runCounted ih (Nat.min_le_left lo hi) (by simp) greedy _ 0 h budget hstart
        hrounds
  | ref index ignoreCase =>
    intro k h budget hpos
    simp only [Plan.run]
    split
    · rename_i pos he
      exact .self (referenceEnd?_range hpos he) budget
    · exact .failed budget
  | ahead negated p ih => exact fun k h budget hpos => givenBeyond_afterLook negated _ hpos
  | behind negated width p ih =>
    intro k h budget hpos
    simp only [Plan.run]
    split_ifs
    · exact givenBeyond_afterLook negated _ hpos
    · exact givenBeyond_afterLook negated _ hpos
  | atomic p ih =>
    intro k h budget hpos
    simp only [Plan.run]
    split
    · rename_i found left he
      obtain ⟨x, _, hx, hk⟩ := ih accepted h budget hpos found left he
      cases hk
      exact .self hx left
    · rename_i hv
      exact fun found left he => absurd he (hv found left)

/-- What a pattern matches at a position takes its least width. -/
theorem minWidth_of_matched {re : Regex} {pos left : Nat} {found : Hit} (hpos : pos ≤ t.size)
    (h : re.plan.run t origin accepted { pos := pos } maxBacktracks = .matched found left) :
    pos + re.plan.minWidth ≤ found.pos := by
  obtain ⟨x, _, hx, hk⟩ := run_minWidth re.plan accepted { pos := pos } _ hpos found left h
  cases hk
  exact hx.1

end ModeStack.Regex
