import Mathlib.Tactic
import ModeStack.Regex.Search

/-!
# Matching goes onward

Whatever an expression matches starts where the match was asked for and stays inside the text,
and so does everything it captures. `Onward` says this of two hits, the second reached from the
first; it also says which groups can have been captured on the way.

Main results: `mem_ends_onward` for the list of ends and `run_onward` for backtracking. A plan
that looks behind can capture what lies before its start. That captures lie after it is therefore
said only of a plan that captures nothing inside a look-behind (`Plan.isForward`); that they lie
inside the text holds of every plan.
-/

namespace ModeStack.Regex

/-! ## Groups that can be captured -/

/-- The groups that a match of an expression may capture. -/
def Expr.captured : Expr → List Nat
  | seq a b | alt a b => a.captured ++ b.captured
  | group index e => index :: e.captured
  | rep e _ _ _ | look _ _ e | atomic e => e.captured
  | keep => [0]
  | _ => []

/-- The groups that a run of a plan may capture. -/
def Plan.captured : Plan → List Nat
  | direct e => e.captured
  | seq a b | alt a b => a.captured ++ b.captured
  | group index p => index :: p.captured
  | rep p _ _ _ _ | ahead _ p | behind _ _ p | atomic p => p.captured
  | ref .. => []

/-- Whether nothing is captured inside a look-behind. -/
def Plan.isForward : Plan → Bool
  | direct _ | ref .. => true
  | seq a b | alt a b => a.isForward && b.isForward
  | group _ p | rep p _ _ _ _ | ahead _ p | atomic p => p.isForward
  | behind _ _ p => p.captured.isEmpty && p.isForward

/-! ## Hits reached from hits -/

/-- The second hit is reached from the first: it lies further on in a text of `size` characters,
and what was captured in between belongs to the listed groups. With `forward`, it lies after the
first hit. -/
structure Onward (size : Nat) (forward : Bool) (groups : List Nat) (h h' : Hit) : Prop where
  le : h.pos ≤ h'.pos
  pos_le : h'.pos ≤ size
  captures : ∃ new, h'.captures = new ++ h.captures ∧
    ∀ c ∈ new, c.group ∈ groups ∧ (forward = true → h.pos ≤ c.start) ∧
      c.start ≤ c.stop ∧ c.stop ≤ size

namespace Onward

variable {size : Nat} {forward : Bool} {groups groups' : List Nat} {h h' h'' : Hit}

theorem refl (hpos : h.pos ≤ size) : Onward size forward groups h h :=
  ⟨le_rfl, hpos, [], rfl, by simp⟩

theorem trans (h₁ : Onward size forward groups h h') (h₂ : Onward size forward groups h' h'') :
    Onward size forward groups h h'' := by
  obtain ⟨new₁, eq₁, all₁⟩ := h₁.captures
  obtain ⟨new₂, eq₂, all₂⟩ := h₂.captures
  refine ⟨h₁.le.trans h₂.le, h₂.pos_le, new₂ ++ new₁, by rw [eq₂, eq₁, List.append_assoc], ?_⟩
  intro c hc
  rcases List.mem_append.1 hc with hc | hc
  · obtain ⟨hg, hs, ht⟩ := all₂ c hc
    exact ⟨hg, fun hf => h₁.le.trans (hs hf), ht⟩
  · exact all₁ c hc

theorem mono (hsub : groups ⊆ groups') (h₁ : Onward size forward groups h h') :
    Onward size forward groups' h h' := by
  obtain ⟨new, eq, all⟩ := h₁.captures
  exact ⟨h₁.le, h₁.pos_le, new, eq, fun c hc => ⟨hsub (all c hc).1, (all c hc).2⟩⟩

theorem moveTo {pos : Nat} (hle : h.pos ≤ pos) (hpos : pos ≤ size) :
    Onward size forward groups h (h.moveTo pos) :=
  ⟨hle, hpos, [], rfl, by simp⟩

/-- Going back to the start of what was looked at keeps what was captured there. -/
theorem lookBack (h₁ : Onward size forward groups h h') (hpos : h.pos ≤ size) :
    Onward size forward groups h (h'.moveTo h.pos) :=
  ⟨le_rfl, hpos, h₁.captures⟩

theorem capture {index : Nat} (h₁ : Onward size forward groups h h') :
    Onward size forward (index :: groups) h (h'.capture index h.pos) := by
  obtain ⟨new, eq, all⟩ := h₁.captures
  refine ⟨h₁.le, h₁.pos_le, ⟨index, h.pos, h'.pos⟩ :: new, by simp [Hit.capture, eq], ?_⟩
  intro c hc
  rcases List.mem_cons.1 hc with rfl | hc
  · exact ⟨List.mem_cons_self, fun _ => le_rfl, h₁.le, h₁.pos_le⟩
  · exact ⟨List.mem_cons_of_mem _ (all c hc).1, (all c hc).2⟩

end Onward

/-! ## Repetition -/

/-- A property that every way to match `body` carries along. -/
def Carries (P : Hit → Prop) (body : Hit → List Hit) : Prop :=
  ∀ h, P h → ∀ h' ∈ body h, P h'

section Repetition

variable {P : Hit → Prop} {body : Hit → List Hit}

theorem mem_of_mem_distinctFrom {seen : List Nat} {hs : List Hit} {x : Hit}
    (hx : x ∈ distinctFrom seen hs) : x ∈ hs := by
  induction hs generalizing seen with
  | nil => simp [distinctFrom] at hx
  | cons h hs ih =>
    simp only [distinctFrom] at hx
    split_ifs at hx
    · exact List.mem_cons_of_mem _ (ih hx)
    · rcases List.mem_cons.1 hx with rfl | hx
      · exact List.mem_cons_self
      · exact List.mem_cons_of_mem _ (ih hx)

theorem mem_of_mem_distinct {hs : List Hit} {x : Hit} (hx : x ∈ distinct hs) : x ∈ hs := by
  match hs with
  | [] => exact hx
  | [_] => exact hx
  | _ :: _ :: _ => exact mem_of_mem_distinctFrom hx

theorem forall_mem_foldl {β : Type} {Q : Hit → Prop} {f : List Hit → β → List Hit}
    {xs : List β} {found : List Hit}
    (hf : ∀ found, (∀ x ∈ found, Q x) → ∀ b ∈ xs, ∀ x ∈ f found b, Q x)
    (hfound : ∀ x ∈ found, Q x) : ∀ x ∈ xs.foldl f found, Q x := by
  induction xs generalizing found with
  | nil => exact hfound
  | cons b xs ih =>
    refine ih (fun found hfound c hc => hf found hfound c (List.mem_cons_of_mem _ hc)) ?_
    exact hf found hfound b List.mem_cons_self

theorem forall_mem_repeated (hbody : Carries P body) (greedy : Bool) (rounds : Nat) :
    ∀ {found : List Hit} {h : Hit}, (∀ x ∈ found, P x) → P h →
      ∀ x ∈ repeated body greedy rounds found h, P x := by
  induction rounds with
  | zero =>
    intro found h hfound hh x hx
    simp only [repeated] at hx
    split_ifs at hx
    · exact hfound x hx
    · rcases List.mem_cons.1 hx with rfl | hx
      · exact hh
      · exact hfound x hx
  | succ rounds ih =>
    intro found h hfound hh x hx
    simp only [repeated] at hx
    have hfold : ∀ {found : List Hit}, (∀ x ∈ found, P x) →
        ∀ x ∈ ((body h).filter (·.pos ≠ h.pos)).foldl (repeated body greedy rounds) found,
          P x := by
      intro found hfound
      refine forall_mem_foldl (fun found hfound b hb => ?_) hfound
      exact ih hfound (hbody h hh b (List.mem_of_mem_filter hb))
    split_ifs at hx
    · exact hfound x hx
    · rcases List.mem_cons.1 hx with rfl | hx
      · exact hh
      · exact hfold hfound x hx
    · refine hfold (fun y hy => ?_) x hx
      rcases List.mem_cons.1 hy with rfl | hy
      · exact hh
      · exact hfound y hy

theorem forall_mem_repeatedOnce (hbody : Carries P body) (greedy : Bool) (size : Nat) {h : Hit}
    (hfirst : ∀ b ∈ body h, P b) : ∀ x ∈ repeatedOnce body greedy size h, P x := by
  intro x hx
  simp only [repeatedOnce, List.mem_reverse] at hx
  refine forall_mem_foldl (fun found hfound b hb y hy => ?_) (by simp) x hx
  have hPb := hfirst b hb
  split_ifs at hy
  · exact hfound y hy
  · rcases List.mem_cons.1 hy with rfl | hy
    · exact hPb
    · exact hfound y hy
  · exact forall_mem_repeated hbody greedy _ hfound hPb y hy

theorem forall_mem_add {s : Explored} {h : Hit} (hs : ∀ x ∈ s.2, P x) (hh : P h) :
    ∀ x ∈ (s.add h).2, P x := by
  intro x hx
  simp only [Explored.add] at hx
  split_ifs at hx
  · exact hs x hx
  · rcases List.mem_cons.1 hx with rfl | hx
    · exact hh
    · exact hs x hx

theorem forall_mem_repeatedUpTo (hbody : Carries P body) (greedy : Bool) (left : Nat) :
    ∀ {s : Explored} {h : Hit}, (∀ x ∈ s.2, P x) → P h →
      ∀ x ∈ (repeatedUpTo body greedy left s h).2, P x := by
  induction left with
  | zero =>
    intro s h hs hh
    exact forall_mem_add hs hh
  | succ left ih =>
    intro s h hs hh
    have hfold : ∀ (bs : List Hit) {s : Explored}, (∀ x ∈ s.2, P x) → (∀ b ∈ bs, P b) →
        ∀ x ∈ (bs.foldl (repeatedUpTo body greedy left) s).2, P x := by
      intro bs
      induction bs with
      | nil => intro s hs _; exact hs
      | cons b bs ihb =>
        intro s hs hbs
        exact ihb (ih hs (hbs b List.mem_cons_self))
          fun c hc => hbs c (List.mem_cons_of_mem _ hc)
    simp only [repeatedUpTo]
    split_ifs
    · exact hs
    · exact forall_mem_add (hfold _ hs (hbody h hh)) hh
    · exact hfold _ (forall_mem_add hs hh) (hbody h hh)

/-- A property of hits that counts repetitions, after an exact number of them. -/
theorem forall_mem_repeatedExactly {P : Nat → Hit → Prop}
    (hbody : ∀ n h, P n h → ∀ h' ∈ body h, P (n + 1) h') (count : Nat) {n : Nat} {hs : List Hit}
    (hhs : ∀ h ∈ hs, P n h) : ∀ x ∈ repeatedExactly body count hs, P (n + count) x := by
  induction count generalizing n hs with
  | zero => simpa [repeatedExactly] using hhs
  | succ count ih =>
    cases hs with
    | nil => simp [repeatedExactly]
    | cons h hs =>
      simp only [repeatedExactly]
      rw [Nat.add_comm count 1, ← Nat.add_assoc]
      refine ih fun x hx => ?_
      obtain ⟨y, hy, hxy⟩ := List.mem_flatMap.1 (mem_of_mem_distinct hx)
      exact hbody n y (hhs y hy) x hxy

/-- **Repetition counts**: a property that every repetition takes one further, and that holds of
fewer repetitions if it holds of more, holds of as many as there must be. -/
theorem forall_mem_repetitions_counted {P : Nat → Hit → Prop}
    (hbody : ∀ n h, P n h → ∀ h' ∈ body h, P (n + 1) h') (hless : ∀ n h, P (n + 1) h → P n h)
    (lo : Nat) (hi : Option Nat) (greedy : Bool) (size : Nat) {h : Hit} (hh : P 0 h) :
    ∀ x ∈ repetitions body lo hi greedy size h, P lo x := by
  intro x hx
  have hcarries (n : Nat) : Carries (P n) body := fun y hy z hz => hless n z (hbody n y hy z hz)
  have hexact (count : Nat) : ∀ y ∈ repeatedExactly body count [h], P count y := by
    intro y hy
    have hcount := forall_mem_repeatedExactly hbody count (by simpa using hh) y hy
    rwa [Nat.zero_add] at hcount
  cases hi with
  | some hi =>
    obtain ⟨y, hy, hxy⟩ := List.mem_flatMap.1 (mem_of_mem_distinct hx)
    rw [List.mem_reverse] at hxy
    exact forall_mem_repeatedUpTo (hcarries lo) greedy _ (by simp) (hexact lo y hy) x hxy
  | none =>
    cases lo with
    | zero =>
      have hx := mem_of_mem_distinct hx
      have hx : x ∈ repeatedOnce body greedy size h ∨ x = h := by
        split_ifs at hx <;> simp at hx <;> tauto
      rcases hx with hx | rfl
      · exact forall_mem_repeatedOnce (hcarries 0) greedy size (hcarries 0 h hh) x hx
      · exact hh
    | succ lo =>
      obtain ⟨y, hy, hxy⟩ := List.mem_flatMap.1 (mem_of_mem_distinct hx)
      exact forall_mem_repeatedOnce (hcarries (lo + 1)) greedy size (hbody lo y (hexact lo y hy))
        x hxy

/-- **Repetition carries along what its body does.** -/
theorem forall_mem_repetitions (hbody : Carries P body) (lo : Nat) (hi : Option Nat)
    (greedy : Bool) (size : Nat) {h : Hit} (hh : P h) :
    ∀ x ∈ repetitions body lo hi greedy size h, P x :=
  forall_mem_repetitions_counted (P := fun _ => P) (fun _ => hbody) (fun _ _ h => h) lo hi greedy
    size hh

end Repetition

/-! ## Ends -/

theorem countBytes?_le_length {bytes count : Nat} {cs : List Char}
    (h : Text.countBytes? bytes cs = some count) : count ≤ cs.length := by
  fun_induction Text.countBytes? bytes cs generalizing count with
  | case1 cs =>
    rw [← Option.some.inj h]
    exact Nat.zero_le _
  | case2 => simp at h
  | case3 bytes c cs _ ih =>
    obtain ⟨rest, hrest, rfl⟩ := Option.map_eq_some_iff.1 h
    have := ih hrest
    simp only [List.length_cons]
    omega
  | case4 => simp at h

theorem referenceEnd?_range {t : Text} {index : Nat} {ignoreCase : Bool} {h : Hit} {pos : Nat}
    (hpos : h.pos ≤ t.size) (he : referenceEnd? t index ignoreCase h = some pos) :
    h.pos ≤ pos ∧ pos ≤ t.size := by
  simp only [referenceEnd?, Option.bind_eq_bind, Option.bind_eq_some_iff] at he
  obtain ⟨c, -, count, hcount, he⟩ := he
  split_ifs at he
  have hlen := countBytes?_le_length hcount
  simp only [Array.length_toList, Array.size_extract, Option.some.injEq] at hlen he
  omega

variable {t : Text} {origin : Nat} {forward : Bool}

theorem mem_step_onward {p : Char → Bool} {groups : List Nat} {h h' : Hit}
    (hh' : h' ∈ Expr.step t p h) : Onward t.size forward groups h h' := by
  simp only [Expr.step] at hh'
  split at hh'
  · rename_i c hc
    have hlt : h.pos < t.size := (Array.getElem?_eq_some_iff.1 hc).1
    split_ifs at hh'
    · rw [List.mem_singleton.1 hh']
      exact .moveTo (Nat.le_succ _) hlt
    · simp at hh'
  · simp at hh'

/-- **Every end lies onward.** An expression matched from a hit ends further on, inside the text,
and captures only its own groups, after the hit. -/
theorem mem_ends_onward (e : Expr) {h h' : Hit} (hpos : h.pos ≤ t.size)
    (hh' : h' ∈ e.ends t origin h) : Onward t.size forward e.captured h h' := by
  induction e generalizing h h' with
  | empty =>
    rw [List.mem_singleton.1 hh']
    exact .refl hpos
  | char c ignoreCase => cases ignoreCase <;> exact mem_step_onward hh'
  | any newline => exact mem_step_onward hh'
  | set s ignoreCase => exact mem_step_onward hh'
  | assert a =>
    simp only [Expr.ends] at hh'
    split_ifs at hh'
    · rw [List.mem_singleton.1 hh']
      exact .refl hpos
    · simp at hh'
  | seq a b iha ihb =>
    -- Whichever way the sequence is listed, an end of it is an end of `b` after one of `a`.
    have key : ∃ x ∈ a.ends t origin h, h' ∈ b.ends t origin x := by
      simp only [Expr.ends] at hh'
      split at hh'
      · simp at hh'
      · rename_i x hx
        exact ⟨x, by simp [hx], hh'⟩
      · exact List.mem_flatMap.1 (mem_of_mem_distinct hh')
    obtain ⟨x, hx, hx'⟩ := key
    have hax := iha hpos hx
    have hbx := ihb hax.pos_le hx'
    exact (hax.mono (List.subset_append_left _ _)).trans
      (hbx.mono (List.subset_append_right _ _))
  | alt a b iha ihb =>
    rcases List.mem_append.1 (mem_of_mem_distinct hh') with hx | hx
    · exact (iha hpos hx).mono (List.subset_append_left _ _)
    · exact (ihb hpos hx).mono (List.subset_append_right _ _)
  | group index e ih =>
    obtain ⟨x, hx, rfl⟩ := List.mem_map.1 hh'
    exact (ih hpos hx).capture
  | rep e lo hi greedy ih =>
    have hcarry : Carries (Onward t.size forward e.captured h) (e.ends t origin) :=
      fun x hx y hy => hx.trans (ih hx.pos_le hy)
    exact forall_mem_repetitions hcarry lo hi greedy t.size (.refl hpos) h' hh'
  | ref index ignoreCase =>
    simp only [Expr.ends] at hh'
    split at hh'
    · rename_i pos he
      obtain ⟨hle, hle'⟩ := referenceEnd?_range hpos he
      rw [List.mem_singleton.1 hh']
      exact .moveTo hle hle'
    · simp at hh'
  | look d negated e ih =>
    cases d with
    | ahead =>
      simp only [Expr.ends] at hh'
      split at hh'
      · rename_i x _ heq
        rw [List.mem_singleton.1 hh']
        exact (ih hpos (by simp [heq])).lookBack hpos
      · rw [List.mem_singleton.1 hh']
        exact .refl hpos
      · simp at hh'
    | behind =>
      simp only [Expr.ends] at hh'
      split_ifs at hh'
      · simp at hh'
      · rw [List.mem_singleton.1 hh']
        exact .refl hpos
  | atomic e ih => exact ih hpos (List.mem_of_mem_take hh')
  | keep =>
    rw [List.mem_singleton.1 hh']
    exact (Onward.refl hpos).capture
  | resume =>
    simp only [Expr.ends] at hh'
    split_ifs at hh'
    · rw [List.mem_singleton.1 hh']
      exact .refl hpos
    · simp at hh'

/-! ## Backtracking -/

/-- A verdict of success that `k` gave at a hit reached from `h`. -/
def GivenOnward (size : Nat) (forward : Bool) (groups : List Nat) (k : Continuation) (h : Hit) (v : Verdict) :
    Prop :=
  ∀ found budget, v = .matched found budget →
    ∃ x left, Onward size forward groups h x ∧ k x left = .matched found budget

section Backtracking

variable {size : Nat} {groups : List Nat} {k : Continuation} {h : Hit}

theorem GivenOnward.self (hpos : h.pos ≤ size) (budget : Nat) :
    GivenOnward size forward groups k h (k h budget) :=
  fun _ _ hv => ⟨h, budget, .refl hpos, hv⟩

theorem GivenOnward.failed (budget : Nat) : GivenOnward size forward groups k h (.failed budget) :=
  fun _ _ hv => by simp at hv

theorem GivenOnward.orElse {v : Verdict} {second : Nat → Verdict}
    (hv : GivenOnward size forward groups k h v)
    (hs : ∀ budget, GivenOnward size forward groups k h (second budget)) :
    GivenOnward size forward groups k h (v.orElse second) := by
  cases v with
  | matched found budget => exact hv
  | exhausted => exact fun _ _ he => by simp [Verdict.orElse] at he
  | failed budget =>
    cases budget with
    | zero => exact fun _ _ he => by simp [Verdict.orElse] at he
    | succ budget => exact hs budget

/-- What is given further on is given onward. -/
theorem GivenOnward.after {x : Hit} {v : Verdict} (hx : Onward size forward groups h x)
    (hv : GivenOnward size forward groups k x v) : GivenOnward size forward groups k h v := by
  intro found budget he
  obtain ⟨y, left, hy, hk⟩ := hv found budget he
  exact ⟨y, left, hx.trans hy, hk⟩

theorem GivenOnward.choose {greedy : Bool} {more less : Nat → Verdict} (budget : Nat)
    (hm : ∀ budget, GivenOnward size forward groups k h (more budget))
    (hl : ∀ budget, GivenOnward size forward groups k h (less budget)) :
    GivenOnward size forward groups k h (choose greedy more less budget) := by
  unfold Regex.choose
  split_ifs
  · exact (hm budget).orElse hl
  · exact (hl budget).orElse hm

theorem givenOnward_fromEach {hs : List Hit} (budget : Nat)
    (hall : ∀ x ∈ hs, Onward size forward groups h x) :
    GivenOnward size forward groups k h (fromEach k hs budget) := by
  induction hs generalizing budget with
  | nil => exact .failed budget
  | cons x hs ih =>
    have hx := hall x List.mem_cons_self
    have hself (budget : Nat) : GivenOnward size forward groups k h (k x budget) :=
      (GivenOnward.self hx.pos_le budget).after hx
    cases hs with
    | nil => exact hself budget
    | cons y hs =>
      exact (hself budget).orElse
        fun left => ih left fun z hz => hall z (List.mem_cons_of_mem _ hz)

/-- A body that hands over to its continuation further on only. -/
def BodyOnward (size : Nat) (forward : Bool) (groups : List Nat) (body : Continuation → Continuation) : Prop :=
  ∀ k h budget, h.pos ≤ size → GivenOnward size forward groups k h (body k h budget)

/-- One more repetition: if the rest is given onward from wherever the body ends, so is the
whole. -/
theorem BodyOnward.again {body : Continuation → Continuation} {rest : Continuation}
    (hbody : BodyOnward size forward groups body) (hpos : h.pos ≤ size) (budget : Nat)
    (hrest : ∀ x left, x.pos ≤ size → GivenOnward size forward groups k x (rest x left)) :
    GivenOnward size forward groups k h (body rest h budget) := by
  intro found left he
  obtain ⟨x, between, hx, hr⟩ := hbody rest h budget hpos found left he
  exact (hrest x between hx.pos_le).after hx found left hr

theorem givenOnward_runCounted {body : Continuation → Continuation}
    (hbody : BodyOnward size forward groups body) (lo : Nat) (hi : Option Nat) (greedy : Bool)
    (rounds : Nat) : ∀ (done : Nat) (h : Hit) (budget : Nat), h.pos ≤ size →
      GivenOnward size forward groups k h (runCounted body lo hi greedy k rounds done h budget) := by
  induction rounds with
  | zero => exact fun _ h budget hpos => .self hpos budget
  | succ rounds ih =>
    intro done h budget hpos
    have hmore (budget : Nat) := hbody.again hpos budget (ih (done + 1))
    simp only [runCounted]
    split_ifs
    · exact .self hpos budget
    · exact hmore budget
    · exact .choose budget hmore (GivenOnward.self hpos)

theorem givenOnward_runNullable {body : Continuation → Continuation}
    (hbody : BodyOnward size forward groups body) (lo : Nat) (greedy : Bool) (rounds : Nat) :
    ∀ (done : Nat) (last : Option Nat) (h : Hit) (budget : Nat), h.pos ≤ size →
      GivenOnward size forward groups k h (runNullable body lo greedy k rounds done last h budget) := by
  induction rounds with
  | zero => exact fun _ _ h budget hpos => .self hpos budget
  | succ rounds ih =>
    intro done last h budget hpos
    have hmore (last : Option Nat) (budget : Nat) :=
      hbody.again hpos budget (ih (done + 1) last)
    simp only [runNullable]
    split_ifs
    · exact .self hpos budget
    · exact hmore last budget
    · exact .choose budget (hmore (some h.pos)) (GivenOnward.self hpos)

theorem givenOnward_afterLook {negated : Bool} {v : Verdict} (hpos : h.pos ≤ size)
    (hv : ∀ found budget, v = .matched found budget →
      Onward size forward groups h (found.moveTo h.pos)) :
    GivenOnward size forward groups k h (afterLook negated h k v) := by
  cases v with
  | matched found budget =>
    have hfound := hv found budget rfl
    simp only [afterLook]
    split_ifs
    · exact .failed budget
    · exact (GivenOnward.self hfound.pos_le budget).after hfound
  | failed budget =>
    simp only [afterLook]
    split_ifs
    · exact .self hpos budget
    · exact .failed budget
  | exhausted => exact fun _ _ he => by simp [afterLook] at he

end Backtracking

theorem GivenOnward.mono {size : Nat} {groups groups' : List Nat} {k : Continuation} {h : Hit}
    {v : Verdict} (hsub : groups ⊆ groups') (hv : GivenOnward size forward groups k h v) :
    GivenOnward size forward groups' k h v := by
  intro found budget he
  obtain ⟨x, left, hx, hk⟩ := hv found budget he
  exact ⟨x, left, hx.mono hsub, hk⟩

/-- What an accepting run has found lies onward. -/
theorem GivenOnward.accepted {size : Nat} {groups : List Nat} {h found : Hit} {budget : Nat}
    {v : Verdict} (hv : GivenOnward size forward groups accepted h v) (he : v = .matched found budget) :
    Onward size forward groups h found := by
  obtain ⟨x, left, hx, hk⟩ := hv found budget he
  simp only [Regex.accepted, Verdict.matched.injEq] at hk
  exact hk.1 ▸ hx

/-- **Every run goes onward.** A plan hands over to what follows only further on, inside the text,
with its own groups captured there, and after the hit if it captures nothing behind. -/
theorem run_onward (p : Plan) (hp : forward = true → p.isForward = true) :
    BodyOnward t.size forward p.captured (p.run t origin) := by
  induction p with
  | direct e =>
    intro k h budget hpos
    exact givenOnward_fromEach budget fun x hx => mem_ends_onward e hpos hx
  | seq a b iha ihb =>
    rw [Plan.isForward, Bool.and_eq_true] at hp
    intro k h budget hpos found left he
    have ha : BodyOnward t.size forward (a.captured ++ b.captured) (a.run t origin) :=
      fun k h budget hpos => (iha (fun hf => (hp hf).1) k h budget hpos).mono
        (List.subset_append_left _ _)
    exact ha.again hpos budget
      (fun x left hx => (ihb (fun hf => (hp hf).2) k x left hx).mono
        (List.subset_append_right _ _)) found left he
  | alt a b iha ihb =>
    rw [Plan.isForward, Bool.and_eq_true] at hp
    intro k h budget hpos
    have ha := iha (fun hf => (hp hf).1) k h budget hpos
    have hb (left : Nat) := ihb (fun hf => (hp hf).2) k h left hpos
    exact (ha.mono (List.subset_append_left _ _)).orElse
      fun left => (hb left).mono (List.subset_append_right _ _)
  | group index p ih =>
    intro k h budget hpos found left he
    obtain ⟨x, between, hx, hk⟩ := ih hp _ h budget hpos found left he
    exact ⟨x.capture index h.pos, between, hx.capture, hk⟩
  | rep p lo hi greedy nullable ih =>
    intro k h budget hpos
    cases hi with
    | none =>
      cases nullable
      · exact givenOnward_runCounted (ih hp) lo none greedy _ 0 h budget hpos
      · exact givenOnward_runNullable (ih hp) lo greedy _ 0 none h budget hpos
    | some hi => exact givenOnward_runCounted (ih hp) lo (some hi) greedy _ 0 h budget hpos
  | ref index ignoreCase =>
    intro k h budget hpos
    simp only [Plan.run]
    split
    · rename_i pos he
      obtain ⟨hle, hle'⟩ := referenceEnd?_range hpos he
      exact (GivenOnward.self hle' budget).after (.moveTo hle hle')
    · exact .failed budget
  | ahead negated p ih =>
    intro k h budget hpos
    refine givenOnward_afterLook hpos fun found left he => ?_
    exact ((ih hp accepted h budget hpos).accepted he).lookBack hpos
  | behind negated width p ih =>
    rw [Plan.isForward, Bool.and_eq_true, List.isEmpty_iff] at hp
    intro k h budget hpos
    simp only [Plan.run]
    split_ifs
    · refine givenOnward_afterLook hpos fun found left he => ?_
      have hback : (h.moveTo (h.pos - width)).pos ≤ t.size := (Nat.sub_le _ _).trans hpos
      obtain ⟨new, heq, hall⟩ :=
        ((ih (fun hf => (hp hf).2) accepted _ budget hback).accepted he).captures
      refine ⟨le_rfl, hpos, new, heq, fun c hc => ⟨(hall c hc).1, fun hf => ?_, (hall c hc).2.2⟩⟩
      -- What is captured behind may lie before the hit, unless nothing is.
      exact absurd (hall c hc).1 (by simp [(hp hf).1])
    · exact givenOnward_afterLook hpos fun found left he => by simp at he
  | atomic p ih =>
    intro k h budget hpos
    simp only [Plan.run]
    split
    · rename_i found left he
      have hfound := (ih hp accepted h budget hpos).accepted he
      exact (GivenOnward.self hfound.pos_le left).after hfound
    · rename_i hv
      exact fun found left he => absurd he (hv found left)

/-! ## Searching -/

/-- **Every match found lies onward.** It starts at or after the position from which the search
started, and its hit is reached from there. -/
theorem search_onward {re : Regex} (hre : forward = true → re.plan.isForward = true) {pos start : Nat} {h : Hit}
    (hfind : re.search t pos = some (start, h)) :
    pos ≤ start ∧ Onward t.size forward re.plan.captured { pos := start } h := by
  have key : ∀ (rounds at_ budget : Nat), at_ + rounds ≤ t.size + 1 →
      re.searchFrom t pos rounds at_ budget = some (start, h) →
      at_ ≤ start ∧ Onward t.size forward re.plan.captured { pos := start } h := by
    intro rounds
    induction rounds with
    | zero => intro at_ budget _ hs; simp [searchFrom] at hs
    | succ rounds ih =>
      intro at_ budget hle hs
      have hnext (left : Nat) (hs : re.searchFrom t pos rounds (at_ + 1) left = some (start, h)) :=
        ih (at_ + 1) left (by omega) hs
      simp only [searchFrom] at hs
      split at hs
      · rename_i found left he
        simp only [Option.some.injEq, Prod.mk.injEq] at hs
        obtain ⟨rfl, rfl⟩ := hs
        have hat : ({ pos := at_ } : Hit).pos ≤ t.size := by
          show at_ ≤ t.size
          omega
        exact ⟨le_rfl, (run_onward re.plan hre accepted _ budget hat).accepted he⟩
      · simp at hs
      · split_ifs at hs
        · exact ⟨by have := (hnext _ hs).1; omega, (hnext _ hs).2⟩
        · split at hs
          · simp at hs
          · exact ⟨by have := (hnext _ hs).1; omega, (hnext _ hs).2⟩
  unfold search at hfind
  by_cases hle : pos ≤ t.size
  · exact key _ _ _ (by omega) hfind
  · have hzero : t.size + 1 - pos = 0 := by omega
    rw [hzero] at hfind
    simp [searchFrom] at hfind

end ModeStack.Regex
