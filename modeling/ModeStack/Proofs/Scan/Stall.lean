import ModeStack.Proofs.Scan.Blank

/-!
# The counter of standing steps

A scan whose cursor stands still for too long is abandoned. The counter that decides this is
meant to be at most the number of the most recent consecutive steps that left the cursor where it
was. It is, as long as no end is suppressed while steps are being counted: the step that passes
the character at a suppressed end moves the cursor but does not reset the counter.

* `stalled_le_standing_iff`: the counter is right along a whole run exactly if every suppressed
  end came when the counter was at zero; and then the guard fires only after `maxStalled` steps
  in one place.
* `blank_guard_fires`: a mode that opens and closes everywhere raises the counter twice for each
  character, so its scan is abandoned in the middle of a text although the cursor keeps moving.
-/

namespace ModeStack.Scan

variable {scan : Scan} {s : State} {us : List State}

/-! ## Runs and standing still -/

/-- A run so far: the states in which steps were made, the latest first, and the present one. -/
inductive Run (scan : Scan) : List State → State → Prop
  | start : Run scan [] scan.start
  | step {us : List State} {s : State} :
      Run scan us s → s.closed = false → Run scan (s :: us) (scan.step s)
  | take {us : List State} {s : State} {token : Token} {queue : List Token} :
      Run scan us s → s.queue = token :: queue → Run scan us { s with queue := queue }

/-- The number of the most recent consecutive steps that left the cursor where it is. -/
def standing (us : List State) (s : State) : Nat :=
  (us.takeWhile (·.cursor = s.cursor)).length

theorem standing_cons_of_eq {u : State} (h : s.cursor = u.cursor) :
    standing (u :: us) s = standing us u + 1 := by
  simp [standing, h]

theorem standing_cons_of_ne {u : State} (h : u.cursor ≠ s.cursor) : standing (u :: us) s = 0 := by
  simp [standing, h]

theorem Run.reachable (h : Run scan us s) : Reachable scan s := by
  induction h with
  | start => exact .start
  | step _ hopen ih => exact .step ih hopen
  | take _ hq ih => exact .take ih hq

/-- Every reachable state is the present one of some run. -/
theorem Reachable.run (h : Reachable scan s) : ∃ us, Run scan us s := by
  induction h with
  | start => exact ⟨[], .start⟩
  | step _ hopen ih =>
    obtain ⟨us, hrun⟩ := ih
    exact ⟨_, hrun.step hopen⟩
  | take _ hq ih =>
    obtain ⟨us, hrun⟩ := ih
    exact ⟨us, hrun.take hq⟩

/-- Each state in which a step was made was the present one of a shorter run, and open. -/
theorem Run.of_suffix (h : Run scan us s) {v : State} {vs : List State} (hv : v :: vs <:+ us) :
    Run scan vs v ∧ v.closed = false := by
  induction h with
  | start => simp at hv
  | @step us u hrun hopen ih =>
    rcases List.suffix_cons_iff.1 hv with heq | hv
    · obtain ⟨rfl, rfl⟩ := List.cons.inj heq
      exact ⟨hrun, hopen⟩
    · exact ih hv
  | take _ _ ih => exact ih hv

/-! ## What the counter counts -/

/-- What a step that leaves the scan open does to the counter: a suppressed end moves the cursor
and leaves the counter alone, another step that moves the cursor resets it, and one that does not
raises it. -/
theorem step_stalled (hg : scan.grammar.SearchesOnward) (hs : Placed scan s)
    (hopen : s.closed = false) (hopen' : (scan.step s).closed = false) :
    (scan.suppresses s = true ∧ s.cursor < (scan.step s).cursor ∧
      (scan.step s).stalled = s.stalled) ∨
    (scan.suppresses s = false ∧ s.cursor < (scan.step s).cursor ∧ (scan.step s).stalled = 0) ∨
    (scan.suppresses s = false ∧ (scan.step s).cursor = s.cursor ∧
      (scan.step s).stalled = s.stalled + 1) := by
  rcases step_spec hg hs with ⟨-, -, hended⟩ | ⟨hsup, h, hlt | hended⟩ | ⟨hsup, s₁, h, heq⟩
  · simp [hended.closed] at hopen'
  · exact .inl ⟨hsup, hlt, h.stalled_eq⟩
  · simp [hended.closed] at hopen'
  · rw [heq] at hopen' ⊢
    rcases countStall_spec h hopen with
      ⟨hended, hc⟩ | ⟨-, hlt, hc⟩ | ⟨-, hcur, -, hc⟩ | ⟨-, -, -, hc⟩
    · rw [hc] at hopen'
      simp [hended.closed] at hopen'
    · rw [hc]
      exact .inr (.inl ⟨hsup, hlt, rfl⟩)
    · rw [hc]
      exact .inr (.inr ⟨hsup, hcur, rfl⟩)
    · rw [hc] at hopen'
      simp [abandon_ended.closed] at hopen'

/-- If every suppressed end came at zero, the counter is at most the number of standing steps. -/
theorem Run.stalled_le (hg : scan.grammar.SearchesOnward) (h : Run scan us s)
    (hopen : s.closed = false)
    (hsup : ∀ u ∈ us, scan.suppresses u = true → u.stalled = 0) :
    s.stalled ≤ standing us s := by
  induction h with
  | start => exact Nat.zero_le _
  | take _ _ ih => exact ih hopen hsup
  | @step us u hrun hopenu ih =>
    have hu := sound_of_reachable hg hrun.reachable
    rcases step_stalled hg hu.placed hopenu hopen with
      ⟨hs, -, hst⟩ | ⟨-, -, hst⟩ | ⟨-, hcur, hst⟩
    · rw [hst, hsup u List.mem_cons_self hs]
      exact Nat.zero_le _
    · rw [hst]
      exact Nat.zero_le _
    · rw [hst, standing_cons_of_eq hcur]
      exact Nat.succ_le_succ (ih hopenu fun v hv => hsup v (List.mem_cons_of_mem _ hv))

/-- After a suppressed end the cursor has just moved, and the counter is what it was. -/
theorem Run.exists_of_suppresses (hg : scan.grammar.SearchesOnward) (h : Run scan us s)
    (hopen : s.closed = false) {u : State} (hu : u ∈ us) (hsup : scan.suppresses u = true) :
    ∃ v vs, v :: vs <:+ s :: us ∧ v.stalled = u.stalled ∧ standing vs v = 0 := by
  induction h with
  | start => simp at hu
  | @take us s token queue _ _ ih =>
    obtain ⟨v, vs, hv, hst, hstand⟩ := ih hopen hu
    rcases List.suffix_cons_iff.1 hv with heq | hv
    · obtain ⟨rfl, rfl⟩ := List.cons.inj heq
      exact ⟨{ v with queue := queue }, vs, List.suffix_refl _, hst, hstand⟩
    · exact ⟨v, vs, List.suffix_cons_iff.2 (.inr hv), hst, hstand⟩
  | @step us s hrun hopens ih =>
    rcases List.mem_cons.1 hu with rfl | hu
    · have hsound := sound_of_reachable hg hrun.reachable
      refine ⟨scan.step u, u :: us, List.suffix_refl _, ?_⟩
      rcases step_stalled hg hsound.placed hopens hopen with ⟨-, hlt, hst⟩ | ⟨hs, -⟩ | ⟨hs, -⟩
      · exact ⟨hst, standing_cons_of_ne hlt.ne⟩
      · simp [hs] at hsup
      · simp [hs] at hsup
    · obtain ⟨v, vs, hv, hst, hstand⟩ := ih hopens hu
      exact ⟨v, vs, List.suffix_cons_iff.2 (.inr hv), hst, hstand⟩

/-! ## A run in which the counter grows and the cursor moves -/

variable {i n : Nat}

/-- The point that an open scan has reached, with nothing illegal found. -/
structure At (s : State) (stack : List Nat) (cursor flushed stalled : Nat) : Prop where
  stack_eq : s.stack = stack
  cursor_eq : s.cursor = cursor
  flushed_eq : s.flushed = flushed
  stalled_eq : s.stalled = stalled
  resume_eq : s.resume = none
  open_eq : s.closed = false
  legal : s.illegal = false

theorem countStall_of_lt (hopen : s.closed = false) (hcur : s.cursor ≤ i)
    (hlt : s.stalled < maxStalled) :
    scan.countStall s i = { s with stalled := s.stalled + 1 } := by
  simp [countStall, hopen, hcur, Nat.not_lt.2 (Nat.succ_le_of_lt hlt)]

theorem countStall_of_eq (hopen : s.closed = false) (hcur : s.cursor ≤ i)
    (hmax : s.stalled = maxStalled) :
    scan.countStall s i = scan.abandon { s with stalled := s.stalled + 1 } := by
  simp [countStall, hopen, hcur, hmax]

theorem At.opened (hb : scan.grammar.IsBlank) (h : At s [0] i i n) (hi : i ≤ scan.text.size)
    (hn : n < maxStalled) :
    At (scan.step s) [1, 0] i i (n + 1) ∧ (scan.step s).last = some ⟨true, i⟩ := by
  obtain ⟨hstack, hcur, hflushed, rfl, hres, hopen, hlegal⟩ := h
  rw [blank_step_open hb hstack hcur hflushed hres hi, countStall_of_lt]
  · exact ⟨⟨rfl, hcur, hflushed, rfl, hres, hopen, hlegal⟩, rfl⟩
  · exact hopen
  · exact hcur.le
  · exact hn

theorem At.passed (hb : scan.grammar.IsBlank) (h : At s [1, 0] i i n)
    (hlast : s.last = some ⟨true, i⟩) (hi : i < scan.text.size) :
    At (scan.step s) [1, 0] (i + 1) i n ∧ (scan.step s).last = some ⟨true, i⟩ := by
  obtain ⟨hstack, hcur, hflushed, hstalled, hres, hopen, hlegal⟩ := h
  rw [blank_step_pass hb hstack hcur hlast hres hi]
  exact ⟨⟨hstack, rfl, hflushed, hstalled, hres, hopen, hlegal⟩, hlast⟩

theorem At.ended (hb : scan.grammar.IsBlank) (h : At s [1, 0] (i + 1) i n)
    (hlast : s.last = some ⟨true, i⟩) (hi : i < scan.text.size) (hn : n < maxStalled) :
    At (scan.step s) [0] (i + 1) (i + 1) (n + 1) := by
  obtain ⟨hstack, hcur, hflushed, rfl, hres, hopen, hlegal⟩ := h
  rw [blank_step_close hb hstack hcur hflushed hlast hres hi, countStall_of_lt]
  · exact ⟨rfl, hcur, rfl, rfl, hres, hopen, hlegal⟩
  · exact hopen
  · exact hcur.le
  · exact hn

/-- A blank scan gets past every character for which the counter has room. Of the three steps
that each takes, two are counted, and at the end of them the cursor has stood for one. -/
theorem exists_run_at (hb : scan.grammar.IsBlank) (hi : i ≤ scan.text.size)
    (hmax : 2 * i ≤ maxStalled) :
    ∃ us s, Run scan us s ∧ At s [0] i i (2 * i) ∧ standing us s ≤ 1 := by
  induction i with
  | zero => exact ⟨[], scan.start, .start, ⟨rfl, rfl, rfl, rfl, rfl, rfl, rfl⟩, Nat.zero_le _⟩
  | succ i ih =>
    obtain ⟨us, s, hrun, h, -⟩ := ih (by omega) (by omega)
    obtain ⟨h₁, hlast₁⟩ := h.opened hb (by omega) (by omega)
    obtain ⟨h₂, hlast₂⟩ := h₁.passed hb hlast₁ hi
    have h₃ := h₂.ended hb hlast₂ hi (by omega)
    refine ⟨_, _, ((hrun.step h.open_eq).step h₁.open_eq).step h₂.open_eq, h₃, ?_⟩
    rw [standing_cons_of_eq (h₃.cursor_eq.trans h₂.cursor_eq.symm), standing_cons_of_ne]
    rw [h₁.cursor_eq, h₂.cursor_eq]
    omega

/-! ## Lack of progress -/

/-- **When the counter measures lack of progress.** Along a run, the counter is at every point at
most the number of the most recent consecutive steps that left the cursor where it was, exactly
if every end suppressed on the way came when the counter was at zero. In that case, if the guard
abandons the scan in the next step, the cursor has not moved for `maxStalled` steps. -/
theorem stalled_le_standing_iff (hg : scan.grammar.SearchesOnward) (h : Run scan us s)
    (hopen : s.closed = false) :
    ((∀ v vs, v :: vs <:+ s :: us → v.stalled ≤ standing vs v) ↔
      ∀ u ∈ us, scan.suppresses u = true → u.stalled = 0) ∧
    ((∀ u ∈ us, scan.suppresses u = true → u.stalled = 0) →
      maxStalled < (scan.step s).stalled → maxStalled ≤ standing us s) := by
  refine ⟨⟨fun hall u hu hsup => ?_, fun hsup v vs hv => ?_⟩, fun hsup hguard => ?_⟩
  · obtain ⟨v, vs, hv, hst, hstand⟩ := h.exists_of_suppresses hg hopen hu hsup
    have hle := hall v vs hv
    rw [hst, hstand] at hle
    exact Nat.le_zero.1 hle
  · rcases List.suffix_cons_iff.1 hv with heq | hv
    · obtain ⟨rfl, rfl⟩ := List.cons.inj heq
      exact h.stalled_le hg hopen hsup
    · obtain ⟨hrun, hopenv⟩ := h.of_suffix hv
      have hsub : vs ⊆ us := List.Subset.trans (List.suffix_cons v vs).subset hv.subset
      exact hrun.stalled_le hg hopenv fun u hu => hsup u (hsub hu)
  · have hle := h.stalled_le hg hopen hsup
    have hs := sound_of_reachable hg h.reachable
    have hbefore : maxStalled ≤ s.stalled := by
      rcases step_spec hg hs.placed with ⟨-, hm, -⟩ | ⟨-, hm, -⟩ | ⟨-, s₁, hm, heq⟩
      · rw [hm.stalled_eq] at hguard
        exact hguard.le
      · rw [hm.stalled_eq] at hguard
        exact hguard.le
      · rw [heq] at hguard
        rcases countStall_spec hm hopen with
          ⟨-, hc⟩ | ⟨-, -, hc⟩ | ⟨-, -, hlt, hc⟩ | ⟨-, -, hmax, -⟩
        · rw [hc] at hguard
          exact absurd hguard (Nat.not_lt_zero _)
        · rw [hc] at hguard
          exact absurd hguard (Nat.not_lt_zero _)
        · rw [hc] at hguard
          exact absurd hguard (Nat.not_lt.2 hlt)
        · exact hmax
    exact hbefore.trans hle

/-- When the child of the blank grammar has opened, the counter is right: one step was made, and
it was made in place. -/
theorem blank_stalled_le_standing :
    ∃ g, Grammar.blank.build = .ok g ∧ g.SearchesOnward ∧
      let scan : Scan := { grammar := g, text := #['a'] }
      let s := scan.step scan.start
      Run scan [scan.start] s ∧ s.closed = false ∧ s.stalled = 1 ∧
        (∀ v vs, v :: vs <:+ [s, scan.start] → v.stalled ≤ standing vs v) := by
  obtain ⟨g, hbuild, hg, hb⟩ := Grammar.blank_builds
  let scan : Scan := { grammar := g, text := #['a'] }
  have hb : scan.grammar.IsBlank := hb
  have hg : scan.grammar.SearchesOnward := hg
  have hstart : At scan.start [0] 0 0 0 := ⟨rfl, rfl, rfl, rfl, rfl, rfl, rfl⟩
  obtain ⟨h, -⟩ := hstart.opened hb (Nat.zero_le _) (by decide)
  have hrun : Run scan [scan.start] (scan.step scan.start) := .step .start rfl
  have hiff := stalled_le_standing_iff hg hrun h.open_eq
  exact ⟨g, hbuild, hg, hrun, h.open_eq, h.stalled_eq, hiff.1.2 (by simp [start])⟩

/-- **The guard can fire while the cursor moves.** In a text of 5001 letters, the blank grammar
has its counter at `maxStalled` when the cursor has stood for at most one step. The next step
abandons the scan, and emits the last letter without a scope, though nothing illegal was
found. -/
theorem blank_guard_fires :
    ∃ g, Grammar.blank.build = .ok g ∧ g.SearchesOnward ∧
      let scan : Scan := { grammar := g, text := Array.replicate 5001 'a' }
      ∃ us s, Run scan us s ∧ s.closed = false ∧ s.cursor = 5000 ∧ standing us s ≤ 1 ∧
        ¬ s.stalled ≤ standing us s ∧
        (scan.step s).closed = true ∧ (scan.step s).illegal = false ∧
        (scan.step s).queue = s.queue ++ [⟨none, ⟨5000, 5001⟩⟩] := by
  obtain ⟨g, hbuild, hg, hb⟩ := Grammar.blank_builds
  let scan : Scan := { grammar := g, text := Array.replicate 5001 'a' }
  have hb : scan.grammar.IsBlank := hb
  have hsize : scan.text.size = 5001 := Array.size_replicate
  have hlt : 5000 ≤ scan.text.size := hsize ▸ Nat.le_of_ble_eq_true rfl
  obtain ⟨us, s, hrun, h, hstand⟩ := exists_run_at hb hlt (by decide)
  have hstep : scan.step s = scan.abandon _ :=
    (blank_step_open hb h.stack_eq h.cursor_eq h.flushed_eq h.resume_eq hlt).trans
      (countStall_of_eq h.open_eq h.cursor_eq.le h.stalled_eq)
  refine ⟨g, hbuild, hg, us, s, hrun, h.open_eq, h.cursor_eq, hstand, ?_, ?_, ?_, ?_⟩
  · rw [h.stalled_eq]
    omega
  · rw [hstep]
    rfl
  · rw [hstep]
    exact h.legal
  · rw [hstep]
    simp only [abandon, h.flushed_eq, hsize]
    rfl

end ModeStack.Scan
