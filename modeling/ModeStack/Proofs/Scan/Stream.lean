import ModeStack.Proofs.Scan.Moves
import ModeStack.Scan.Stream

/-!
# Taking tokens

`Yields` and `Drains` are the loops by which tokens are taken, without any bound on the number of
steps: a scan yields what it has queued, or nothing once it is over, and steps otherwise.
`Reachable` are the states these loops go through.

* `next_of_queued`, `next_of_nothing`, `take_of_some`, `take_of_none`: what the bounded loops give.
* `Sound`: the invariant of reachable states, proved in `sound_of_reachable`.
* `stepsLeft`: what every step of an open scan makes smaller (`step_stepsLeft_lt`).
* `yields_next` and `drains_rest`: the bounded loops that run are the unbounded ones.
* `Drains.tiles`: what is taken until nothing is left tiles the text.
-/

namespace ModeStack.Scan

variable {scan : Scan} {s s' s'' : State}

/-! ## The loops -/

/-- The states in which a scan can be: at the start, after a step of an open scan, and after a
token has been taken. -/
inductive Reachable (scan : Scan) : State → Prop
  | start : Reachable scan scan.start
  | step {s : State} : Reachable scan s → s.closed = false → Reachable scan (scan.step s)
  | take {s : State} {token : Token} {queue : List Token} :
      Reachable scan s → s.queue = token :: queue → Reachable scan { s with queue := queue }

/-- What taking a token gives, and the state afterwards. -/
inductive Yields (scan : Scan) : State → Option Token → State → Prop
  | queued {s : State} {token : Token} {queue : List Token} :
      s.queue = token :: queue → Yields scan s (some token) { s with queue := queue }
  | nothing {s : State} : s.queue = [] → s.closed = true → Yields scan s none s
  | step {s s' : State} {token? : Option Token} :
      s.queue = [] → s.closed = false → Yields scan (scan.step s) token? s' →
      Yields scan s token? s'

/-- The tokens taken until there are none, and the state afterwards. -/
inductive Drains (scan : Scan) : State → List Token → State → Prop
  | none {s s' : State} : Yields scan s none s' → Drains scan s [] s'
  | some {s s' s'' : State} {token : Token} {tokens : List Token} :
      Yields scan s (some token) s' → Drains scan s' tokens s'' →
      Drains scan s (token :: tokens) s''

/-! The bounded loops, one equation for each way they go on. Proofs rewrite with these equations:
once a loop is unfolded, the kernel counts its bound down, and the bound is a large product. -/

theorem next_of_queued {token : Token} {queue : List Token}
    (h : (scan.advance (scan.maxSteps s) s).queue = token :: queue) :
    scan.next s = (some token, { scan.advance (scan.maxSteps s) s with queue := queue }) := by
  rw [next]
  generalize scan.advance (scan.maxSteps s) s = ready at h ⊢
  simp only [h]

theorem next_of_nothing (h : (scan.advance (scan.maxSteps s) s).queue = []) :
    scan.next s = (none, scan.advance (scan.maxSteps s) s) := by
  rw [next]
  generalize scan.advance (scan.maxSteps s) s = ready at h ⊢
  simp only [h]

/-- What a call for the next token gives depends on the state in which the token is found. -/
theorem next_congr {scan' : Scan} (h : scan'.advance (scan'.maxSteps s') s' =
    scan.advance (scan.maxSteps s) s) : scan'.next s' = scan.next s := by
  rw [next, next, h]

theorem take_of_some {token : Token} (h : scan.next s = (some token, s')) (count : Nat) :
    scan.take (count + 1) s = (token :: (scan.take count s').1, (scan.take count s').2) := by
  rw [take, h]

theorem take_of_none (h : scan.next s = (none, s')) (count : Nat) :
    scan.take (count + 1) s = ([], s') := by
  rw [take, h]

theorem run_eq {tokens : List Token} (h : scan.rest scan.start = (tokens, s)) :
    scan.run = (tokens, s.report) := by
  rw [run, h]

theorem run_fst (scan : Scan) : scan.run.1 = (scan.rest scan.start).1 := by
  rcases h : scan.rest scan.start with ⟨tokens, s⟩
  rw [run_eq h]

/-- What is yielded is determined. -/
theorem Yields.unique {token? token?' : Option Token} (h : Yields scan s token? s')
    (h' : Yields scan s token?' s'') : token? = token?' ∧ s' = s'' := by
  induction h with
  | queued hq =>
    cases h' with
    | queued hq' =>
      cases hq.symm.trans hq'
      exact ⟨rfl, rfl⟩
    | nothing hq' => cases hq.symm.trans hq'
    | step hq' => cases hq.symm.trans hq'
  | nothing hq hclosed =>
    cases h' with
    | queued hq' => cases hq.symm.trans hq'
    | nothing => exact ⟨rfl, rfl⟩
    | step _ hopen => cases hclosed.symm.trans hopen
  | step hq hopen _ ih =>
    cases h' with
    | queued hq' => cases hq.symm.trans hq'
    | nothing _ hclosed => cases hclosed.symm.trans hopen
    | step _ _ h' => exact ih h'

/-- So are the tokens. -/
theorem Drains.unique {tokens tokens' : List Token} (h : Drains scan s tokens s')
    (h' : Drains scan s tokens' s'') : tokens = tokens' ∧ s' = s'' := by
  induction h generalizing tokens' with
  | none hy =>
    cases h' with
    | none hy' => exact ⟨rfl, (hy.unique hy').2⟩
    | some hy' => cases (hy.unique hy').1
  | some hy _ ih =>
    cases h' with
    | none hy' => cases (hy.unique hy').1
    | some hy' h' =>
      obtain ⟨htoken, rfl⟩ := hy.unique hy'
      cases htoken
      obtain ⟨rfl, rfl⟩ := ih h'
      exact ⟨rfl, rfl⟩

section Preserved

variable {P : State → Prop} (hstep : ∀ s, P s → s.closed = false → P (scan.step s))
  (htake : ∀ s token queue, P s → s.queue = token :: queue → P { s with queue := queue })

include hstep htake

/-- What steps and taking tokens preserve holds after one token has been taken. -/
theorem Yields.preserves {token? : Option Token} (h : Yields scan s token? s') (hs : P s) :
    P s' ∧ (token? = none → s'.closed = true) ∧
      ∀ token ∈ token?, ∃ u, P u ∧ token ∈ u.queue := by
  induction h with
  | @queued s token queue hq =>
    refine ⟨htake s token queue hs hq, by simp, ?_⟩
    rintro _ ⟨⟩
    exact ⟨s, hs, by simp [hq]⟩
  | nothing hq hclosed => exact ⟨hs, fun _ => hclosed, by simp⟩
  | step hq hopen _ ih => exact ih (hstep _ hs hopen)

/-- **What steps and taking tokens preserve** holds wherever a token is taken, and at the end. -/
theorem Drains.preserves {tokens : List Token} (h : Drains scan s tokens s') (hs : P s) :
    P s' ∧ s'.closed = true ∧ ∀ token ∈ tokens, ∃ u, P u ∧ token ∈ u.queue := by
  induction h with
  | none hy =>
    obtain ⟨hs', hclosed, -⟩ := hy.preserves hstep htake hs
    exact ⟨hs', hclosed rfl, by simp⟩
  | some hy _ ih =>
    obtain ⟨hmid, -, htoken⟩ := hy.preserves hstep htake hs
    obtain ⟨hs', hclosed, htokens⟩ := ih hmid
    exact ⟨hs', hclosed, List.forall_mem_cons.2 ⟨htoken _ rfl, htokens⟩⟩

end Preserved

/-- Steps of an open scan lead from the start to a reachable state. -/
theorem reachable_iterate (scan : Scan) (n : Nat)
    (hopen : ∀ m < n, (scan.step^[m] scan.start).closed = false) :
    Reachable scan (scan.step^[n] scan.start) := by
  induction n with
  | zero => exact .start
  | succ n ih =>
    rw [Function.iterate_succ_apply']
    exact .step (ih fun m hm => hopen m (Nat.lt_succ_of_lt hm)) (hopen n (Nat.lt_succ_self n))

/-! ## The invariant -/

/-- What holds in every reachable state: the place is in order, an ended scan has emitted all of
the text, an open one has not stood still for too long, and the queue tiles the text before the
emitted position. -/
structure Sound (scan : Scan) (s : State) : Prop where
  placed : Placed scan s
  ended : s.closed = true → Ended scan s
  stalled_le : s.closed = false → s.stalled ≤ maxStalled
  queued : ∃ first, Tiles first s.flushed (spansOf s.queue)

theorem sound_start : Sound scan scan.start :=
  ⟨⟨le_rfl, Nat.zero_le _⟩, fun h => by simp [start] at h, fun _ => Nat.zero_le _, 0, rfl⟩

/-- What is queued stays so in a step, and what the step emits follows it. -/
theorem Advances.tiles (h : Advances scan s s') {first : Nat}
    (hq : Tiles first s.flushed (spansOf s.queue)) :
    Tiles first s'.flushed (spansOf s'.queue) := by
  obtain ⟨new, heq, htiles⟩ := h.emits
  rw [heq, spansOf_append]
  exact hq.append htiles

theorem step_stalled_le (hg : scan.grammar.SearchesOnward) (hs : Sound scan s)
    (hopen : s.closed = false) (hopen' : (scan.step s).closed = false) :
    (scan.step s).stalled ≤ maxStalled := by
  rcases step_spec hg hs.placed with ⟨-, -, hended⟩ | ⟨-, h, -⟩ | ⟨-, s₁, h, heq⟩
  · simp [hended.closed] at hopen'
  · rw [h.stalled_eq]
    exact hs.stalled_le hopen
  · rw [heq] at hopen' ⊢
    rcases countStall_spec h hopen with ⟨-, hc⟩ | ⟨-, -, hc⟩ | ⟨-, -, hlt, hc⟩ | ⟨-, -, -, hc⟩
    · rw [hc]
      exact Nat.zero_le _
    · rw [hc]
      exact Nat.zero_le _
    · rw [hc]
      exact hlt
    · rw [hc] at hopen'
      simp [abandon_ended.closed] at hopen'

theorem sound_step (hg : scan.grammar.SearchesOnward) (hs : Sound scan s)
    (hopen : s.closed = false) : Sound scan (scan.step s) := by
  have h := step_advances hg hs.placed hopen
  obtain ⟨first, hq⟩ := hs.queued
  refine ⟨h.placed, fun hc => ?_, step_stalled_le hg hs hopen, first, h.tiles hq⟩
  rcases h.closes with heq | hended
  · simp [heq, hopen] at hc
  · exact hended

theorem sound_take {token : Token} {queue : List Token} (hs : Sound scan s)
    (hq : s.queue = token :: queue) : Sound scan { s with queue := queue } := by
  obtain ⟨first, htiles⟩ := hs.queued
  rw [hq, spansOf_cons] at htiles
  exact ⟨⟨hs.placed.flushed_le, hs.placed.cursor_le⟩,
    fun hc => ⟨hc, (hs.ended hc).flushed, (hs.ended hc).cursor⟩, hs.stalled_le, _, htiles.tail⟩

/-- **Every reachable state is sound.** -/
theorem sound_of_reachable (hg : scan.grammar.SearchesOnward) (h : Reachable scan s) :
    Sound scan s := by
  induction h with
  | start => exact sound_start
  | step _ hopen ih => exact sound_step hg ih hopen
  | take _ hq ih => exact sound_take ih hq

theorem Yields.sound (hg : scan.grammar.SearchesOnward) {token? : Option Token}
    (h : Yields scan s token? s') (hs : Sound scan s) : Sound scan s' := by
  induction h with
  | queued hq => exact sound_take hs hq
  | nothing => exact hs
  | step _ hopen _ ih => exact ih (sound_step hg hs hopen)

/-! ## What is taken tiles the text -/

/-- A token taken starts where the queue does, and the queue then starts where it stops. -/
theorem Yields.tiles (hg : scan.grammar.SearchesOnward) {token : Token}
    (h : Yields scan s (some token) s') (hs : Sound scan s) {first : Nat}
    (hq : Tiles first s.flushed (spansOf s.queue)) :
    token.span.start = first ∧ first < token.span.stop ∧
      Tiles token.span.stop s'.flushed (spansOf s'.queue) := by
  generalize htoken : some token = token? at h
  induction h with
  | queued heq =>
    rw [heq, spansOf_cons] at hq
    rw [Option.some.inj htoken]
    exact hq
  | nothing => simp at htoken
  | step _ hopen _ ih =>
    exact ih (sound_step hg hs hopen) ((step_advances hg hs.placed hopen).tiles hq) htoken

/-- Nothing is taken only from a scan that is over, with nothing queued. -/
theorem Yields.ended_of_none (hg : scan.grammar.SearchesOnward) (h : Yields scan s none s')
    (hs : Sound scan s) {first : Nat} (hq : Tiles first s.flushed (spansOf s.queue)) :
    Ended scan s' ∧ s'.queue = [] ∧ first = scan.text.size := by
  generalize htoken : (none : Option Token) = token? at h
  induction h with
  | queued => simp at htoken
  | nothing heq hclosed =>
    have hended := hs.ended hclosed
    rw [heq, hended.flushed] at hq
    exact ⟨hended, heq, hq⟩
  | step _ hopen _ ih =>
    exact ih (sound_step hg hs hopen) ((step_advances hg hs.placed hopen).tiles hq) htoken

/-- **What is taken until nothing is left tiles the text** from where the queue starts. -/
theorem Drains.tiles (hg : scan.grammar.SearchesOnward) {tokens : List Token}
    (h : Drains scan s tokens s') (hs : Sound scan s) {first : Nat}
    (hq : Tiles first s.flushed (spansOf s.queue)) :
    Tiles first scan.text.size (spansOf tokens) := by
  induction h generalizing first with
  | none hnone => exact (hnone.ended_of_none hg hs hq).2.2
  | some hsome _ ih =>
    obtain ⟨hstart, hlt, hrest⟩ := hsome.tiles hg hs hq
    exact ⟨hstart, hlt, ih (hsome.sound hg hs) hrest⟩

/-! ## Every scan ends -/

/-- A bound on the steps that an open scan can still take: the cursor may stand still
`maxStalled` times before each character. -/
def stepsLeft (scan : Scan) (s : State) : Nat :=
  (scan.text.size - s.cursor) * (maxStalled + 1) + (maxStalled - s.stalled)

theorem stepsLeft_lt_maxSteps (scan : Scan) (s : State) :
    scan.stepsLeft s < scan.maxSteps s := by
  unfold stepsLeft maxSteps
  have hmul : (scan.text.size - s.cursor) * (maxStalled + 1) ≤
      (scan.text.size - s.cursor) * (maxStalled + 2) := Nat.mul_le_mul_left _ (by omega)
  rw [Nat.add_mul]
  omega

/-- When the cursor moves, what is left shrinks whatever the count of standing steps. -/
theorem stepsLeft_lt_of_cursor_lt (hsize : s'.cursor ≤ scan.text.size)
    (hlt : s.cursor < s'.cursor) (hst : s.stalled ≤ maxStalled)
    (h : s'.stalled = s.stalled ∨ s'.stalled = 0) : scan.stepsLeft s' < scan.stepsLeft s := by
  unfold stepsLeft
  obtain ⟨gap, hgap⟩ : ∃ gap, scan.text.size - s.cursor = scan.text.size - s'.cursor + (gap + 1) :=
    ⟨s'.cursor - s.cursor - 1, by omega⟩
  rw [hgap, Nat.add_mul, Nat.succ_mul]
  rcases h with h | h
  · rw [h]
    omega
  · rw [h]
    omega

/-- **Every step of an open scan ends it or leaves fewer steps.** -/
theorem step_stepsLeft_lt (hg : scan.grammar.SearchesOnward) (hs : Sound scan s)
    (hopen : s.closed = false) :
    (scan.step s).closed = true ∨ scan.stepsLeft (scan.step s) < scan.stepsLeft s := by
  have hst := hs.stalled_le hopen
  have hsize := (step_advances hg hs.placed hopen).placed.cursor_le
  rcases step_spec hg hs.placed with ⟨-, -, hended⟩ | ⟨-, h, hlt | hended⟩ | ⟨-, s₁, h, heq⟩
  · exact .inl hended.closed
  · exact .inr (stepsLeft_lt_of_cursor_lt hsize hlt hst (.inl h.stalled_eq))
  · exact .inl hended.closed
  · rw [heq] at hsize ⊢
    rcases countStall_spec h hopen with
      ⟨hended, hc⟩ | ⟨-, hlt, hc⟩ | ⟨-, hcur, hlt, hc⟩ | ⟨-, -, -, hc⟩
    · exact .inl (by rw [hc]; exact hended.closed)
    · rw [hc] at hsize ⊢
      exact .inr (stepsLeft_lt_of_cursor_lt hsize hlt hst (.inr rfl))
    · -- The cursor stands still, and one more step is counted.
      rw [hc]
      refine .inr ?_
      simp only [stepsLeft, hcur]
      omega
    · exact .inl (by rw [hc]; exact abandon_ended.closed)

/-- Enough rounds lead to something queued or to the end of the scan. -/
theorem advance_arrives (hg : scan.grammar.SearchesOnward) (rounds : Nat) (hs : Sound scan s)
    (henough : s.closed = true ∨ scan.stepsLeft s < rounds) :
    (scan.advance rounds s).queue ≠ [] ∨ (scan.advance rounds s).closed = true := by
  induction rounds generalizing s with
  | zero => exact .inr (henough.resolve_right (Nat.not_lt_zero _))
  | succ rounds ih =>
    cases hc : s.closed with
    | true => exact .inr (by simp [advance, hc])
    | false =>
      by_cases hq : s.queue = []
      · have hnext : (scan.step s).closed = true ∨ scan.stepsLeft (scan.step s) < rounds := by
          rcases step_stepsLeft_lt hg hs hc with h | h
          · exact .inl h
          · rw [hc] at henough
            simp only [Bool.false_eq_true, false_or] at henough
            exact .inr (by omega)
        simpa [advance, hq, hc] using ih (sound_step hg hs hc) hnext
      · exact .inl (by simp [advance, hq])

theorem Yields.of_advance {rounds : Nat} {token? : Option Token}
    (h : Yields scan (scan.advance rounds s) token? s') : Yields scan s token? s' := by
  induction rounds generalizing s with
  | zero => exact h
  | succ rounds ih =>
    simp only [advance] at h
    split_ifs at h with hwait
    · simp only [Bool.and_eq_true, List.isEmpty_iff, Bool.not_eq_true'] at hwait
      exact .step hwait.1 hwait.2 (ih h)
    · exact h

/-- **Taking a token always comes to an end**, and the bounded loop is the unbounded one. -/
theorem yields_next (hg : scan.grammar.SearchesOnward) (hs : Sound scan s) :
    Yields scan s (scan.next s).1 (scan.next s).2 := by
  have harrives := advance_arrives hg (scan.maxSteps s) hs (.inr (stepsLeft_lt_maxSteps scan s))
  cases hq : (scan.advance (scan.maxSteps s) s).queue with
  | nil =>
    rw [next_of_nothing hq]
    exact (Yields.nothing hq (harrives.resolve_left (not_not_intro hq))).of_advance
  | cons token queue =>
    rw [next_of_queued hq]
    exact (Yields.queued hq).of_advance

/-- Taking more tokens than there are characters from the queue's start on drains a scan. -/
theorem drains_take (hg : scan.grammar.SearchesOnward) (count : Nat) (hs : Sound scan s)
    {first : Nat} (hq : Tiles first s.flushed (spansOf s.queue))
    (hcount : scan.text.size < first + count) :
    Drains scan s (scan.take count s).1 (scan.take count s).2 := by
  induction count generalizing s first with
  | zero =>
    have hle := hq.le.trans (hs.placed.flushed_le.trans hs.placed.cursor_le)
    omega
  | succ count ih =>
    have hyields := yields_next hg hs
    rcases hnext : scan.next s with ⟨_ | token, s₁⟩
    · rw [hnext] at hyields
      rw [take_of_none hnext]
      exact .none hyields
    · rw [hnext] at hyields
      rw [take_of_some hnext]
      obtain ⟨-, hlt, hrest⟩ := hyields.tiles hg hs hq
      exact .some hyields (ih (hyields.sound hg hs) hrest (by omega))

/-- **Draining a scan always comes to an end**, and the bounded loop is the unbounded one. -/
theorem drains_rest (hg : scan.grammar.SearchesOnward) (hs : Sound scan s) :
    Drains scan s (scan.rest s).1 (scan.rest s).2 := by
  obtain ⟨first, hq⟩ := hs.queued
  exact drains_take hg _ hs hq (by omega)

end ModeStack.Scan
