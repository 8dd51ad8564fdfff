import ModeStack.Proofs.Scan.Stream

/-!
# Strict and lenient scans

A strict scan gives up at the first illegal lexeme, a lenient one takes it as plain text. Until
then the two take the same steps, and giving up comes before anything else of that step
(`strict_step`). So they agree on every token taken before, and the rest of the text becomes a
single token without a scope (`Settled.take`). What the lenient scan does afterwards can only
raise its score (`Gains`).
-/

namespace ModeStack

/-! ## Scores only grow -/

namespace Keyword.Score

/-- From a score within bounds, the second is not smaller and within bounds too. -/
def GrowsTo (score score' : Score) : Prop :=
  score.total ≤ maxScore → score.total ≤ score'.total ∧ score'.total ≤ maxScore

variable {score score' score'' : Score}

theorem GrowsTo.refl (score : Score) : GrowsTo score score := fun h => ⟨le_rfl, h⟩

theorem GrowsTo.trans (h : GrowsTo score score') (h' : GrowsTo score' score'') :
    GrowsTo score score'' := by
  intro hle
  obtain ⟨hle', hmax'⟩ := h hle
  obtain ⟨hle'', hmax''⟩ := h' hmax'
  exact ⟨hle'.trans hle'', hmax''⟩

theorem growsTo_addMode (score : Score) (weight : Nat) : GrowsTo score (score.addMode weight) := by
  intro hle
  simp only [addMode, gain]
  omega

theorem growsTo_addKeyword (score : Score) (word : String) (weight : Nat) :
    GrowsTo score (score.addKeyword word weight) := by
  intro hle
  simp only [addKeyword]
  split_ifs
  · exact growsTo_addMode score weight hle
  · exact ⟨le_rfl, hle⟩

theorem growsTo_foldl (words : List (String × Nat)) (score : Score) :
    GrowsTo score (words.foldl (fun score (word, weight) => score.addKeyword word weight) score) := by
  induction words generalizing score with
  | nil => exact .refl score
  | cons entry words ih => exact (growsTo_addKeyword score entry.1 entry.2).trans (ih _)

end Keyword.Score

namespace Scan

open ModeStack.Regex (Span)
open ModeStack.Keyword.Score (GrowsTo growsTo_addMode growsTo_foldl)

variable {scan : Scan} {s s' s'' : State}

/-- No illegal lexeme has been reported in between, and the score has not fallen. -/
structure Gains (s s' : State) : Prop where
  illegal_eq : s'.illegal = s.illegal
  score : GrowsTo s.score s'.score

theorem Gains.refl (s : State) : Gains s s := ⟨rfl, .refl s.score⟩

theorem Gains.trans (h : Gains s s') (h' : Gains s' s'') : Gains s s'' :=
  ⟨h'.illegal_eq.trans h.illegal_eq, h.score.trans h'.score⟩

theorem gains_withQueue (s : State) (queue : List Token) : Gains s { s with queue := queue } :=
  ⟨rfl, .refl s.score⟩

theorem gains_flush (scan : Scan) (s : State) (upto : Nat) : Gains s (scan.flush s upto) := by
  refine ⟨flush_illegal scan s upto, ?_⟩
  unfold flush
  split_ifs
  · exact .refl _
  · dsimp only
    cases (scan.top s).keywords with
    | none => exact .refl _
    | some table => exact growsTo_foldl _ _

theorem gains_close (scan : Scan) (s : State) : Gains s (scan.close s) :=
  ⟨(gains_flush scan s _).illegal_eq, (gains_flush scan s _).score⟩

theorem gains_passChar (scan : Scan) (s : State) (pos : Nat) : Gains s (scan.passChar s pos) := by
  rcases passChar_cases scan s pos with ⟨-, h⟩ | ⟨-, h⟩
  · rw [h]
    exact ⟨rfl, .refl _⟩
  · rw [h]
    exact gains_close scan s

theorem gains_enter (scan : Scan) (s : State) (mode : Grammar.Mode) (span : Span) :
    Gains s (scan.enter s mode span) := by
  have hflush := gains_flush scan s (enterUpto mode.flags span)
  rw [enter_eq]
  refine ⟨hflush.illegal_eq, ?_⟩
  dsimp only
  split_ifs
  · exact .refl _
  · exact hflush.score.trans (growsTo_addMode _ _)

theorem gains_leave (scan : Scan) (s : State) (span : Span) : Gains s (scan.leave s span) := by
  have hflush := gains_flush scan s (leaveUpto (scan.top s).flags span)
  rw [leave_eq]
  exact ⟨hflush.illegal_eq, hflush.score⟩

theorem gains_startNext (scan : Scan) (s : State) (ended : Nat) :
    Gains s (scan.startNext s ended) := by
  unfold startNext
  split
  · exact .refl s
  · refine ⟨rfl, ?_⟩
    dsimp only
    split_ifs
    · exact .refl _
    · exact growsTo_addMode _ _

theorem gains_countStall (scan : Scan) (s : State) (before : Nat) :
    Gains s (scan.countStall s before) := by
  rcases countStall_eq_or scan s before with ⟨_, h⟩ | ⟨-, h⟩
  · rw [h]
    exact ⟨rfl, .refl _⟩
  · rw [h]
    exact ⟨rfl, .refl _⟩

/-! ## The two scans -/

/-- A scan that gives up at an illegal lexeme. -/
def strict (g : Grammar) (t : Text) : Scan := { grammar := g, text := t, ignoreIllegals := false }

/-- A scan that takes illegal lexemes as plain text. -/
def lenient (g : Grammar) (t : Text) : Scan := { grammar := g, text := t, ignoreIllegals := true }

section

variable (g : Grammar) (t : Text) (s : State)

theorem gains_act_lenient (found : Rule.Found) : Gains s ((lenient g t).act s found) := by
  rcases act_cases (lenient g t) s found with ⟨child, -, h⟩ | ⟨child, -, -, h⟩ | ⟨pos, -, -, h⟩ |
    h | ⟨-, hstrict, -⟩ | ⟨ended, below, -, -, h⟩
  · rw [h]
    have henter := gains_enter (lenient g t) s ((lenient g t).grammar.mode child) found.span
    exact ⟨henter.illegal_eq, henter.score⟩
  · rw [h]
    exact ⟨rfl, .refl _⟩
  · rw [h]
    exact ⟨rfl, .refl _⟩
  · rw [h]
    exact gains_close _ s
  · cases hstrict
  · rw [h]
    have hleave := gains_leave (lenient g t) s found.span
    have hleft : Gains s { (lenient g t).leave s found.span with stack := below } :=
      ⟨hleave.illegal_eq, hleave.score⟩
    exact hleft.trans (gains_startNext _ _ ended)

theorem gains_step_lenient : Gains s ((lenient g t).step s) := by
  rcases step_cases (lenient g t) s with ⟨-, h⟩ | ⟨found, -, -, h⟩ | ⟨found, -, -, h⟩
  · rw [h]
    exact ⟨(gains_close _ _).illegal_eq, (gains_close _ { s with resume := none }).score⟩
  · rw [h]
    exact ⟨(gains_passChar _ _ _).illegal_eq, (gains_passChar _ { s with resume := none } _).score⟩
  · rw [h]
    have hact := gains_act_lenient g t (s.noting found) found
    exact Gains.trans ⟨hact.illegal_eq, hact.score⟩ (gains_countStall _ _ _)

theorem gains_advance_lenient (rounds : Nat) : Gains s ((lenient g t).advance rounds s) := by
  induction rounds generalizing s with
  | zero => exact .refl s
  | succ rounds ih =>
    simp only [advance]
    split_ifs
    · exact (gains_step_lenient g t s).trans (ih _)
    · exact .refl s

theorem gains_next_lenient :
    Gains ((lenient g t).advance ((lenient g t).maxSteps s) s) ((lenient g t).next s).2 := by
  cases hq : ((lenient g t).advance ((lenient g t).maxSteps s) s).queue with
  | nil =>
    rw [next_of_nothing hq]
    exact .refl _
  | cons token queue =>
    rw [next_of_queued hq]
    exact gains_withQueue _ queue

theorem gains_take_lenient_of_next (count : Nat)
    (hrest : ∀ s, Gains s ((lenient g t).take count s).2) :
    Gains ((lenient g t).next s).2 ((lenient g t).take (count + 1) s).2 := by
  rcases hnext : (lenient g t).next s with ⟨_ | token, s₁⟩
  · rw [take_of_none hnext]
    exact .refl s₁
  · rw [take_of_some hnext]
    exact hrest s₁

theorem gains_take_lenient (count : Nat) : Gains s ((lenient g t).take count s).2 := by
  induction count generalizing s with
  | zero => exact .refl s
  | succ count ih =>
    have hnext := (gains_advance_lenient g t s _).trans (gains_next_lenient g t s)
    exact hnext.trans (gains_take_lenient_of_next g t s count ih)

/-- Taking tokens gains on the state in which the first of them is found. -/
theorem gains_take_lenient_succ (count : Nat) :
    Gains ((lenient g t).advance ((lenient g t).maxSteps s) s)
      ((lenient g t).take (count + 1) s).2 :=
  (gains_next_lenient g t s).trans
    (gains_take_lenient_of_next g t s count fun s => gains_take_lenient g t s count)

end

/-! ## Giving up -/

/-- The second state is the first after a strict scan has given up: the pending text and all that
follows is left without a scope. -/
structure GivesUp (t : Text) (s s' : State) : Prop where
  illegal : s'.illegal = true
  closed : s'.closed = true
  queue : s'.queue = s.queue ++ tokensFor none s.flushed t.size
  score : s'.score = s.score

section

variable (g : Grammar) (t : Text) (s : State)

theorem strict_act (found : Rule.Found) :
    (strict g t).act s found = (lenient g t).act s found ∨
      (strict g t).act s found = (strict g t).abandon { s with illegal := true } := by
  unfold act
  cases found.rule with
  | opening child => exact .inl rfl
  | illegal => exact .inr rfl
  | ending => exact .inl rfl

/-- **The two scans take the same step, or the strict one gives up.** -/
theorem strict_step :
    (strict g t).step s = (lenient g t).step s ∨ GivesUp t s ((strict g t).step s) := by
  -- The two find the same, so the same part of a step runs.
  rcases step_cases (strict g t) s with ⟨hf, h⟩ | ⟨found, hf, hv, h⟩ | ⟨found, hf, hv, h⟩
  · have hlenient : (lenient g t).step s = _ := step_of_none hf
    exact .inl (h.trans hlenient.symm)
  · have hlenient : (lenient g t).step s = _ := step_of_vacuous hf hv
    exact .inl (h.trans hlenient.symm)
  · have hlenient : (lenient g t).step s = _ := step_of_found hf hv
    rcases strict_act g t (s.noting found) found with hact | hact
    · rw [hact] at h
      exact .inl (h.trans hlenient.symm)
    · rw [h, hact]
      exact .inr ⟨rfl, rfl, rfl, rfl⟩

end

/-! ## Whole scans -/

theorem advance_of_closed (h : s.closed = true) (rounds : Nat) : scan.advance rounds s = s := by
  cases rounds with
  | zero => rfl
  | succ rounds => simp [advance, h]

theorem take_of_closed (h : s.closed = true) (hq : s.queue = []) (count : Nat) :
    scan.take count s = ([], s) := by
  cases count with
  | zero => rfl
  | succ count =>
    have hready : scan.advance (scan.maxSteps s) s = s := advance_of_closed h _
    have hnext := next_of_nothing ((congrArg State.queue hready).trans hq)
    rw [take_of_none hnext, hready]

theorem take_emptied (h : s.closed = true) (count : Nat) :
    scan.take count { s with queue := [] } = ([], { s with queue := [] }) :=
  take_of_closed (s := { s with queue := [] }) h rfl count

theorem withQueue_eq {queue : List Token} (h : s.queue = queue) :
    { s with queue := queue } = s := by
  subst h
  rfl

/-- A scan that is over with at most one token queued yields that token and nothing else. -/
theorem take_last (count : Nat) (h : (scan.advance (scan.maxSteps s) s).closed = true)
    (hq : (scan.advance (scan.maxSteps s) s).queue.length ≤ 1) :
    scan.take (count + 1) s = ((scan.advance (scan.maxSteps s) s).queue,
      { scan.advance (scan.maxSteps s) s with queue := [] }) := by
  cases hqueue : (scan.advance (scan.maxSteps s) s).queue with
  | nil => rw [take_of_none (next_of_nothing hqueue), withQueue_eq hqueue]
  | cons token queue =>
    have hnil : queue = [] := by simpa [hqueue] using hq
    subst hnil
    rw [take_of_some (next_of_queued hqueue), take_emptied h]

/-- The strict scan has given up, with at most one token left to take, while the lenient one has
gone on. -/
structure Parted (t : Text) (strict lenient : State) : Prop where
  illegal : strict.illegal = true
  closed : strict.closed = true
  queue : ∃ first, strict.queue = tokensFor none first t.size
  total_le : strict.score.total ≤ lenient.score.total

section

variable {t : Text} {strict lenient : State}

theorem Parted.queue_length_le (h : Parted t strict lenient) : strict.queue.length ≤ 1 := by
  obtain ⟨first, hq⟩ := h.queue
  rw [hq]
  unfold tokensFor
  split_ifs <;> simp

/-- What is left to take is all that remains of the text, without a scope. -/
theorem Parted.taken (h : Parted t strict lenient) {last : List Token × State}
    (hlast : last = (strict.queue, { strict with queue := [] })) {total : Nat}
    (htotal : lenient.score.total ≤ total) (tokens : List Token) :
    last.2.illegal = true ∧ last.2.score.total ≤ total ∧
      ∃ kept first, last.1 = kept ++ tokensFor none first t.size ∧ kept <+: tokens := by
  obtain ⟨first, hq⟩ := h.queue
  subst hlast
  exact ⟨h.illegal, h.total_le.trans htotal, [], first, hq, List.nil_prefix⟩

end

section

variable (g : Grammar) (t : Text)

/-- Until there is a token to take, the two scans stay together or part. -/
theorem strict_advance (rounds : Nat) (s : State) (hs : s.score.total ≤ Keyword.maxScore) :
    (strict g t).advance rounds s = (lenient g t).advance rounds s ∨
      Parted t ((strict g t).advance rounds s) ((lenient g t).advance rounds s) := by
  induction rounds generalizing s with
  | zero => exact .inl rfl
  | succ rounds ih =>
    by_cases hwait : (s.queue.isEmpty && !s.closed) = true
    · simp only [advance, if_pos hwait]
      rcases strict_step g t s with hstep | hstep
      · rw [hstep]
        exact ih _ ((gains_step_lenient g t s).score hs).2
      · have hgains := (gains_step_lenient g t s).trans (gains_advance_lenient g t _ rounds)
        have hq : s.queue = [] := by simp_all
        rw [advance_of_closed hstep.closed]
        refine .inr ⟨hstep.illegal, hstep.closed, ⟨s.flushed, ?_⟩, ?_⟩
        · rw [hstep.queue, hq, List.nil_append]
        · rw [hstep.score]
          exact (hgains.score hs).1
    · simp only [advance, if_neg hwait]
      exact .inl trivial

/-- What has been taken from the two scans: the same, or what the strict scan had taken until it
gave up and, for the rest of the text, one token without a scope. -/
theorem strict_take (count : Nat) (s : State) (hs : s.score.total ≤ Keyword.maxScore) :
    (strict g t).take count s = (lenient g t).take count s ∨
    (((strict g t).take count s).2.illegal = true ∧
      ((strict g t).take count s).2.score.total ≤ ((lenient g t).take count s).2.score.total ∧
      ∃ kept first, ((strict g t).take count s).1 = kept ++ tokensFor none first t.size ∧
        kept <+: ((lenient g t).take count s).1) := by
  induction count generalizing s with
  | zero => exact .inl rfl
  | succ count ih =>
    have hmax : (strict g t).maxSteps s = (lenient g t).maxSteps s := rfl
    rcases strict_advance g t ((lenient g t).maxSteps s) s hs with heq | hparted
    · have hnext : (strict g t).next s = (lenient g t).next s := next_congr (by rw [hmax, heq])
      have hgains := (gains_advance_lenient g t s _).trans (gains_next_lenient g t s)
      rcases hres : (lenient g t).next s with ⟨_ | token, s₁⟩
      · rw [take_of_none hres, take_of_none (hnext.trans hres)]
        exact .inl rfl
      · rw [hres] at hgains
        rw [take_of_some hres, take_of_some (hnext.trans hres)]
        rcases ih s₁ (hgains.score hs).2 with heq | ⟨hill, hle, kept, first, htok, hprefix⟩
        · rw [heq]
          exact .inl rfl
        · refine .inr ⟨hill, hle, token :: kept, first, ?_, ?_⟩
          · simp only [htok, List.cons_append]
          · exact List.cons_prefix_cons.2 ⟨rfl, hprefix⟩
    · -- The strict scan yields its last token, if any, and nothing after that.
      have hgains := gains_take_lenient_succ g t s count
      have hbound := ((gains_advance_lenient g t s ((lenient g t).maxSteps s)).score hs).2
      rw [← hmax] at hparted hgains
      have hlast := take_last count hparted.closed hparted.queue_length_le
      exact .inr (hparted.taken hlast (hgains.score hbound).1 _)

theorem State.report_relevance_le {s s' : State} (h : s.score.total ≤ s'.score.total) :
    s.report.relevance ≤ s'.report.relevance := h

/-- Tokens that end with one for all that was left cover what precedes it. -/
theorem tiles_of_tiles_rest {kept : List Token} {first size : Nat} (hle : first ≤ size)
    (h : Tiles 0 size (spansOf (kept ++ tokensFor none first size))) :
    Tiles 0 first (spansOf kept) := by
  rw [spansOf_append] at h
  obtain ⟨mid, hkept, hrest⟩ := h.exists_of_append
  unfold tokensFor at hrest
  split_ifs at hrest with hlt
  · have heq : first = mid := hrest.1
    rwa [heq]
  · have hmid : mid = size := hrest
    have heq : first = size := by omega
    rwa [heq, ← hmid]

/-- **Strict and lenient scans agree up to the first illegal lexeme.** A lenient scan reports
none. A strict scan that reports none ends as the lenient one does, with the same tokens, score
and open modes. One that does report it has yielded some of the tokens of the lenient scan, the
first ones, and then all that was left as one token without a scope, and its score is no higher. -/
theorem strict_agrees_until_illegal :
    ((lenient g t).rest (lenient g t).start).2.illegal = false ∧
    (((strict g t).rest (strict g t).start).2.illegal = false →
      (strict g t).rest (strict g t).start = (lenient g t).rest (lenient g t).start) ∧
    (((strict g t).rest (strict g t).start).2.illegal = true →
      ((strict g t).rest (strict g t).start).2.report.relevance ≤
        ((lenient g t).rest (lenient g t).start).2.report.relevance ∧
      ∃ kept first, first ≤ t.size ∧
        ((strict g t).rest (strict g t).start).1 = kept ++ tokensFor none first t.size ∧
        kept <+: ((lenient g t).rest (lenient g t).start).1 ∧
        (g.SearchesOnward → Tiles 0 first (spansOf kept))) := by
  have hlenient := (gains_take_lenient g t (lenient g t).start (t.size + 1)).illegal_eq
  refine ⟨hlenient, ?_⟩
  rcases strict_take g t (t.size + 1) (strict g t).start (Nat.zero_le _) with
    heq | ⟨hill, hle, kept, first, htok, hprefix⟩
  · refine ⟨fun _ => heq, fun hill => ?_⟩
    have hsame := congrArg (fun result => result.2.illegal) heq
    exact absurd ((hsame.symm.trans hill).symm.trans hlenient) (by simp [start])
  · refine ⟨fun hnot => absurd (hill.symm.trans hnot) (by simp),
      fun _ => ⟨State.report_relevance_le hle, ?_⟩⟩
    have hmin : tokensFor none first t.size = tokensFor none (min first t.size) t.size := by
      unfold tokensFor
      rcases Nat.lt_or_ge first t.size with hlt | hge
      · rw [min_eq_left hlt.le]
      · rw [min_eq_right hge, if_neg (not_lt.2 hge), if_neg (lt_irrefl _)]
    rw [hmin] at htok
    refine ⟨kept, min first t.size, min_le_right _ _, htok, hprefix, fun hg => ?_⟩
    have hdrains : Drains (strict g t) (strict g t).start _ _ := drains_rest hg sound_start
    have htiles := hdrains.tiles hg sound_start rfl
    have hrest : ((strict g t).rest (strict g t).start).1 = _ := htok
    rw [hrest] at htiles
    exact tiles_of_tiles_rest (min_le_right _ _) htiles

end

/-- Letters in a text where exclamation marks are illegal. -/
def exclaiming : Grammar.Draft where
  name := "exclaiming"
  definitions := #[
    { scope := some "letter", opening := some "[a-z]" },
    { contains := [.mode 0], illegal := some "!" }]
  root := some 1

/-- A strict scan that gives up at an exclamation mark. -/
theorem exclaiming_agrees_until_illegal : ∃ g, exclaiming.build = .ok g ∧
    ((strict g #['a', '!', 'b']).rest (strict g #['a', '!', 'b']).start).2.illegal = true ∧
    ∃ kept first,
      ((strict g #['a', '!', 'b']).rest (strict g #['a', '!', 'b']).start).1 =
        kept ++ tokensFor none first 3 ∧
      kept <+: ((lenient g #['a', '!', 'b']).rest (lenient g #['a', '!', 'b']).start).1 := by
  obtain ⟨g, hbuild, hill⟩ := exclaiming.exists_built (fun g =>
    ((strict g #['a', '!', 'b']).rest (strict g #['a', '!', 'b']).start).2.illegal = true)
    (by decide +kernel)
  obtain ⟨-, kept, first, -, htok, hkept, -⟩ := (strict_agrees_until_illegal g _).2.2 hill
  exact ⟨g, hbuild, hill, kept, first, htok, hkept⟩

end Scan

end ModeStack
