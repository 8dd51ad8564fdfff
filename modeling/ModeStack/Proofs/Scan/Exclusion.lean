import ModeStack.Proofs.Scan.Deferral
import ModeStack.Proofs.Scan.Rejection

/-!
# Delimiters left to the parent

A mode can leave its opening or its closing delimiter to what is around it (`Excludes`). An opening
delimiter is emitted at once, before the mode is on the stack. A closing one stays pending when the
mode has been taken off the stack, and is emitted by whatever emits text next: the beginning of
another mode, the end of the mode around it, or the end of the text.

**Emitted text** (`ReadIn`). What a step emits, unless it abandons the scan, is read in the stack
before the step: each token is a classified word or has the scope of the nearest mode with a scope
(`step_reads`).

**Pending text.** While a position stays pending, the scope in which it will be read changes only
where a structural mode ends and moves it (`Moves.scope`, `Displaces`). So it is emitted in the
scope in which it was left (`emitted_of_pending`).

Main result: `excluded_read_around`. What the ended mode starts is on the stack before a closing
delimiter is emitted, and takes it over if it has a scope: `starting_takes_delimiter`.
-/

namespace ModeStack.Scan

open ModeStack.Regex (Span)

variable {scan : Scan} {s s' : State} {stack : List Nat} {found : Rule.Found} {p : Nat}

/-! ## Tokens and what they are read in -/

/-- The token lies over a position. -/
def Token.Covers (token : Token) (p : Nat) : Prop :=
  token.span.start ≤ p ∧ p < token.span.stop

/-- The token is a word in a class of the keyword table of some mode. -/
def IsWord (scan : Scan) (token : Token) : Prop :=
  ∃ index table found, (scan.grammar.mode index).keywords = some table ∧
    table.classify (token.text scan.text) = some found ∧ token.scope = some found.cls

/-- The token is a word or has the scope of the nearest mode on the stack that has one and is not
structural only. -/
def ReadIn (scan : Scan) (stack : List Nat) (token : Token) : Prop :=
  scan.IsWord token ∨ token.scope = scan.scopeOf stack

/-- A position in a tiled stretch lies in one of the tokens. -/
theorem exists_covers {a b : Nat} {tokens : List Token} (h : Tiles a b (spansOf tokens))
    (ha : a ≤ p) (hb : p < b) : ∃ token ∈ tokens, token.Covers p := by
  induction tokens generalizing a with
  | nil =>
    have heq : a = b := h
    omega
  | cons token tokens ih =>
    obtain ⟨hstart, -, hrest⟩ := h
    by_cases hlt : p < token.span.stop
    · exact ⟨token, List.mem_cons_self, hstart.le.trans ha, hlt⟩
    · obtain ⟨token', hmem, hcovers⟩ := ih hrest (not_lt.1 hlt)
      exact ⟨token', List.mem_cons_of_mem _ hmem, hcovers⟩

/-- The scope of a stack is that of its innermost mode, if it has one and is not structural only,
and else the scope of the rest. -/
theorem scopeOf_cons (index : Nat) (stack : List Nat) : scan.scopeOf (index :: stack) =
    (if (scan.grammar.mode index).flags.skip then none else (scan.grammar.mode index).scope).or
      (scan.scopeOf stack) := by
  unfold scopeOf
  dsimp only
  rw [List.find?_cons]
  cases hskip : (scan.grammar.mode index).flags.skip with
  | true => simp only [Bool.not_true, Bool.and_false, if_true, Option.none_or]
  | false =>
    cases hscope : (scan.grammar.mode index).scope with
    | none => simp only [Option.isSome_none, Bool.false_and, ite_self, Option.none_or]
    | some scope =>
      simp only [Option.isSome_some, Bool.not_false, Bool.and_self, Option.bind_some, hscope,
        Bool.false_eq_true, if_false, Option.some_or]

/-! ## What is emitted -/

/-- A part of a part of a text is a part of the text. -/
theorem between_extract (t : Text) {a b x y : Nat} (h : a + y ≤ b) :
    Text.between (t.extract a b) x y = t.between (a + x) (a + y) := by
  unfold Text.between
  rw [Array.extract_extract, Nat.min_eq_left h]

/-- The tokens of a piece that starts at `base` are plain or words of the table. -/
theorem mem_splitFrom {c : Classifier} (hc : c.pattern.SearchesOnward) {piece : Text}
    {base rounds : Nat} {token : Token} : ∀ {plain pos : Nat},
      token ∈ (c.splitFrom piece base rounds plain pos).tokens →
      token.scope = c.scope ∨ ∃ start stop found, start < stop ∧ stop ≤ piece.size ∧
        token = ⟨some found.cls, ⟨base + start, base + stop⟩⟩ ∧
        c.table.classify (piece.between start stop) = some found := by
  induction rounds with
  | zero =>
    intro plain pos h
    exact .inl (scope_of_mem_tokensFor h)
  | succ rounds ih =>
    intro plain pos h
    unfold Classifier.splitFrom at h
    split at h
    · exact .inl (scope_of_mem_tokensFor h)
    · rename_i start stop hfind
      have hw := hc piece pos _ hfind
      split_ifs at h with hempty
      · split at h
        · exact ih h
        · exact .inl (scope_of_mem_tokensFor h)
      · dsimp only at h
        split at h
        · exact ih h
        · rename_i found hclass
          split_ifs at h
          · exact ih h
          · rcases List.mem_append.1 h with h | h
            · exact .inl (scope_of_mem_tokensFor h)
            · rcases List.mem_cons.1 h with rfl | h
              · exact .inr ⟨start, stop, found, not_le.1 hempty, hw.stop_le, rfl, hclass⟩
              · exact ih h

/-- The tokens added from one state to another are read in the stack of the first. -/
def Reads (scan : Scan) (s s' : State) : Prop :=
  ∃ new, s'.queue = s.queue ++ new ∧ ∀ token ∈ new, scan.ReadIn s.stack token

theorem reads_of_queue_eq (h : s'.queue = s.queue) : Reads scan s s' :=
  ⟨[], by rw [h, List.append_nil], by simp⟩

theorem reads_flush (hg : scan.grammar.SearchesOnward) (s : State) (upto : Nat) :
    Reads scan s (scan.flush s upto) := by
  unfold flush
  split_ifs with hdone
  · exact reads_of_queue_eq rfl
  · dsimp only
    cases htable : (scan.top s).keywords with
    | none =>
      refine ⟨_, rfl, fun token hmem => .inr ?_⟩
      rw [List.mem_singleton.1 hmem]
    | some table =>
      refine ⟨_, rfl, fun token hmem => ?_⟩
      rcases mem_splitFrom (hg.words _) hmem with hscope | ⟨start, stop, found, hlt, hstop, rfl, hclass⟩
      · exact .inr hscope
      · refine .inl ⟨_, table, found, htable, ?_, rfl⟩
        rw [Array.size_extract] at hstop
        rw [← hclass, between_extract _ (by omega)]
        rfl

variable (hg : scan.grammar.SearchesOnward)

include hg

theorem reads_close (s : State) : Reads scan s (scan.close s) :=
  reads_flush hg s scan.text.size

theorem reads_enter (s : State) (mode : Grammar.Mode) (span : Span) :
    Reads scan s (scan.enter s mode span) := by
  rw [enter_eq]
  exact reads_flush hg s _

theorem reads_leave (s : State) (span : Span) : Reads scan s (scan.leave s span) := by
  rw [leave_eq]
  exact reads_flush hg s _

/-- The step abandons the scan: at an illegal lexeme, or since the cursor has stood still for too
long. -/
def Abandons (scan : Scan) (s : State) : Prop :=
  ∃ found, scan.found? s = some found ∧ isVacuousEnd s found = false ∧
    ((found.rule = .illegal ∧ scan.ignoreIllegals = false) ∨
      ((scan.act (s.noting found) found).closed = false ∧
        (scan.act (s.noting found) found).cursor ≤ s.cursor ∧
        maxStalled ≤ (scan.act (s.noting found) found).stalled))

omit hg in
instance (scan : Scan) (s : State) : Decidable (Abandons scan s) :=
  match hfound : scan.found? s with
  | none => .isFalse fun ⟨_, h, _⟩ => nomatch hfound.symm.trans h
  | some found =>
    decidable_of_iff (isVacuousEnd s found = false ∧
      ((found.rule = .illegal ∧ scan.ignoreIllegals = false) ∨
        ((scan.act (s.noting found) found).closed = false ∧
          (scan.act (s.noting found) found).cursor ≤ s.cursor ∧
          maxStalled ≤ (scan.act (s.noting found) found).stalled)))
      ⟨fun h => ⟨found, hfound, h⟩, fun ⟨_, h, hgives⟩ => by cases hfound.symm.trans h; exact hgives⟩

omit hg in
/-- A step that does not abandon the scan does what acting on its match does. -/
theorem step_of_not_abandons (hfound : scan.found? s = some found)
    (hv : isVacuousEnd s found = false) (h : ¬Abandons scan s) :
    ∃ stalled, scan.step s = { scan.act (s.noting found) found with stalled := stalled } := by
  rw [step_of_found hfound hv]
  rcases countStall_cases scan (scan.act (s.noting found) found) s.cursor with
    ⟨-, heq⟩ | ⟨-, -, -, heq⟩ | ⟨hopen, hle, hmax, -⟩
  · exact ⟨_, heq⟩
  · exact ⟨_, heq⟩
  · exact absurd ⟨found, hfound, hv, .inr ⟨hopen, hle, hmax⟩⟩ h

/-- **What a step emits is read in the stack before it**, unless the step abandons the scan. -/
theorem step_reads (h : ¬Abandons scan s) : Reads scan s (scan.step s) := by
  rcases step_cases scan s with
    ⟨-, hstep⟩ | ⟨found, -, -, hstep⟩ | ⟨found, hfound, hv, -⟩
  · rw [hstep]
    exact reads_close hg { s with resume := none }
  · rw [hstep]
    rcases passChar_cases scan { s with resume := none } found.span.start with
      ⟨-, heq⟩ | ⟨-, heq⟩
    · rw [heq]
      exact reads_of_queue_eq rfl
    · rw [heq]
      exact reads_close hg { s with resume := none }
  · obtain ⟨stalled, hstep⟩ := step_of_not_abandons hfound hv h
    have hact : Reads scan (s.noting found) (scan.act (s.noting found) found) := by
      rcases act_cases scan (s.noting found) found with
        ⟨child, -, heq⟩ | ⟨child, -, -, heq⟩ | ⟨pos, -, -, heq⟩ | heq | ⟨hrule, hstrict, -⟩ |
          ⟨ended, below, -, -, heq⟩
      · rw [heq]
        exact reads_enter hg _ _ _
      · rw [heq]
        exact reads_of_queue_eq rfl
      · rw [heq]
        exact reads_of_queue_eq rfl
      · rw [heq]
        exact reads_close hg _
      · exact absurd ⟨found, hfound, hv, .inl ⟨hrule, hstrict⟩⟩ h
      · rw [heq, Reads, startNext_queue]
        exact reads_leave hg _ _
    rw [hstep]
    exact hact

/-- A pending position that a step emits is in a token read in the stack before it. -/
theorem exists_reads_of_emitted (hs : Placed scan s) (hopen : s.closed = false)
    (h : ¬Abandons scan s) {new : List Token} (hnew : (scan.step s).queue = s.queue ++ new)
    (hpending : s.flushed ≤ p) (hemitted : p < (scan.step s).flushed) :
    ∃ token ∈ new, token.Covers p ∧ scan.ReadIn s.stack token := by
  obtain ⟨new', hqueue, htiles⟩ := (step_advances hg hs hopen).emits
  obtain ⟨new'', hqueue', hreads⟩ := step_reads hg h
  cases List.append_cancel_left (hnew.symm.trans hqueue)
  cases List.append_cancel_left (hnew.symm.trans hqueue')
  obtain ⟨token, hmem, hcovers⟩ := exists_covers htiles hpending hemitted
  exact ⟨token, hmem, hcovers, hreads token hmem⟩

/-! ## What stays pending -/

/-- The step moves what is pending at a position: the match ends a structural mode and emits
nothing, although what is pending will then be read in another scope. -/
structure Displaces (scan : Scan) (s : State) (p : Nat) : Prop where
  ending : (scan.found? s).map (·.rule) = some .ending
  skip : (scan.top s).flags.skip = true
  pending : (scan.step s).flushed ≤ p
  scope_ne : scan.scopeOf (scan.step s).stack ≠ scan.scopeOf s.stack

omit hg in
instance (scan : Scan) (s : State) (p : Nat) : Decidable (Displaces scan s p) :=
  decidable_of_iff ((scan.found? s).map (·.rule) = some .ending ∧ (scan.top s).flags.skip = true ∧
      (scan.step s).flushed ≤ p ∧
      scan.scopeOf (scan.step s).stack ≠ scan.scopeOf s.stack)
    ⟨fun h => ⟨h.1, h.2.1, h.2.2.1, h.2.2.2⟩,
      fun h => ⟨h.ending, h.skip, h.pending, h.scope_ne⟩⟩

/-- While a position before the cursor stays pending, its scope stays, unless it is displaced. -/
theorem scopeOf_step_of_pending (hcursor : p < s.cursor) (h : ¬Abandons scan s)
    (hdisplaces : ¬Displaces scan s p) (hpending : (scan.step s).flushed ≤ p) :
    scan.scopeOf (scan.step s).stack = scan.scopeOf s.stack := by
  rcases step_cases scan s with
    ⟨-, hstep⟩ | ⟨found, -, -, hstep⟩ | ⟨found, hfound, hv, -⟩
  · rw [hstep, close_stack]
  · rw [hstep, passChar_stack]
  · obtain ⟨stalled, hstep⟩ := step_of_not_abandons hfound hv h
    have hspan := (hg.rules _).find hfound
    -- What lies before the match is emitted if another mode than a structural one opens or ends.
    have hnot {emitted : Nat} (hle : found.span.start ≤ emitted) (heq : (scan.step s).flushed = emitted) :
        False := by
      have := hspan.le_start
      omega
    rcases act_stack_cases scan (s.noting found) found with
      heq | ⟨child, -, heq⟩ | ⟨ended, below, hrule, -, heq⟩
    · rw [hstep]
      exact congrArg scan.scopeOf heq
    · cases hskip : (scan.grammar.mode child).flags.skip with
      | false =>
        exact (hnot (start_le_enter_flushed hskip hspan.start_le) (by rw [hstep, heq])).elim
      | true =>
        rw [hstep, heq]
        exact (scopeOf_cons child s.stack).trans (by simp [hskip])
    · cases hskip : (scan.top (s.noting found)).flags.skip with
      | false =>
        refine (hnot (start_le_leave_flushed hskip hspan.start_le) ?_).elim
        rw [hstep, heq]
        exact startNext_flushed scan _ ended
      | true =>
        by_contra hne
        exact hdisplaces ⟨by rw [hfound, Option.map_some, hrule], hskip, hpending, hne⟩

omit hg in
/-- From one state to another, by steps of an open scan and by tokens taken, some tokens are
emitted; all states in which a step is taken satisfy a condition. -/
inductive Emission (scan : Scan) (condition : State → Prop) : State → List Token → State → Prop
  | refl (s : State) : Emission scan condition s [] s
  | step {s s' : State} {new tokens : List Token} (hopen : s.closed = false) (h : condition s)
      (hnew : (scan.step s).queue = s.queue ++ new)
      (hrest : Emission scan condition (scan.step s) tokens s') :
      Emission scan condition s (new ++ tokens) s'
  | take {s s' : State} {token : Token} {queue tokens : List Token}
      (hqueue : s.queue = token :: queue)
      (hrest : Emission scan condition { s with queue := queue } tokens s') :
      Emission scan condition s tokens s'

/-- Steps from a sound state emit what they add to the queue. -/
theorem exists_emission_iterate {condition : State → Prop} (hs : Sound scan s) (n : Nat)
    (h : ∀ m < n, (scan.step^[m] s).closed = false ∧ condition (scan.step^[m] s)) :
    ∃ tokens, Emission scan condition s tokens (scan.step^[n] s) ∧
      (scan.step^[n] s).queue = s.queue ++ tokens := by
  induction n generalizing s with
  | zero => exact ⟨[], .refl s, by simp⟩
  | succ n ih =>
    obtain ⟨hopen, hcondition⟩ := h 0 (Nat.succ_pos n)
    obtain ⟨new, hnew, -⟩ := (step_advances hg hs.placed hopen).emits
    obtain ⟨tokens, hrest, hqueue⟩ := ih (sound_step hg hs hopen) fun m hm => by
      have hlater := h (m + 1) (Nat.succ_lt_succ hm)
      rwa [Function.iterate_succ_apply] at hlater
    rw [Function.iterate_succ_apply]
    refine ⟨new ++ tokens, .step hopen hcondition hnew hrest, ?_⟩
    rw [hqueue, hnew, List.append_assoc]

/-- **Pending text is emitted where it was left**: in a scan that ends and is not abandoned, a
position before the cursor is read in the scope it has when it is left pending, unless it is
displaced. -/
theorem emitted_of_pending {tokens : List Token} {scope : Option String}
    (h : Emission scan (fun u => ¬Abandons scan u ∧ ¬Displaces scan u p) s tokens s')
    (hs : Sound scan s) (hpending : s.flushed ≤ p) (hcursor : p < s.cursor)
    (hscope : scan.scopeOf s.stack = scope) (hclosed : s'.closed = true) :
    ∃ token ∈ tokens, token.Covers p ∧ (scan.IsWord token ∨ token.scope = scope) := by
  induction h with
  | refl s =>
    have hflushed := (hs.ended hclosed).flushed
    have hsize := hs.placed.cursor_le
    omega
  | @step s s' new tokens hopen hgood hnew _ ih =>
    by_cases hstill : (scan.step s).flushed ≤ p
    · have hscope' := scopeOf_step_of_pending hg hcursor hgood.1 hgood.2 hstill
      have hadvances := step_advances hg hs.placed hopen
      obtain ⟨token, hmem, htoken⟩ := ih (sound_step hg hs hopen) hstill
        (hcursor.trans_le hadvances.cursor_le) (hscope'.trans hscope) hclosed
      exact ⟨token, List.mem_append_right _ hmem, htoken⟩
    · obtain ⟨token, hmem, hcovers, hreads⟩ := exists_reads_of_emitted hg hs.placed hopen hgood.1
        hnew hpending (not_le.1 hstill)
      rw [ReadIn, hscope] at hreads
      exact ⟨token, List.mem_append_left _ hmem, hcovers, hreads⟩
  | take hqueue _ ih => exact ih (sound_take hs hqueue) hpending hcursor hscope hclosed

/-! ## Excluded delimiters -/

omit hg in
/-- The match is a delimiter that a mode leaves to what is around it, and these modes stay open
around it. -/
inductive Excludes (scan : Scan) (s : State) (found : Rule.Found) : List Nat → Prop
  | opening {child : Nat} (hrule : found.rule = .opening child)
      (hallows : (scan.grammar.mode child).guard.allows scan.text found.span.start = true)
      (hskip : (scan.grammar.mode child).flags.skip = false)
      (hexclude : (scan.grammar.mode child).flags.excludeBegin = true) :
      Excludes scan s found s.stack
  | closing {ended : Nat} {below : List Nat} (hrule : found.rule = .ending)
      (hending : ending? scan.grammar scan.text found.span.start s.stack = some (ended, below))
      (hskip : (scan.top s).flags.skip = false)
      (hreturn : (scan.top s).flags.returnEnd = false)
      (hexclude : (scan.top s).flags.excludeEnd = true) :
      Excludes scan s found below

omit hg in
/-- The scope of the mode that is started where the match ends a mode, if there is one that has a
scope and is not structural only. -/
def startedScope (scan : Scan) (s : State) (found : Rule.Found) : Option String :=
  match found.rule with
  | .ending => do
    let (ended, _) ← ending? scan.grammar scan.text found.span.start s.stack
    let next ← (scan.grammar.mode ended).starts
    if (scan.grammar.mode next).flags.skip then none else (scan.grammar.mode next).scope
  | _ => none

omit hg in
/-- Where a closing delimiter is excluded, the mode ends before it and the delimiter is passed. -/
theorem act_of_excludes_closing {ended : Nat} {below : List Nat} (hrule : found.rule = .ending)
    (hending : ending? scan.grammar scan.text found.span.start s.stack = some (ended, below))
    (hskip : (scan.top s).flags.skip = false) (hreturn : (scan.top s).flags.returnEnd = false)
    (hexclude : (scan.top s).flags.excludeEnd = true) :
    (scan.act s found).flushed = max s.flushed found.span.start ∧
      (scan.act s found).cursor = found.span.stop ∧
      scan.scopeOf (scan.act s found).stack =
        (scan.startedScope s found).or (scan.scopeOf below) := by
  have hact : scan.act s found = scan.startNext
      { scan.flush s found.span.start with cursor := found.span.stop, stack := below } ended := by
    simp only [act, hrule, closeModes, hending, leave, hskip, hreturn, hexclude, if_true,
      Bool.false_eq_true, if_false]
  have hstarted : scan.startedScope s found = (scan.grammar.mode ended).starts.bind fun next =>
      if (scan.grammar.mode next).flags.skip then none else (scan.grammar.mode next).scope := by
    simp only [startedScope, hrule, hending]
    rfl
  rw [hact, hstarted]
  unfold startNext
  cases (scan.grammar.mode ended).starts with
  | none => exact ⟨flush_flushed scan s _, rfl, rfl⟩
  | some next => exact ⟨flush_flushed scan s _, rfl, scopeOf_cons next below⟩

omit hg in
/-- Where an opening delimiter is excluded, it is emitted. -/
theorem act_of_excludes_opening {child : Nat} (hrule : found.rule = .opening child)
    (hallows : (scan.grammar.mode child).guard.allows scan.text found.span.start = true)
    (hskip : (scan.grammar.mode child).flags.skip = false)
    (hexclude : (scan.grammar.mode child).flags.excludeBegin = true) :
    (scan.act s found).flushed = max s.flushed found.span.stop := by
  simp only [act, hrule, openMode, hallows, if_true, enter, hskip, hexclude, Bool.false_eq_true,
    if_false]
  exact flush_flushed scan s _

/-- **A delimiter that is left to what is around it** is emitted in the scope of what stays open
around it, or as a word, in every scan that ends, is not abandoned and does not displace it. Only if
the delimiter closes a mode that starts another with a scope, it is emitted in that scope. -/
theorem excluded_read_around {kept : List Nat} {tokens : List Token} (hs : Reachable scan s)
    (hfound : scan.found? s = some found) (hexcludes : Excludes scan s found kept)
    (hstart : found.span.start ≤ p) (hstop : p < found.span.stop)
    (hrun : Emission scan (fun u => ¬Abandons scan u ∧ ¬Displaces scan u p) s tokens s')
    (hopen : s.closed = false) (hclosed : s'.closed = true) :
    ∃ token ∈ tokens, token.Covers p ∧ (scan.IsWord token ∨
      token.scope = (scan.startedScope s found).or (scan.scopeOf kept)) := by
  induction hrun with
  | refl s => simp [hopen] at hclosed
  | take hqueue _ ih =>
    refine ih (hs.take hqueue) hfound ?_ hopen hclosed
    cases hexcludes with
    | opening hrule hallows hskip hexclude => exact .opening hrule hallows hskip hexclude
    | closing hrule hending hskip hreturn hexclude =>
      exact .closing hrule hending hskip hreturn hexclude
  | @step s s' new tokens _ hgood hnew hrest _ =>
    have hsound := sound_of_reachable hg hs
    have hspan := (hg.rules _).find hfound
    have hflushed := hsound.placed.flushed_le.trans hspan.le_start
    have hv : isVacuousEnd s found = false := by
      have hne : ¬found.span.stop ≤ found.span.start := by omega
      simp [isVacuousEnd, hne]
    obtain ⟨stalled, hstep⟩ := step_of_not_abandons hfound hv hgood.1
    cases hexcludes with
    | opening hrule hallows hskip hexclude =>
      have hemitted : p < (scan.step s).flushed := by
        have hact := act_of_excludes_opening (s := s.noting found) hrule hallows hskip hexclude
        rw [hstep]
        exact (lt_max_of_lt_right hstop).trans_eq hact.symm
      obtain ⟨token, hmem, hcovers, hreads⟩ := exists_reads_of_emitted hg hsound.placed hopen
        hgood.1 hnew (hflushed.trans hstart) hemitted
      have hnone : scan.startedScope s found = none := by
        simp only [startedScope, hrule]
      refine ⟨token, List.mem_append_left _ hmem, hcovers, ?_⟩
      rw [hnone, Option.none_or]
      exact hreads
    | closing hrule hending hskip hreturn hexclude =>
      obtain ⟨hflushed', hcursor, hscope⟩ :=
        act_of_excludes_closing (s := s.noting found) hrule hending hskip hreturn hexclude
      have hpending : (scan.step s).flushed ≤ p := by
        rw [hstep]
        exact hflushed'.le.trans (max_le (hflushed.trans hstart) hstart)
      have hbefore : p < (scan.step s).cursor := by
        rw [hstep]
        exact hstop.trans_eq hcursor.symm
      have hscope' : scan.scopeOf (scan.step s).stack =
          (scan.startedScope s found).or (scan.scopeOf kept) := by
        rw [hstep]
        exact hscope
      obtain ⟨token, hmem, htoken⟩ := emitted_of_pending hg hrest (sound_step hg hsound hopen)
        hpending hbefore hscope' hclosed
      exact ⟨token, List.mem_append_right _ hmem, htoken⟩

omit hg

/-! ## A closing bracket left outside -/

/-- Brackets that are left to what is around them, and a structural mode. -/
def framing : Grammar.Draft where
  name := "framing"
  definitions := #[
    { scope := some "a", opening := some "\\[", closing := some "\\]"
      flags := { excludeBegin := true, excludeEnd := true } },
    { opening := some "<", closing := some ">", flags := { skip := true } },
    { scope := some "p", opening := some "\\(", closing := some "\\)", contains := [.mode 0, .mode 1] },
    { contains := [.mode 2] }]
  root := some 3

/-- A scan in which a structural mode opens and ends while a closing bracket is pending. -/
def framingScan (g : Grammar) : Scan where
  grammar := g
  text := #['(', '[', 'y', ']', '<', '>', 'z', ')']

/-- The state in which the closing bracket is next. -/
def framingState (g : Grammar) : State :=
  (framingScan g).step^[2] (framingScan g).start

/-- The bracket closes in it, and the scan ends after five more steps. -/
theorem framing_builds : ∃ g, framing.build = .ok g ∧ g.isForward = true ∧
    (∀ m < 2, ((framingScan g).step^[m] (framingScan g).start).closed = false) ∧
    (framingScan g).found? (framingState g) = some ⟨.ending, 0, ⟨3, 4⟩⟩ ∧
    ending? g (framingScan g).text 3 (framingState g).stack = some (2, [1, 0]) ∧
    ((framingScan g).top (framingState g)).flags = { excludeBegin := true, excludeEnd := true } ∧
    (∀ m < 5, ((framingScan g).step^[m] (framingState g)).closed = false ∧
      ¬Abandons (framingScan g) ((framingScan g).step^[m] (framingState g)) ∧
      ¬Displaces (framingScan g) ((framingScan g).step^[m] (framingState g)) 3) ∧
    ((framingScan g).step^[5] (framingState g)).closed = true ∧
    ((framingScan g).startedScope (framingState g) ⟨.ending, 0, ⟨3, 4⟩⟩).or
      ((framingScan g).scopeOf [1, 0]) = some "p" :=
  framing.exists_built _ (by decide +kernel)

/-- The closing bracket is emitted in the scope of the parentheses around it. -/
theorem framing_read_around : ∃ g found tokens s', framing.build = .ok g ∧ g.SearchesOnward ∧
    Reachable (framingScan g) (framingState g) ∧ (framingState g).closed = false ∧
    (framingScan g).found? (framingState g) = some found ∧
    Excludes (framingScan g) (framingState g) found [1, 0] ∧
    found.span.start ≤ 3 ∧ 3 < found.span.stop ∧
    Emission (framingScan g)
      (fun u => ¬Abandons (framingScan g) u ∧ ¬Displaces (framingScan g) u 3)
      (framingState g) tokens s' ∧ s'.closed = true ∧
    ∃ token ∈ tokens, token.Covers 3 ∧
      (IsWord (framingScan g) token ∨ token.scope = some "p") := by
  obtain ⟨g, hbuild, hforward, hopens, hfound, hending, hflags, hrun, hclosed, hscope⟩ :=
    framing_builds
  have hg : g.SearchesOnward := Grammar.searchesOnward_of_isForward hforward
  have hs : Reachable (framingScan g) (framingState g) := reachable_iterate _ 2 hopens
  have hopen : (framingState g).closed = false := (hrun 0 (by decide)).1
  have hexcludes : Excludes (framingScan g) (framingState g) ⟨.ending, 0, ⟨3, 4⟩⟩ [1, 0] :=
    .closing rfl hending (by rw [hflags]) (by rw [hflags]) (by rw [hflags])
  have hemits : ∃ tokens, Emission (framingScan g)
      (fun u => ¬Abandons (framingScan g) u ∧ ¬Displaces (framingScan g) u 3) (framingState g) tokens
        ((framingScan g).step^[5] (framingState g)) ∧
      ((framingScan g).step^[5] (framingState g)).queue = (framingState g).queue ++ tokens :=
    exists_emission_iterate hg (sound_of_reachable hg hs) 5 hrun
  obtain ⟨tokens, hemission, -⟩ := hemits
  obtain ⟨token, hmem, hcovers, hread⟩ := excluded_read_around hg hs hfound
    hexcludes (show 3 ≤ 3 by decide) (show 3 < 4 by decide) hemission hopen hclosed
  rw [hscope] at hread
  exact ⟨g, _, tokens, _, hbuild, hg, hs, hopen, hfound, hexcludes, by decide, by decide, hemission,
    hclosed, token, hmem, hcovers, hread⟩

/-! ## A closing delimiter taken over -/

/-- A mode that leaves its closing delimiter to what is around it and starts another. -/
def starting : Grammar.Draft where
  name := "starting"
  definitions := #[
    { scope := some "a", opening := some "<", closing := some ">", starts := some 1
      flags := { excludeEnd := true } },
    { scope := some "c", closing := some "x" },
    { contains := [.mode 0] }]
  root := some 2

/-- A scan in which it ends. -/
def startingScan (g : Grammar) : Scan where
  grammar := g
  text := #['<', '>', 'x']

/-- The state in which it is open. -/
def startingState (g : Grammar) : State :=
  (startingScan g).step (startingScan g).start

/-- The mode ends in it, and the scan ends after three more steps. -/
theorem starting_builds : ∃ g, starting.build = .ok g ∧ g.isForward = true ∧
    g.modes.all (·.keywords.isNone) = true ∧
    (startingScan g).found? (startingState g) = some ⟨.ending, 0, ⟨1, 2⟩⟩ ∧
    ending? g (startingScan g).text 1 (startingState g).stack = some (1, [0]) ∧
    ((startingScan g).top (startingState g)).flags = { excludeEnd := true } ∧
    (∀ m < 3, ((startingScan g).step^[m] (startingState g)).closed = false ∧
      ¬Abandons (startingScan g) ((startingScan g).step^[m] (startingState g))) ∧
    ((startingScan g).step^[3] (startingState g)).closed = true ∧
    ((startingScan g).step^[3] (startingState g)).queue =
      (startingState g).queue ++ [⟨some "a", ⟨0, 1⟩⟩, ⟨some "c", ⟨1, 3⟩⟩] ∧
    (startingScan g).scopeOf [0] = none :=
  starting.exists_built _ (by decide +kernel)

/-- No token is a word if no mode has a keyword table. -/
theorem not_isWord (h : scan.grammar.modes.all (·.keywords.isNone) = true) (token : Token) :
    ¬IsWord scan token := by
  intro hword
  obtain ⟨index, table, -, htable, -⟩ := hword
  unfold Grammar.mode at htable
  by_cases hlt : index < scan.grammar.modes.size
  · have hnone := Array.all_eq_true.1 h index hlt
    rw [Array.getD_eq_getD_getElem?, Array.getElem?_eq_getElem hlt, Option.getD_some] at htable
    simp [htable] at hnone
  · rw [Array.getD_eq_getD_getElem?, Array.getElem?_eq_none (not_lt.1 hlt)] at htable
    cases htable

/-- A delimiter that is left to what is around it can be emitted in the scope of a mode that is
started where it ends. -/
theorem starting_takes_delimiter : ∃ g, starting.build = .ok g ∧ g.SearchesOnward ∧
    ∃ s found kept tokens s', Reachable (startingScan g) s ∧ s.closed = false ∧
      (startingScan g).found? s = some found ∧ Excludes (startingScan g) s found kept ∧
      found.span.start ≤ 1 ∧ 1 < found.span.stop ∧
      Emission (startingScan g) (fun u => ¬Abandons (startingScan g) u) s tokens s' ∧
      s'.closed = true ∧
      ¬∃ token ∈ tokens, token.Covers 1 ∧ ReadIn (startingScan g) kept token := by
  obtain ⟨g, hbuild, hforward, hwords, hfound, hending, hflags, hrun, hclosed, hqueue, hscope⟩ :=
    starting_builds
  have hg : g.SearchesOnward := Grammar.searchesOnward_of_isForward hforward
  have hs : Reachable (startingScan g) (startingState g) := .step .start rfl
  have hemits : ∃ tokens, Emission (startingScan g) (fun u => ¬Abandons (startingScan g) u)
        (startingState g) tokens ((startingScan g).step^[3] (startingState g)) ∧
      ((startingScan g).step^[3] (startingState g)).queue = (startingState g).queue ++ tokens :=
    exists_emission_iterate hg (sound_of_reachable hg hs) 3 hrun
  obtain ⟨tokens, hemission, hqueue'⟩ := hemits
  refine ⟨g, hbuild, hg, startingState g, _, [0], tokens, _, hs, (hrun 0 (by decide)).1, hfound,
    .closing rfl hending (by rw [hflags]) (by rw [hflags]) (by rw [hflags]), by decide, by decide,
    hemission, hclosed, ?_⟩
  intro hread
  obtain ⟨token, hmem, -, hword | htoken⟩ := hread
  · exact not_isWord hwords token hword
  · rw [← List.append_cancel_left (hqueue.symm.trans hqueue')] at hmem
    rw [hscope] at htoken
    simp only [List.mem_cons, List.not_mem_nil, or_false] at hmem
    rcases hmem with rfl | rfl
    · cases htoken
    · cases htoken

end ModeStack.Scan
