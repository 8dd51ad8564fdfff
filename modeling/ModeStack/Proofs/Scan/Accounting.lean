import ModeStack.Proofs.Scan.Alike
import ModeStack.Proofs.Scan.Rejection
import ModeStack.Proofs.Scan.Splitting

/-!
# What the relevance of a scan adds up to

**The account.** A run of a scan is `Charged` with the modes that its steps push, in order, and
with the words that they classify, hidden ones included, in the form in which their tables compare
them. A step pushes at most one mode, a child that opens or a mode that another starts (`pushed`),
and classifies the words of the text that it emits in the innermost mode (`classified`).

**The sum** (`Accounts`). The total is what the modes that are not structural are worth and what
the words weigh, each word counting the first `maxHits` times only, whatever mode and table it was
found in; it stops at `maxScore`. Since additions that stop at a bound can be put in any order, it
does not matter how modes and words alternate.

Main result: `relevance_accounted`.
-/

namespace ModeStack

/-! ## Scores as sums -/

namespace Keyword

/-- What classified words weigh, after some that have been seen before: each counts if it has been
seen fewer than `maxHits` times until then. -/
def weigh : (seen : List String) → List (String × Nat) → Nat
  | _, [] => 0
  | seen, (word, weight) :: words =>
    (if seen.count word < maxHits then weight else 0) + weigh (word :: seen) words

theorem weigh_append (seen : List String) (words words' : List (String × Nat)) :
    weigh seen (words ++ words') =
      weigh seen words + weigh ((words.map (·.1)).reverse ++ seen) words' := by
  induction words generalizing seen with
  | nil => simp [weigh]
  | cons entry words ih =>
    simp only [List.cons_append, weigh, ih, List.map_cons, List.reverse_cons, List.append_assoc,
      List.nil_append]
    omega

theorem Hits.count_cons (w : String) (n : Nat) (hits : Hits) (word : String) :
    Hits.count ((w, n) :: hits) word = if w = word then n else hits.count word := by
  by_cases h : w = word
  · simp [Hits.count, h]
  · have hne : (word == w) = false := beq_eq_false_iff_ne.2 (Ne.symm h)
    simp only [Hits.count, List.lookup_cons, hne, h, if_false]

theorem Hits.count_add (hits : Hits) (word word' : String) :
    (hits.add word).count word' = hits.count word' + if word = word' then 1 else 0 := by
  induction hits with
  | nil =>
    rw [Hits.add, Hits.count_cons]
    exact (Nat.zero_add _).symm
  | cons entry hits ih =>
    obtain ⟨w, n⟩ := entry
    by_cases hw : w = word
    · simp only [Hits.add, hw, if_true, Hits.count_cons]
      split_ifs <;> rfl
    · simp only [Hits.add, hw, if_false, Hits.count_cons, ih]
      by_cases h : w = word'
      · simp only [h, if_true, h ▸ Ne.symm hw, if_false, Nat.add_zero]
      · simp only [h, if_false]

namespace Score

/-- The score is what modes are worth and some words weigh, and knows how often it has seen each
word. -/
structure Accounts (score : Score) (worth : Nat) (words : List (String × Nat)) : Prop where
  total_eq : score.total = min maxScore (worth + weigh [] words)
  count_eq : ∀ word, score.hits.count word = (words.map (·.1)).count word

variable {score : Score} {worth : Nat} {words : List (String × Nat)}

theorem Accounts.zero : Accounts {} 0 [] :=
  ⟨rfl, fun _ => rfl⟩

theorem Accounts.addMode (h : score.Accounts worth words) (weight : Nat) :
    (score.addMode weight).Accounts (worth + weight) words := by
  refine ⟨?_, h.count_eq⟩
  simp only [Score.addMode, gain, h.total_eq]
  omega

theorem Accounts.addKeyword (h : score.Accounts worth words) (word : String) (weight : Nat) :
    (score.addKeyword word weight).Accounts worth (words ++ [(word, weight)]) := by
  have hcount : (words.map (·.1)).reverse.count word = score.hits.count word := by
    rw [List.count_reverse, h.count_eq]
  have hweigh : weigh [] (words ++ [(word, weight)]) =
      weigh [] words + if score.hits.count word < maxHits then weight else 0 := by
    simp only [weigh_append, weigh, List.append_nil, hcount, Nat.add_zero]
  refine ⟨?_, fun word' => ?_⟩
  · rw [hweigh]
    by_cases hcounts : score.hits.count word < maxHits
    · simp only [Score.addKeyword, counts, hcounts, decide_true, if_true, gain, h.total_eq]
      omega
    · simp only [Score.addKeyword, counts, hcounts, decide_false, Bool.false_eq_true, if_false,
        h.total_eq, Nat.add_zero]
  · have hits_eq : (score.addKeyword word weight).hits = score.hits.add word := rfl
    rw [hits_eq, Hits.count_add, h.count_eq, List.map_append, List.count_append]
    simp [List.count_singleton]

theorem Accounts.addKeywords (h : score.Accounts worth words) (more : List (String × Nat)) :
    (more.foldl (fun score (word, weight) => score.addKeyword word weight) score).Accounts worth
      (words ++ more) := by
  induction more generalizing score words with
  | nil => simpa using h
  | cons entry more ih =>
    have htail := ih (h.addKeyword entry.1 entry.2)
    rw [List.append_assoc] at htail
    exact htail

end Score

end Keyword

namespace Scan

open ModeStack.Regex (Span)
open ModeStack.Keyword (weigh maxScore)
open ModeStack.Keyword.Score (Accounts)

variable {scan : Scan} {s s' s'' : State} {modes modes' : List Nat}
variable {words words' : List (String × Nat)}

/-! ## What a step adds -/

/-- The modes that acting on a match pushes. -/
def pushedBy (scan : Scan) (s : State) (found : Rule.Found) : List Nat :=
  match found.rule with
  | .illegal => []
  | .opening child =>
    if (scan.grammar.mode child).guard.allows scan.text found.span.start then [child] else []
  | .ending =>
    match ending? scan.grammar scan.text found.span.start s.stack with
    | none => []
    | some (ended, _) => (scan.grammar.mode ended).starts.toList

/-- The modes that a step pushes. -/
def pushed (scan : Scan) (s : State) : List Nat :=
  match scan.found? s with
  | none => []
  | some found => if isVacuousEnd s found then [] else scan.pushedBy s found

/-- Where the text ends that a step emits in the innermost mode. What is given up at an illegal
lexeme, or because the cursor stands still, is not emitted in a mode. -/
def emitsUpto (scan : Scan) (s : State) : Nat :=
  match scan.found? s with
  | none => (scan.step s).flushed
  | some found =>
    if isVacuousEnd s found then (scan.step s).flushed
    else if found.rule = .illegal ∧ scan.ignoreIllegals = false then s.flushed
    else (scan.act (s.noting found) found).flushed

/-- The words in the pending text up to a position, as the innermost mode classifies them. -/
def wordsUpto (scan : Scan) (s : State) (upto : Nat) : List (String × Nat) :=
  if upto ≤ s.flushed then []
  else
    match scan.classifier? s with
    | none => []
    | some c => (c.split scan.text ⟨s.flushed, upto⟩).words

/-- The words that a step classifies. -/
def classified (scan : Scan) (s : State) : List (String × Nat) :=
  scan.wordsUpto s (scan.emitsUpto s)

/-- What modes are worth: structural ones are worth nothing. -/
def worth (scan : Scan) (modes : List Nat) : Nat :=
  ((modes.filter fun index => !(scan.grammar.mode index).flags.skip).map
    fun index => (scan.grammar.mode index).relevance).sum

theorem worth_append (modes modes' : List Nat) :
    scan.worth (modes ++ modes') = scan.worth modes + scan.worth modes' := by
  simp only [worth, List.filter_append, List.map_append, List.sum_append]

theorem worth_singleton (index : Nat) : scan.worth [index] =
    if (scan.grammar.mode index).flags.skip then 0 else (scan.grammar.mode index).relevance := by
  cases hskip : (scan.grammar.mode index).flags.skip
  · simp [worth, hskip]
  · simp [worth, hskip]

/-! ## Scores of the parts of a step -/

/-- From one state to the other, the text between their emitted positions has been classified in
the innermost mode of the first, and modes have been scored. -/
structure Adds (scan : Scan) (s s' : State) (modes : List Nat) : Prop where
  accounts : ∀ {worth : Nat} {words : List (String × Nat)}, s.score.Accounts worth words →
    s'.score.Accounts (worth + scan.worth modes) (words ++ scan.wordsUpto s s'.flushed)

theorem wordsUpto_flushed (s : State) : scan.wordsUpto s s.flushed = [] :=
  if_pos le_rfl

/-- A state with the same score and emitted position adds nothing. -/
theorem adds_nil (hscore : s'.score = s.score) (hflushed : s'.flushed = s.flushed) :
    Adds scan s s' [] := by
  refine ⟨fun h => ?_⟩
  rw [hscore, hflushed, wordsUpto_flushed, List.append_nil]
  exact h

theorem flush_score (upto : Nat) : (scan.flush s upto).score =
    (scan.wordsUpto s upto).foldl (fun score (word, weight) => score.addKeyword word weight)
      s.score := by
  by_cases hdone : upto ≤ s.flushed
  · simp only [flush, wordsUpto, hdone, if_true, List.foldl_nil]
  · cases hc : scan.classifier? s with
    | none =>
      have htable : (scan.top s).keywords = none := Option.map_eq_none_iff.1 hc
      simp only [flush, wordsUpto, hdone, if_false, htable, hc, List.foldl_nil]
    | some c =>
      rw [flush_of_classifier hc (not_le.1 hdone)]
      simp only [wordsUpto, hdone, if_false, hc]

/-- Emitting text classifies the words in it. -/
theorem wordsUpto_flush (s : State) (upto : Nat) :
    scan.wordsUpto s (scan.flush s upto).flushed = scan.wordsUpto s upto := by
  rw [flush_flushed]
  rcases le_total upto s.flushed with hle | hle
  · rw [max_eq_left hle, wordsUpto_flushed]
    exact (if_pos hle).symm
  · rw [max_eq_right hle]

theorem adds_flush (upto : Nat) : Adds scan s (scan.flush s upto) [] := by
  refine ⟨fun h => ?_⟩
  rw [wordsUpto_flush, flush_score]
  exact h.addKeywords _

/-- What is added does not depend on the other fields. -/
theorem Adds.congr {r r' : State} (h : Adds scan s s' modes) (hstack : r.stack = s.stack)
    (hflushed : r.flushed = s.flushed) (hscore : r.score = s.score)
    (hflushed' : r'.flushed = s'.flushed) (hscore' : r'.score = s'.score) :
    Adds scan r r' modes := by
  refine ⟨fun hr => ?_⟩
  have hwords (upto : Nat) : scan.wordsUpto r upto = scan.wordsUpto s upto := by
    simp only [wordsUpto, classifier?, top, hstack, hflushed]
  rw [hwords, hflushed', hscore']
  exact h.accounts (hscore ▸ hr)

theorem adds_close : Adds scan s (scan.close s) [] :=
  (adds_flush scan.text.size).congr rfl rfl rfl rfl rfl

theorem adds_passChar (pos : Nat) : Adds scan s (scan.passChar s pos) [] := by
  rcases passChar_cases scan s pos with ⟨-, h⟩ | ⟨-, h⟩
  · rw [h]
    exact adds_nil rfl rfl
  · rw [h]
    exact adds_close

theorem adds_passLexeme (span : Span) : Adds scan s (scan.passLexeme s span) [] := by
  rcases passLexeme_cases scan s span with ⟨_, -, -, h⟩ | h
  · rw [h]
    exact adds_nil rfl rfl
  · rw [h]
    exact adds_close

theorem adds_reject (index : Nat) (span : Span) : Adds scan s (scan.reject s index span) [] := by
  rcases reject_cases scan s index span with ⟨-, h⟩ | ⟨-, -, h⟩ | ⟨-, -, h⟩
  · rw [h]
    exact adds_nil rfl rfl
  · rw [h]
    exact adds_nil rfl rfl
  · rw [h]
    exact adds_close

/-- Pushing a mode after text was emitted adds what the mode is worth. -/
theorem Adds.push (h : Adds scan s s' []) {index : Nat} (hflushed : s''.flushed = s'.flushed)
    (hscore : s''.score = if (scan.grammar.mode index).flags.skip then s'.score
      else s'.score.addMode (scan.grammar.mode index).relevance) : Adds scan s s'' [index] := by
  refine ⟨fun hs => ?_⟩
  have haccounts := h.accounts hs
  rw [hflushed, hscore, worth_singleton]
  split_ifs
  · exact haccounts
  · exact haccounts.addMode _

theorem adds_enter (index : Nat) (span : Span) :
    Adds scan s (scan.enter s (scan.grammar.mode index) span) [index] := by
  rw [enter_eq]
  refine (adds_flush (enterUpto (scan.grammar.mode index).flags span)).push rfl ?_
  dsimp only
  split_ifs with hskip
  · -- A structural mode lets the text before it pend.
    rw [enterUpto, if_pos hskip, flush_zero]
  · rfl

theorem adds_leave (span : Span) : Adds scan s (scan.leave s span) [] := by
  rw [leave_eq]
  exact (adds_flush (leaveUpto (scan.top s).flags span)).congr rfl rfl rfl rfl rfl

/-- Starting the next mode adds what that mode is worth, if there is one. -/
theorem Adds.startNext (h : Adds scan s s' []) (ended : Nat) :
    Adds scan s (scan.startNext s' ended) (scan.grammar.mode ended).starts.toList := by
  unfold Scan.startNext
  cases hstarts : (scan.grammar.mode ended).starts with
  | none => exact h
  | some next => exact h.push rfl rfl

/-- Acting on a match scores the mode that it pushes. -/
theorem adds_act {found : Rule.Found}
    (h : ¬(found.rule = .illegal ∧ scan.ignoreIllegals = false)) :
    Adds scan s (scan.act s found) (scan.pushedBy s found) := by
  unfold act pushedBy
  cases hrule : found.rule with
  | opening child =>
    simp only [openMode]
    split_ifs
    · exact (adds_enter child found.span).congr rfl rfl rfl rfl rfl
    · exact adds_reject found.index found.span
  | illegal =>
    have hignore : scan.ignoreIllegals = true := by
      rw [← Bool.not_eq_false]
      exact fun hstrict => h ⟨hrule, hstrict⟩
    simp only [illegalLexeme, hignore, if_true]
    exact adds_passLexeme found.span
  | ending =>
    simp only [closeModes]
    rcases ending? scan.grammar scan.text found.span.start s.stack with - | ⟨ended, below⟩
    · exact adds_passLexeme found.span
    · have hleave : Adds scan s { scan.leave s found.span with stack := below } [] :=
        (adds_leave found.span).congr rfl rfl rfl rfl rfl
      exact hleave.startNext ended

/-- Counting standing steps leaves the score as it is. -/
theorem countStall_score (s : State) (before : Nat) :
    (scan.countStall s before).score = s.score := by
  rcases countStall_eq_or scan s before with ⟨_, h⟩ | ⟨-, h⟩
  · rw [h]
  · rw [h]
    rfl

/-- **What a step adds.** It classifies words, then scores the mode that it pushes. -/
theorem step_accounts {worth : Nat} (h : s.score.Accounts worth words) :
    (scan.step s).score.Accounts (worth + scan.worth (scan.pushed s))
      (words ++ scan.classified s) := by
  unfold pushed classified emitsUpto
  rcases step_cases scan s with
    ⟨hfound, hstep⟩ | ⟨found, hfound, hv, hstep⟩ | ⟨found, hfound, hv, hstep⟩
  · have hadds : Adds scan s (scan.step s) [] := by
      rw [hstep]
      exact adds_close.congr (s := { s with resume := none }) rfl rfl rfl rfl rfl
    rw [hfound]
    exact hadds.accounts h
  · have hadds : Adds scan s (scan.step s) [] := by
      rw [hstep]
      exact (adds_passChar found.span.start).congr (s := { s with resume := none }) rfl rfl rfl
        rfl rfl
    simp only [hfound, hv, if_true]
    exact hadds.accounts h
  · simp only [hfound, hv, Bool.false_eq_true, if_false]
    rw [hstep, countStall_score]
    split_ifs with hgivesUp
    · have hscore : (scan.act (s.noting found) found).score = s.score := by
        simp only [act, hgivesUp.1, illegalLexeme, hgivesUp.2, Bool.false_eq_true, if_false]
        rfl
      have hpushed : scan.pushedBy s found = [] := by
        simp only [pushedBy, hgivesUp.1]
      rw [hscore, hpushed, wordsUpto_flushed, List.append_nil]
      exact h
    · have hadds : Adds scan s (scan.act (s.noting found) found) (scan.pushedBy s found) :=
        (adds_act hgivesUp).congr (s := s.noting found) rfl rfl rfl rfl rfl
      exact hadds.accounts h

/-- Acting on a match pushes modes onto what stays open of the stack. -/
theorem act_stack_eq (scan : Scan) (s : State) (found : Rule.Found) :
    ∃ kept, kept <:+ s.stack ∧ (scan.act s found).stack = scan.pushedBy s found ++ kept := by
  unfold act pushedBy
  cases found.rule with
  | opening child =>
    simp only [openMode]
    split_ifs
    · exact ⟨s.stack, List.suffix_rfl, by rw [enter_stack]; rfl⟩
    · exact ⟨s.stack, List.suffix_rfl, reject_stack scan s _ _⟩
  | illegal =>
    simp only [illegalLexeme]
    split_ifs
    · exact ⟨s.stack, List.suffix_rfl, passLexeme_stack scan s _⟩
    · exact ⟨s.stack, List.suffix_rfl, rfl⟩
  | ending =>
    simp only [closeModes]
    rcases hending : ending? scan.grammar scan.text found.span.start s.stack with - | ⟨ended, below⟩
    · exact ⟨s.stack, List.suffix_rfl, passLexeme_stack scan s _⟩
    · obtain ⟨inner, under, rest, rfl, hstack⟩ := ending?_spec hending
      refine ⟨under :: rest, ⟨inner ++ [ended], by simp [hstack]⟩, ?_⟩
      exact startNext_stack scan _ ended

/-- A step pushes these modes onto what stays open of the stack. -/
theorem step_stack_eq (scan : Scan) (s : State) :
    ∃ kept, kept <:+ s.stack ∧ (scan.step s).stack = scan.pushed s ++ kept := by
  unfold pushed
  rcases step_cases scan s with
    ⟨hfound, hstep⟩ | ⟨found, hfound, hv, hstep⟩ | ⟨found, hfound, hv, hstep⟩
  · rw [hfound, hstep, close_stack]
    exact ⟨s.stack, List.suffix_rfl, rfl⟩
  · simp only [hfound, hv, if_true]
    rw [hstep, passChar_stack]
    exact ⟨s.stack, List.suffix_rfl, rfl⟩
  · simp only [hfound, hv, Bool.false_eq_true, if_false]
    rw [hstep, countStall_stack]
    exact act_stack_eq scan (s.noting found) found

/-! ## What a run adds -/

/-- From one state to another, a scan pushes some modes and classifies some words. -/
inductive Charged (scan : Scan) (s : State) : List Nat → List (String × Nat) → State → Prop
  | refl : Charged scan s [] [] s
  | step {modes : List Nat} {words : List (String × Nat)} {s' : State}
      (h : Charged scan s modes words s') (hopen : s'.closed = false) :
      Charged scan s (modes ++ scan.pushed s') (words ++ scan.classified s') (scan.step s')
  | take {modes : List Nat} {words : List (String × Nat)} {s' : State} {token : Token}
      {queue : List Token} (h : Charged scan s modes words s') (hq : s'.queue = token :: queue) :
      Charged scan s modes words { s' with queue := queue }

namespace Charged

theorem trans (h : Charged scan s modes words s') (h' : Charged scan s' modes' words' s'') :
    Charged scan s (modes ++ modes') (words ++ words') s'' := by
  induction h' with
  | refl => simpa using h
  | step _ hopen ih =>
    rw [← List.append_assoc, ← List.append_assoc]
    exact ih.step hopen
  | take _ hq ih => exact ih.take hq

/-- The account of a run is that of what it is charged with. -/
theorem accounts (h : Charged scan s modes words s') {worth : Nat}
    {seen : List (String × Nat)} (hs : s.score.Accounts worth seen) :
    s'.score.Accounts (worth + scan.worth modes) (seen ++ words) := by
  induction h with
  | refl => simpa [Scan.worth] using hs
  | step _ _ ih =>
    rw [worth_append, ← Nat.add_assoc, ← List.append_assoc]
    exact step_accounts ih
  | take _ _ ih => exact ih

end Charged

/-- Stepping up to the next token is a run. -/
theorem exists_charged_advance (scan : Scan) (rounds : Nat) (s : State) :
    ∃ modes words, Charged scan s modes words (scan.advance rounds s) := by
  induction rounds generalizing s with
  | zero => exact ⟨[], [], .refl⟩
  | succ rounds ih =>
    unfold advance
    split_ifs with hmore
    · obtain ⟨modes, words, h⟩ := ih (scan.step s)
      have hopen : s.closed = false := by simp_all
      exact ⟨_, _, (Charged.refl.step hopen).trans h⟩
    · exact ⟨[], [], .refl⟩

/-- Taking the next token is a run. -/
theorem exists_charged_next (scan : Scan) (s : State) :
    ∃ modes words, Charged scan s modes words (scan.next s).2 := by
  obtain ⟨modes, words, h⟩ := exists_charged_advance scan (scan.maxSteps s) s
  cases hq : (scan.advance (scan.maxSteps s) s).queue with
  | nil =>
    rw [next_of_nothing hq]
    exact ⟨modes, words, h⟩
  | cons token queue =>
    rw [next_of_queued hq]
    exact ⟨modes, words, h.take hq⟩

/-- So is taking more tokens. -/
theorem exists_charged_after (scan : Scan) (calls more : Nat) :
    ∃ modes words, Charged scan (scan.after calls) modes words (scan.after (calls + more)) := by
  induction more with
  | zero => exact ⟨[], [], .refl⟩
  | succ more ih =>
    obtain ⟨modes, words, h⟩ := ih
    obtain ⟨modes', words', h'⟩ := exists_charged_next scan (scan.after (calls + more))
    have hafter : scan.after (calls + (more + 1)) = (scan.next (scan.after (calls + more))).2 :=
      Function.iterate_succ_apply' _ _ _
    rw [hafter]
    exact ⟨_, _, h.trans h'⟩

/-- The words that are cut out of a text have their forms and weights from the table. -/
theorem exists_word_of_mem_splitFrom {c : Classifier} {piece : Text} {base rounds : Nat}
    {entry : String × Nat} : ∀ {plain pos : Nat},
      entry ∈ (c.splitFrom piece base rounds plain pos).words →
      ∃ word found, c.table.classify word = some found ∧
        entry = (c.table.key word, found.weight) := by
  induction rounds with
  | zero =>
    intro plain pos h
    cases h
  | succ rounds ih =>
    intro plain pos h
    unfold Classifier.splitFrom at h
    split at h
    · cases h
    · rename_i start stop _
      split_ifs at h
      · split at h
        · exact ih h
        · cases h
      · dsimp only at h
        split at h
        · exact ih h
        · rename_i found hclass
          split_ifs at h
          · rcases List.mem_cons.1 h with rfl | h
            · exact ⟨_, found, hclass, rfl⟩
            · exact ih h
          · rcases List.mem_cons.1 h with rfl | h
            · exact ⟨_, found, hclass, rfl⟩
            · exact ih h

/-- So have those that a step classifies. -/
theorem exists_word_of_mem_classified {entry : String × Nat} (h : entry ∈ scan.classified s) :
    ∃ c word found, scan.classifier? s = some c ∧ c.table.classify word = some found ∧
      entry = (c.table.key word, found.weight) := by
  unfold classified wordsUpto at h
  split_ifs at h
  · cases h
  · cases hc : scan.classifier? s with
    | none => simp [hc] at h
    | some c =>
      simp only [hc] at h
      obtain ⟨word, found, hclass, heq⟩ := exists_word_of_mem_splitFrom h
      exact ⟨c, word, found, rfl, hclass, heq⟩

/-- **What the relevance of a scan adds up to.** After any number of calls for the next token, it
is what the modes pushed so far are worth and what the words classified so far weigh, up to the
largest score. A step pushes its modes onto what stays open of the stack, and its words have their
forms and weights from the table of the innermost mode. So the relevance never goes down. -/
theorem relevance_accounted (scan : Scan) (calls : Nat) :
    (∃ modes words, Charged scan scan.start modes words (scan.after calls)) ∧
    (∀ modes words, Charged scan scan.start modes words (scan.after calls) →
      (scan.after calls).report.relevance = min maxScore (scan.worth modes + weigh [] words)) ∧
    (∀ s, ∃ kept, kept <:+ s.stack ∧ (scan.step s).stack = scan.pushed s ++ kept) ∧
    (∀ s, ∀ entry ∈ scan.classified s, ∃ c word found, scan.classifier? s = some c ∧
      c.table.classify word = some found ∧ entry = (c.table.key word, found.weight)) ∧
    ∀ more, (scan.after calls).report.relevance ≤ (scan.after (calls + more)).report.relevance := by
  have hstart : Accounts scan.start.score 0 [] := .zero
  have hall (calls : Nat) : ∃ modes words,
      Charged scan scan.start modes words (scan.after calls) := by
    have h := exists_charged_after scan 0 calls
    rwa [Nat.zero_add] at h
  have htotal {modes words s} (h : Charged scan scan.start modes words s) :
      s.report.relevance = min maxScore (scan.worth modes + weigh [] words) := by
    have haccounts := h.accounts hstart
    rw [Nat.zero_add, List.nil_append] at haccounts
    exact haccounts.total_eq
  refine ⟨hall calls, fun _ _ h => htotal h, step_stack_eq scan,
    fun _ _ h => exists_word_of_mem_classified h, fun more => ?_⟩
  obtain ⟨modes, words, h⟩ := hall calls
  obtain ⟨modes', words', h'⟩ := exists_charged_after scan calls more
  rw [htotal h, htotal (h.trans h'), worth_append, Keyword.weigh_append]
  omega

/-! ## A word said too often -/

/-- A grammar with a word in two tables, of which one ignores case. -/
def insisting : Grammar.Draft where
  name := "insisting"
  definitions := #[
    { opening := some "<", closing := some ">", relevance := some 5, wordPattern := some "[aA]"
      keywords := some { entries := [("a", ⟨0, 3⟩)], classes := #["k"] } },
    { contains := [.mode 0], wordPattern := some "[aA]"
      keywords := some { entries := [("a", ⟨0, 2⟩)], classes := #["k"], ignoreCase := true } }]
  root := some 1

/-- A scan in which the word occurs eight times, and once more in a mode that opens. -/
def insistingScan (g : Grammar) : Scan where
  grammar := g
  text := #['a', 'A', 'a', 'A', 'a', 'A', 'a', 'A', '<', 'a', '>']

/-- The mode is worth 5, and the word weighs 2 for seven times. -/
theorem insisting_relevance_accounted : ∃ g, insisting.build = .ok g ∧
    ((insistingScan g).after 11).report.relevance = 19 ∧
    ∃ modes words,
      Charged (insistingScan g) (insistingScan g).start modes words ((insistingScan g).after 11) ∧
      min maxScore ((insistingScan g).worth modes + weigh [] words) = 19 := by
  obtain ⟨g, hbuild, hrelevance⟩ := insisting.exists_built
    (fun g => ((insistingScan g).after 11).report.relevance = 19) (by decide +kernel)
  obtain ⟨⟨modes, words, hcharged⟩, htotal, -⟩ := relevance_accounted (insistingScan g) 11
  exact ⟨g, hbuild, hrelevance, modes, words, hcharged,
    (htotal modes words hcharged).symm.trans hrelevance⟩

end Scan

end ModeStack
