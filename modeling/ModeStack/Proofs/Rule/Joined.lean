import ModeStack.Proofs.Regex.Movable
import ModeStack.Rule.RuleSet

/-!
# Reading joined patterns

A joined pattern is read part by part. `Before` is what has been read before a part, and
`Before.step` what has been read after it: the flags in force, the number of groups, their names,
and whether a group was referred to. Parts are accepted where each fits after those before it
(`Accepts`); then the whole means one group for each part (`parse_joined`), under the flags that
the parts before it have left (`bodies`). Only verbose mode must not be left in force (`Terse`).

Where parts leave flags alone (`Movable.Steady`), those that are accepted after others are accepted
without them (`Accepts.drop`), so that a list of rules without its first ones can be joined whenever
all of them can.
-/

namespace ModeStack.Rule

open ModeStack.Text ModeStack.Regex

/-! ## What comes before a part -/

/-- What has been read before a part. -/
structure Before where
  flags : Flags
  groups : Nat
  names : List (String × Nat)
  numbered : Bool

namespace Before

/-- Nothing has been read but the shared flags. -/
def start (ignoreCase : Bool) : Before := ⟨sharedFlags ignoreCase, 0, [], false⟩

/-- A part has been read, inside a group of its own. -/
def step (b : Before) (m : Movable) : Before where
  flags := flagsAfter b.flags m.text
  groups := b.groups + 1 + m.groups
  names := m.names.map (fun (id, index) => (id, index + (b.groups + 1))) ++ b.names
  numbered := m.numbered || b.numbered

/-- What has been read after all parts. -/
def all (ignoreCase : Bool) (ms : List Movable) : Before := ms.foldl step (.start ignoreCase)

/-- The place of a part inside its group. -/
def context (b : Before) (after : List Char) : Context where
  offset := b.groups + 1
  names := b.names
  numbered := b.numbered
  depth := 62
  after := after

/-- The state in which what follows is read. -/
def reading (b : Before) (rest : List Char) : Reading where
  rest := rest
  flags := b.flags
  groups := b.groups
  names := b.names
  numbered := b.numbered

/-- Whether names and numbers are mixed. -/
def isMixed (b : Before) : Bool := b.numbered && !b.names.isEmpty

theorem isMixed_reading (b : Before) (rest : List Char) :
    ((b.reading rest).numbered && !(b.reading rest).names.isEmpty) = b.isMixed := rfl

/-- The first has read less than the second, under the same flags. -/
structure Le (b' b : Before) : Prop where
  flags : b'.flags = b.flags
  groups : b'.groups ≤ b.groups
  names : b.names = [] → b'.names = []
  numbered : b.numbered = false → b'.numbered = false

variable {b b' : Before}

theorem Le.step (h : b'.Le b) (m : Movable) : (b'.step m).Le (b.step m) where
  flags := by
    simp only [Before.step, h.flags]
  groups := by
    have := h.groups
    simp only [Before.step]
    omega
  names := by
    simp only [Before.step, List.append_eq_nil_iff, List.map_eq_nil_iff]
    exact fun hnames => ⟨hnames.1, h.names hnames.2⟩
  numbered := by
    simp only [Before.step, Bool.or_eq_false_iff]
    exact fun hnumbered => ⟨hnumbered.1, h.numbered hnumbered.2⟩

theorem start_le {ignoreCase : Bool} (hflags : b.flags = sharedFlags ignoreCase) :
    (start ignoreCase).Le b :=
  ⟨hflags.symm, Nat.zero_le _, fun _ => rfl, fun _ => rfl⟩

theorem Le.isMixed (h : b'.Le b) (hb : b.isMixed = false) : b'.isMixed = false := by
  simp only [Before.isMixed, Bool.and_eq_false_iff, Bool.not_eq_false', List.isEmpty_iff] at hb ⊢
  exact hb.imp h.numbered h.names

theorem Le.foldl (h : b'.Le b) (ms : List Movable) :
    (ms.foldl .step b' : Before).Le (ms.foldl .step b) := by
  induction ms generalizing b b' with
  | nil => exact h
  | cons m ms ih => exact ih (h.step m)

end Before

/-- Verbose mode is in force before no part. -/
def Terse : Before → List Movable → Prop
  | _, [] => True
  | b, m :: ms => b.flags.verbose = false ∧ Terse (b.step m) ms

/-- Each part fits after those before it. -/
def Accepts : Before → List Movable → Prop
  | _, [] => True
  | b, m :: ms => m.Fits b.flags (b.context []) ∧ Accepts (b.step m) ms

/-- What the parts mean, each under the flags that those before it have left. -/
def bodies : Before → List Movable → List Body
  | _, [] => []
  | b, m :: ms => m.body b.flags :: bodies (b.step m) ms

theorem fits_context {b b' : Before} {m : Movable} {after : List Char}
    (h : m.Fits b.flags (b.context [])) (hterse : b.flags.verbose = false) (hb : b'.Le b) :
    m.Fits b'.flags (b'.context after) := by
  rw [hb.flags]
  exact h.mono hterse ⟨Nat.succ_le_succ hb.groups, hb.names, hb.numbered, le_rfl⟩

/-! ## Parts that leave flags alone -/

section Steady

variable {b b' : Before} {ms : List Movable} {ignoreCase : Bool}

theorem terse_of_steady (hverbose : b.flags.verbose = false) (hsteady : ∀ m ∈ ms, m.Steady) :
    Terse b ms := by
  induction ms generalizing b with
  | nil => trivial
  | cons m ms ih =>
    have hflags : (b.step m).flags = b.flags := hsteady m List.mem_cons_self _ hverbose
    refine ⟨hverbose, ih ?_ fun m' hm' => hsteady m' (List.mem_cons_of_mem _ hm')⟩
    rw [hflags]
    exact hverbose

theorem bodies_of_steady (hverbose : b.flags.verbose = false) (hsteady : ∀ m ∈ ms, m.Steady) :
    bodies b ms = ms.map (·.body b.flags) := by
  induction ms generalizing b with
  | nil => rfl
  | cons m ms ih =>
    have hflags : (b.step m).flags = b.flags := hsteady m List.mem_cons_self _ hverbose
    have hrest := ih (b := b.step m) (by rw [hflags]; exact hverbose)
      fun m' hm' => hsteady m' (List.mem_cons_of_mem _ hm')
    rw [bodies, hrest, hflags]
    rfl

theorem Accepts.mono (h : Accepts b ms) (hterse : Terse b ms) (hb : b'.Le b) : Accepts b' ms := by
  induction ms generalizing b b' with
  | nil => trivial
  | cons m ms ih => exact ⟨fits_context h.1 hterse.1 hb, ih h.2 hterse.2 (hb.step m)⟩

/-- Parts that are accepted after others are accepted without them. -/
theorem Accepts.drop (h : Accepts b ms) (hflags : b.flags = sharedFlags ignoreCase)
    (hsteady : ∀ m ∈ ms, m.Steady) (count : Nat) :
    Accepts (.start ignoreCase) (ms.drop count) := by
  have hverbose : b.flags.verbose = false := by
    rw [hflags]
    rfl
  induction count generalizing ms b with
  | zero => exact h.mono (terse_of_steady hverbose hsteady) (Before.start_le hflags)
  | succ count ih =>
    cases ms with
    | nil => trivial
    | cons m ms =>
      have hstep : (b.step m).flags = b.flags := hsteady m List.mem_cons_self _ hverbose
      exact ih h.2 (hstep.trans hflags) (fun m' hm' => hsteady m' (List.mem_cons_of_mem _ hm'))
        (by rw [hstep]; exact hverbose)

/-- Fewer parts have been read without the first ones. -/
theorem Before.all_drop_le (hsteady : ∀ m ∈ ms, m.Steady) (count : Nat) :
    (Before.all ignoreCase (ms.drop count)).Le (Before.all ignoreCase ms) := by
  suffices ∀ b : Before, b.flags = sharedFlags ignoreCase →
      (Before.all ignoreCase (ms.drop count)).Le (ms.foldl .step b) from this _ rfl
  induction count generalizing ms with
  | zero => exact fun b hflags => (Before.start_le hflags).foldl ms
  | succ count ih =>
    intro b hflags
    cases ms with
    | nil => exact Before.start_le hflags
    | cons m ms =>
      have hstep : (b.step m).flags = b.flags :=
        hsteady m List.mem_cons_self _ (by rw [hflags]; rfl)
      exact ih (fun m' hm' => hsteady m' (List.mem_cons_of_mem _ hm')) (b.step m)
        (hstep.trans hflags)

end Steady

/-! ## Reading one part -/

/-- The text of a part inside its group. -/
def partText (before : Nat) (m : Movable) (after : List Char) : List Char :=
  '(' :: (raised (before + 1) m.text ++ ')' :: after)

/-- What a part means inside its group. -/
def partExpr (before : Nat) (body : Body) : Expr :=
  .group (before + 1) (body.expr.shift (before + 2))

section Part

variable {b : Before} {m : Movable} {after : List Char}

/-- Opening the group of a part. -/
theorem atom_part (hterse : b.flags.verbose = false) :
    atom (group (expression 62)) (b.reading (partText b.groups m after)) =
    (do return .group (b.groups + 1) (← closed (expression 62)) : Parser Expr)
      ((b.context after).place (m.start b.flags)) := by
  have hplace : (b.context after).place (m.start b.flags) =
      { b.reading (raised (b.groups + 1) m.text ++ ')' :: after) with
        groups := b.groups + 1 } := by
    simp [Context.place, Before.context, Movable.start, Before.reading, Context.tail]
  have hnext : next ((b.context after).put false m.text) ≠ '?' := by
    rw [next_put]
    exact m.next_ne
  rw [atom_group rfl, group_capture (skip_of_terse hterse (m.uncommented (b.context after))) hnext,
    hplace]
  rfl

/-- A part that fits is read as one piece. -/
theorem piece_part (hterse : b.flags.verbose = false) (hafter : isStop (next after) = true)
    (h : m.Fits b.flags (b.context [])) :
    piece (group (expression 62)) (b.reading (partText b.groups m after)) =
      .ok (partExpr b.groups (m.body b.flags), (b.step m).reading after) := by
  have hfits : expression 62 ((b.context after).place (m.start b.flags)) = _ :=
    fits_context h hterse ⟨rfl, le_rfl, id, id⟩
  have hskip : skip ((b.context after).place (m.stop b.flags)) =
      .ok ((), (b.context after).place (m.stop b.flags)) := skip_stop rfl
  have hstop : ((b.context after).place (m.stop b.flags)).withRest after =
      (b.step m).reading after := by
    have hgroups : m.groups + (b.groups + 1) = b.groups + 1 + m.groups := Nat.add_comm _ _
    simp only [Context.place, Before.context, Movable.stop, Before.reading, Before.step,
      Reading.withRest, hgroups]
  refine piece_of_atom ?_ (skip_stop hafter) ?_
  · rw [atom_part hterse, closed, bind_assoc, parser_bind_of_ok hfits, bind_assoc,
      parser_bind_of_ok (closeGroup_close hskip rfl)]
    exact congrArg (fun s => Except.ok (partExpr b.groups (m.body b.flags), s)) hstop
  · show ['?', '*', '+', '\x7b'].contains (next after) = false
    rcases cases_of_isStop hafter with h | h <;> rw [h] <;> rfl

/-- A part that does not fit is refused. -/
theorem piece_part_error (hterse : b.flags.verbose = false) (after : List Char)
    (h : ¬ m.Fits b.flags (b.context [])) : ∃ err,
    piece (group (expression 62)) (b.reading (partText b.groups m after)) = .error err := by
  have hnot : ¬ m.Fits b.flags (b.context after) := fun hfits =>
    h (hfits.mono hterse ⟨le_rfl, id, id, le_rfl⟩)
  obtain ⟨err, herror⟩ := Movable.error_of_not_fits hnot hterse
  refine ⟨err, piece_of_error ?_⟩
  rw [atom_part hterse, closed, bind_assoc]
  exact parser_bind_of_error herror

/-- The start of a part is no comment. -/
theorem skip_part (hterse : b.flags.verbose = false) :
    skip (b.reading (partText b.groups m after)) =
      .ok ((), b.reading (partText b.groups m after)) := by
  refine skip_of_terse hterse ⟨?_, fun hverbose => (Bool.false_ne_true hverbose).elim⟩
  rintro ⟨rest, hrest⟩
  have hquestion : next ((b.context after).put false m.text) = '?' := by
    have htail : '?' :: '#' :: rest = (b.context after).put false m.text :=
      (List.cons.inj hrest).2
    rw [← htail]
    rfl
  rw [next_put] at hquestion
  exact m.next_ne hquestion

/-- A part is read as a sequence of one. -/
theorem sequence_part (hterse : b.flags.verbose = false) (hafter : isStop (next after) = true)
    (h : m.Fits b.flags (b.context [])) :
    Regex.sequence (group (expression 62)) (b.reading (partText b.groups m after)) =
      .ok (partExpr b.groups (m.body b.flags), (b.step m).reading after) := by
  have hpieces (rounds : Nat) : pieces (group (expression 62)) (rounds + 2)
      (b.reading (partText b.groups m after)) =
      .ok ([partExpr b.groups (m.body b.flags)], (b.step m).reading after) := by
    rw [pieces_more (skip_part hterse) rfl, parser_bind_of_ok (piece_part hterse hafter h),
      parser_bind_of_ok (pieces_stop hafter)]
    rfl
  unfold Regex.sequence
  rw [bind_remaining]
  exact parser_bind_of_ok (hpieces _)

theorem sequence_part_error (hterse : b.flags.verbose = false) (after : List Char)
    (h : ¬ m.Fits b.flags (b.context [])) : ∃ err,
    Regex.sequence (group (expression 62)) (b.reading (partText b.groups m after)) =
      .error err := by
  obtain ⟨err, herror⟩ := piece_part_error hterse after h
  refine ⟨err, ?_⟩
  unfold Regex.sequence
  rw [bind_remaining]
  refine parser_bind_of_error ?_
  rw [pieces_more (skip_part hterse) rfl]
  exact parser_bind_of_error herror

end Part

/-! ## Reading all parts -/

/-- The text after a part: the other parts, and the end of the group around all. -/
def tailText : (before : Nat) → List Movable → List Char
  | _, [] => [')']
  | before, m :: ms => '|' :: partText before m (tailText (before + 1 + m.groups) ms)

/-- What parts mean, where `before` groups precede. -/
def partExprs : (before : Nat) → List Body → List Expr
  | _, [] => []
  | before, body :: bodies =>
    partExpr before body :: partExprs (before + 1 + body.groups) bodies

variable {b : Before} {ms : List Movable} {ignoreCase : Bool}

theorem isStop_tailText (before : Nat) (ms : List Movable) :
    isStop (next (tailText before ms)) = true := by
  cases ms <;> rfl

theorem length_lt_length_tailText (before : Nat) (ms : List Movable) :
    ms.length < (tailText before ms).length := by
  induction ms generalizing before with
  | nil => exact Nat.one_pos
  | cons m ms ih =>
    have := ih (before + 1 + m.groups)
    simp only [tailText, partText, List.length_cons, List.length_append]
    omega

section Alternatives

variable {p : Parser Expr} {s : Reading} {cs : List Char} {rounds : Nat}

theorem alternatives_bar (hs : s.rest = '|' :: cs) :
    alternatives p (rounds + 1) s = (do
      let e ← Regex.sequence p
      let es ← alternatives p rounds
      return e :: es : Parser (List Expr)) (s.withRest cs) := by
  conv_lhs => unfold alternatives
  rw [parser_bind_of_ok (accept_of_cons hs)]
  rfl

theorem alternatives_close (hs : s.rest = ')' :: cs) :
    alternatives p (rounds + 1) s = .ok ([], s) := by
  unfold alternatives
  rw [parser_bind_of_ok (accept_of_head?_ne (by simp [hs]))]
  rfl

end Alternatives

/-- Parts that are accepted are read as alternatives. -/
theorem alternatives_parts (hterse : Terse b ms) (h : Accepts b ms) {rounds : Nat}
    (hrounds : ms.length < rounds) :
    alternatives (group (expression 62)) rounds (b.reading (tailText b.groups ms)) =
      .ok (partExprs b.groups (bodies b ms), (ms.foldl .step b).reading [')']) := by
  induction ms generalizing b rounds with
  | nil =>
    obtain ⟨rounds, rfl⟩ := Nat.exists_eq_succ_of_ne_zero (Nat.ne_zero_of_lt hrounds)
    exact alternatives_close rfl
  | cons m ms ih =>
    obtain ⟨rounds, rfl⟩ := Nat.exists_eq_succ_of_ne_zero (Nat.ne_zero_of_lt hrounds)
    have hrest := ih hterse.2 h.2 (Nat.lt_of_succ_lt_succ hrounds)
    rw [Nat.succ_eq_add_one, alternatives_bar rfl]
    refine (parser_bind_of_ok (sequence_part hterse.1 (isStop_tailText _ _) h.1)).trans ?_
    refine (parser_bind_of_ok hrest).trans ?_
    rw [bodies, partExprs, m.groups_body]
    rfl

/-- Parts that are not accepted are refused. -/
theorem alternatives_parts_error (hterse : Terse b ms) (h : ¬ Accepts b ms) {rounds : Nat}
    (hrounds : ms.length < rounds) : ∃ err,
    alternatives (group (expression 62)) rounds (b.reading (tailText b.groups ms)) =
      .error err := by
  induction ms generalizing b rounds with
  | nil => exact absurd trivial h
  | cons m ms ih =>
    obtain ⟨rounds, rfl⟩ := Nat.exists_eq_succ_of_ne_zero (Nat.ne_zero_of_lt hrounds)
    rw [Nat.succ_eq_add_one, alternatives_bar rfl]
    by_cases hfits : m.Fits b.flags (b.context [])
    · obtain ⟨err, herror⟩ :=
        ih hterse.2 (fun hms => h ⟨hfits, hms⟩) (Nat.lt_of_succ_lt_succ hrounds)
      refine ⟨err, ?_⟩
      refine (parser_bind_of_ok (sequence_part hterse.1 (isStop_tailText _ _) hfits)).trans ?_
      exact parser_bind_of_error herror
    · obtain ⟨err, herror⟩ := sequence_part_error hterse.1
        (tailText (b.groups + 1 + m.groups) ms) hfits
      exact ⟨err, parser_bind_of_error herror⟩

/-- What joined parts mean. -/
def joinedExpr (before : Nat) (body : Body) (rest : List Body) : Expr :=
  .ofAlternatives (partExpr before body) (partExprs (before + 1 + body.groups) rest)

/-- The text of the parts and the parenthesis after them. -/
def joinedText (before : Nat) (m : Movable) (ms : List Movable) : List Char :=
  partText before m (tailText (before + 1 + m.groups) ms)

section Expression

variable {m : Movable} (hterse : Terse (.start ignoreCase) (m :: ms))

include hterse

/-- Joined parts that are accepted are read, unless a single one mixes names and numbers. -/
theorem expression_joined (h : Accepts (.start ignoreCase) (m :: ms)) :
    expression 63 ((Before.start ignoreCase).reading (joinedText 0 m ms)) =
      if (partExprs (0 + 1 + m.groups) (bodies ((Before.start ignoreCase).step m) ms)).isEmpty &&
          (Before.all ignoreCase (m :: ms)).isMixed then
        .error .mixedReferences
      else .ok (joinedExpr 0 (m.body (sharedFlags ignoreCase))
          (bodies ((Before.start ignoreCase).step m) ms),
        (Before.all ignoreCase (m :: ms)).reading [')']) := by
  show Regex.alternation (group (expression 62)) _ = _
  have hrest := alternatives_parts hterse.2 h.2
    ((length_lt_length_tailText (0 + 1 + m.groups) ms).trans (Nat.lt_succ_self _))
  unfold Regex.alternation
  refine (parser_bind_of_ok (sequence_part hterse.1 (isStop_tailText _ _) h.1)).trans ?_
  rw [bind_remaining]
  refine (parser_bind_of_ok hrest).trans ?_
  rw [bind_get, joinedExpr, m.groups_body, Before.isMixed, ← Bool.and_assoc]
  show (if ((partExprs (0 + 1 + m.groups) (bodies ((Before.start ignoreCase).step m) ms)).isEmpty &&
    (Before.all ignoreCase (m :: ms)).numbered &&
      !(Before.all ignoreCase (m :: ms)).names.isEmpty) = true then _ else _ : Parser Expr) _ = _
  split_ifs
  · rfl
  · rfl

theorem expression_joined_error (h : ¬ Accepts (.start ignoreCase) (m :: ms)) : ∃ err,
    expression 63 ((Before.start ignoreCase).reading (joinedText 0 m ms)) = .error err := by
  show ∃ err, Regex.alternation (group (expression 62)) _ = .error err
  unfold Regex.alternation
  by_cases hfits : m.Fits (sharedFlags ignoreCase) ((Before.start ignoreCase).context [])
  · have hnot : ¬ Accepts ((Before.start ignoreCase).step m) ms := fun hms => h ⟨hfits, hms⟩
    obtain ⟨err, herror⟩ := alternatives_parts_error hterse.2 hnot
      ((length_lt_length_tailText (0 + 1 + m.groups) ms).trans (Nat.lt_succ_self _))
    refine ⟨err, (parser_bind_of_ok (sequence_part hterse.1 (isStop_tailText _ _) hfits)).trans ?_⟩
    rw [bind_remaining]
    exact parser_bind_of_error herror
  · obtain ⟨err, herror⟩ := sequence_part_error hterse.1 (tailText (0 + 1 + m.groups) ms) hfits
    exact ⟨err, parser_bind_of_error herror⟩

end Expression

/-! ## The numbers of groups -/

section Numbers

variable {before : Nat} {rest : List Body}

/-- The groups that parts refer to. -/
def partReferences : (before : Nat) → List Body → List Nat
  | _, [] => []
  | before, body :: bodies =>
    body.expr.references.map (· + (before + 2)) ++
      partReferences (before + 1 + body.groups) bodies

theorem references_joinedExpr (before : Nat) (body : Body) (rest : List Body) :
    (joinedExpr before body rest).references = partReferences before (body :: rest) := by
  induction rest generalizing before body with
  | nil =>
    simp [joinedExpr, partExprs, Expr.ofAlternatives, partExpr, Expr.references, partReferences]
  | cons body' rest ih =>
    have hrest := ih (before + 1 + body.groups) body'
    rw [joinedExpr] at hrest
    rw [joinedExpr, partExprs, Expr.ofAlternatives, Expr.references, hrest, partExpr,
      Expr.references, Expr.references_shift]
    rfl

/-- The number of groups after parts, where `before` groups precede. -/
def groupsAfter : (before : Nat) → List Body → Nat
  | before, [] => before
  | before, body :: bodies => groupsAfter (before + 1 + body.groups) bodies

theorem le_groupsAfter (before : Nat) (rest : List Body) : before ≤ groupsAfter before rest := by
  induction rest generalizing before with
  | nil => exact le_rfl
  | cons body rest ih =>
    have := ih (before + 1 + body.groups)
    rw [groupsAfter]
    omega

theorem groups_foldl (b : Before) (ms : List Movable) :
    (ms.foldl .step b : Before).groups = groupsAfter b.groups (bodies b ms) := by
  induction ms generalizing b with
  | nil => rfl
  | cons m ms ih =>
    rw [bodies, groupsAfter, m.groups_body]
    exact ih (b.step m)

/-- Parts refer to groups of their own. -/
theorem lt_of_mem_partReferences {i : Nat} (h : i ∈ partReferences before rest) :
    before + 1 < i ∧ i ≤ groupsAfter before rest := by
  induction rest generalizing before with
  | nil => cases h
  | cons body rest ih =>
    rw [partReferences, List.mem_append, List.mem_map] at h
    rw [groupsAfter]
    rcases h with ⟨j, hj, rfl⟩ | h
    · have hlt := body.references_lt j hj
      have hle := le_groupsAfter (before + 1 + body.groups) rest
      omega
    · obtain ⟨hlt, hle⟩ := ih h
      exact ⟨by omega, hle⟩

/-- The numbers of the groups that wrap parts. -/
def wrapperNumbers : (before : Nat) → List Body → List Nat
  | _, [] => []
  | before, body :: bodies => (before + 1) :: wrapperNumbers (before + 1 + body.groups) bodies

end Numbers

/-! ## The joined text -/

/-- The movable text of a part. -/
structure Stands (part : Part) (m : Movable) : Prop where
  text : m.text = part.source.toList
  groups : m.groups = part.groups

variable {parts : List Part}

theorem wrapped_wrappers (h : List.Forall₂ Stands parts ms) (before : Nat) (b : Before) :
    (wrapped true before parts).2 = wrapperNumbers before (bodies b ms) := by
  induction h generalizing before b with
  | nil => rfl
  | @cons part m _ _ hpart _ ih =>
    rw [bodies, wrapperNumbers, m.groups_body, hpart.groups, ← ih _ (b.step m)]
    rfl

theorem toList_wrapped {part : Part} {m : Movable} (h : Stands part m) (before : Nat)
    (after : List Char) :
    ("(" ++ renumber part.source (before + 1) ++ ")").toList ++ after =
      partText before m after := by
  simp [String.toList_append, renumber_eq_raised, partText, h.text]

theorem wrapped_texts (before : Nat) {m : Movable} (h : List.Forall₂ Stands parts (m :: ms)) :
    (String.intercalate "|" (wrapped true before parts).1).toList ++ [')'] =
      joinedText before m ms := by
  induction ms generalizing before m parts with
  | nil =>
    cases h with
    | cons hpart hrest =>
      cases hrest
      rw [wrapped, wrapped]
      exact toList_wrapped hpart before [')']
  | cons m' ms ih =>
    cases h with
    | @cons part _ parts _ hpart hrest =>
      have htail := ih (before + 1 + part.groups) hrest
      have hne : (wrapped true (before + 1 + part.groups) parts).1 ≠ [] := by
        cases hrest
        simp [wrapped]
      have hwrapped : (wrapped true before (part :: parts)).1 =
          ("(" ++ renumber part.source (before + 1) ++ ")") ::
            (wrapped true (before + 1 + part.groups) parts).1 := rfl
      rw [hwrapped, String.intercalate_cons_of_ne_nil hne, String.toList_append,
        String.toList_append, List.append_assoc, List.append_assoc, htail,
        toList_wrapped hpart, ← hpart.groups]
      rfl

/-! ## The meaning of joined patterns -/

section Parse

variable {m : Movable} (h : List.Forall₂ Stands parts (m :: ms))
  (hterse : Terse (.start ignoreCase) (m :: ms))

include h

theorem flaggedStart_joined (ignoreCase : Bool) :
    flaggedStart ignoreCase (alternation true parts).1.toList =
      (Before.start ignoreCase).reading (joinedText 0 m ms) := by
  rw [← wrapped_texts 0 h]
  rfl

include hterse

/-- Where joined patterns are read, each part fits, and names and numbers are not mixed. -/
theorem accepts_of_parse {e : Expr} {n : Nat}
    (hparse : parse (Pattern.flagged ignoreCase (alternation true parts).1) = .ok (e, n)) :
    Accepts (.start ignoreCase) (m :: ms) ∧
      (Before.all ignoreCase (m :: ms)).isMixed = false := by
  by_cases haccepts : Accepts (.start ignoreCase) (m :: ms)
  · refine ⟨haccepts, ?_⟩
    by_contra hmixed
    have hexpression := expression_joined hterse haccepts
    rw [← flaggedStart_joined h] at hexpression
    split_ifs at hexpression
    · rw [parse_flagged_of_error hexpression] at hparse
      cases hparse
    · rw [parse_flagged_of_ok hexpression rfl, Before.isMixed_reading,
        if_pos (Bool.eq_true_of_not_eq_false hmixed)] at hparse
      cases hparse
  · obtain ⟨err, herror⟩ := expression_joined_error hterse haccepts
    rw [← flaggedStart_joined h] at herror
    rw [parse_flagged_of_error herror] at hparse
    cases hparse

/-- **Joined patterns mean one group for each part.** -/
theorem parse_joined (haccepts : Accepts (.start ignoreCase) (m :: ms))
    (hmixed : (Before.all ignoreCase (m :: ms)).isMixed = false) :
    parse (Pattern.flagged ignoreCase (alternation true parts).1) =
      .ok (joinedExpr 0 (m.body (sharedFlags ignoreCase))
          (bodies ((Before.start ignoreCase).step m) ms),
        groupsAfter 0 (bodies (.start ignoreCase) (m :: ms))) := by
  have hexpression := expression_joined hterse haccepts
  rw [← flaggedStart_joined h, hmixed, Bool.and_false] at hexpression
  have hgroups : ((Before.all ignoreCase (m :: ms)).reading [')']).groups =
      groupsAfter 0 (bodies (.start ignoreCase) (m :: ms)) :=
    groups_foldl (.start ignoreCase) (m :: ms)
  have hrefs : ((joinedExpr 0 (m.body (sharedFlags ignoreCase))
      (bodies ((Before.start ignoreCase).step m) ms)).references.all fun index =>
      1 ≤ index && index ≤ groupsAfter 0 (bodies (.start ignoreCase) (m :: ms))) = true := by
    rw [references_joinedExpr]
    refine List.all_eq_true.2 fun i hi => ?_
    obtain ⟨hlt, hle⟩ := lt_of_mem_partReferences hi
    rw [Bool.and_eq_true, decide_eq_true_eq, decide_eq_true_eq]
    exact ⟨by omega, hle⟩
  rw [parse_flagged_of_ok hexpression rfl, Before.isMixed_reading, hmixed, hgroups, hrefs]
  rfl

end Parse

end ModeStack.Rule
