import ModeStack.Proofs.Language.Python.Numbers

/-!
# Python strings end at their closing quote

A string on one line is scanned in a mode that its mark and its quote open (`Known.search_opening`),
and that only the closing quote ends (`Known.search_quote`). A backslash opens a mode that ends
behind the character after it (`Known.search_escape`). So the scan goes through the phases that
`Phase` lists, and all of its tokens are labelled as strings (`scan_string`).
-/

namespace ModeStack.Language.Python

open ModeStack.Grammar
open ModeStack.Rule (Clause Part combine)
open ModeStack.Regex
open ModeStack.Scan (State Token)

-- Not by going through all characters.
attribute [local instance (high)] List.decidableBAll List.decidableBEx

/-! ## Strings -/

/-- The ways to write a word in small and capital letters. -/
def casings : List Char → List (List Char)
  | [] => [[]]
  | c :: cs => (casings cs).flatMap fun w => [c :: w, c.toUpper :: w]

def casingsOf (words : List String) : List (List Char) := words.flatMap fun w => casings w.toList

/-- What may precede the quotes of a string without substitutions. -/
def marks : List (List Char) := casingsOf ["", "u", "r", "b", "br", "rb"]

def quotes : List Char := ['\'', '"']

/-- What a string takes for what it is. -/
def Ordinary (quote c : Char) : Prop := c ≠ quote ∧ c ≠ '\\' ∧ c ≠ '\n'

instance (quote c : Char) : Decidable (Ordinary quote c) :=
  inferInstanceAs (Decidable (c ≠ quote ∧ c ≠ '\\' ∧ c ≠ '\n'))

/-- What may stand between two quotes on one line. A backslash takes the character after it,
whatever it is. -/
inductive Body (quote : Char) : List Char → Prop
  | nil : Body quote []
  | ordinary {c : Char} {cs : List Char} : Ordinary quote c → Body quote cs → Body quote (c :: cs)
  | escaped {c : Char} {cs : List Char} : Body quote cs → Body quote ('\\' :: c :: cs)

/-- A body has no escaped characters, or a first. -/
theorem Body.first {quote : Char} {body : List Char} (h : Body quote body) :
    (∀ c ∈ body, Ordinary quote c) ∨ ∃ before c after, body = before ++ '\\' :: c :: after ∧
      (∀ c ∈ before, Ordinary quote c) ∧ Body quote after := by
  induction h with
  | nil => exact .inl (by simp)
  | ordinary hc _ ih =>
    rcases ih with hall | ⟨before, d, after, rfl, hbefore, hafter⟩
    · exact .inl (List.forall_mem_cons.2 ⟨hc, hall⟩)
    · exact .inr ⟨_ :: before, d, after, rfl, List.forall_mem_cons.2 ⟨hc, hbefore⟩, hafter⟩
  | escaped hbody => exact .inr ⟨[], _, _, rfl, by simp, hbody⟩

/-- No second quote follows the first, unless it ends the text. -/
theorem Body.not_prefix {quote : Char} {body : List Char} (h : Body quote body)
    (hquote : quote ∈ quotes) : ¬[quote, quote] <+: body ++ [quote] := by
  have hne : ∀ quote ∈ quotes, quote ≠ '\\' := by decide
  cases h with
  | nil => simp
  | ordinary hc _ =>
    rw [List.cons_append, List.cons_prefix_cons]
    exact fun h => hc.1 h.1.symm
  | escaped _ =>
    rw [List.cons_append, List.cons_prefix_cons]
    exact fun h => hne quote hquote h.1

/-! ## Openings -/

def formatMarks : List (List Char) := casingsOf ["fr", "rf", "f"]

def quoted (marks : List (List Char)) (quotes : String) : List (List Char) :=
  marks.map (· ++ quotes.toList)

/-- The words that open strings. -/
def stringWords : List (List (List Char)) :=
  [quoted marks "'''", quoted marks "\"\"\"",
   quoted formatMarks "'''", quoted formatMarks "\"\"\"",
   quoted (casingsOf ["u", "r"]) "'", quoted (casingsOf ["u", "r"]) "\"",
   quoted (casingsOf ["b", "br", "rb"]) "'", quoted (casingsOf ["b", "br", "rb"]) "\"",
   quoted formatMarks "'", quoted formatMarks "\"",
   ["'".toList], ["\"".toList]]

theorem spells_stringParts : ∀ p ∈ stringParts.zip stringWords, p.1.spells false p.2 = true := by
  decide +kernel

/-- An opening that agrees with a mark and a quote, as far as both go, is the same, or has three
quotes. -/
theorem eq_or_eq_of_agrees : ∀ mark ∈ marks, ∀ quote ∈ quotes, ∀ ws ∈ stringWords, ∀ w ∈ ws,
    w <+: mark ++ [quote] ∨ mark ++ [quote] <+: w →
      w = mark ++ [quote] ∨ w = mark ++ [quote, quote, quote] := by
  decide +kernel

/-- Every mark and quote are the opening of a string on one line, and of none before it. -/
theorem exists_opening : ∀ mark ∈ marks, ∀ quote ∈ quotes, ∃ m ∈ stringModes, m.2.1 = quote ∧
    mark ++ [quote] ∈ stringWords.getD (m.1 - 11) [] ∧
    ∀ ws ∈ stringWords.take (m.1 - 11), mark ++ [quote] ∉ ws := by
  decide +kernel

section Openings

variable {t : Text} {mark rest : List Char} {quote c : Char}

theorem plan_ifPart : ((Pattern.compile false ifPart.source).toOption.any fun p =>
    p.regex.plan = .seq (.direct Expr.edge)
      (.seq (.direct (.seq (.char 'i' false) (.char 'f' false)))
        (.seq (.ahead true (.direct (.char '.' false)))
          (.ahead false (.direct (.alt Expr.edge (.set (.named .blank false) false))))))) = true := by
  decide +kernel

theorem rejects_ifPart (hc : t[0]? = some c) (hne : c ≠ 'i') : ifPart.Rejects false t 0 := by
  intro p hp
  have hplan := plan_ifPart
  rw [hp] at hplan
  rw [of_decide_eq_true hplan]
  refine Plan.rejects_after_assertion rfl (Nat.zero_le _)
    (Expr.refuses_of_not_mayBegin rfl (by decide) hc ?_)
  simpa [Expr.mayBegin, Expr.minWidth] using hne.symm

/-- The rules of the root before those for strings reject what a mark or a quote begins. -/
theorem rejects_others (hc : t[0]? = some c) (hbegins : c ∈ "uUrRbB'\"".toList) {j : Nat}
    (hj : j < 11) {clause : Clause} (hclause : rootClauses[j]? = some clause) :
    clause.part.Rejects false t 0 := by
  rcases Nat.lt_succ_iff_lt_or_eq.1 hj with hlt | rfl
  · have hexprs : ∀ e ∈ firstExprs, 0 < e.minWidth ∧
        ∀ c ∈ "uUrRbB'\"".toList, e.mayBegin c = false := by decide
    have hlength : firstExprs.length = 10 := rfl
    have he : firstExprs[j]? = some firstExprs[j] := List.getElem?_eq_getElem (hlength ▸ hlt)
    obtain ⟨hwidth, hno⟩ := hexprs _ (List.getElem_mem _)
    exact Rule.Part.rejects_of_not_mayBegin (reads_first hclause he)
      (isRegular_firstExprs _ (List.getElem_mem _)) hwidth hc (hno c hbegins)
  · have hif : rootClauses[10]? = some ⟨.opening 10, ifPart⟩ := rfl
    cases hif.symm.trans hclause
    refine rejects_ifPart hc ?_
    rintro rfl
    revert hbegins
    decide

/-- The rules of the root for strings. -/
theorem rootClauses_string : ∀ k < 12, ∃ part ∈ stringParts[k]?,
    rootClauses[k + 11]? = some ⟨.opening (k + 11), part⟩ := by
  decide

theorem spells_string {k : Nat} {part : Part} {ws : List (List Char)}
    (hpart : stringParts[k]? = some part) (hws : stringWords[k]? = some ws) :
    part.spells false ws = true := by
  have hzip : (stringParts.zip stringWords)[k]? = some (part, ws) :=
    List.getElem?_zip_eq_some.2 ⟨hpart, hws⟩
  exact spells_stringParts (part, ws) (List.mem_of_getElem? hzip)

/-- The only opening that stands at the start of a string. -/
theorem eq_of_shows {ws : List (List Char)} {w : List Char} (hmark : mark ∈ marks)
    (hquote : quote ∈ quotes) (hrest : ¬[quote, quote] <+: rest) (hws : ws ∈ stringWords)
    (hw : w ∈ ws) (hshows : Shows (mark ++ quote :: rest).toArray 0 w) : w = mark ++ [quote] := by
  have hopens : mark ++ [quote] <+: mark ++ quote :: rest := ⟨rest, by simp⟩
  have hagrees := List.prefix_or_prefix_of_prefix (shows_zero.1 hshows) hopens
  rcases eq_or_eq_of_agrees mark hmark quote hquote ws hws w hw hagrees with heq | rfl
  · exact heq
  · have htail := (List.prefix_append_right_inj mark).1 (shows_zero.1 hshows)
    exact absurd (List.cons_prefix_cons.1 htail).2 hrest

/-- **A mark and a quote open a string on one line.** -/
theorem Known.search_opening {g : Grammar} (hg : Known g) (hmark : mark ∈ marks)
    (hquote : quote ∈ quotes) (hrest : ¬[quote, quote] <+: rest) :
    ∃ mode oneLine, (mode, quote, oneLine) ∈ stringModes ∧
      (g.mode root).rules.search 0 (mark ++ quote :: rest).toArray 0 =
        some ⟨.opening mode, mode, ⟨0, mark.length + 1⟩⟩ := by
  obtain ⟨⟨mode, quote, oneLine⟩, hmem, rfl, hword, hbefore⟩ :=
    exists_opening mark hmark quote hquote
  have hbounds : ∀ m ∈ stringModes, 11 ≤ m.1 ∧ m.1 < 23 := by decide
  obtain ⟨hle, hlt⟩ := hbounds _ hmem
  obtain ⟨k, rfl⟩ := Nat.exists_eq_add_of_le' hle
  rw [Nat.add_sub_cancel] at hword hbefore
  have hlength : stringWords.length = 12 := rfl
  have hwords {j : Nat} (hj : j ≤ k) : ∃ ws, stringWords[j]? = some ws :=
    ⟨_, List.getElem?_eq_getElem (by omega)⟩
  obtain ⟨ws, hws⟩ := hwords le_rfl
  rw [List.getD_eq_getElem?_getD, hws, Option.getD_some] at hword
  obtain ⟨part, hpart, hclause⟩ := rootClauses_string k (by omega)
  have hshows : Shows (mark ++ quote :: rest).toArray 0 (mark ++ [quote]) :=
    shows_zero.2 ⟨rest, by simp⟩
  have htakes := Rule.Part.takes_of_spells (spells_string hpart hws) (Nat.zero_le _) hword hshows
    fun u hu => eq_of_shows hmark hquote hrest (List.mem_of_getElem? hws) hu
  rw [Nat.zero_add, List.length_append, List.length_singleton] at htakes
  refine ⟨k + 11, oneLine, hmem, hg.search_here mem_sketches_root (Nat.zero_le _) hclause htakes
    (fun clause hearlier => ?_) ?_⟩
  · obtain ⟨j, hj⟩ := List.mem_iff_getElem?.1 hearlier
    rw [List.getElem?_take] at hj
    split_ifs at hj with hjk
    by_cases hother : j < 11
    · have hhead : ∀ mark ∈ marks, ∀ quote ∈ quotes, ∃ c ∈ "uUrRbB'\"".toList,
          [c] <+: mark ++ [quote] := by decide
      obtain ⟨c, hbegins, hc⟩ := hhead mark hmark quote hquote
      exact rejects_others (shows_singleton.1 (hc.trans hshows)) hbegins hother hj
    · -- An opening before it would be the same.
      obtain ⟨j, rfl⟩ := Nat.exists_eq_add_of_le' (not_lt.1 hother)
      obtain ⟨part', hpart', hclause'⟩ := rootClauses_string j (by omega)
      cases hj.symm.trans hclause'
      obtain ⟨ws', hws'⟩ := hwords (j := j) (by omega)
      refine Rule.Part.rejects_of_spells (spells_string hpart' hws') (Nat.zero_le _)
        fun u hu hshows' => ?_
      obtain rfl := eq_of_shows hmark hquote hrest (List.mem_of_getElem? hws') hu hshows'
      refine hbefore ws' (List.mem_of_getElem? (i := j) ?_) hu
      rw [List.getElem?_take_of_lt (by omega), hws']
  · have hmax : 23 ≤ maxBacktracks := by decide
    omega

end Openings

/-! ## Inside a string -/

section Inside

variable {t : Text} {mode pos start : Nat} {quote c d : Char} {oneLine : Bool} {g : Grammar}

/-- What an escape takes. -/
def escapeExpr : Expr := .seq (.char '\\' false)
  (.set (.bracket false (.union (.named .blank false) (.named .blank true))) false)

theorem reads_stringClauses : newlineClause.part.reads false (.char '\n' false) = true ∧
    escapeOpening.part.reads false escapeExpr = true ∧
    ∀ quote ∈ quotes, ∀ part ∈ [(quoteClause quote).part, ⟨String.singleton quote, 0⟩],
      part.isSelfContained false = true ∧ part.reads false (.char quote false) = true := by
  decide +kernel

theorem isDirect_stringClauses : ∀ m ∈ stringModes,
    ((combine false (stringClauses m.2.1 m.2.2)).toOption.all (·.regex.isDirect)) = true := by
  decide +kernel

theorem mem_sketches_string (hmode : (mode, quote, oneLine) ∈ stringModes) :
    (mode, stringSketch quote oneLine) ∈ sketches :=
  .tail _ (.tail _ (List.mem_append_right _ (List.mem_map.2 ⟨_, hmode, rfl⟩)))

theorem mem_sketches_escape : (escapeMode, escapeSketch) ∈ sketches := .tail _ List.mem_cons_self

theorem mem_quotes (hmode : (mode, quote, oneLine) ∈ stringModes) : quote ∈ quotes := by
  have hall : ∀ m ∈ stringModes, m.2.1 ∈ quotes := by decide
  exact hall _ hmode

section One

variable {part : Part} (h : part.reads false (.char d false) = true)

include h

theorem takes_char (hd : t[pos]? = some d) : part.Takes false t pos (pos + 1) :=
  Rule.Part.takes_of_reads h (Expr.prefers_of_unique rfl (Array.getElem?_eq_some_iff.1 hd).1.le
    ⟨rfl, d, hd, decide_eq_true rfl⟩ fun _ hr => hr.1)

theorem rejects_char (hc : t[pos]? = some c) (hne : c ≠ d) : part.Rejects false t pos :=
  Rule.Part.rejects_of_not_mayBegin h rfl Nat.one_pos hc (decide_eq_false hne.symm)

end One

theorem takes_escape (hpos : t[pos]? = some '\\') (hc : t[pos + 1]? = some c) :
    escapeOpening.part.Takes false t pos (pos + 2) := by
  have hall : CharSet.contains false (.bracket false (.union (.named .blank false)
      (.named .blank true))) c = true := by
    cases hblank : Property.blank.holds c <;> simp [CharSet.contains, upToCase, hblank]
  refine Rule.Part.takes_of_reads reads_stringClauses.2.1
    (Expr.prefers_of_unique rfl (Array.getElem?_eq_some_iff.1 hpos).1.le ?_ ?_)
  · exact ⟨pos + 1, ⟨rfl, _, hpos, rfl⟩, rfl, c, hc, hall⟩
  · rintro r ⟨m, hm, hr⟩
    rw [hr.1, hm.1]

theorem rejects_escape (hc : t[pos]? = some c) (hne : c ≠ '\\') :
    escapeOpening.part.Rejects false t pos :=
  Rule.Part.rejects_of_not_mayBegin reads_stringClauses.2.1 rfl (by decide) hc
    (by simpa [escapeExpr, Expr.mayBegin, Expr.minWidth] using hne.symm)

/-- No rule of a string takes an ordinary character. -/
theorem rejects_ordinary (hquote : quote ∈ quotes) (hc : t[pos]? = some c)
    (hplain : Ordinary quote c) :
    ∀ clause ∈ stringClauses quote oneLine, clause.part.Rejects false t pos := by
  obtain ⟨hnewline, -, hends⟩ := reads_stringClauses
  have hend := (hends quote hquote (quoteClause quote).part (by simp)).2
  obtain ⟨hne, hnotEscape, hnotNewline⟩ := hplain
  have hlast : ∀ clause ∈ [quoteClause quote, escapeOpening], clause.part.Rejects false t pos :=
    List.forall_mem_cons.2 ⟨rejects_char hend hc hne,
      List.forall_mem_singleton.2 (rejects_escape hc hnotEscape)⟩
  cases oneLine with
  | false => exact hlast
  | true => exact List.forall_mem_cons.2 ⟨rejects_char hnewline hc hnotNewline, hlast⟩

section Search

variable (hg : Known g) (hmode : (mode, quote, oneLine) ∈ stringModes) (hpos : pos ≤ start)
  (hstart : start ≤ t.size)
  (hbefore : ∀ q, pos ≤ q → q < start → ∃ c, t[q]? = some c ∧ Ordinary quote c)

include hg hmode hpos hstart hbefore

/-- What is found in a string behind ordinary characters. -/
theorem Known.search_inside {index stop : Nat} {clause : Clause}
    (hclause : (stringClauses quote oneLine)[index]? = some clause)
    (htakes : clause.part.Takes false t start stop)
    (hrejects : ∀ clause ∈ (stringClauses quote oneLine).take index,
      clause.part.Rejects false t start) :
    (g.mode mode).rules.search 0 t pos = some ⟨clause.rule, index, ⟨start, stop⟩⟩ := by
  have hdirect : ((combine false (stringSketch quote oneLine).clauses).toOption.all
      (·.regex.isDirect)) = true := isDirect_stringClauses (mode, quote, oneLine) hmode
  refine hg.search_onward (mem_sketches_string hmode) hdirect hpos hstart hclause htakes
    (fun q hq hlt => ?_) hrejects
  obtain ⟨c, hc, hplain⟩ := hbefore q hq hlt
  exact rejects_ordinary (mem_quotes hmode) hc hplain

/-- **The first quote that is not escaped ends a string.** -/
theorem Known.search_quote (hquote : t[start]? = some quote) :
    ∃ index, (g.mode mode).rules.search 0 t pos =
      some ⟨.ending, index, ⟨start, start + 1⟩⟩ := by
  have hmem := mem_quotes hmode
  obtain ⟨hnewline, -, hends⟩ := reads_stringClauses
  have hend := (hends quote hmem (quoteClause quote).part (by simp)).2
  have hclause : (stringClauses quote oneLine)[oneLine.toNat]? = some (quoteClause quote) := by
    cases oneLine <;> rfl
  have hrejects : ∀ clause ∈ (stringClauses quote oneLine).take oneLine.toNat,
      clause.part.Rejects false t start := by
    have hne : ∀ quote ∈ quotes, quote ≠ '\n' := by decide
    cases oneLine with
    | false => exact List.forall_mem_nil _
    | true => exact List.forall_mem_singleton.2 (rejects_char hnewline hquote (hne quote hmem))
  exact ⟨_, hg.search_inside hmode hpos hstart hbefore hclause (takes_char hend hquote) hrejects⟩

/-- **A backslash opens the mode of an escape**, with the character after it. -/
theorem Known.search_escape (hescape : t[start]? = some '\\') (hc : t[start + 1]? = some c) :
    ∃ index, (g.mode mode).rules.search 0 t pos =
      some ⟨.opening escapeMode, index, ⟨start, start + 2⟩⟩ := by
  have hmem := mem_quotes hmode
  obtain ⟨hnewline, -, hends⟩ := reads_stringClauses
  have hend := (hends quote hmem (quoteClause quote).part (by simp)).2
  have hclause : (stringClauses quote oneLine)[oneLine.toNat + 1]? = some escapeOpening := by
    cases oneLine <;> rfl
  have hrejects : ∀ clause ∈ (stringClauses quote oneLine).take (oneLine.toNat + 1),
      clause.part.Rejects false t start := by
    have hne : ∀ quote ∈ quotes, '\\' ≠ quote := by decide
    have hquote : ∀ clause ∈ [quoteClause quote], clause.part.Rejects false t start :=
      List.forall_mem_singleton.2 (rejects_char hend hescape (hne quote hmem))
    cases oneLine with
    | false => exact hquote
    | true => exact List.forall_mem_cons.2 ⟨rejects_char hnewline hescape (by decide), hquote⟩
  exact ⟨_, hg.search_inside hmode hpos hstart hbefore hclause (takes_escape hescape hc) hrejects⟩

end Search

end Inside

/-! ## The scan of a string -/

section Scanning

variable {t : Text} {mode pos : Nat} {quote : Char} {oneLine : Bool}

theorem ordinary_of_shows {w : List Char} (hshows : Shows t pos w)
    (hall : ∀ c ∈ w, Ordinary quote c) :
    ∀ q, pos ≤ q → q < pos + w.length → ∃ c, t[q]? = some c ∧ Ordinary quote c := by
  intro q hq hlt
  obtain ⟨i, rfl⟩ := Nat.exists_eq_add_of_le hq
  have hi : i < w.length := Nat.lt_of_add_lt_add_left hlt
  exact ⟨w[i], (hshows.getElem? hi).trans (List.getElem?_eq_getElem hi), hall _ (List.getElem_mem hi)⟩

/-- What is left of a string from a position inside it. -/
def Remains (t : Text) (quote : Char) (pos : Nat) : Prop :=
  ∃ body, Body quote body ∧ t.toList.drop pos = body ++ [quote]

/-- Behind some ordinary characters stands the quote that ends the text, or an escape. -/
theorem Remains.exists_next (h : Remains t quote pos) : ∃ start, pos ≤ start ∧
    (∀ q, pos ≤ q → q < start → ∃ c, t[q]? = some c ∧ Ordinary quote c) ∧
    (t[start]? = some quote ∧ start + 1 = t.size ∨
      ∃ c, t[start]? = some '\\' ∧ t[start + 1]? = some c ∧ Remains t quote (start + 2)) := by
  obtain ⟨body, hbody, hdrop⟩ := h
  have hshows : Shows t pos (body ++ [quote]) := hdrop ▸ List.prefix_rfl
  rcases hbody.first with hall | ⟨before, c, after, rfl, hbefore, hafter⟩
  · obtain ⟨hordinary, hquote⟩ := shows_append.1 hshows
    refine ⟨pos + body.length, Nat.le_add_right _ _, ordinary_of_shows hordinary hall,
      .inl ⟨shows_singleton.1 hquote, ?_⟩⟩
    have hlength := congrArg List.length hdrop
    simp only [List.length_drop, Array.length_toList, List.length_append, List.length_singleton]
      at hlength
    omega
  · rw [List.append_assoc] at hshows
    obtain ⟨hordinary, hescape⟩ := shows_append.1 hshows
    obtain ⟨hbackslash, hescape⟩ := shows_cons.1 hescape
    obtain ⟨hc, -⟩ := shows_cons.1 hescape
    refine ⟨pos + before.length, Nat.le_add_right _ _, ordinary_of_shows hordinary hbefore,
      .inr ⟨c, hbackslash, hc, after, hafter, ?_⟩⟩
    simp [Nat.add_assoc, ← List.drop_drop, hdrop]

/-- The stages of the scan of a string. -/
inductive Stage (t : Text) (mode : Nat) (quote : Char) (s : State) : Prop
  | before : s.stack = [root] → s.cursor = 0 → Stage t mode quote s
  | inside : s.stack = [mode, root] → Remains t quote s.cursor → Stage t mode quote s
  | escaped : s.stack = [escapeMode, mode, root] → Remains t quote s.cursor → s.stalled = 0 →
      s.last ≠ some ⟨true, s.cursor⟩ → Stage t mode quote s
  | behind : s.stack = [root] → s.cursor = t.size → t.size ≤ s.flushed → Stage t mode quote s

/-- What holds throughout the scan of a string. -/
structure Scanning (t : Text) (mode : Nat) (quote : Char) (s : State) : Prop where
  stage : Stage t mode quote s
  resume_eq : s.resume = none
  legal : s.illegal = false
  ended : s.closed = true → s.stack = [root]
  labelled : ∀ token ∈ s.queue, token.scope = some "string"

theorem Remains.lt_size (h : Remains t quote pos) : pos < t.size := by
  obtain ⟨body, -, hdrop⟩ := h
  have hlength := congrArg List.length hdrop
  simp only [List.length_drop, Array.length_toList, List.length_append, List.length_singleton]
    at hlength
  omega

section Steps

variable {g : Grammar} {s : State} (hg : Known g) (hmode : (mode, quote, oneLine) ∈ stringModes)
  (ignoreIllegals : Bool) (h : Scanning t mode quote s)

theorem Scanning.labelled_append (h : Scanning t mode quote s) {scope : Option String}
    (hscope : scope = some "string") (a b : Nat) :
    ∀ token ∈ s.queue ++ Scan.tokensFor scope a b, token.scope = some "string" :=
  List.forall_mem_append.2
    ⟨h.labelled, fun _ hmem => (Scan.scope_of_mem_tokensFor hmem).trans hscope⟩

include hg hmode h

theorem Scanning.step_before {stop : Nat} (hstack : s.stack = [root]) (hcursor : s.cursor = 0)
    (hopening : (g.mode root).rules.search 0 t 0 = some ⟨.opening mode, mode, ⟨0, stop⟩⟩)
    (hpos : 0 < stop) (hremains : Remains t quote stop) (hopen : s.closed = false) :
    Scanning t mode quote (Scan.step ⟨g, t, ignoreIllegals⟩ s) := by
  let scan : Scan := ⟨g, t, ignoreIllegals⟩
  have hplain := (hg.sketched mode _ (mem_sketches_string hmode)).isPlain rfl rfl rfl rfl
  have hfound : scan.found? s = some ⟨.opening mode, mode, ⟨0, stop⟩⟩ := by
    rw [Scan.found?_eq hstack h.resume_eq, hcursor]
    exact hopening
  obtain ⟨score, hstep⟩ := Scan.step_of_opening hfound hplain (hcursor ▸ hpos)
  rw [Scan.flush_of_le (Nat.zero_le _), hstack] at hstep
  rw [hstep]
  exact {
    stage := .inside rfl hremains
    resume_eq := rfl
    legal := h.legal
    ended := fun hclosed => absurd (hopen.symm.trans hclosed) Bool.false_ne_true
    labelled := h.labelled }

/-- A string ends at its quote, or goes on behind an escape. -/
theorem Scanning.step_inside (hstack : s.stack = [mode, root]) (hremains : Remains t quote s.cursor)
    (hopen : s.closed = false) : Scanning t mode quote (Scan.step ⟨g, t, ignoreIllegals⟩ s) := by
  let scan : Scan := ⟨g, t, ignoreIllegals⟩
  have hsketched := hg.sketched mode _ (mem_sketches_string hmode)
  have hplain := hsketched.isPlain rfl rfl rfl rfl
  have hscope : scan.scopeOf s.stack = some "string" := by
    rw [hstack]
    exact Scan.scopeOf_cons_some hsketched.scope hplain.flags
  obtain ⟨start, hle, hordinary, ⟨hquote, hsize⟩ | ⟨c, hescape, hc, hremains⟩⟩ :=
    hremains.exists_next
  · have hstart : start ≤ t.size := hsize ▸ Nat.le_succ start
    obtain ⟨index, hsearch⟩ := hg.search_quote hmode hle hstart hordinary hquote
    have hfound : scan.found? s = some ⟨.ending, index, ⟨start, start + 1⟩⟩ :=
      (Scan.found?_eq hstack h.resume_eq).trans hsearch
    obtain ⟨hself, hreads⟩ := reads_stringClauses.2.2 quote (mem_quotes hmode)
      ⟨String.singleton quote, 0⟩ (by simp)
    have hcloses := hsketched.closes rfl hself hstart (takes_char hreads hquote)
    rw [Scan.step_of_ending hstack hfound hplain hcloses (Nat.lt_succ_self start)
      (Nat.lt_succ_of_le hle)]
    exact {
      stage := .behind rfl hsize (hsize ▸ le_max_right _ _)
      resume_eq := rfl
      legal := h.legal
      ended := fun _ => rfl
      labelled := h.labelled_append hscope _ _ }
  · have hstart : start ≤ t.size := (Array.getElem?_eq_some_iff.1 hescape).1.le
    obtain ⟨index, hsearch⟩ := hg.search_escape hmode hle hstart hordinary hescape hc
    have hfound : scan.found? s = some ⟨.opening escapeMode, index, ⟨start, start + 2⟩⟩ :=
      (Scan.found?_eq hstack h.resume_eq).trans hsearch
    have hchild := (hg.sketched _ _ mem_sketches_escape).isPlain rfl rfl rfl rfl
    have hlt : s.cursor < start + 2 := Nat.lt_add_right 1 (Nat.lt_succ_of_le hle)
    obtain ⟨score, hstep⟩ := Scan.step_of_opening hfound hchild hlt
    have hwordless : (scan.top (s.noting ⟨.opening escapeMode, index, ⟨start, start + 2⟩⟩)).keywords
        = none := by
      rw [Scan.top, State.noting, hstack]
      exact hplain.keywords
    rw [Scan.flush_of_wordless hwordless, hstack] at hstep
    rw [hstep]
    exact {
      stage := .escaped rfl hremains rfl (by simp [State.noting])
      resume_eq := rfl
      legal := h.legal
      ended := fun hclosed => absurd (hopen.symm.trans hclosed) Bool.false_ne_true
      labelled := h.labelled_append hscope _ _ }

/-- The mode of an escape ends behind it. -/
theorem Scanning.step_escaped (hstack : s.stack = [escapeMode, mode, root])
    (hremains : Remains t quote s.cursor) (hstalled : s.stalled = 0)
    (hlast : s.last ≠ some ⟨true, s.cursor⟩) (hopen : s.closed = false) :
    Scanning t mode quote (Scan.step ⟨g, t, ignoreIllegals⟩ s) := by
  let scan : Scan := ⟨g, t, ignoreIllegals⟩
  have hsketched := hg.sketched mode _ (mem_sketches_string hmode)
  have hchild := hg.sketched _ _ mem_sketches_escape
  have hplain := hchild.isPlain rfl rfl rfl rfl
  have hscope : scan.scopeOf s.stack = some "string" := by
    rw [hstack, Scan.scopeOf_cons_none hchild.scope]
    exact Scan.scopeOf_cons_some hsketched.scope
      (hsketched.isPlain rfl rfl rfl rfl).flags
  have hpos := hremains.lt_size.le
  have hfound : scan.found? s = some ⟨.ending, 0, ⟨s.cursor, s.cursor⟩⟩ :=
    (Scan.found?_eq hstack h.resume_eq).trans (hg.search_emptyEnding mem_sketches_escape hpos rfl)
  have hcloses := hg.closes_empty mem_sketches_escape hpos rfl
  have hmax : s.stalled < Scan.maxStalled := hstalled ▸ (by decide)
  rw [Scan.step_of_empty_ending hstack hfound hplain hcloses hopen rfl hlast hmax]
  exact {
    stage := .inside rfl hremains
    resume_eq := rfl
    legal := h.legal
    ended := fun hclosed => absurd (hopen.symm.trans hclosed) Bool.false_ne_true
    labelled := h.labelled_append hscope _ _ }

omit hmode in
/-- Behind the closing quote the scan ends. -/
theorem Scanning.step_behind (hstack : s.stack = [root]) (hcursor : s.cursor = t.size)
    (hflushed : t.size ≤ s.flushed) :
    Scanning t mode quote (Scan.step ⟨g, t, ignoreIllegals⟩ s) := by
  let scan : Scan := ⟨g, t, ignoreIllegals⟩
  have hfound : scan.found? s = none := by
    rw [Scan.found?_eq hstack h.resume_eq, hcursor]
    exact hg.search_root_end t
  rw [Scan.step_of_emitted hfound hflushed]
  exact {
    stage := .behind hstack rfl hflushed
    resume_eq := rfl
    legal := h.legal
    ended := fun _ => hstack
    labelled := h.labelled }

/-- **What holds throughout the scan of a string is preserved by its steps**, if a mode is opened
where it begins. -/
theorem Scanning.step {stop : Nat}
    (hopening : (g.mode root).rules.search 0 t 0 = some ⟨.opening mode, mode, ⟨0, stop⟩⟩)
    (hpos : 0 < stop) (hremains : Remains t quote stop) (hopen : s.closed = false) :
    Scanning t mode quote (Scan.step ⟨g, t, ignoreIllegals⟩ s) := by
  cases h.stage with
  | before hstack hcursor =>
    exact h.step_before hg hmode ignoreIllegals hstack hcursor hopening hpos hremains hopen
  | inside hstack hremains => exact h.step_inside hg hmode ignoreIllegals hstack hremains hopen
  | escaped hstack hremains hstalled hlast =>
    exact h.step_escaped hg hmode ignoreIllegals hstack hremains hstalled hlast hopen
  | behind hstack hcursor hflushed =>
    exact h.step_behind hg ignoreIllegals hstack hcursor hflushed

omit hg hmode in
theorem Scanning.take {token : Token} {queue : List Token} (hqueue : s.queue = token :: queue) :
    Scanning t mode quote { s with queue := queue } where
  stage := by
    cases h.stage with
    | before hstack hcursor => exact .before hstack hcursor
    | inside hstack hremains => exact .inside hstack hremains
    | escaped hstack hremains hstalled hlast => exact .escaped hstack hremains hstalled hlast
    | behind hstack hcursor hflushed => exact .behind hstack hcursor hflushed
  resume_eq := h.resume_eq
  legal := h.legal
  ended := h.ended
  labelled := fun token hmem => h.labelled token (hqueue ▸ List.mem_cons_of_mem _ hmem)

end Steps

/-- **The scan of a string.** Every text of a mark and of a body between two quotes is scanned as
a string, to its end: its tokens tile it and are labelled as strings, nothing in it is illegal, and
only the root is open behind it. -/
theorem scan_string : ∃ g, grammar = .ok g ∧ ∀ mark ∈ marks, ∀ quote ∈ quotes, ∀ body,
    Body quote body →
    let scan : Scan := ⟨g, (mark ++ quote :: (body ++ [quote])).toArray, false⟩
    let scanned := scan.rest scan.start
    (∀ token ∈ scanned.1, token.scope = some "string") ∧
      Tiles 0 scan.text.size (Scan.spansOf scanned.1) ∧
      scanned.2.report.illegal = false ∧ scanned.2.depth = 1 := by
  obtain ⟨g, hgrammar, hg⟩ := exists_known
  refine ⟨g, hgrammar, fun mark hmark quote hquote body hbody => ?_⟩
  let scan : Scan := ⟨g, (mark ++ quote :: (body ++ [quote])).toArray, false⟩
  obtain ⟨mode, oneLine, hmode, hopening⟩ :=
    hg.search_opening hmark hquote (hbody.not_prefix hquote)
  have hremains : Remains scan.text quote (mark.length + 1) := ⟨body, hbody, by simp [scan]⟩
  have hstart : Scanning scan.text mode quote scan.start := {
    stage := .before rfl rfl
    resume_eq := rfl
    legal := rfl
    ended := fun _ => rfl
    labelled := List.forall_mem_nil _ }
  have hdrains := Scan.drains_rest hg.onward (Scan.sound_start : Scan.Sound scan scan.start)
  obtain ⟨hlast, hclosed, htokens⟩ := hdrains.preserves
    (fun s h hopen => h.step hg hmode false hopening (Nat.succ_pos _) hremains hopen)
    (fun s token queue h hqueue => h.take hqueue) hstart
  refine ⟨fun token hmem => ?_, ?_, hlast.legal,
    congrArg List.length (hlast.ended hclosed)⟩
  · obtain ⟨s, hs, hqueue⟩ := htokens token hmem
    exact hs.labelled token hqueue
  · exact hdrains.tiles hg.onward Scan.sound_start rfl

/-- A string with an escaped quote and the sign of a comment. -/
theorem scan_string_escaped : "Rb".toList ∈ marks ∧ '"' ∈ quotes ∧ Body '"' "it\\\"s #".toList ∧
    ∃ g, grammar = .ok g ∧
      let scan : Scan := ⟨g, ("Rb".toList ++ '"' :: ("it\\\"s #".toList ++ ['"'])).toArray, false⟩
      let scanned := scan.rest scan.start
      (∀ token ∈ scanned.1, token.scope = some "string") ∧
        scanned.2.report.illegal = false ∧ scanned.2.depth = 1 := by
  have hmark : "Rb".toList ∈ marks := by decide
  have hquote : '"' ∈ quotes := by decide
  have hbody : Body '"' "it\\\"s #".toList :=
    .ordinary (by decide) (.ordinary (by decide) (.escaped (.ordinary (by decide)
      (.ordinary (by decide) (.ordinary (by decide) .nil)))))
  obtain ⟨g, hg, hscan⟩ := scan_string
  obtain ⟨hscope, -, hlegal, hdepth⟩ := hscan _ hmark _ hquote _ hbody
  exact ⟨hmark, hquote, hbody, g, hg, hscope, hlegal, hdepth⟩

end Scanning

end ModeStack.Language.Python
