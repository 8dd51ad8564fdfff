import ModeStack.Proofs.Language.Python.Modes
import ModeStack.Proofs.Language.Python.Numerals
import ModeStack.Proofs.Scan.Stream

/-!
# Python numbers are single tokens

A text that is a numeral is scanned in three steps: a mode for numbers is opened by all of the text,
its empty end follows, and the root has nothing left (`scan_numeral`).
-/

namespace ModeStack.Language.Python

open ModeStack.Grammar
open ModeStack.Regex
open ModeStack.Regex.Expr
open ModeStack.Scan (State Drains Yields)

-- Not by going through all characters.
attribute [local instance (high)] List.decidableBAll

/-! ## The first rules of the root -/

def illegalExpr : Expr :=
  .alt (.group 1 (.alt (.seq (.char '<' false) (.char '/' false))
      (.alt (.seq (.char '-' false) (.char '>' false)) (.char '?' false))))
    (.seq (.char '=' false) (.char '>' false))

def promptExpr : Expr :=
  .seq (.assert .lineStart) (.seq
    (.group 1 (.alt (.seq (.char '>' false) (.seq (.char '>' false) (.char '>' false)))
      (.rep (.char '.' false) 3 (some 3) true)))
    (.char ' ' false))

def selfExpr : Expr :=
  .seq edge (.seq (.char 's' false) (.seq (.char 'e' false) (.seq (.char 'l' false)
    (.seq (.char 'f' false) edge))))

/-- What the first rules of the root are matched through. -/
def firstExprs : List Expr := illegalExpr :: promptExpr :: (Numeral.variants ++ [selfExpr])

theorem reads_firstExprs : ∀ p ∈ rootClauses.zip firstExprs, p.1.part.reads false p.2 = true := by
  decide +kernel

theorem isRegular_firstExprs : ∀ e ∈ firstExprs, e.isRegular = true := by decide

theorem mem_sketches_root : (root, rootSketch) ∈ sketches := List.mem_cons_self

theorem rootClauses_succ (index : Nat) (h : index < openings.length) :
    rootClauses[index + 1]? = some ⟨.opening (index + 1), openings[index]⟩ := by
  simp [rootClauses, h]

variable {t : Text} {pos stop index : Nat} {w : List Char}

theorem reads_first {clause : Rule.Clause} {e : Expr} (hclause : rootClauses[index]? = some clause)
    (he : firstExprs[index]? = some e) : clause.part.reads false e = true := by
  have hzip : (rootClauses.zip firstExprs)[index]? = some (clause, e) :=
    List.getElem?_zip_eq_some.2 ⟨hclause, he⟩
  exact reads_firstExprs (clause, e) (List.mem_of_getElem? hzip)

/-- A rule rejects what its expression refuses. -/
theorem rejects_first {clause : Rule.Clause} {e : Expr} (hclause : rootClauses[index]? = some clause)
    (he : firstExprs[index]? = some e) (hpos : pos ≤ t.size) (hno : e.Refuses t pos) :
    clause.part.Rejects false t pos :=
  Rule.Part.rejects_of_reads (reads_first hclause he)
    (isRegular_firstExprs e (List.mem_of_getElem? he)) hpos hno

/-- What the root finds where one of its first expressions is the first that matches. -/
theorem Known.search_first {g : Grammar} (hg : Known g) (hpos : pos ≤ t.size)
    (h : Chooses t pos stop firstExprs (index + 1)) :
    (g.mode root).rules.search 0 t pos = some ⟨.opening (index + 1), index + 1, ⟨pos, stop⟩⟩ := by
  obtain ⟨⟨e, he, hprefers⟩, hrefuses⟩ := h.getElem?
  have hfew : firstExprs.length ≤ openings.length := by decide
  have hlt : index + 1 < firstExprs.length := (List.getElem?_eq_some_iff.1 he).1
  have hclause := rootClauses_succ index (by omega)
  refine hg.search_here mem_sketches_root hpos hclause
    (Rule.Part.takes_of_reads (reads_first hclause he) hprefers) (fun clause hmem => ?_) ?_
  · obtain ⟨j, hj⟩ := List.mem_iff_getElem?.1 hmem
    rw [List.getElem?_take] at hj
    split_ifs at hj with hearlier
    obtain ⟨e', he'⟩ : ∃ e', firstExprs[j]? = some e' :=
      ⟨_, List.getElem?_eq_getElem (hearlier.trans hlt)⟩
    exact rejects_first hj he' hpos (hrefuses j hearlier e' he')
  · have hmax : openings.length ≤ maxBacktracks := by decide
    omega

/-! ## Numerals -/

/-- What is no word of the prompt does not begin with it. -/
theorem refuses_promptExpr (hspace : ' ' ∉ w) : promptExpr.Refuses w.toArray 0 := by
  have hwords : promptExpr.words? = some [">>> ".toList, "... ".toList] := by decide
  intro q hq
  obtain ⟨u, hu, hshows, -⟩ := hq.exists_word
  have hmem : ' ' ∈ u := by
    rcases List.mem_pair.1 ((mem_language_iff hwords).1 hu) with rfl | rfl <;> decide
  exact hspace ((shows_zero.1 hshows).subset hmem)

/-- **A numeral opens a mode for numbers**, with all of its text. -/
theorem Known.search_numeral {g : Grammar} (hg : Known g) (hw : w ∈ Numeral.numeral) :
    ∃ mode, (mode, numberSketch) ∈ sketches ∧ (g.mode root).rules.search 0 w.toArray 0 =
      some ⟨.opening mode, mode, ⟨0, w.length⟩⟩ := by
  obtain ⟨index, hlt, hchooses⟩ := Numeral.exists_variant hw
  have hspace : ' ' ∉ w := fun hmem =>
    Numeral.over_numeral (P := (· ≠ ' ')) (by decide) w hw ' ' hmem rfl
  have hillegal : illegalExpr.Refuses w.toArray 0 := by
    obtain ⟨c, u, rfl, hc⟩ := Numeral.opens_numeral w hw
    have hbegins : ∀ c ∈ "0123456789.".toList, illegalExpr.mayBegin c = false := by decide
    exact refuses_of_not_mayBegin rfl (by decide) (by simp) (hbegins c hc)
  have hfirst : Chooses w.toArray 0 w.length firstExprs (index + 2) :=
    .later hillegal (.later (refuses_promptExpr hspace) (hchooses.append _))
  have hmem : (index + 2, numberSketch) ∈ sketches := by
    have hrange : index + 2 ∈ List.range' 2 7 := List.mem_range'_1.2 ⟨by omega, by
      have hseven : Numeral.variants.length = 7 := rfl
      omega⟩
    exact .tail _ (.tail _ (List.mem_append_left _ (List.mem_map.2 ⟨_, hrange, rfl⟩)))
  exact ⟨index + 2, hmem, hg.search_first (Nat.zero_le _) hfirst⟩

/-- The root finds nothing at the end of a text. -/
theorem Known.search_root_end {g : Grammar} (hg : Known g) (t : Text) :
    (g.mode root).rules.search 0 t t.size = none := by
  have hwidth : ∀ clause ∈ rootClauses, 0 < clause.part.minWidth false := by decide +kernel
  exact hg.search_end mem_sketches_root hwidth

/-- A mode for numbers ends where it is. -/
theorem Known.step_number {g : Grammar} (hg : Known g) {mode : Nat}
    (hmem : (mode, numberSketch) ∈ sketches) (hpos : 0 < w.length) (ignoreIllegals : Bool)
    (score : Keyword.Score) :
    Scan.step ⟨g, w.toArray, ignoreIllegals⟩
      { stack := [mode, root], cursor := w.length, last := some ⟨true, 0⟩, score := score } =
    { stack := [root], cursor := w.length, flushed := w.length, last := some ⟨false, w.length⟩,
      stalled := 1, queue := [⟨some "number", ⟨0, w.length⟩⟩], score := score } := by
  let scan : Scan := ⟨g, w.toArray, ignoreIllegals⟩
  let s : State :=
    { stack := [mode, root], cursor := w.length, last := some ⟨true, 0⟩, score := score }
  have hsketched := hg.sketched mode numberSketch hmem
  have hplain := hsketched.isPlain rfl rfl rfl rfl
  have hsize : w.length ≤ w.toArray.size := by simp
  have hfound : scan.found? s = some ⟨.ending, 0, ⟨w.length, w.length⟩⟩ :=
    (Scan.found?_eq rfl rfl).trans (hg.search_emptyEnding hmem hsize rfl)
  have hcloses := hg.closes_empty hmem hsize rfl
  have hlast : s.last ≠ some ⟨true, w.length⟩ := by simp [s, hpos.ne]
  have hscope : scan.scopeOf [mode, root] = some "number" :=
    Scan.scopeOf_cons_some hsketched.scope hplain.flags
  have hmax : 0 < Scan.maxStalled := by decide
  refine (Scan.step_of_empty_ending (s := s) rfl hfound hplain hcloses rfl rfl hlast hmax).trans ?_
  simp [s, hscope, Scan.tokensFor, hpos]

/-- **Numerals are single tokens.** Every text that is a numeral is scanned as one token, labelled as
a number, whatever is done about illegal lexemes. -/
theorem scan_numeral : ∃ g, grammar = .ok g ∧ ∀ w ∈ Numeral.numeral, ∀ ignoreIllegals : Bool,
    let scan : Scan := ⟨g, w.toArray, ignoreIllegals⟩
    let tokens := (scan.rest scan.start).1
    tokens = [⟨some "number", ⟨0, w.length⟩⟩] ∧
      tokens.map (Scan.Token.byteSpan scan.text) = [⟨0, Text.byteSize w⟩] := by
  obtain ⟨g, hgrammar, hg⟩ := exists_known
  refine ⟨g, hgrammar, fun w hw ignoreIllegals => ?_⟩
  let scan : Scan := ⟨g, w.toArray, ignoreIllegals⟩
  have hpos : 0 < w.length := by
    obtain ⟨c, u, rfl, -⟩ := Numeral.opens_numeral w hw
    exact Nat.succ_pos _
  obtain ⟨mode, hmem, hsearch⟩ := hg.search_numeral hw
  have hplain := (hg.sketched mode numberSketch hmem).isPlain rfl rfl rfl rfl
  have hfound : scan.found? scan.start = some ⟨.opening mode, mode, ⟨0, w.length⟩⟩ :=
    (Scan.found?_eq rfl rfl).trans hsearch
  obtain ⟨score, hfirst⟩ := Scan.step_of_opening hfound hplain hpos
  rw [Scan.flush_of_le (Nat.zero_le _)] at hfirst
  have hsecond := hg.step_number hmem hpos ignoreIllegals score
  let emitted : State :=
    { stack := [root], cursor := w.length, flushed := w.length, last := some ⟨false, w.length⟩,
      stalled := 1, score := score }
  have hthird : scan.step emitted = { emitted with closed := true } := by
    have hnone : scan.found? emitted = none :=
      (Scan.found?_eq rfl rfl).trans (hg.search_root_end w.toArray)
    exact Scan.step_of_emitted hnone le_rfl
  have hdrains : Drains scan scan.start [⟨some "number", ⟨0, w.length⟩⟩]
      { emitted with closed := true } := by
    have hyields : Yields scan scan.start (some ⟨some "number", ⟨0, w.length⟩⟩) emitted := by
      refine .step rfl rfl ?_
      rw [hfirst]
      refine .step rfl rfl ?_
      exact hsecond ▸ .queued rfl
    refine .some hyields (.none (.step rfl rfl ?_))
    rw [hthird]
    exact .nothing rfl rfl
  have htokens := (Scan.drains_rest hg.onward Scan.sound_start).unique hdrains
  have hbytes : Text.byteOffset w.toArray w.length = Text.byteSize w := by
    rw [← List.size_toArray, Text.byteOffset_size]
  refine ⟨htokens.1, ?_⟩
  simp [htokens.1, Scan.Token.byteSpan, Scan.Token.byteStart, Scan.Token.byteStop, hbytes, scan]

/-- A numeral with a point, an exponent, a sign and a suffix. -/
theorem scan_numeral_suffixed : ".5e+7j".toList ∈ Numeral.numeral ∧ ∃ g, grammar = .ok g ∧
    let scan : Scan := ⟨g, ".5e+7j".toList.toArray, false⟩
    (scan.rest scan.start).1 = [⟨some "number", ⟨0, 6⟩⟩] := by
  have hchar {cs : String} (c : Char) (hc : c ∈ cs.toList) : [c] ∈ Numeral.among cs :=
    Numeral.mem_among.2 ⟨c, hc, rfl⟩
  have hdigit (c : Char) (hc : c ∈ "0123456789".toList) : [c] ∈ Numeral.digitPart :=
    Language.mem_mul.2 ⟨[c], hchar c hc, [], Language.nil_mem_kstar _, rfl⟩
  have hpoint : ['.', '5'] ∈ (1 + Numeral.digitPart) * (Numeral.among "." * Numeral.digitPart) :=
    Language.mem_mul.2 ⟨[], .inl rfl, ['.', '5'], Language.mem_mul.2
      ⟨['.'], hchar '.' (by decide), ['5'], hdigit '5' (by decide), rfl⟩, rfl⟩
  have htail : ['+', '7'] ∈ (1 + Numeral.among "+-") * Numeral.digitPart :=
    Language.mem_mul.2 ⟨['+'], .inr (hchar '+' (by decide)), ['7'], hdigit '7' (by decide), rfl⟩
  have hexponent : ".5e+7".toList ∈ Numeral.exponentFloat :=
    Language.mem_mul.2 ⟨['.', '5'], .inr (.inl hpoint), ['e', '+', '7'], Language.mem_mul.2
      ⟨['e'], hchar 'e' (by decide), ['+', '7'], htail, rfl⟩, rfl⟩
  have hw : ".5e+7j".toList ∈ Numeral.numeral :=
    .inl (.inr (Language.mem_mul.2 ⟨_, .inl (.inr hexponent), ['j'], hchar 'j' (by decide), rfl⟩))
  obtain ⟨g, hg, hscan⟩ := scan_numeral
  exact ⟨hw, g, hg, (hscan _ hw false).1⟩

end ModeStack.Language.Python
