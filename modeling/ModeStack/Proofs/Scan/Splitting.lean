import ModeStack.Proofs.Rule.Searches
import ModeStack.Proofs.Scan.Stream
import ModeStack.Proofs.Scan.Tiling

/-!
# What the words of a text become

**The matches** (`Matches`). A piece of text is searched for words again and again: from where the
last match stopped or, if the match was empty, from one character after it. The matches that are
not empty are in order and do not overlap (`Matches.ordered`), and there is one list of them
(`exists_matches`, `Matches.unique`), since every search moves on.

**The parts** (`layout`). A match is shown if its word is in the table, in a class that is not
hidden. Between the matches that are shown lies plain text. Such parts tile the piece
(`layout_tiles`), show exactly these matches (`layout_shown`), and no two plain ones are neighbours
(`layout_apart`).

**The cut** (`splitFrom_eq`). The tokens of a piece are its parts, and the words that score are
those of all matches in the table, shown or hidden. What is said of a piece then holds of the text
that a scan emits at once: `flush_splits`.
-/

namespace ModeStack.Scan

open ModeStack.Regex (Span)

variable {p : Pattern} {c : Classifier} {piece : Text}

/-! ## Successive matches -/

/-- The matches of a pattern in a piece of text that are not empty, each searched for from where
the one before it stops. -/
inductive Matches (p : Pattern) (piece : Text) : Nat → List Span → Prop
  /-- Nothing matches. -/
  | absent {pos : Nat} (h : p.find piece pos = none) : Matches p piece pos []
  /-- After a match, the search goes on at its end. -/
  | found {pos : Nat} {span : Span} {rest : List Span} (h : p.find piece pos = some span)
      (hne : span.start < span.stop) (hrest : Matches p piece span.stop rest) :
      Matches p piece pos (span :: rest)
  /-- After an empty match, the search goes on behind the next character. -/
  | passed {pos : Nat} {span : Span} {rest : List Span} (h : p.find piece pos = some span)
      (hempty : span.stop ≤ span.start) (hlt : span.start < piece.size)
      (hrest : Matches p piece (span.start + 1) rest) : Matches p piece pos rest
  /-- After an empty match at the end of the piece, it does not. -/
  | ended {pos : Nat} {span : Span} (h : p.find piece pos = some span)
      (hempty : span.stop ≤ span.start) (hend : piece.size ≤ span.start) :
      Matches p piece pos []

/-- Spans that follow each other from `start` to `stop`, none of them empty. -/
def Ordered : (start stop : Nat) → List Span → Prop
  | start, stop, [] => start ≤ stop
  | start, stop, span :: spans =>
    start ≤ span.start ∧ span.start < span.stop ∧ Ordered span.stop stop spans

namespace Ordered

variable {a a' b : Nat} {spans : List Span}

theorem le (h : Ordered a b spans) : a ≤ b := by
  induction spans generalizing a with
  | nil => exact h
  | cons span spans ih => exact h.1.trans (h.2.1.le.trans (ih h.2.2))

theorem mono (h : Ordered a b spans) (hle : a' ≤ a) : Ordered a' b spans := by
  cases spans with
  | nil => exact hle.trans h
  | cons span spans => exact ⟨hle.trans h.1, h.2⟩

end Ordered

namespace Matches

variable {pos : Nat} {found found' : List Span}

/-- There is one list of matches. -/
theorem unique (h : Matches p piece pos found) (h' : Matches p piece pos found') :
    found' = found := by
  induction h generalizing found' with
  | absent h =>
    cases h' with
    | absent _ => rfl
    | _ h' => simp [h] at h'
  | found h hne _ ih =>
    cases h' with
    | absent h' => simp [h] at h'
    | found h' _ hrest =>
      cases h.symm.trans h'
      rw [ih hrest]
    | passed h' hempty _ _ =>
      cases h.symm.trans h'
      omega
    | ended h' hempty _ =>
      cases h.symm.trans h'
      omega
  | passed h hempty hlt _ ih =>
    cases h' with
    | absent h' => simp [h] at h'
    | found h' hne _ =>
      cases h.symm.trans h'
      omega
    | passed h' _ _ hrest =>
      cases h.symm.trans h'
      exact ih hrest
    | ended h' _ hend =>
      cases h.symm.trans h'
      omega
  | ended h hempty hend =>
    cases h' with
    | absent _ => rfl
    | found h' hne _ =>
      cases h.symm.trans h'
      omega
    | passed h' _ hlt _ =>
      cases h.symm.trans h'
      omega
    | ended _ _ _ => rfl

/-- Matches of a pattern that searches onward do not overlap. -/
theorem ordered (hp : p.SearchesOnward) (h : Matches p piece pos found) (hpos : pos ≤ piece.size) :
    Ordered pos piece.size found := by
  induction h with
  | absent _ => exact hpos
  | found h hne _ ih =>
    have hw := hp _ _ _ h
    exact ⟨hw.le_start, hne, ih hw.stop_le⟩
  | passed h _ hlt _ ih =>
    have hw := hp _ _ _ h
    exact (ih hlt).mono (hw.le_start.trans (Nat.le_succ _))
  | ended _ _ _ => exact hpos

end Matches

/-! ## Words and parts -/

namespace Classifier

/-- The word of a match as it scores: its form in the table, with its weight. -/
def scored? (c : Classifier) (piece : Text) (span : Span) : Option (String × Nat) :=
  (c.table.classify (piece.between span.start span.stop)).map fun found =>
    (c.table.key (piece.between span.start span.stop), found.weight)

/-- The class in which a match is shown. -/
def shown? (c : Classifier) (piece : Text) (span : Span) : Option (Span × String) :=
  match c.table.classify (piece.between span.start span.stop) with
  | none => none
  | some found => if found.isHidden then none else some (span, found.cls)

end Classifier

/-- A part of a piece of text. -/
inductive Part where
  /-- Text that is in no class, or in a hidden one. -/
  | plain (span : Span)
  /-- A word shown in its class. -/
  | keyword (span : Span) (cls : String)

namespace Part

/-- Where the part lies in the piece. -/
def span : Part → Span
  | plain span => span
  | keyword span _ => span

/-- The word that the part shows. -/
def shown? : Part → Option (Span × String)
  | plain _ => none
  | keyword span cls => some (span, cls)

/-- The token of a part of a piece that starts at `base` in the text, plain text having a scope. -/
def token (scope : Option String) (base : Nat) : Part → Token
  | plain span => ⟨scope, ⟨base + span.start, base + span.stop⟩⟩
  | keyword span cls => ⟨some cls, ⟨base + span.start, base + span.stop⟩⟩

/-- Not both of two parts are plain. -/
def Apart (a b : Part) : Prop :=
  a.shown?.isSome ∨ b.shown?.isSome

end Part

/-- Plain text between two positions, if there is any. -/
def gap (start stop : Nat) : List Part :=
  if start < stop then [.plain ⟨start, stop⟩] else []

/-- The parts from `start` to `stop` when some words are shown. -/
def layout : (start stop : Nat) → List (Span × String) → List Part
  | start, stop, [] => gap start stop
  | start, stop, (span, cls) :: shown =>
    gap start span.start ++ .keyword span cls :: layout span.stop stop shown

variable {a b : Nat}

theorem gap_tiles (h : a ≤ b) : Tiles a b ((gap a b).map Part.span) := by
  unfold gap
  split_ifs with hlt
  · exact ⟨rfl, hlt, rfl⟩
  · exact le_antisymm h (not_lt.1 hlt)

theorem gap_shown (a b : Nat) : (gap a b).filterMap Part.shown? = [] := by
  unfold gap
  split_ifs <;> rfl

theorem gap_token (scope : Option String) (base a b : Nat) :
    (gap a b).map (Part.token scope base) = tokensFor scope (base + a) (base + b) := by
  unfold gap tokensFor
  by_cases h : a < b
  · simp [h, Part.token]
  · simp [h]

/-- The parts tile the piece. -/
theorem layout_tiles {shown : List (Span × String)} (h : Ordered a b (shown.map (·.1))) :
    Tiles a b ((layout a b shown).map Part.span) := by
  induction shown generalizing a with
  | nil => exact gap_tiles h
  | cons first shown ih =>
    obtain ⟨span, cls⟩ := first
    obtain ⟨hle, hlt, hrest⟩ := h
    rw [layout, List.map_append, List.map_cons]
    exact (gap_tiles hle).append ⟨rfl, hlt, ih hrest⟩

/-- The parts show exactly the given words. -/
theorem layout_shown (a b : Nat) (shown : List (Span × String)) :
    (layout a b shown).filterMap Part.shown? = shown := by
  induction shown generalizing a with
  | nil => exact gap_shown a b
  | cons first shown ih =>
    obtain ⟨span, cls⟩ := first
    rw [layout, List.filterMap_append, gap_shown, List.nil_append, List.filterMap_cons, ih]
    rfl

/-- No two plain parts are neighbours. -/
theorem layout_apart (a b : Nat) (shown : List (Span × String)) :
    (layout a b shown).IsChain Part.Apart := by
  have cons_keyword (parts : List Part) (h : parts.IsChain Part.Apart) (span : Span)
      (cls : String) : (Part.keyword span cls :: parts).IsChain Part.Apart := by
    cases parts with
    | nil => exact .singleton _
    | cons part parts => exact .cons_cons (.inl rfl) h
  induction shown generalizing a with
  | nil =>
    unfold layout gap
    split_ifs
    · exact .singleton _
    · exact .nil
  | cons first shown ih =>
    obtain ⟨span, cls⟩ := first
    have hkeyword := cons_keyword _ (ih span.stop) span cls
    unfold layout gap
    split_ifs
    · exact .cons_cons (.inr rfl) hkeyword
    · exact hkeyword

/-! ## The cut -/

/-- What is shown of matches in order is in order. -/
theorem ordered_shown (found : List Span) (h : Ordered a b found) :
    Ordered a b ((found.filterMap (c.shown? piece)).map (·.1)) := by
  induction found generalizing a with
  | nil => exact h
  | cons span found ih =>
    obtain ⟨hle, hlt, hrest⟩ := h
    rw [List.filterMap_cons]
    cases hshown : c.shown? piece span with
    | none => exact (ih hrest).mono (hle.trans hlt.le)
    | some shown =>
      have hspan : shown.1 = span := by
        unfold Classifier.shown? at hshown
        split at hshown
        · cases hshown
        · split_ifs at hshown
          cases hshown
          rfl
      simp only [List.map_cons, hspan]
      exact ⟨hle, hlt, ih hrest⟩

/-- The cut that the matches give: their parts as tokens, and all words in the table. -/
def Classifier.cutAt (c : Classifier) (piece : Text) (base plain : Nat) (found : List Span) :
    Split where
  tokens := (layout plain piece.size (found.filterMap (c.shown? piece))).map (Part.token c.scope base)
  words := found.filterMap (c.scored? piece)

theorem cutAt_nil (base plain : Nat) :
    c.cutAt piece base plain [] = ⟨tokensFor c.scope (base + plain) (base + piece.size), []⟩ := by
  simp only [Classifier.cutAt, List.filterMap_nil, layout, gap_token]

/-- Cutting a piece word by word cuts it at the successive matches. -/
theorem splitFrom_eq (hc : c.pattern.SearchesOnward) (base : Nat) :
    ∀ {rounds plain pos : Nat}, pos ≤ piece.size → piece.size < pos + rounds →
      ∃ found, Matches c.pattern piece pos found ∧
        c.splitFrom piece base rounds plain pos = c.cutAt piece base plain found := by
  intro rounds
  induction rounds with
  | zero => intro plain pos hpos hrounds; omega
  | succ rounds ih =>
    intro plain pos hpos hrounds
    unfold Classifier.splitFrom
    cases hfind : c.pattern.find piece pos with
    | none => exact ⟨[], .absent hfind, (cutAt_nil base plain).symm⟩
    | some span =>
      obtain ⟨start, stop⟩ := span
      obtain ⟨hstart, -, hsize⟩ := hc piece pos ⟨start, stop⟩ hfind
      simp only at hstart hsize
      dsimp only
      by_cases hempty : stop ≤ start
      · simp only [hempty, if_true, Text.next?]
        by_cases hlt : start < piece.size
        · obtain ⟨found, hfound, heq⟩ := @ih plain (start + 1) hlt (by omega)
          refine ⟨found, .passed hfind hempty hlt hfound, ?_⟩
          simpa only [hlt, if_true] using heq
        · refine ⟨[], .ended hfind hempty (not_lt.1 hlt), ?_⟩
          simpa only [hlt, if_false] using (cutAt_nil base plain).symm
      · -- The text read so far stays plain, unless the word is shown.
        obtain ⟨found, hfound, heq⟩ := @ih plain stop hsize (by omega)
        obtain ⟨found', hfound', heq'⟩ := @ih stop stop hsize (by omega)
        cases hfound.unique hfound'
        refine ⟨⟨start, stop⟩ :: found, .found hfind (not_le.1 hempty) hfound, ?_⟩
        simp only [hempty, if_false]
        cases hclass : c.table.classify (piece.between start stop) with
        | none =>
          simp only [heq, Classifier.cutAt, Classifier.shown?, Classifier.scored?,
            List.filterMap_cons, hclass, Option.map_none]
        | some cls =>
          by_cases hhidden : cls.isHidden
          · simp only [heq, Classifier.cutAt, Classifier.shown?, Classifier.scored?,
              List.filterMap_cons, hclass, hhidden, Option.map_some, if_true]
          · simp only [heq', Classifier.cutAt, Classifier.shown?, Classifier.scored?,
              List.filterMap_cons, hclass, hhidden, Option.map_some, if_false, layout,
              List.map_append, List.map_cons, gap_token, Part.token, Bool.false_eq_true]

/-- The cut of a part of a text. -/
theorem split_eq (c : Classifier) (hc : c.pattern.SearchesOnward) (t : Text) (span : Span) :
    ∃ found, Matches c.pattern (t.extract span.start span.stop) 0 found ∧
      c.split t span = c.cutAt (t.extract span.start span.stop) span.start 0 found :=
  splitFrom_eq hc span.start (Nat.zero_le _) (by omega)

/-- Parts that tile a piece become tokens that tile it where it lies in the text. -/
theorem token_tiles (scope : Option String) (base : Nat) {parts : List Part}
    (h : Tiles a b (parts.map Part.span)) :
    Tiles (base + a) (base + b) (spansOf (parts.map (Part.token scope base))) := by
  induction parts generalizing a with
  | nil => exact congrArg (base + ·) h
  | cons part parts ih =>
    obtain ⟨hstart, hlt, hrest⟩ := h
    have hspan : (part.token scope base).span = ⟨base + part.span.start, base + part.span.stop⟩ := by
      cases part <;> rfl
    rw [List.map_cons, spansOf_cons, hspan]
    exact ⟨congrArg (base + ·) hstart, Nat.add_lt_add_left hlt base, ih hrest⟩

/-! ## Emitting text -/

variable {scan : Scan} {s : State} {upto : Nat}

/-- The classifier of the innermost mode, if it has a keyword table. -/
def classifier? (scan : Scan) (s : State) : Option Classifier :=
  (scan.top s).keywords.map fun table => ⟨table, (scan.top s).wordPattern, scan.scopeOf s.stack⟩

/-- Emitting text in a mode with a table queues the tokens and scores the words of its cut. -/
theorem flush_of_classifier (hc : scan.classifier? s = some c) (hpending : s.flushed < upto) :
    scan.flush s upto =
      { s with
        flushed := upto
        queue := s.queue ++ (c.split scan.text ⟨s.flushed, upto⟩).tokens
        score := (c.split scan.text ⟨s.flushed, upto⟩).words.foldl
          (fun score (word, weight) => score.addKeyword word weight) s.score } := by
  obtain ⟨table, htable, rfl⟩ := Option.map_eq_some_iff.1 hc
  unfold flush
  simp only [if_neg (not_le.2 hpending), htable]

/-- **What the words of a text become.** Where the innermost mode has a keyword table, whose
pattern searches onward, emitting text queues tokens that tile it. They are the tokens of parts of
which no two plain ones are neighbours and which show exactly those successive matches that are in
a class that is not hidden. All matches in the table are scored once, in order. -/
theorem flush_splits (hc : scan.classifier? s = some c) (hpattern : c.pattern.SearchesOnward)
    (hpending : s.flushed < upto) (hsize : upto ≤ scan.text.size) :
    ∃ (found : List Span) (parts : List Part),
      Matches c.pattern (scan.text.extract s.flushed upto) 0 found ∧
      (∀ other, Matches c.pattern (scan.text.extract s.flushed upto) 0 other → other = found) ∧
      (scan.flush s upto).queue = s.queue ++ parts.map (Part.token c.scope s.flushed) ∧
      Tiles s.flushed upto (spansOf (parts.map (Part.token c.scope s.flushed))) ∧
      parts.IsChain Part.Apart ∧
      parts.filterMap Part.shown? =
        found.filterMap (c.shown? (scan.text.extract s.flushed upto)) ∧
      (scan.flush s upto).score =
        (found.filterMap (c.scored? (scan.text.extract s.flushed upto))).foldl
          (fun score (word, weight) => score.addKeyword word weight) s.score := by
  obtain ⟨found, hfound, hsplit⟩ := split_eq c hpattern scan.text ⟨s.flushed, upto⟩
  set piece := scan.text.extract s.flushed upto with hpiece
  have hstop : s.flushed + piece.size = upto := by
    rw [hpiece, Array.size_extract_of_le hsize]
    omega
  have hordered : Ordered 0 piece.size ((found.filterMap (c.shown? piece)).map (·.1)) :=
    ordered_shown found (hfound.ordered hpattern (Nat.zero_le _))
  have htiles := token_tiles c.scope s.flushed (layout_tiles hordered)
  rw [Nat.add_zero, hstop] at htiles
  rw [flush_of_classifier hc hpending, hsplit]
  exact ⟨found, layout 0 piece.size (found.filterMap (c.shown? piece)), hfound,
    fun _ hother => hfound.unique hother, rfl, htiles, layout_apart _ _ _, layout_shown _ _ _, rfl⟩

/-- Words next to each other, of which one is in a hidden class and one in none, and a pattern
that matches nothing between them. -/
def babbling : Grammar.Draft where
  name := "babbling"
  definitions := #[
    { scope := some "s", wordPattern := some "[abc]?"
      keywords := some
        { entries := [("a", ⟨0, 2⟩), ("b", ⟨1, 3⟩)], classes := #["k", "_h"] } }]
  root := some 0

/-- A scan of words in each of the classes. -/
def babblingScan (g : Grammar) : Scan where
  grammar := g
  text := #['a', 'b', '-', 'a', 'a', 'c']

/-- The whole of its text is emitted at once. -/
theorem babbling_flush_splits : ∃ g c, babbling.build = .ok g ∧
    (babblingScan g).classifier? (babblingScan g).start = some c ∧ c.pattern.SearchesOnward ∧
    ((babblingScan g).flush (babblingScan g).start 6).queue =
      [⟨some "k", ⟨0, 1⟩⟩, ⟨some "s", ⟨1, 3⟩⟩, ⟨some "k", ⟨3, 4⟩⟩, ⟨some "k", ⟨4, 5⟩⟩,
        ⟨some "s", ⟨5, 6⟩⟩] ∧
    ∃ parts : List Part, parts.IsChain Part.Apart ∧
      ((babblingScan g).flush (babblingScan g).start 6).queue = parts.map (Part.token c.scope 0) := by
  obtain ⟨g, hbuild, htable, hpattern, hqueue⟩ := babbling.exists_built
    (fun g => ((babblingScan g).top (babblingScan g).start).keywords.isSome = true ∧
      ((babblingScan g).top (babblingScan g).start).wordPattern.isForward = true ∧
      ((babblingScan g).flush (babblingScan g).start 6).queue =
        [⟨some "k", ⟨0, 1⟩⟩, ⟨some "s", ⟨1, 3⟩⟩, ⟨some "k", ⟨3, 4⟩⟩, ⟨some "k", ⟨4, 5⟩⟩,
          ⟨some "s", ⟨5, 6⟩⟩]) (by decide +kernel)
  obtain ⟨table, htable⟩ := Option.isSome_iff_exists.1 htable
  have hc : (babblingScan g).classifier? (babblingScan g).start =
      some ⟨table, ((babblingScan g).top (babblingScan g).start).wordPattern,
        (babblingScan g).scopeOf [Grammar.root]⟩ := by
    rw [classifier?, htable]
    rfl
  have hforward := Pattern.searchesOnward_of_isForward hpattern
  obtain ⟨-, parts, -, -, htokens, -, hapart, -⟩ := flush_splits hc hforward
    (show 0 < 6 by decide) (show 6 ≤ 6 by decide)
  exact ⟨g, _, hbuild, hc, hforward, hqueue, parts, hapart, htokens⟩

end ModeStack.Scan
