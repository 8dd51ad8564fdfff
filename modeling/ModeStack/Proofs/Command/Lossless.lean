import ModeStack.Proofs.Command.Detected
import ModeStack.Proofs.Command.Json
import ModeStack.Proofs.Scan.Stream
import ModeStack.Proofs.Text.Utf8

/-!
# Nothing is lost on the way out

The program highlights an input or fails. It fails if the input is too large or not UTF-8, or if the
language asked for is not registered, and for no other reason. Otherwise its output in JSON can be
read as records, and put together they are the input, byte by byte, if the grammar searches onward.

Main result: `highlight_json_lossless`.
-/

namespace ModeStack.Command

open ModeStack.Regex (Span)
open ModeStack.Scan (Token tokensFor)

variable {env : Surroundings} {c : Catalog} {s : Settings} {t : Text} {file : Option String}
  {language : Option String} {format : Format} {bytes : ByteArray} {maxBytes : Nat}

/-! ## Input -/

/-- What is read from a file, or from standard input if none is given. -/
def Surroundings.Supplies (env : Surroundings) (file : Option String) (bytes : ByteArray) : Prop :=
  match file with
  | none => env.stdin = bytes
  | some path => env.file path = .bytes bytes

theorem readLimited_eq_ok_iff :
    readLimited bytes maxBytes = .ok t ↔ bytes.size ≤ maxBytes ∧ t.toList.utf8Encode = bytes := by
  rw [← Text.decodeUtf8_eq_ok_iff, readLimited]
  split_ifs with hlt
  · exact ⟨fun h => (by cases h), fun h => absurd h.1 (not_le.2 hlt)⟩
  · cases Text.decodeUtf8 bytes with
    | error e => exact ⟨fun h => (by cases h), fun h => (by cases h.2)⟩
    | ok t' =>
      constructor
      · rintro ⟨⟩
        exact ⟨not_lt.1 hlt, rfl⟩
      · rintro ⟨-, ⟨⟩⟩
        rfl

/-- **An input is read if and only if it is not too large and UTF-8**, and then as the text whose
form in UTF-8 it is. -/
theorem readInput_eq_ok_iff (hsupplies : env.Supplies file bytes) :
    readInput env file maxBytes = .ok t ↔
      bytes.size ≤ maxBytes ∧ t.toList.utf8Encode = bytes := by
  have hcontext (message : String) :
      (readLimited bytes maxBytes).mapError (·.context message) = .ok t ↔
        readLimited bytes maxBytes = .ok t := by
    cases readLimited bytes maxBytes with
    | error f => exact ⟨fun h => (by cases h), fun h => (by cases h)⟩
    | ok t' => rfl
  rw [← readLimited_eq_ok_iff]
  cases file with
  | none =>
    obtain rfl : env.stdin = bytes := hsupplies
    exact hcontext _
  | some path =>
    have hfile : env.file path = .bytes bytes := hsupplies
    rw [readInput, hfile]
    exact hcontext _

/-- An input that is neither too large nor anything but UTF-8 is read. -/
theorem exists_readInput_iff (hsupplies : env.Supplies file bytes) :
    (∃ t, readInput env file maxBytes = .ok t) ↔ bytes.size ≤ maxBytes ∧ bytes.IsValidUTF8 := by
  simp only [readInput_eq_ok_iff hsupplies, exists_and_left, ← Text.exists_decodeUtf8_iff,
    Text.decodeUtf8_eq_ok_iff]

/-! ## Highlighting -/

/-- The tokens that highlighting a text prints, and the grammar that it is scanned with, if any: a
single token is printed where no language was asked for and none detected. -/
inductive Highlights (c : Catalog) (s : Settings) (t : Text) :
    Option String → Option Grammar → List Token → Prop
  | named {name : String} {id : LanguageId} {g : Grammar} :
      c.find? name = some id → c.get? id = some g →
      Highlights c s t (some name) (some g) (tokensOf s g t)
  | detected {d : Catalog.Detection} {id : LanguageId} {g : Grammar} :
      c.detect t s.detect = some d → c.get? id = some g →
      Highlights c s t none (some g) (tokensOf s g t)
  | plain : c.detect t s.detect = none → Highlights c s t none none (tokensFor none 0 t.size)

/-- **Highlighting a text fails only if the language asked for is not registered.** -/
theorem highlight_cases (c : Catalog) (s : Settings) (t : Text) (language : Option String)
    (format : Format) :
    ((∃ name, language = some name ∧ c.find? name = none) ∧
      ∃ f, highlight c s t language format = .error f) ∨
    (∀ name, language = some name → c.find? name ≠ none) ∧ ∃ g? tokens,
      Highlights c s t language g? tokens ∧
        highlight c s t language format = .ok (tokenLines t tokens format) := by
  cases language with
  | some name =>
    cases hfind : c.find? name with
    | none => exact .inl ⟨⟨name, rfl, hfind⟩, _, highlight_unknown rfl hfind⟩
    | some id =>
      have hname : languageName c s t (some name) = some name := rfl
      obtain ⟨g, hg, hhighlight⟩ := highlight_named hname hfind
      refine .inr ⟨?_, _, _, .named hfind hg, hhighlight⟩
      rintro _ ⟨⟩ hnone
      rw [hfind] at hnone
      cases hnone
  | none =>
    refine .inr ⟨fun _ h => (by cases h), ?_⟩
    cases hdetect : c.detect t s.detect with
    | none =>
      refine ⟨_, _, .plain hdetect, ?_⟩
      rw [highlight, languageName, hdetect]
      rfl
    | some d =>
      obtain ⟨_, _, g, -, -, -, hg, hhighlight⟩ := highlight_first_of_name format hdetect
      exact ⟨_, _, .detected hdetect hg, hhighlight⟩

/-! ## Tiling -/

/-- Where a record lies. -/
def Record.span (r : Record) : Span := ⟨r.start, r.stop⟩

/-- The records cover the bytes without gap or overlap, and their texts, put together, are the
bytes. -/
def Covers (bytes : ByteArray) (records : List Record) : Prop :=
  Tiles 0 bytes.size (records.map Record.span) ∧
    (String.join (records.map (·.text))).toByteArray = bytes

theorem covers_of_tiles {tokens : List Token} (hbytes : t.toList.utf8Encode = bytes)
    (h : Tiles 0 t.size (Scan.spansOf tokens)) :
    Covers bytes (tokens.map (Record.ofToken t)) := by
  have hspans : (tokens.map (Record.ofToken t)).map Record.span = tokens.map (Token.byteSpan t) := by
    rw [List.map_map]
    rfl
  have htexts : (tokens.map (Record.ofToken t)).map (·.text) = tokens.map (·.text t) := by
    rw [List.map_map]
    rfl
  constructor
  · have hsize : bytes.size = t.byteOffset t.size := by
      rw [← hbytes, Text.size_utf8Encode, Text.byteOffset_size]
    rw [hspans, hsize, ← t.byteOffset_zero]
    exact h.bytes le_rfl
  · rw [htexts, Scan.join_texts t h, ← hbytes]
    simp [Text.between]

/-- The tokens of a scan tile the text. -/
theorem tokensOf_tiles {g : Grammar} (hg : g.SearchesOnward) :
    Tiles 0 t.size (Scan.spansOf (tokensOf s g t)) := by
  let scan : Scan := { grammar := g, text := t, ignoreIllegals := s.ignoreIllegals }
  have hscan : scan.grammar.SearchesOnward := hg
  rw [tokensOf, Scan.run_fst]
  exact (Scan.drains_rest hscan Scan.sound_start).tiles hscan Scan.sound_start rfl

theorem Highlights.tiles {g? : Option Grammar} {tokens : List Token}
    (h : Highlights c s t language g? tokens) (honward : ∀ g ∈ g?, g.SearchesOnward) :
    Tiles 0 t.size (Scan.spansOf tokens) := by
  cases h with
  | named => exact tokensOf_tiles (honward _ rfl)
  | detected => exact tokensOf_tiles (honward _ rfl)
  | plain => exact Scan.tokensFor_tiles none (Nat.zero_le _)

theorem Highlights.registered {g? : Option Grammar} {tokens : List Token}
    (h : Highlights c s t language g? tokens) : ∀ g ∈ g?, ∃ id, c.get? id = some g := by
  cases h with
  | named _ hg | detected _ hg =>
    rintro _ ⟨⟩
    exact ⟨_, hg⟩
  | plain => rintro _ ⟨⟩

/-! ## Losslessness -/

/-- **Highlighting fails** exactly if the input is too large or not UTF-8, or the language asked for
is not registered. -/
theorem perform_highlight_error_iff (hsupplies : env.Supplies file bytes) :
    (∃ f, perform env c s (.highlight file language format) = .error f) ↔
      s.maxBytes < bytes.size ∨ ¬bytes.IsValidUTF8 ∨
        ∃ name, language = some name ∧ c.find? name = none := by
  cases hread : readInput env file s.maxBytes with
  | error f =>
    have hnot : ¬(bytes.size ≤ s.maxBytes ∧ bytes.IsValidUTF8) := by
      rw [← exists_readInput_iff hsupplies, hread]
      rintro ⟨t, ⟨⟩⟩
    have hperform : perform env c s (.highlight file language format) = .error f := by
      rw [perform, hread]
      rfl
    refine iff_of_true ⟨f, hperform⟩ ?_
    by_cases hsize : bytes.size ≤ s.maxBytes
    · exact .inr (.inl fun hvalid => hnot ⟨hsize, hvalid⟩)
    · exact .inl (not_le.1 hsize)
  | ok t =>
    obtain ⟨hsize, hvalid⟩ := (exists_readInput_iff hsupplies).1 ⟨t, hread⟩
    rw [perform_highlight hread]
    rcases highlight_cases c s t language format with ⟨hunknown, herror⟩ | ⟨hknown, g?, tokens, -, hok⟩
    · exact iff_of_true herror (.inr (.inr hunknown))
    · rw [hok]
      refine iff_of_false ?_ ?_
      · rintro ⟨f, ⟨⟩⟩
      rintro (hlarge | hinvalid | ⟨name, hname, hnone⟩)
      · exact absurd hsize (not_le.2 hlarge)
      · exact hinvalid hvalid
      · exact hknown name hname hnone

/-- **What is highlighted in JSON can be read again, and nothing of the input is lost.** Highlighting
fails exactly if the input is too large or not UTF-8 or no grammar answers to the language asked for.
Otherwise each line of the output is the record of a token, and the records cover the input if the
grammar that it was scanned with searches onward, or there is none. -/
theorem highlight_json_lossless (hsupplies : env.Supplies file bytes) :
    ((∃ f, perform env c s (.highlight file language .json) = .error f) ↔
      s.maxBytes < bytes.size ∨ ¬bytes.IsValidUTF8 ∨
        ∃ name, language = some name ∧ ∀ id g, c.get? id = some g → g.answersTo name = false) ∧
    ∀ out, perform env c s (.highlight file language .json) = .ok out →
      ∃ t g? tokens, t.toList.utf8Encode = bytes ∧ Highlights c s t language g? tokens ∧
        readRecords? out = some (tokens.map (Record.ofToken t)) ∧
        ((∀ g ∈ g?, g.SearchesOnward) → Covers bytes (tokens.map (Record.ofToken t))) := by
  constructor
  · simp only [perform_highlight_error_iff hsupplies, Catalog.find?_eq_none_iff]
  · intro out hout
    cases hread : readInput env file s.maxBytes with
    | error f =>
      rw [perform, hread] at hout
      cases hout
    | ok t =>
      obtain ⟨-, hbytes⟩ := (readInput_eq_ok_iff hsupplies).1 hread
      rw [perform_highlight hread] at hout
      rcases highlight_cases c s t language .json with ⟨-, f, herror⟩ | ⟨-, g?, tokens, htokens, hok⟩
      · rw [herror] at hout
        cases hout
      · rw [hok] at hout
        cases hout
        exact ⟨t, g?, tokens, hbytes, htokens, readRecords?_tokenLines t tokens,
          fun honward => covers_of_tiles hbytes (htokens.tiles honward)⟩

/-- The younger language loses nothing of its text. -/
theorem younger_highlight_json_lossless : ∃ c out records, Catalog.ofDrafts [younger] = .ok c ∧
    readsB.Supplies none ⟨#[98]⟩ ∧
    perform readsB c {} (.highlight none (some "dialect") .json) = .ok out ∧
    readRecords? out = some records ∧ Covers ⟨#[98]⟩ records := by
  obtain ⟨c, hc, hperform, hforward⟩ := Catalog.exists_ofDrafts [younger]
    (fun c => perform readsB c {} (.highlight none (some "dialect") .json) =
        .ok "\x7b\"scope\":\"y\",\"start\":0,\"end\":1,\"text\":\"b\"\x7d\n" ∧
      ∀ g ∈ c.grammars, g.isForward = true) (by decide +kernel)
  obtain ⟨t, g?, tokens, -, htokens, hread, hcovers⟩ :=
    (@highlight_json_lossless readsB c {} none (some "dialect") ⟨#[98]⟩ rfl).2 _ hperform
  refine ⟨c, _, _, hc, rfl, hperform, hread, hcovers fun g hg => ?_⟩
  obtain ⟨id, hid⟩ := htokens.registered g hg
  exact Grammar.searchesOnward_of_isForward (hforward g (Array.mem_of_getElem? hid))

/-- A language whose word pattern finds words that begin before the place where it searches. -/
def overlapping : Grammar.Draft where
  name := "overlap"
  definitions := #[{
    wordPattern := some "(?<=\\K[ab])b"
    keywords := some { entries := [("ab", ⟨0, 1⟩), ("bb", ⟨0, 1⟩)], classes := #["k"] } }]
  root := some 0

/-- A program that is given the text `abb` on standard input. -/
def readsAbb : Surroundings where
  stdin := ⟨#[97, 98, 98]⟩
  file := fun _ => .absent
  defaultConfig := none

/-- **A text can be printed with overlaps**: of `abb`, first `ab` is printed and then `bb`. -/
theorem exists_overlap : ∃ c out records, Catalog.ofDrafts [overlapping] = .ok c ∧
    perform readsAbb c {} (.highlight none (some "overlap") .json) = .ok out ∧
    readRecords? out = some records ∧ records.map (·.text) = ["ab", "bb"] ∧
    ¬Covers readsAbb.stdin records := by
  obtain ⟨c, hc, hperform⟩ := Catalog.exists_ofDrafts [overlapping]
    (fun c => perform readsAbb c {} (.highlight none (some "overlap") .json) =
      .ok ("\x7b\"scope\":\"k\",\"start\":0,\"end\":2,\"text\":\"ab\"\x7d\n" ++
        "\x7b\"scope\":\"k\",\"start\":1,\"end\":3,\"text\":\"bb\"\x7d\n")) (by decide +kernel)
  refine ⟨c, _, [⟨some "k", 0, 2, "ab"⟩, ⟨some "k", 1, 3, "bb"⟩], hc, hperform, by decide +kernel,
    rfl, ?_⟩
  rintro ⟨⟨-, -, hstart, -⟩, -⟩
  exact absurd hstart (by decide)

end ModeStack.Command
