import ModeStack.Proofs.Scan.Restless
import ModeStack.Proofs.Scan.Stream

/-!
# Nothing is lost

The tokens of a scan tile its text: put together, their texts are the text. This holds whatever
the grammar does with its delimiters, and it holds when the scan is given up.

Main result: `tokens_lossless`.
-/

namespace ModeStack.Scan

/-- **The tokens of a text are the text, cut.** Taking tokens from the start until there are none
gives spans that tile the text, in bytes: the first starts at 0, each starts where the one before
it stops, the last stops at the end of the text, and none is empty. All lie on the boundaries of
characters, there are none only for the empty text, and their texts, put together, are the
text. -/
theorem tokens_lossless (scan : Scan) (hg : scan.grammar.SearchesOnward) :
    let tokens := (scan.rest scan.start).1
    Drains scan scan.start tokens (scan.rest scan.start).2 ∧
    Tiles 0 (Text.byteSize scan.text.toList) (tokens.map (Token.byteSpan scan.text)) ∧
    (∀ token ∈ tokens,
      scan.text.position? (token.byteStart scan.text) = some token.span.start ∧
      scan.text.position? (token.byteStop scan.text) = some token.span.stop) ∧
    (tokens = [] ↔ scan.text = #[]) ∧
    String.join (tokens.map (·.text scan.text)) = String.ofList scan.text.toList := by
  intro tokens
  have hdrains := drains_rest hg sound_start
  have htiles : Tiles 0 scan.text.size (spansOf tokens) := hdrains.tiles hg sound_start rfl
  refine ⟨hdrains, ?_, fun token hmem => ?_, ?_, ?_⟩
  · have hbytes := htiles.bytes (t := scan.text) le_rfl
    rwa [Text.byteOffset_zero, Text.byteOffset_size] at hbytes
  · have hw := htiles.mem_within (List.mem_map.2 ⟨token, hmem, rfl⟩)
    exact ⟨scan.text.position?_byteOffset (hw.start_le.trans hw.stop_le),
      scan.text.position?_byteOffset hw.stop_le⟩
  · rw [← Array.size_eq_zero_iff, eq_comm (a := scan.text.size), ← htiles.eq_nil_iff]
    simp [spansOf]
  · rw [join_texts scan.text htiles]
    simp [Text.between]

/-- The restless grammar loses nothing of `<if!!>`, in which modes open and close on the spot. -/
theorem restless_tokens_lossless :
    ∃ g, Grammar.restless.build = .ok g ∧ g.SearchesOnward ∧
      let scan : Scan := { grammar := g, text := #['<', 'i', 'f', '!', '!', '>'] }
      Tiles 0 6 ((scan.rest scan.start).1.map (Token.byteSpan scan.text)) ∧
      String.join ((scan.rest scan.start).1.map (·.text scan.text)) = "<if!!>" := by
  obtain ⟨g, hbuild, hg⟩ := Grammar.restless_builds
  have h := tokens_lossless { grammar := g, text := #['<', 'i', 'f', '!', '!', '>'] } hg
  exact ⟨g, hbuild, hg, h.2.1, h.2.2.2.2⟩

end ModeStack.Scan
