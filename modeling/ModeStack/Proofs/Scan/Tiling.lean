import ModeStack.Proofs.Rule.Searches
import ModeStack.Scan.Words

/-!
# Tilings

Spans tile a stretch of text when the first starts where the stretch does, each starts where the
one before it stops, the last stops where the stretch does, and none is empty. The texts of such
spans, put together, are the stretch (`join_texts`), and counted in bytes they still tile it
(`Tiles.bytes`).

A piece of text cut at its keywords is tiled by the cut (`split_tiles`).
-/

namespace ModeStack

open Regex (Span)

/-! ## Bytes -/

namespace Text

theorem byteSize_append (cs ds : List Char) : byteSize (cs ++ ds) = byteSize cs + byteSize ds := by
  induction cs with
  | nil => simp [byteSize]
  | cons c cs ih =>
    simp only [List.cons_append, byteSize, ih]
    omega

theorem countBytes?_byteSize (cs ds : List Char) :
    countBytes? (byteSize cs) (cs ++ ds) = some cs.length := by
  induction cs with
  | nil => simp [byteSize, countBytes?]
  | cons c cs ih =>
    have hpos : 0 < c.utf8Size := c.utf8Size_pos
    obtain ⟨n, hn⟩ : ∃ n, c.utf8Size + byteSize cs = n + 1 := ⟨_, (Nat.succ_pred (by omega)).symm⟩
    simp only [byteSize, List.cons_append, hn, countBytes?]
    rw [← hn, if_pos (Nat.le_add_right _ _), Nat.add_sub_cancel_left, ih]
    simp

variable (t : Text)

@[simp] theorem byteOffset_zero : t.byteOffset 0 = 0 := by
  simp [byteOffset, byteSize]

@[simp] theorem byteOffset_size : t.byteOffset t.size = byteSize t.toList := by
  simp [byteOffset]

theorem byteOffset_succ {pos : Nat} (h : pos < t.size) :
    t.byteOffset (pos + 1) = t.byteOffset pos + t[pos].utf8Size := by
  unfold byteOffset
  rw [Array.extract_succ_right (Nat.zero_lt_succ pos) h, Array.toList_push, byteSize_append]
  simp [byteSize]

theorem byteOffset_lt {pos pos' : Nat} (h : pos < pos') (h' : pos' ≤ t.size) :
    t.byteOffset pos < t.byteOffset pos' := by
  induction pos' with
  | zero => omega
  | succ n ih =>
    have hstep : t.byteOffset n < t.byteOffset (n + 1) := by
      rw [byteOffset_succ t h']
      exact Nat.lt_add_of_pos_right (Char.utf8Size_pos _)
    rcases Nat.lt_succ_iff_lt_or_eq.1 h with hlt | rfl
    · exact (ih hlt (by omega)).trans hstep
    · exact hstep

/-- A character starts, or the text ends, at the offset of every position. -/
theorem position?_byteOffset {pos : Nat} (h : pos ≤ t.size) :
    t.position? (t.byteOffset pos) = some pos := by
  have hsplit : t.toList = (t.extract 0 pos).toList ++ (t.extract pos t.size).toList := by
    rw [← Array.toList_append, Array.extract_append_extract]
    simp [h]
  unfold position? byteOffset
  rw [hsplit, countBytes?_byteSize, Array.length_toList, Array.size_extract_of_le h]
  simp

theorem between_append {a b c : Nat} (hab : a ≤ b) (hbc : b ≤ c) :
    t.between a b ++ t.between b c = t.between a c := by
  unfold between
  rw [← String.ofList_append, ← Array.toList_append, Array.extract_append_extract,
    Nat.min_eq_left hab, Nat.max_eq_right hbc]

end Text

/-! ## Tilings of a stretch of text -/

/-- The spans tile the text from `start` to `stop`. -/
def Tiles : (start stop : Nat) → List Span → Prop
  | start, stop, [] => start = stop
  | start, stop, span :: spans =>
    span.start = start ∧ start < span.stop ∧ Tiles span.stop stop spans

namespace Tiles

variable {a b c : Nat} {spans spans' : List Span}

theorem le (h : Tiles a b spans) : a ≤ b := by
  induction spans generalizing a with
  | nil => exact h.le
  | cons span spans ih => exact h.2.1.le.trans (ih h.2.2)

theorem append (h : Tiles a b spans) (h' : Tiles b c spans') : Tiles a c (spans ++ spans') := by
  induction spans generalizing a with
  | nil => exact h ▸ h'
  | cons span spans ih => exact ⟨h.1, h.2.1, ih h.2.2⟩

theorem exists_of_append (h : Tiles a c (spans ++ spans')) :
    ∃ b, Tiles a b spans ∧ Tiles b c spans' := by
  induction spans generalizing a with
  | nil => exact ⟨a, rfl, h⟩
  | cons span spans ih =>
    obtain ⟨b, hspans, hrest⟩ := ih h.2.2
    exact ⟨b, ⟨h.1, h.2.1, hspans⟩, hrest⟩

theorem length_le (h : Tiles a b spans) : a + spans.length ≤ b := by
  induction spans generalizing a with
  | nil => exact h.le
  | cons span spans ih =>
    have hlt := h.2.1
    have hrest := ih h.2.2
    simp only [List.length_cons]
    omega

theorem eq_nil_iff (h : Tiles a b spans) : spans = [] ↔ a = b := by
  cases spans with
  | nil => simpa [Tiles] using h
  | cons span spans =>
    have hlt := h.2.1
    have hle := h.2.2.le
    simp only [reduceCtorEq, false_iff]
    omega

/-- A span of a tiling lies inside the stretch. -/
theorem mem_within (h : Tiles a b spans) {span : Span} (hmem : span ∈ spans) :
    span.Within a b := by
  induction spans generalizing a with
  | nil => simp at hmem
  | cons first spans ih =>
    obtain ⟨hstart, hlt, hrest⟩ := h
    rcases List.mem_cons.1 hmem with rfl | hmem
    · exact ⟨hstart.ge, hstart ▸ hlt.le, hrest.le⟩
    · have hw := ih hrest hmem
      exact ⟨hlt.le.trans hw.le_start, hw.start_le, hw.stop_le⟩

theorem tail {span : Span} (h : Tiles a b (span :: spans)) : Tiles span.stop b spans := h.2.2

end Tiles

namespace Scan

namespace Token

/-- Where a token lies, in bytes. -/
def byteSpan (t : Text) (token : Token) : Span := ⟨token.byteStart t, token.byteStop t⟩

end Token

/-- Where tokens lie. -/
def spansOf (tokens : List Token) : List Span := tokens.map (·.span)

@[simp] theorem spansOf_nil : spansOf [] = [] := rfl

@[simp] theorem spansOf_cons (token : Token) (tokens : List Token) :
    spansOf (token :: tokens) = token.span :: spansOf tokens := rfl

@[simp] theorem spansOf_append (tokens tokens' : List Token) :
    spansOf (tokens ++ tokens') = spansOf tokens ++ spansOf tokens' :=
  List.map_append

@[simp] theorem length_spansOf (tokens : List Token) : (spansOf tokens).length = tokens.length :=
  List.length_map _

end Scan

open Scan in
/-- Tokens that tile a stretch of a text tile it in bytes. -/
theorem Tiles.bytes {t : Text} {a b : Nat} {tokens : List Token}
    (h : Tiles a b (spansOf tokens)) (hb : b ≤ t.size) :
    Tiles (t.byteOffset a) (t.byteOffset b) (tokens.map (Token.byteSpan t)) := by
  induction tokens generalizing a with
  | nil => exact congrArg t.byteOffset h
  | cons token tokens ih =>
    obtain ⟨rfl, hlt, hrest⟩ := h
    exact ⟨rfl, t.byteOffset_lt hlt (hrest.le.trans hb), ih hrest⟩

namespace Scan

variable {a b : Nat}

/-- The texts of tokens that tile a stretch of a text are, put together, that stretch. -/
theorem join_texts (t : Text) {tokens : List Token} (h : Tiles a b (spansOf tokens)) :
    String.join (tokens.map (·.text t)) = t.between a b := by
  induction tokens generalizing a with
  | nil =>
    obtain rfl : a = b := h
    simp [Text.between]
  | cons token tokens ih =>
    obtain ⟨rfl, hlt, hrest⟩ := h
    rw [List.map_cons, String.join_cons, ih hrest]
    exact t.between_append hlt.le hrest.le

theorem tokensFor_tiles (scope : Option String) (h : a ≤ b) :
    Tiles a b (spansOf (tokensFor scope a b)) := by
  unfold tokensFor
  split_ifs with hlt
  · exact ⟨rfl, hlt, rfl⟩
  · exact le_antisymm h (not_lt.1 hlt)

theorem scope_of_mem_tokensFor {token : Token} {scope : Option String}
    (h : token ∈ tokensFor scope a b) : token.scope = scope := by
  unfold tokensFor at h
  split_ifs at h
  · rw [List.mem_singleton.1 h]
  · cases h

/-! ## Cutting at keywords -/

/-- What has not become a token yet and what follows are tiled by the cut. -/
theorem splitFrom_tiles {c : Classifier} (hc : c.pattern.SearchesOnward) (piece : Text)
    (base rounds : Nat) : ∀ {plain pos : Nat}, plain ≤ pos → pos ≤ piece.size →
      Tiles (base + plain) (base + piece.size)
        (spansOf (c.splitFrom piece base rounds plain pos).tokens) := by
  induction rounds with
  | zero =>
    intro plain pos hle hpos
    exact tokensFor_tiles c.scope (by omega)
  | succ rounds ih =>
    intro plain pos hle hpos
    simp only [Classifier.splitFrom]
    split
    · exact tokensFor_tiles c.scope (by omega)
    · rename_i start stop hfind
      obtain ⟨hstart, hstop, hsize⟩ := hc piece pos ⟨start, stop⟩ hfind
      simp only at hstart hstop hsize
      split_ifs with hempty
      · -- An empty match: the search moves on by one character.
        simp only [Text.next?]
        split_ifs with hlt
        · exact ih (by omega) hlt
        · exact tokensFor_tiles c.scope (by omega)
      · split
        · exact ih (by omega) hsize
        · split_ifs
          · exact ih (by omega) hsize
          · rw [spansOf_append, spansOf_cons]
            have hlt : base + start < base + stop := by omega
            refine (tokensFor_tiles c.scope (by omega)).append ⟨rfl, hlt, ?_⟩
            exact ih le_rfl hsize

/-- **Cutting a piece at its keywords tiles it.** -/
theorem split_tiles (c : Classifier) (hc : c.pattern.SearchesOnward) (t : Text) (span : Span)
    (hle : span.start ≤ span.stop) (hsize : span.stop ≤ t.size) :
    Tiles span.start span.stop (spansOf (c.split t span).tokens) := by
  have h := splitFrom_tiles hc (t.extract span.start span.stop) span.start
    ((t.extract span.start span.stop).size + 1) (le_refl 0) (Nat.zero_le _)
  have hstop : span.start + (t.extract span.start span.stop).size = span.stop := by
    rw [Array.size_extract_of_le hsize]
    omega
  rwa [hstop, Nat.add_zero] at h

end Scan

end ModeStack
