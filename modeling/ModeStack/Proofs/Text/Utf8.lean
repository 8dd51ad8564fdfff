import Mathlib.Tactic
import ModeStack.Text.Utf8

/-!
# Decoding UTF-8 inverts encoding

`String.utf8EncodeChar` gives the bytes of a character. Reading them gives the character back
(`continuation_encode`), and bytes that are read as a character are the bytes of that character
(`encode_of_continuation`). So bytes decode to a text if and only if they are its UTF-8 form.

Main result: `decodeUtf8_eq_ok_iff`. So the characters of a string can be read off its bytes
(`charactersOf_eq`), which is how long patterns are evaluated.
-/

namespace ModeStack.Text

open String (utf8EncodeChar)

variable {bytes rest : List UInt8} {start count read value n : Nat} {range : Nat × Nat}

/-! ## The bytes of a character -/

/-- The bytes of the character with a code point. -/
def encodePoint (n : Nat) : List UInt8 :=
  if n ≤ 0x7f then [.ofNat n]
  else if n ≤ 0x7ff then [.ofNat (n / 64 % 0x20 + 0xc0), .ofNat (n % 0x40 + 0x80)]
  else if n ≤ 0xffff then
    [.ofNat (n / 4096 % 0x10 + 0xe0), .ofNat (n / 64 % 0x40 + 0x80), .ofNat (n % 0x40 + 0x80)]
  else
    [.ofNat (n / 262144 % 0x08 + 0xf0), .ofNat (n / 4096 % 0x40 + 0x80),
     .ofNat (n / 64 % 0x40 + 0x80), .ofNat (n % 0x40 + 0x80)]

theorem utf8EncodeChar_eq (c : Char) : utf8EncodeChar c = encodePoint c.toNat := rfl

theorem toNat_ofNat_of_lt (h : n < 256) : (UInt8.ofNat n).toNat = n := by
  rw [UInt8.toNat_ofNat']
  exact Nat.mod_eq_of_lt h

/-! ## Reading single bytes -/

/-- A further byte in range is read. -/
theorem continuation_cons {b : UInt8} (hlo : range.1 ≤ b.toNat) (hhi : b.toNat ≤ range.2) :
    continuation start (count + 1) read value range (b :: bytes) =
      continuation start count (read + 1) (64 * value + (b.toNat - 0x80)) (0x80, 0xbf) bytes := by
  rw [continuation, if_pos]
  simp [hlo, hhi]

theorem eq_of_continuation_zero
    (h : continuation start 0 read value range bytes = .ok (n, rest)) : value = n ∧ bytes = rest := by
  unfold continuation at h
  exact Prod.mk.inj (Except.ok.inj h)

/-- Nothing but a further byte in range is read. -/
theorem exists_of_continuation_succ
    (h : continuation start (count + 1) read value range bytes = .ok (n, rest)) :
    ∃ b more, bytes = b :: more ∧ range.1 ≤ b.toNat ∧ b.toNat ≤ range.2 ∧
      continuation start count (read + 1) (64 * value + (b.toNat - 0x80)) (0x80, 0xbf) more =
        .ok (n, rest) := by
  cases bytes with
  | nil => cases h
  | cons b more =>
    rw [continuation] at h
    split_ifs at h with hb
    rw [Bool.and_eq_true, decide_eq_true_eq, decide_eq_true_eq] at hb
    exact ⟨b, more, rfl, hb.1, hb.2, h⟩

/-- What the second byte of a character must be: not so small that a shorter sequence would do,
and not so great that the character would be a surrogate, or beyond the last one. -/
theorem secondByteRange_iff {first m : Nat} :
    ((secondByteRange first).1 ≤ m ∧ m ≤ (secondByteRange first).2) ↔
      0x80 ≤ m ∧ m ≤ 0xbf ∧ (first = 0xe0 → 0xa0 ≤ m) ∧ (first = 0xed → m ≤ 0x9f) ∧
        (first = 0xf0 → 0x90 ≤ m) ∧ (first = 0xf4 → m ≤ 0x8f) := by
  unfold secondByteRange
  split_ifs <;> omega

/-- The first byte tells how many follow. -/
theorem leadByte?_iff {first bits : Nat} : leadByte? first = some (count, bits) ↔
    first < 0x80 ∧ count = 0 ∧ first = bits ∨
    0xc2 ≤ first ∧ first < 0xe0 ∧ count = 1 ∧ first = bits + 0xc0 ∨
    0xe0 ≤ first ∧ first < 0xf0 ∧ count = 2 ∧ first = bits + 0xe0 ∨
    0xf0 ≤ first ∧ first < 0xf5 ∧ count = 3 ∧ first = bits + 0xf0 := by
  unfold leadByte?
  split_ifs <;> simp only [Option.some.injEq, Prod.mk.injEq, false_iff] <;> omega

/-- The six bits of a second byte. -/
theorem continuation_second {first m : Nat} (hm : m < 0x40)
    (hfirst : (first = 0xe0 → 0x20 ≤ m) ∧ (first = 0xed → m < 0x20) ∧ (first = 0xf0 → 0x10 ≤ m) ∧
      (first = 0xf4 → m < 0x10)) :
    continuation start (count + 1) read value (secondByteRange first)
        (.ofNat (m + 0x80) :: bytes) =
      continuation start count (read + 1) (64 * value + m) (0x80, 0xbf) bytes := by
  have hbyte : (UInt8.ofNat (m + 0x80)).toNat = m + 0x80 := toNat_ofNat_of_lt (by omega)
  have hrange : (secondByteRange first).1 ≤ m + 0x80 ∧ m + 0x80 ≤ (secondByteRange first).2 :=
    secondByteRange_iff.2 (by omega)
  rw [continuation_cons (by rw [hbyte]; exact hrange.1) (by rw [hbyte]; exact hrange.2), hbyte,
    Nat.add_sub_cancel]

/-- The six bits of a later byte. -/
theorem continuation_later {m : Nat} (hm : m < 0x40) :
    continuation start (count + 1) read value (0x80, 0xbf) (.ofNat (m + 0x80) :: bytes) =
      continuation start count (read + 1) (64 * value + m) (0x80, 0xbf) bytes :=
  @continuation_second _ _ _ _ _ 0 m hm (by omega)

/-! ## One character -/

/-- **The bytes of a character are read as that character.** -/
theorem continuation_encode (hvalid : n.isValidChar) (start : Nat) : ∃ first more count bits,
    encodePoint n = first :: more ∧ leadByte? first.toNat = some (count, bits) ∧
    ∀ rest, continuation start count 1 bits (secondByteRange first.toNat) (more ++ rest) =
      .ok (n, rest) := by
  have hvalid : n < 0xd800 ∨ 0xdfff < n ∧ n < 0x110000 := hvalid
  unfold encodePoint
  split_ifs with h1 h2 h3
  · refine ⟨.ofNat n, [], 0, n, rfl, ?_, fun rest => ?_⟩
    · rw [leadByte?_iff, toNat_ofNat_of_lt (by omega)]
      exact .inl ⟨by omega, rfl, rfl⟩
    · rw [List.nil_append]
      unfold continuation
      rfl
  · have hfirst := toNat_ofNat_of_lt (n := n / 64 % 0x20 + 0xc0) (by omega)
    refine ⟨_, _, 1, n / 64, rfl, ?_, fun rest => ?_⟩
    · rw [leadByte?_iff, hfirst]
      exact .inr (.inl ⟨by omega, by omega, rfl, by omega⟩)
    · rw [hfirst, List.cons_append, continuation_second (by omega) (by omega), List.nil_append,
        continuation]
      congr
      omega
  · have hfirst := toNat_ofNat_of_lt (n := n / 4096 % 0x10 + 0xe0) (by omega)
    refine ⟨_, _, 2, n / 4096, rfl, ?_, fun rest => ?_⟩
    · rw [leadByte?_iff, hfirst]
      exact .inr (.inr (.inl ⟨by omega, by omega, rfl, by omega⟩))
    · rw [hfirst, List.cons_append, List.cons_append, continuation_second (by omega) (by omega),
        continuation_later (by omega), List.nil_append, continuation]
      congr
      omega
  · have hfirst := toNat_ofNat_of_lt (n := n / 262144 % 0x08 + 0xf0) (by omega)
    refine ⟨_, _, 3, n / 262144, rfl, ?_, fun rest => ?_⟩
    · rw [leadByte?_iff, hfirst]
      exact .inr (.inr (.inr ⟨by omega, by omega, rfl, by omega⟩))
    · rw [hfirst, List.cons_append, List.cons_append, List.cons_append,
        continuation_second (by omega) (by omega), continuation_later (by omega),
        continuation_later (by omega), List.nil_append, continuation]
      congr
      omega

/-- A byte is known by its number. -/
theorem ofNat_eq {b : UInt8} (h : n = b.toNat) : UInt8.ofNat n = b := by
  rw [h, UInt8.ofNat_toNat]

/-- **Bytes that are read as a character are its bytes.** -/
theorem encode_of_continuation {first : UInt8} {bits : Nat}
    (hlead : leadByte? first.toNat = some (count, bits))
    (h : continuation start count read bits (secondByteRange first.toNat) bytes = .ok (n, rest)) :
    n.isValidChar ∧ first :: bytes = encodePoint n ++ rest := by
  have hpoint : n.isValidChar ↔ n < 0xd800 ∨ 0xdfff < n ∧ n < 0x110000 := by
    unfold Nat.isValidChar
    rfl
  rw [leadByte?_iff] at hlead
  unfold encodePoint
  rcases hlead with ⟨hlt, rfl, hbits⟩ | ⟨hlo, hhi, rfl, hbits⟩ | ⟨hlo, hhi, rfl, hbits⟩ |
    ⟨hlo, hhi, rfl, hbits⟩
  · obtain ⟨hn, rfl⟩ := eq_of_continuation_zero h
    rw [hpoint, if_pos (by omega), ofNat_eq (b := first) (by omega)]
    exact ⟨by omega, rfl⟩
  · obtain ⟨b, more, rfl, hblo, hbhi, h⟩ := exists_of_continuation_succ h
    have hb := secondByteRange_iff.1 ⟨hblo, hbhi⟩
    obtain ⟨hn, rfl⟩ := eq_of_continuation_zero h
    rw [hpoint, if_neg (by omega), if_pos (by omega), ofNat_eq (b := first) (by omega),
      ofNat_eq (b := b) (by omega)]
    exact ⟨by omega, rfl⟩
  · obtain ⟨b, more, rfl, hblo, hbhi, h⟩ := exists_of_continuation_succ h
    obtain ⟨d, more, rfl, hdlo, hdhi, h⟩ := exists_of_continuation_succ h
    have hb := secondByteRange_iff.1 ⟨hblo, hbhi⟩
    obtain ⟨hn, rfl⟩ := eq_of_continuation_zero h
    dsimp only at hdlo hdhi
    rw [hpoint, if_neg (by omega), if_neg (by omega), if_pos (by omega),
      ofNat_eq (b := first) (by omega), ofNat_eq (b := b) (by omega), ofNat_eq (b := d) (by omega)]
    exact ⟨by omega, rfl⟩
  · obtain ⟨b, more, rfl, hblo, hbhi, h⟩ := exists_of_continuation_succ h
    obtain ⟨d, more, rfl, hdlo, hdhi, h⟩ := exists_of_continuation_succ h
    obtain ⟨e, more, rfl, helo, hehi, h⟩ := exists_of_continuation_succ h
    have hb := secondByteRange_iff.1 ⟨hblo, hbhi⟩
    obtain ⟨hn, rfl⟩ := eq_of_continuation_zero h
    dsimp only at hdlo hdhi helo hehi
    rw [hpoint, if_neg (by omega), if_neg (by omega), if_neg (by omega),
      ofNat_eq (b := first) (by omega), ofNat_eq (b := b) (by omega), ofNat_eq (b := d) (by omega),
      ofNat_eq (b := e) (by omega)]
    exact ⟨by omega, rfl⟩

/-! ## All characters -/

theorem length_encodePoint_pos (n : Nat) : 0 < (encodePoint n).length := by
  unfold encodePoint
  split_ifs <;> simp

/-- One round of decoding. -/
theorem decodeFrom_cons {rounds : Nat} {first : UInt8} {bits : Nat}
    (hlead : leadByte? first.toNat = some (count, bits)) :
    decodeFrom (rounds + 1) start (first :: bytes) = (do
      let (n, rest) ← continuation start count 1 bits (secondByteRange first.toNat) bytes
      let cs ← decodeFrom rounds (start + count + 1) rest
      return Char.ofNat n :: cs) := by
  rw [decodeFrom, hlead]

theorem decodeFrom_encode {rounds : Nat} {cs : List Char}
    (h : (cs.flatMap utf8EncodeChar).length < rounds) :
    decodeFrom rounds start (cs.flatMap utf8EncodeChar) = .ok cs := by
  induction cs generalizing rounds start with
  | nil => cases rounds <;> rfl
  | cons c cs ih =>
    obtain ⟨first, more, count, bits, hencode, hlead, hread⟩ := continuation_encode c.valid start
    obtain ⟨rounds, rfl⟩ := Nat.exists_eq_add_one_of_ne_zero (Nat.ne_zero_of_lt h)
    have hcs : (cs.flatMap utf8EncodeChar).length < rounds := by
      rw [List.flatMap_cons, utf8EncodeChar_eq, List.length_append] at h
      have hpos := length_encodePoint_pos c.toNat
      omega
    have hbytes : (c :: cs).flatMap utf8EncodeChar =
        first :: (more ++ cs.flatMap utf8EncodeChar) := by
      rw [List.flatMap_cons, utf8EncodeChar_eq]
      exact congrArg (· ++ _) hencode
    rw [hbytes, decodeFrom_cons hlead, hread]
    show (do
      let cs ← decodeFrom rounds _ (cs.flatMap utf8EncodeChar)
      return Char.ofNat c.toNat :: cs) = _
    rw [ih hcs, Char.ofNat_toNat]
    rfl

theorem encode_of_decodeFrom {rounds : Nat} {cs : List Char} (hlength : bytes.length < rounds)
    (h : decodeFrom rounds start bytes = .ok cs) : cs.flatMap utf8EncodeChar = bytes := by
  induction rounds generalizing start bytes cs with
  | zero => exact absurd hlength (Nat.not_lt_zero _)
  | succ rounds ih =>
    cases bytes with
    | nil =>
      cases h
      rfl
    | cons first bytes =>
      cases hlead : leadByte? first.toNat with
      | none =>
        rw [decodeFrom, hlead] at h
        cases h
      | some lead =>
        obtain ⟨count, bits⟩ := lead
        rw [decodeFrom_cons hlead] at h
        cases hread : continuation start count 1 bits (secondByteRange first.toNat) bytes with
        | error err =>
          rw [hread] at h
          cases h
        | ok read =>
        obtain ⟨n, rest⟩ := read
        rw [hread] at h
        cases hcs : decodeFrom rounds (start + count + 1) rest with
        | error err =>
          simp only [bind, Except.bind, hcs] at h
          cases h
        | ok cs' =>
        simp only [bind, Except.bind, hcs] at h
        cases h
        obtain ⟨hvalid, hbytes⟩ := encode_of_continuation hlead hread
        have hrest : rest.length < rounds := by
          have hlen := congrArg List.length hbytes
          have hpos := length_encodePoint_pos n
          simp only [List.length_cons, List.length_append] at hlen hlength
          omega
        have hpoint : (Char.ofNat n).toNat = n := by
          rw [Char.ofNat, dif_pos hvalid]
          rfl
        rw [List.flatMap_cons, utf8EncodeChar_eq, hpoint, ih hrest hcs, hbytes]

/-! ## Arrays of bytes -/

theorem toList_loop (bytes : ByteArray) (i : Nat) (r : List UInt8) :
    ByteArray.toList.loop bytes i r = r.reverse ++ bytes.data.toList.drop i := by
  induction hleft : bytes.size - i generalizing i r with
  | zero =>
    rw [ByteArray.toList.loop, if_neg (by omega), List.drop_eq_nil_of_le, List.append_nil]
    show bytes.size ≤ i
    omega
  | succ left ih =>
    have hi : i < bytes.size := by omega
    rw [ByteArray.toList.loop, if_pos hi, ih (i + 1) _ (by omega), List.reverse_cons,
      List.append_assoc, List.drop_eq_getElem_cons (l := bytes.data.toList) (i := i) hi,
      ByteArray.get!, getElem!_pos bytes.data i hi]
    rfl

theorem toList_eq (bytes : ByteArray) : bytes.toList = bytes.data.toList :=
  toList_loop bytes 0 []

/-- **Bytes decode to a text if and only if they are its form in UTF-8.** -/
theorem decodeUtf8_eq_ok_iff {bytes : ByteArray} {t : Text} :
    decodeUtf8 bytes = .ok t ↔ t.toList.utf8Encode = bytes := by
  have hencode : t.toList.utf8Encode = bytes ↔
      t.toList.flatMap utf8EncodeChar = bytes.data.toList := by
    rw [List.utf8Encode, ByteArray.ext_iff, List.data_toByteArray, ← Array.toList_inj]
  rw [hencode, decodeUtf8, toList_eq]
  have hrounds : bytes.data.toList.length < bytes.size + 1 := Nat.lt_succ_self _
  constructor
  · intro h
    cases hcs : decodeFrom (bytes.size + 1) 0 bytes.data.toList with
    | error err =>
      rw [hcs] at h
      cases h
    | ok cs =>
      rw [hcs] at h
      cases h
      exact encode_of_decodeFrom hrounds hcs
  · intro h
    rw [← h] at hrounds ⊢
    rw [decodeFrom_encode hrounds]
    rfl

/-- **Bytes can be decoded if and only if they are valid UTF-8.** -/
theorem exists_decodeUtf8_iff {bytes : ByteArray} :
    (∃ t, decodeUtf8 bytes = .ok t) ↔ bytes.IsValidUTF8 := by
  constructor
  · rintro ⟨t, ht⟩
    exact ⟨t.toList, (decodeUtf8_eq_ok_iff.1 ht).symm⟩
  · rintro ⟨cs, rfl⟩
    exact ⟨cs.toArray, decodeUtf8_eq_ok_iff.2 rfl⟩

/-- The size of a sequence of characters is that of its form in UTF-8. -/
theorem size_utf8Encode (cs : List Char) : cs.utf8Encode.size = byteSize cs := by
  induction cs with
  | nil => rfl
  | cons c cs ih =>
    rw [List.utf8Encode_cons, ByteArray.size_append, ih, byteSize, List.utf8Encode_singleton,
      List.size_toByteArray, String.length_utf8EncodeChar]

/-! ## Characters of strings -/

/-- The characters of a string, decoded from its bytes from the front.

The kernel needs time in proportion to the length of a string for it. For `String.toList`, which
finds every byte by its position, it needs the square of that. -/
def charactersOf (s : String) : List Char :=
  (decodeFrom (s.toByteArray.size + 1) 0 s.toByteArray.data.toList).toOption.getD []

theorem charactersOf_eq (s : String) : charactersOf s = s.toList := by
  have hbytes : s.toByteArray.data.toList = s.toList.flatMap utf8EncodeChar := by
    have hdecoded : s.toByteArray = s.toList.utf8Encode := by
      rw [← String.toByteArray_ofList, String.ofList_toList]
    rw [hdecoded, List.utf8Encode, List.data_toByteArray]
  have hrounds : (s.toList.flatMap utf8EncodeChar).length < s.toByteArray.size + 1 :=
    hbytes ▸ Nat.lt_succ_self _
  rw [charactersOf, hbytes, decodeFrom_encode hrounds]
  rfl

end ModeStack.Text
