import ModeStack.Command.Record
import ModeStack.Proofs.Text.Decimal

/-!
# Reading records

What is printed in JSON can be read again. The reader takes objects of strings, natural numbers and
nulls, without white space: less than JSON allows, and nothing that it does not. In particular, a
string holds no control character, so that a line feed always ends a line.

Main result: `readRecords?_tokenLines`.
-/

namespace ModeStack.Command

open ModeStack.Scan (Token)
open ModeStack.Text (hexDigits takeWhile_append_of_head? dropWhile_append_of_head?
  eq_zero_of_head?_toDigits)

/-! ## The reader -/

namespace Json

/-- A value that a record may hold. -/
inductive Value where
  | null
  | number (n : Nat)
  | string (s : String)
  deriving DecidableEq, Repr

/-- What a character stands for behind a backslash. -/
def unescape? : Char → Option Char
  | '"' => some '"'
  | '\\' => some '\\'
  | '/' => some '/'
  | 'b' => some '\x08'
  | 'f' => some '\x0c'
  | 'n' => some '\n'
  | 'r' => some '\r'
  | 't' => some '\t'
  | _ => none

/-- The value of a hexadecimal digit. -/
def hexDigit? (c : Char) : Option Nat :=
  if c.isDigit then some (c.toNat - 48)
  else if 'a' ≤ c ∧ c ≤ 'f' then some (c.toNat - 87)
  else if 'A' ≤ c ∧ c ≤ 'F' then some (c.toNat - 55)
  else none

/-- The character with a code of four hexadecimal digits. -/
def unicode? (digits : List Char) : Option Char := do
  let code := (← digits.mapM hexDigit?).foldl (fun n digit => 16 * n + digit) 0
  if code.isValidChar then some (Char.ofNat code) else none

/-- Reads a string after its opening quote. -/
def readChars? : List Char → Option (List Char × List Char)
  | [] => none
  | '"' :: rest => some ([], rest)
  | '\\' :: 'u' :: a :: b :: c :: d :: rest => do
    let char ← unicode? [a, b, c, d]
    let (chars, rest) ← readChars? rest
    return (char :: chars, rest)
  | '\\' :: escaped :: rest => do
    let char ← unescape? escaped
    let (chars, rest) ← readChars? rest
    return (char :: chars, rest)
  | char :: rest =>
    if char.toNat < 32 then none
    else do
      let (chars, rest) ← readChars? rest
      return (char :: chars, rest)

/-- Reads a string. -/
def readString? : List Char → Option (String × List Char)
  | '"' :: rest => (readChars? rest).map fun (chars, rest) => (String.ofList chars, rest)
  | _ => none

/-- Reads a natural number. -/
def readNumber? (cs : List Char) : Option (Nat × List Char) :=
  let digits := cs.takeWhile Char.isDigit
  if digits = [] ∨ digits.head? = some '0' ∧ digits ≠ ['0'] then none
  else some (Nat.ofDigitChars 10 digits 0, cs.dropWhile Char.isDigit)

/-- Reads a value. -/
def readValue? : List Char → Option (Value × List Char)
  | 'n' :: 'u' :: 'l' :: 'l' :: rest => some (.null, rest)
  | '"' :: rest => (readString? ('"' :: rest)).map fun (s, rest) => (.string s, rest)
  | cs => (readNumber? cs).map fun (n, rest) => (.number n, rest)

/-- Reads a name and its value. -/
def readMember? (cs : List Char) : Option ((String × Value) × List Char) := do
  let (name, rest) ← readString? cs
  match rest with
  | ':' :: rest => do
    let (value, rest) ← readValue? rest
    return ((name, value), rest)
  | _ => none

/-- Reads the members of an object after its opening brace. Each round reads one. -/
def readMembers? : (rounds : Nat) → List Char → Option (List (String × Value) × List Char)
  | 0, _ => none
  | rounds + 1, cs => do
    let (member, rest) ← readMember? cs
    match rest with
    | ',' :: rest => do
      let (members, rest) ← readMembers? rounds rest
      return (member :: members, rest)
    | '\x7d' :: rest => some ([member], rest)
    | _ => none

/-- Reads an object with nothing behind it. -/
def readObject? : List Char → Option (List (String × Value))
  | '\x7b' :: cs => do
    let (members, rest) ← readMembers? cs.length cs
    if rest = [] then some members else none
  | _ => none

end Json

open Json

/-- The record that an object holds. -/
def Record.ofMembers? : List (String × Value) → Option Record
  | [("scope", .string scope), ("start", .number start), ("end", .number stop),
      ("text", .string text)] => some ⟨some scope, start, stop, text⟩
  | [("scope", .null), ("start", .number start), ("end", .number stop), ("text", .string text)] =>
    some ⟨none, start, stop, text⟩
  | _ => none

/-- The lines of a text each of which ends with a line feed, the beginning of the first one
reversed. -/
def readLines? : (line : List Char) → List Char → Option (List (List Char))
  | [], [] => some []
  | _ :: _, [] => none
  | line, c :: cs =>
    if c = '\n' then (readLines? [] cs).map (line.reverse :: ·) else readLines? (c :: line) cs

/-- Reads records, one from each line. -/
def readRecords? (out : String) : Option (List Record) := do
  (← readLines? [] out.toList).mapM fun line => (readObject? line).bind Record.ofMembers?

/-! ## Strings -/

namespace Json

variable {rest : List Char}

/-- The codes of control characters. -/
theorem unicode?_control : ∀ n < 32, ∃ a b c d,
    padLeft 4 '0' (hexDigits n) = [a, b, c, d] ∧ unicode? [a, b, c, d] = some (Char.ofNat n) := by
  intro n hn
  interval_cases n <;> exact ⟨_, _, _, _, rfl, by decide⟩

theorem not_mem_control : ∀ n < 32, '\n' ∉ padLeft 4 '0' (hexDigits n) := by
  decide

/-- A character is read as it was printed. -/
theorem readChars?_jsonChar (c : Char) (cs : List Char) :
    readChars? (jsonChar c ++ cs) = (readChars? cs).map fun (chars, rest) => (c :: chars, rest) := by
  unfold jsonChar
  split
  case h_8 hquote hbackslash _ _ _ _ _ =>
    split_ifs with hlt
    · obtain ⟨x, y, z, w, hdigits, hchar⟩ := unicode?_control c.toNat hlt
      rw [Char.ofNat_toNat] at hchar
      rw [hdigits]
      show (do
        let char ← unicode? [x, y, z, w]
        let (chars, rest) ← readChars? cs
        return (char :: chars, rest)) = _
      rw [hchar]
      cases readChars? cs <;> rfl
    · show readChars? (c :: cs) = _
      rw [readChars?.eq_5]
      · rw [if_neg hlt]
        cases readChars? cs <;> rfl
      all_goals simp_all
  all_goals
    cases hrest : readChars? cs <;> simp [readChars?, unescape?, hrest]

theorem readChars?_flatMap (chars rest : List Char) :
    readChars? (chars.flatMap jsonChar ++ '"' :: rest) = some (chars, rest) := by
  induction chars with
  | nil => rfl
  | cons c chars ih =>
    rw [List.flatMap_cons, List.append_assoc, readChars?_jsonChar, ih]
    rfl

theorem toList_jsonString (s : String) :
    (jsonString s).toList = '"' :: (s.toList.flatMap jsonChar ++ ['"']) := by
  rw [jsonString, String.toList_ofList]
  rfl

/-- A string is read as it was printed. -/
theorem readString?_jsonString (s : String) (rest : List Char) :
    readString? ((jsonString s).toList ++ rest) = some (s, rest) := by
  rw [toList_jsonString, List.cons_append, List.append_assoc]
  show (readChars? (s.toList.flatMap jsonChar ++ '"' :: rest)).map _ = _
  rw [readChars?_flatMap]
  show some (String.ofList s.toList, rest) = _
  rw [String.ofList_toList]

theorem not_mem_jsonChar (c : Char) : '\n' ∉ jsonChar c := by
  unfold jsonChar
  split
  case h_8 hnewline _ _ =>
    split_ifs with hlt
    · intro hmem
      rcases List.mem_append.1 hmem with hmark | hdigit
      · cases hmark with
        | tail _ hmark => cases List.mem_singleton.1 hmark
      · exact not_mem_control c.toNat hlt hdigit
    · intro hmem
      exact hnewline (List.mem_singleton.1 hmem).symm
  all_goals decide

theorem not_mem_jsonString (s : String) : '\n' ∉ (jsonString s).toList := by
  rw [toList_jsonString]
  intro hmem
  rcases List.mem_cons.1 hmem with hquote | hmem
  · cases hquote
  · rcases List.mem_append.1 hmem with hmem | hmem
    · obtain ⟨c, -, hc⟩ := List.mem_flatMap.1 hmem
      exact not_mem_jsonChar c hc
    · cases List.mem_singleton.1 hmem

/-! ## Numbers -/

theorem toList_toString (n : Nat) : (toString n).toList = Nat.toDigits 10 n := by
  rw [Nat.toString_eq_repr, Nat.toList_repr]

theorem isDigit_of_mem_toString {n : Nat} {c : Char} (h : c ∈ (toString n).toList) :
    c.isDigit = true := by
  rw [toList_toString] at h
  exact Nat.isDigit_of_mem_toDigits (by decide) (by decide) h

/-- A number is read as it was printed, if no digit follows. -/
theorem readNumber?_toString (n : Nat) (hrest : ∀ c ∈ rest.head?, c.isDigit = false) :
    readNumber? ((toString n).toList ++ rest) = some (n, rest) := by
  have hdigits : ∀ c ∈ Nat.toDigits 10 n, c.isDigit = true := fun c hc =>
    Nat.isDigit_of_mem_toDigits (by decide) (by decide) hc
  have hzero : (Nat.toDigits 10 n).head? = some '0' → Nat.toDigits 10 n = ['0'] := by
    intro hhead
    rw [eq_zero_of_head?_toDigits hhead]
    rfl
  rw [toList_toString, readNumber?, takeWhile_append_of_head? hdigits hrest,
    dropWhile_append_of_head? hdigits hrest, Nat.ofDigitChars_ten_toDigits, if_neg]
  rintro (hnil | ⟨hhead, hne⟩)
  · exact Nat.toDigits_ne_nil hnil
  · exact hne (hzero hhead)

theorem readValue?_jsonString (s : String) (rest : List Char) :
    readValue? ((jsonString s).toList ++ rest) = some (.string s, rest) := by
  have hread := readString?_jsonString s rest
  rw [toList_jsonString, List.cons_append] at hread ⊢
  rw [readValue?, hread]
  rfl

theorem readValue?_toString (n : Nat) (hrest : ∀ c ∈ rest.head?, c.isDigit = false) :
    readValue? ((toString n).toList ++ rest) = some (.number n, rest) := by
  have hread := readNumber?_toString n hrest
  obtain ⟨c, cs, hcs⟩ := List.exists_cons_of_ne_nil (l := (toString n).toList) (by
    rw [toList_toString]
    exact Nat.toDigits_ne_nil)
  have hdigit : c.isDigit = true := isDigit_of_mem_toString (n := n) (by rw [hcs]; simp)
  rw [hcs, List.cons_append] at hread ⊢
  rw [readValue?.eq_3]
  · rw [hread]
    rfl
  · intro _ heq
    obtain rfl := (List.cons.inj heq).1
    cases hdigit
  · intro _ heq
    obtain rfl := (List.cons.inj heq).1
    cases hdigit

theorem not_mem_toString (n : Nat) : '\n' ∉ (toString n).toList := fun hmem =>
  absurd (isDigit_of_mem_toString hmem) (by decide)

/-! ## Members -/

variable {name : String} {value : Value} {cs : List Char}

theorem readMember?_of_value (name : String) (hvalue : readValue? cs = some (value, rest)) :
    readMember? ((jsonString name).toList ++ ':' :: cs) = some ((name, value), rest) := by
  rw [readMember?, readString?_jsonString]
  show (do
    let (value, rest) ← readValue? cs
    return ((name, value), rest)) = _
  rw [hvalue]
  rfl

theorem readMembers?_more {member : String × Value} {members : List (String × Value)}
    {rounds : Nat} {after : List Char} (hmember : readMember? cs = some (member, ',' :: rest))
    (hmore : readMembers? rounds rest = some (members, after)) :
    readMembers? (rounds + 1) cs = some (member :: members, after) := by
  rw [readMembers?, hmember]
  show (do
    let (members, rest) ← readMembers? rounds rest
    return (member :: members, rest)) = _
  rw [hmore]
  rfl

theorem readMembers?_last {member : String × Value} {rounds : Nat}
    (hmember : readMember? cs = some (member, '\x7d' :: rest)) :
    readMembers? (rounds + 1) cs = some ([member], rest) := by
  rw [readMembers?, hmember]
  rfl

end Json

/-! ## Records -/

/-- The value of a scope. -/
def scopeValue : Option String → Value
  | some scope => .string scope
  | none => .null

/-- A scope as it is printed. -/
def scopeJson : Option String → String
  | some scope => jsonString scope
  | none => "null"

theorem readValue?_scopeJson (scope : Option String) (rest : List Char) :
    readValue? ((scopeJson scope).toList ++ rest) = some (scopeValue scope, rest) := by
  cases scope with
  | none => rfl
  | some scope => exact readValue?_jsonString scope rest

/-- The members of a record as they are printed. -/
def Record.membersJson (r : Record) : List Char :=
  (jsonString "scope").toList ++ ':' :: ((scopeJson r.scope).toList ++
    ',' :: ((jsonString "start").toList ++ ':' :: ((toString r.start).toList ++
      ',' :: ((jsonString "end").toList ++ ':' :: ((toString r.stop).toList ++
        ',' :: ((jsonString "text").toList ++ ':' :: ((jsonString r.text).toList ++ ['\x7d'])))))))

theorem Record.toList_json (r : Record) : r.json.toList = '\x7b' :: r.membersJson := by
  have hscope : r.json = "\x7b\"scope\":" ++ scopeJson r.scope ++ ",\"start\":" ++ toString r.start
      ++ ",\"end\":" ++ toString r.stop ++ ",\"text\":" ++ jsonString r.text ++ "\x7d" := by
    unfold Record.json
    cases r.scope <;> rfl
  rw [hscope, Record.membersJson]
  simp [toList_jsonString, jsonChar]

theorem Record.readMembers?_membersJson (r : Record) (rounds : Nat) :
    readMembers? (rounds + 4) r.membersJson =
      some ([("scope", scopeValue r.scope), ("start", .number r.start), ("end", .number r.stop),
        ("text", .string r.text)], []) := by
  have hcomma (rest : List Char) : ∀ c ∈ (',' :: rest).head?, c.isDigit = false := by
    rintro c ⟨⟩
    rfl
  refine readMembers?_more (readMember?_of_value "scope" (readValue?_scopeJson r.scope _)) ?_
  refine readMembers?_more (readMember?_of_value "start" (readValue?_toString r.start (hcomma _))) ?_
  refine readMembers?_more (readMember?_of_value "end" (readValue?_toString r.stop (hcomma _))) ?_
  exact readMembers?_last (readMember?_of_value "text" (readValue?_jsonString r.text ['\x7d']))

/-- **A record is read as it was printed.** -/
theorem Record.readObject?_json (r : Record) :
    (readObject? r.json.toList).bind Record.ofMembers? = some r := by
  have hlength : 4 ≤ r.membersJson.length := by
    simp only [Record.membersJson, List.length_append, List.length_cons]
    omega
  obtain ⟨rounds, hrounds⟩ := Nat.exists_eq_add_of_le' hlength
  rw [Record.toList_json, readObject?, hrounds, r.readMembers?_membersJson rounds]
  obtain ⟨scope, start, stop, text⟩ := r
  cases scope <;> rfl

theorem Record.not_mem_json (r : Record) : '\n' ∉ r.json.toList := by
  have hscope : '\n' ∉ (scopeJson r.scope).toList := by
    cases r.scope with
    | none => decide
    | some scope => exact not_mem_jsonString scope
  rw [Record.toList_json, Record.membersJson]
  simp [hscope, not_mem_jsonString, not_mem_toString, -Nat.toString_eq_repr]

/-! ## Lines -/

theorem readLines?_line {line before : List Char} (hline : '\n' ∉ line) (cs : List Char) :
    readLines? before (line ++ '\n' :: cs) =
      (readLines? [] cs).map ((before.reverse ++ line) :: ·) := by
  induction line generalizing before with
  | nil =>
    rw [List.nil_append, readLines?, if_pos rfl, List.append_nil]
  | cons c line ih =>
    have hc : c ≠ '\n' := fun heq => hline (heq ▸ List.mem_cons_self)
    rw [List.cons_append, readLines?, if_neg hc, ih fun hmem => hline (List.mem_cons_of_mem _ hmem),
      List.reverse_cons, List.append_assoc]
    rfl

theorem readLines?_lines {lines : List (List Char)} (h : ∀ line ∈ lines, '\n' ∉ line) :
    readLines? [] (lines.flatMap (· ++ ['\n'])) = some lines := by
  induction lines with
  | nil => rfl
  | cons line lines ih =>
    rw [List.flatMap_cons, List.append_assoc, List.singleton_append,
      readLines?_line (h line List.mem_cons_self),
      ih fun line hmem => h line (List.mem_cons_of_mem _ hmem)]
    rfl

theorem toList_tokenLines (t : Text) (tokens : List Token) :
    (tokenLines t tokens .json).toList =
      (tokens.map fun token => (Record.ofToken t token).json.toList).flatMap (· ++ ['\n']) := by
  rw [tokenLines, String.toList_join, List.flatMap_map, List.flatMap_map]
  refine List.flatMap_congr fun token _ => ?_
  rw [String.toList_append]
  rfl

/-- **What is printed of tokens in JSON is read as their records.** -/
theorem readRecords?_tokenLines (t : Text) (tokens : List Token) :
    readRecords? (tokenLines t tokens .json) = some (tokens.map (Record.ofToken t)) := by
  have hlines : ∀ line ∈ tokens.map fun token => (Record.ofToken t token).json.toList,
      '\n' ∉ line := by
    intro line hline
    obtain ⟨token, -, rfl⟩ := List.mem_map.1 hline
    exact Record.not_mem_json _
  rw [readRecords?, toList_tokenLines, readLines?_lines hlines]
  show List.mapM _ _ = _
  rw [List.mapM_map]
  have hread (token : Token) : (readObject? (Record.ofToken t token).json.toList).bind
      Record.ofMembers? = some (Record.ofToken t token) := Record.readObject?_json _
  simp only [Function.comp_def, hread]
  exact List.mapM_pure

end ModeStack.Command
