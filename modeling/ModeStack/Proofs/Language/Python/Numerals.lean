import ModeStack.Proofs.Regex.Edges

/-!
# Python numerals

The numerals of Python as languages (`numeral`), and the seven expressions that the grammar has for
numbers (`variants`). Tried in their order, the first that matches a numeral takes all of it
(`exists_variant`).

An expression that ends at a word edge can only end with the numeral, unless the numeral has a point
or a sign. Only the first two expressions take such numerals; the first needs an exponent
(`exponentFloat`) and the second a point, so neither is in the way of the others.
-/

namespace ModeStack.Language.Python.Numeral

open ModeStack.Regex
open ModeStack.Regex.Expr
open ModeStack.Text (isWord)
open scoped Computability

-- Not by going through all characters.
attribute [local instance (high)] List.decidableBAll

/-! ## Numerals -/

/-- One of the characters. -/
def among (cs : String) : Language Char := oneOf fun c => cs.toList.contains c

/-- Such characters, each of them possibly behind an underscore. -/
def separated (l : Language Char) : Language Char := ((1 + among "_") * l)∗

def digit : Language Char := among "0123456789"

def digitPart : Language Char := digit * separated digit

def pointFloat : Language Char :=
  (1 + digitPart) * (among "." * digitPart) + digitPart * among "."

def exponentFloat : Language Char :=
  (digitPart + pointFloat) * (among "eE" * ((1 + among "+-") * digitPart))

def imaginary : Language Char := (pointFloat + exponentFloat + digitPart) * among "jJ"

def decimalInteger : Language Char :=
  among "123456789" * separated digit + among "0" * (among "0")∗ * separated (among "0")

/-- An integer in another base: the letters for the base, and the digits. -/
def basedInteger (letters digits : String) : Language Char :=
  among "0" * (among letters * ((1 + among "_") * among digits * separated (among digits)))

def integer : Language Char :=
  (decimalInteger + basedInteger "bB" "01" + basedInteger "oO" "01234567" +
    basedInteger "xX" "0123456789abcdefABCDEF") * (1 + among "lL")

/-- The numerals. -/
def numeral : Language Char := pointFloat + exponentFloat + imaginary + integer

/-! ## Expressions -/

/-- A set of two characters. -/
def either (a b : Char) : Expr := .set (.bracket false (.union (.range a a) (.range b b))) false

def optional (e : Expr) : Expr := .rep e 0 (some 1) true

/-- Any of such digits, each of them possibly behind an underscore, in a group of that number. -/
def furtherExpr (group : Nat) (d : Expr) (lo : Nat) : Expr :=
  .rep (.group group (.seq (optional (.char '_' false)) d)) lo none true

def digitExpr : Expr := .set (.bracket false (.range '0' '9')) false

/-- Digits, in a group of that number. -/
def digitsExpr (group : Nat) : Expr :=
  .group group (.seq digitExpr (furtherExpr (group + 1) digitExpr 0))

/-- A number with a point, in a group of that number. -/
def pointExpr (group : Nat) : Expr :=
  .group group (.alt
    (.seq (optional (.group (group + 1) (.seq edge (digitsExpr (group + 2)))))
      (.seq (.char '.' false) (digitsExpr (group + 4))))
    (.seq edge (.seq (digitsExpr (group + 6)) (.char '.' false))))

def exponentExpr : Expr :=
  .seq (.group 1 (.alt (.seq edge (digitsExpr 2)) (pointExpr 4)))
    (upToEdge [either 'e' 'E', optional (either '+' '-'), digitsExpr 12, optional (either 'j' 'J')])

def pointFloatExpr : Expr := .seq (pointExpr 1) (optional (either 'j' 'J'))

def decimalExpr : Expr :=
  .seq edge (upToEdge [
    .group 1 (.alt
      (.seq (.set (.bracket false (.range '1' '9')) false) (furtherExpr 2 digitExpr 0))
      (.seq (.rep (.char '0' false) 1 none true) (furtherExpr 3 (.char '0' false) 0))),
    optional (.set (.bracket false (.union (.union (.union (.range 'l' 'l') (.range 'L' 'L'))
      (.range 'j' 'j')) (.range 'J' 'J'))) false)])

/-- An integer in another base. -/
def basedExpr (lower upper : Char) (digits : CharSet) : Expr :=
  .seq edge (upToEdge [.char '0' false, either lower upper,
    furtherExpr 1 (.set (.bracket false digits) false) 1, optional (either 'l' 'L')])

def imaginaryExpr : Expr := .seq edge (upToEdge [digitsExpr 1, either 'j' 'J'])

/-- The expressions for numbers without a point and a sign. -/
def wordVariants : List Expr :=
  [decimalExpr,
   basedExpr 'b' 'B' (.union (.range '0' '0') (.range '1' '1')),
   basedExpr 'o' 'O' (.range '0' '7'),
   basedExpr 'x' 'X' (.union (.union (.range '0' '9') (.range 'a' 'f')) (.range 'A' 'F')),
   imaginaryExpr]

/-- The expressions for numbers, in their order. -/
def variants : List Expr := exponentExpr :: pointFloatExpr :: wordVariants

/-! ## What the expressions take -/

variable {w u v : List Char} {cs : String} {P : Char → Prop}

theorem mem_among : w ∈ among cs ↔ ∃ c ∈ cs.toList, w = [c] := by
  simp [among, mem_oneOf]

theorem eq_of_mem_among {c : Char} (hcs : cs.toList = [c]) (hw : w ∈ among cs) : w = [c] := by
  obtain ⟨d, hd, rfl⟩ := mem_among.1 hw
  rw [hcs] at hd
  rw [List.mem_singleton.1 hd]

theorem over_among (h : ∀ c ∈ cs.toList, P c) : Over P (among cs) :=
  over_oneOf fun c hc => h c (List.contains_iff_mem.1 hc)

theorem opens_among (h : ∀ c ∈ cs.toList, P c) : Opens P (among cs) :=
  opens_oneOf fun c hc => h c (List.contains_iff_mem.1 hc)

theorem closes_among (h : ∀ c ∈ cs.toList, P c) : Closes P (among cs) :=
  closes_oneOf fun c hc => h c (List.contains_iff_mem.1 hc)

theorem language_set {s : CharSet} (h : s.members? = some cs.toList) :
    (Expr.set s false).language = among cs := by
  have hcontains : s.contains false = fun c => cs.toList.contains c := by
    funext c
    rw [Bool.eq_iff_iff, CharSet.contains_iff_of_members? h, List.contains_iff_mem]
  rw [Expr.language, hcontains, among]

theorem language_char {c : Char} (h : cs.toList = [c]) :
    (Expr.char c false).language = among cs := by
  ext w
  simp [Expr.language, mem_oneOf, mem_among, h]

theorem language_optional (e : Expr) : (optional e).language = 1 + e.language :=
  repeats_zero_one _

theorem language_dot : (Expr.char '.' false).language = among "." := language_char rfl

theorem language_suffix : (either 'j' 'J').language = among "jJ" := language_set rfl

/-- A digit, possibly behind an underscore. -/
theorem language_behind (group : Nat) (d : Expr) :
    (Expr.group group (.seq (optional (.char '_' false)) d)).language =
      (1 + among "_") * d.language := by
  have hunder : (Expr.char '_' false).language = among "_" := language_char rfl
  show (optional (.char '_' false)).language * d.language = _
  rw [language_optional, hunder]

theorem language_further (group : Nat) (d : Expr) :
    (furtherExpr group d 0).language = separated d.language := by
  rw [furtherExpr, Expr.language, repeats_zero_none, language_behind, separated]

theorem language_further_one (group : Nat) (d : Expr) :
    (furtherExpr group d 1).language = (1 + among "_") * d.language * separated d.language := by
  rw [furtherExpr, Expr.language, repeats_one_none, language_behind, separated]

theorem language_digitExpr : digitExpr.language = digit := language_set rfl

theorem language_digits (group : Nat) : (digitsExpr group).language = digitPart := by
  show digitExpr.language * (furtherExpr (group + 1) digitExpr 0).language = _
  rw [language_further, language_digitExpr, digitPart]

/-- What precedes a point with digits behind it. -/
theorem language_whole (group : Nat) :
    (optional (.group (group + 1) (.seq edge (digitsExpr (group + 2))))).language =
      1 + digitPart := by
  rw [language_optional]
  show 1 + 1 * (digitsExpr (group + 2)).language = _
  rw [one_mul, language_digits]

theorem language_point_digits (group : Nat) :
    (Expr.seq (optional (.group (group + 1) (.seq edge (digitsExpr (group + 2)))))
      (.seq (.char '.' false) (digitsExpr (group + 4)))).language =
      (1 + digitPart) * (among "." * digitPart) := by
  rw [Expr.language, Expr.language, language_whole, language_dot, language_digits]

theorem language_digits_point (group : Nat) :
    (Expr.seq edge (.seq (digitsExpr group) (.char '.' false))).language =
      digitPart * among "." := by
  show 1 * ((digitsExpr group).language * (Expr.char '.' false).language) = _
  rw [one_mul, language_digits, language_dot]

theorem language_point (group : Nat) : (pointExpr group).language = pointFloat := by
  rw [pointExpr, Expr.language, Expr.language, language_point_digits, language_digits_point,
    pointFloat]

theorem language_exponentExpr : exponentExpr.language =
    (digitPart + pointFloat) *
      (among "eE" * ((1 + among "+-") * (digitPart * (1 + among "jJ")))) := by
  have he : (either 'e' 'E').language = among "eE" := language_set rfl
  have hsign : (either '+' '-').language = among "+-" := language_set rfl
  show (1 * (digitsExpr 2).language + (pointExpr 4).language) * (upToEdge _).language = _
  rw [language_upToEdge]
  simp only [List.map_cons, List.map_nil, List.prod_cons, List.prod_nil, mul_one, one_mul,
    language_optional, language_digits, language_point, language_suffix, he, hsign]

theorem language_pointFloatExpr :
    pointFloatExpr.language = pointFloat * (1 + among "jJ") := by
  show (pointExpr 1).language * (optional (either 'j' 'J')).language = _
  rw [language_point, language_optional, language_suffix]

/-! ## The shape of numerals -/

/-- What precedes an exponent. -/
def isMantissa (c : Char) : Bool := "0123456789_.".toList.contains c

theorem over_separated {l : Language Char} (hunder : P '_') (hl : Over P l) :
    Over P (separated l) :=
  ((over_among fun _ hc => List.mem_singleton.1 hc ▸ hunder).optional.mul hl).kstar

theorem over_digitPart (h : ∀ c ∈ "0123456789_".toList, P c) : Over P digitPart := by
  have hdigit : Over P digit := over_among fun c hc => h c (List.mem_append_left ['_'] hc)
  exact hdigit.mul (over_separated (h '_' (by decide)) hdigit)

theorem opens_digitPart : Opens (· ∈ "0123456789".toList) digitPart :=
  (opens_among fun _ hc => hc).mul _

theorem closes_separated {l m : Language Char} (hm : Closes P m) (hl : Closes P l) :
    Closes P (m * separated l) :=
  hm.mul_kstar (hl.mul _)

theorem closes_digitPart : Closes (· ∈ "0123456789".toList) digitPart :=
  closes_separated (closes_among fun _ hc => hc) (closes_among fun _ hc => hc)

theorem over_pointFloat (h : ∀ c ∈ "0123456789_.".toList, P c) : Over P pointFloat := by
  have hdigits : Over P digitPart := over_digitPart fun c hc => h c (List.mem_append_left ['.'] hc)
  have hpoint : Over P (among ".") :=
    over_among fun c hc => h c (List.mem_append_right "0123456789_".toList hc)
  exact (hdigits.optional.mul (hpoint.mul hdigits)).add (hdigits.mul hpoint)

/-- The point of a number with a point. -/
theorem exists_point (h : w ∈ pointFloat) : ∃ u v, w = u ++ '.' :: v ∧
    ((u ∈ 1 + digitPart ∧ v ∈ digitPart) ∨ (u ∈ digitPart ∧ v = [])) := by
  rcases (Language.mem_add _ _ _).1 h with h | h
  · obtain ⟨u, hu, x, hx, rfl⟩ := Language.mem_mul.1 h
    obtain ⟨dot, hdot, v, hv, rfl⟩ := Language.mem_mul.1 hx
    obtain rfl := eq_of_mem_among (c := '.') rfl hdot
    exact ⟨u, v, rfl, .inl ⟨hu, hv⟩⟩
  · obtain ⟨u, hu, dot, hdot, rfl⟩ := Language.mem_mul.1 h
    obtain rfl := eq_of_mem_among (c := '.') rfl hdot
    exact ⟨u, [], rfl, .inr ⟨hu, rfl⟩⟩

theorem isMantissa_of_mem_mantissa (h : w ∈ digitPart + pointFloat) :
    ∀ c ∈ w, isMantissa c = true :=
  (over_digitPart (by decide)).add (over_pointFloat (by decide)) w h

/-! ## Digits -/

section Spans

variable {t : Text} {p : Nat}

/-- Digits behind the first are taken one by one. -/
theorem prefers_further_one {chunk : List Char} (h : chunk ∈ (1 + among "_") * digit)
    (hp : p ≤ t.size) (hshows : Shows t p chunk) (group : Nat) :
    (Expr.group group (.seq (optional (.char '_' false)) digitExpr)).Prefers t p
      (p + chunk.length) := by
  have hlanguage := language_behind group digitExpr
  rw [language_digitExpr] at hlanguage
  -- A first character that is an underscore takes another.
  have hlength {w : List Char} (hw : w ∈ (1 + among "_") * digit) :
      ∃ c u, w = c :: u ∧ w.length = if c = '_' then 2 else 1 := by
    obtain ⟨x, hx, y, hy, rfl⟩ := Language.mem_mul.1 hw
    obtain ⟨d, hd, rfl⟩ := mem_among.1 hy
    rcases hx with rfl | hx
    · have hne : d ≠ '_' := by
        rintro rfl
        revert hd
        decide
      exact ⟨d, [], rfl, by simp [hne]⟩
    · obtain rfl := eq_of_mem_among (c := '_') rfl hx
      exact ⟨'_', [d], rfl, rfl⟩
  refine prefers_of_unique rfl hp (spans_of_mem rfl (hlanguage ▸ h) hshows) fun q hq => ?_
  obtain ⟨w, hw, hshows', rfl⟩ := hq.exists_word
  rw [hlanguage] at hw
  obtain ⟨c, u, rfl, hw⟩ := hlength hw
  obtain ⟨d, v, rfl, hchunk⟩ := hlength h
  obtain rfl : c = d := by
    have hc := (shows_cons.1 hshows').1
    have hd := (shows_cons.1 hshows).1
    exact Option.some.inj (hc.symm.trans hd)
  rw [hw, hchunk]

theorem leads_further (group : Nat) {chunks : List (List Char)}
    (h : ∀ chunk ∈ chunks, chunk ∈ (1 + among "_") * digit) (hp : p ≤ t.size)
    (hshows : Shows t p chunks.flatten)
    (hstop : ∀ c, t[p + chunks.flatten.length]? = some c → c ∉ "0123456789_".toList) :
    Leads t (.group group (.seq (optional (.char '_' false)) digitExpr)) p
      (p + chunks.flatten.length) := by
  induction chunks generalizing p with
  | nil =>
    refine .stop fun q hq => ?_
    obtain ⟨w, hw, hshows, -⟩ := hq.exists_word
    rw [language_behind, language_digitExpr] at hw
    have hopens : Opens (· ∈ "0123456789_".toList) ((1 + among "_") * digit) :=
      Opens.optional_mul (opens_among (by decide)) (opens_among (by decide))
    obtain ⟨c, u, rfl, hc⟩ := hopens w hw
    exact hstop c (shows_cons.1 hshows).1 hc
  | cons chunk chunks ih =>
    rw [List.flatten_cons] at hshows hstop ⊢
    obtain ⟨hfirst, hrest⟩ := shows_append.1 hshows
    have hchunk := h chunk List.mem_cons_self
    have hpos : 0 < chunk.length := by
      obtain ⟨x, -, y, hy, rfl⟩ := Language.mem_mul.1 hchunk
      obtain ⟨d, -, rfl⟩ := mem_among.1 hy
      simp
    rw [List.length_append, ← Nat.add_assoc] at hstop ⊢
    refine .go (prefers_further_one hchunk hp hfirst group) (by omega) ?_
    exact ih (fun c hc => h c (List.mem_cons_of_mem _ hc)) (hfirst.le_size hp) hrest hstop

/-- **Digits are taken as far as they go.** -/
theorem prefers_digits (h : w ∈ digitPart) (hp : p ≤ t.size) (hshows : Shows t p w)
    (hstop : ∀ c, t[p + w.length]? = some c → c ∉ "0123456789_".toList) (group : Nat) :
    (digitsExpr group).Prefers t p (p + w.length) := by
  obtain ⟨first, hfirst, rest, hrest, rfl⟩ := Language.mem_mul.1 h
  obtain ⟨c, hc, rfl⟩ := mem_among.1 hfirst
  obtain ⟨chunks, rfl, hchunks⟩ := Language.mem_kstar.1 hrest
  obtain ⟨hhead, htail⟩ := shows_append.1 hshows
  rw [List.length_append, ← Nat.add_assoc] at hstop ⊢
  refine prefers_group (prefers_seq_of_prefers (m := p + 1) ?_ ?_)
  · have hspans : digitExpr.Spans t p (p + 1) :=
      spans_of_mem rfl (language_digitExpr ▸ hfirst) hhead
    exact prefers_of_unique rfl hp hspans fun q hq => hq.1
  · have hsize := hhead.le_size hp
    exact (leads_further (group + 1) hchunks hsize htail hstop).prefers rfl hsize

/-! ## Points -/

theorem over_optional_digitPart (h : ∀ c ∈ "0123456789_".toList, P c) : Over P (1 + digitPart) :=
  (over_digitPart h).optional

theorem holds_edge_of_digits (h : w ∈ digitPart) (hshows : Shows t 0 w) :
    Assertion.wordEdge.holds t 0 = true := by
  obtain ⟨c, u, rfl, hc⟩ := opens_digitPart w h
  have hword : ∀ c ∈ "0123456789".toList, isWord c = true := by decide +kernel
  exact holds_wordEdge_zero (shows_cons.1 hshows).1 (hword c hc)

theorem spans_edge_digits (h : w ∈ digitPart) (hshows : Shows t 0 w) (group : Nat) :
    (Expr.seq edge (digitsExpr group)).Spans t 0 w.length := by
  have hspans := spans_of_mem (e := digitsExpr group) rfl (language_digits group ▸ h) hshows
  rw [Nat.zero_add] at hspans
  exact ⟨0, ⟨holds_edge_of_digits h hshows, rfl⟩, hspans⟩

/-- What stands before the only point. -/
theorem eq_of_point (hu : u ∈ 1 + digitPart) (hv : v ∈ 1 + digitPart)
    (hshows : Shows t p (u ++ ['.'])) (hshows' : Shows t p (v ++ ['.'])) : u = v :=
  eq_of_break (f := fun c => "0123456789_".toList.contains c)
    (over_optional_digitPart (by decide) u hu) (over_optional_digitPart (by decide) v hv) rfl rfl
    hshows hshows'

/-- A point with digits behind it. -/
theorem prefers_point_digits (hu : u ∈ 1 + digitPart) (hv : v ∈ digitPart)
    (hshows : Shows t 0 (u ++ '.' :: v))
    (hstop : ∀ c, t[u.length + 1 + v.length]? = some c → c ∉ "0123456789_".toList)
    (group : Nat) : (pointExpr group).Prefers t 0 (u.length + 1 + v.length) := by
  obtain ⟨hleft, hright⟩ := shows_append.1 hshows
  rw [Nat.zero_add] at hright
  obtain ⟨hdot, hdigits⟩ := shows_cons.1 hright
  have hsize := hleft.le_size (Nat.zero_le _)
  rw [Nat.zero_add] at hsize
  have hsize' : u.length + 1 ≤ t.size := (Array.getElem?_eq_some_iff.1 hdot).1
  have hrest : (Expr.seq (.char '.' false) (digitsExpr (group + 4))).Prefers t u.length
      (u.length + 1 + v.length) := by
    refine prefers_seq_of_prefers (m := u.length + 1) ?_ (prefers_digits hv hsize' hdigits hstop _)
    exact prefers_of_unique rfl hsize ⟨rfl, '.', hdot, by simp⟩ fun q hq => hq.1
  have hbefore {m : Nat} (hm : (optional (.group (group + 1)
      (.seq edge (digitsExpr (group + 2))))).Spans t 0 m) :
      ∃ x ∈ 1 + digitPart, Shows t 0 x ∧ m = x.length := by
    obtain ⟨x, hx, hshows, rfl⟩ := hm.exists_word
    rw [language_whole] at hx
    exact ⟨x, hx, hshows, by rw [Nat.zero_add]⟩
  refine prefers_group (prefers_alt_left (prefers_seq rfl rfl (Nat.zero_le _) ?_ ?_))
  · refine ⟨_, u.length, ?_, hrest.spans rfl hsize⟩
    rcases hu with rfl | hu
    · exact ⟨0, le_rfl, by simp, rfl⟩
    · exact ⟨1, by omega, by simp, iterated_one.2 (spans_edge_digits hu hleft _)⟩
  · intro m hm hgo
    obtain ⟨x, hx, hshows', rfl⟩ := hbefore hm
    obtain ⟨r, m', ⟨-, c, hc, hcdot⟩, -⟩ : ∃ r, (Expr.seq (.char '.' false)
        (digitsExpr (group + 4))).Spans t x.length r := by
      by_contra hno
      exact hgo fun r hr => hno ⟨r, hr⟩
    obtain rfl : c = '.' := of_decide_eq_true hcdot
    have hsame : u = x := eq_of_point hu hx
      (shows_append.2 ⟨hleft, shows_singleton.2 (by rwa [Nat.zero_add])⟩)
      (shows_append.2 ⟨hshows', shows_singleton.2 (by rwa [Nat.zero_add])⟩)
    exact hsame ▸ hrest

/-- A point without digits behind it. -/
theorem prefers_point_alone (hu : u ∈ digitPart) (hshows : Shows t 0 (u ++ ['.']))
    (hstop : ∀ c, t[u.length + 1]? = some c → c ∉ "0123456789".toList) (group : Nat) :
    (pointExpr group).Prefers t 0 (u.length + 1) := by
  obtain ⟨hleft, hright⟩ := shows_append.1 hshows
  rw [Nat.zero_add, shows_singleton] at hright
  refine prefers_group (prefers_alt_right rfl (Nat.zero_le _) ?_ ?_)
  · -- Digits would have to stand behind the point.
    intro q hq
    obtain ⟨w, hw, hshows', -⟩ := hq.exists_word
    rw [language_point_digits] at hw
    obtain ⟨x, hx, y, hy, rfl⟩ := Language.mem_mul.1 hw
    obtain ⟨dot, hdot, z, hz, rfl⟩ := Language.mem_mul.1 hy
    obtain rfl := eq_of_mem_among (c := '.') rfl hdot
    obtain ⟨c, z, rfl, hc⟩ := opens_digitPart z hz
    rw [← List.append_assoc] at hshows'
    obtain ⟨hpoint, hz⟩ := shows_append.1 hshows'
    obtain rfl : u = x := eq_of_point (.inr hu) hx hshows hpoint
    rw [Nat.zero_add, List.length_append] at hz
    exact hstop c (shows_cons.1 hz).1 hc
  · have hspans : (Expr.seq edge (.seq (digitsExpr (group + 6)) (.char '.' false))).Spans t 0
        (u.length + 1) := by
      obtain ⟨m, hedge, hdigits⟩ := spans_edge_digits hu hleft (group + 6)
      exact ⟨m, hedge, u.length, hdigits, rfl, '.', hright, by simp⟩
    refine prefers_of_unique rfl (Nat.zero_le _) hspans fun q hq => ?_
    obtain ⟨w, hw, hshows', rfl⟩ := hq.exists_word
    rw [language_digits_point] at hw
    obtain ⟨x, hx, dot, hdot, rfl⟩ := Language.mem_mul.1 hw
    obtain rfl := eq_of_mem_among (c := '.') rfl hdot
    obtain rfl : u = x := eq_of_point (.inr hu) (.inr hx) hshows hshows'
    simp

/-- **A number with a point is taken** if it cannot be read further. -/
theorem prefers_point (hw : w ∈ pointFloat) (hshows : Shows t 0 w)
    (hstop : ∀ c, t[w.length]? = some c → c ∉ "0123456789_".toList) (group : Nat) :
    (pointExpr group).Prefers t 0 w.length := by
  obtain ⟨u, v, rfl, ⟨hu, hv⟩ | ⟨hu, rfl⟩⟩ := exists_point hw
  · have hlength : (u ++ '.' :: v).length = u.length + 1 + v.length := by
      simp only [List.length_append, List.length_cons]
      omega
    rw [hlength] at hstop ⊢
    exact prefers_point_digits hu hv hshows hstop group
  · rw [List.length_append] at hstop ⊢
    exact prefers_point_alone hu hshows
      (fun c hc hmem => hstop c hc (List.mem_append_left ['_'] hmem)) group

end Spans

/-! ## Numerals with an exponent -/

/-- What follows the letter of an exponent, with an imaginary suffix or without. -/
def exponentTail : Language Char := (1 + among "+-") * (digitPart * (1 + among "jJ"))

theorem isWord_of_digitPart (h : w ∈ digitPart) : ∀ c ∈ w, isWord c = true := by
  have hword : ∀ c ∈ "0123456789_".toList, isWord c = true := by decide +kernel
  exact over_digitPart hword w h

/-- At most one sign, and then a word. -/
theorem exists_tail (h : w ∈ exponentTail) : ∃ (sign u : List Char) (c : Char),
    w = sign ++ (u ++ [c]) ∧ sign.length ≤ 1 ∧ (∀ c ∈ u, isWord c = true) ∧ isWord c = true := by
  obtain ⟨sign, hsign, d, hd, rfl⟩ := Language.mem_mul.1 h
  have hshort : sign.length ≤ 1 := by
    rcases hsign with rfl | hsign
    · exact Nat.zero_le _
    · obtain ⟨c, -, rfl⟩ := mem_among.1 hsign
      exact le_rfl
  have hword : ∀ c ∈ "0123456789_jJ".toList, isWord c = true := by decide +kernel
  have hdigits : Over (isWord · = true) digitPart := fun w hw => isWord_of_digitPart hw
  have hover : ∀ c ∈ d, isWord c = true :=
    (hdigits.mul (over_among (by decide +kernel)).optional) d hd
  have hcloses : Closes (fun _ => True) (digitPart * (1 + among "jJ")) :=
    Closes.mul_optional (fun w hw => by
      obtain ⟨u, c, rfl, -⟩ := closes_digitPart w hw
      exact ⟨u, c, rfl, trivial⟩) (closes_among fun _ _ => trivial)
  obtain ⟨u, c, rfl, -⟩ := hcloses d hd
  exact ⟨sign, u, c, rfl, hshort, fun c hc => hover c (List.mem_append_left _ hc),
    hover c (by simp)⟩

/-- What the expression for exponents takes. -/
theorem mem_exponentExpr (h : w ∈ exponentExpr.language) : ∃ m c r, w = m ++ c :: r ∧
    m ∈ digitPart + pointFloat ∧ c ∈ "eE".toList ∧ r ∈ exponentTail := by
  rw [language_exponentExpr] at h
  obtain ⟨m, hm, x, hx, rfl⟩ := Language.mem_mul.1 h
  obtain ⟨e, he, r, hr, rfl⟩ := Language.mem_mul.1 hx
  obtain ⟨c, hc, rfl⟩ := mem_among.1 he
  exact ⟨m, c, r, rfl, hm, hc, hr⟩

theorem isMantissa_of_exponent {c : Char} (h : c ∈ "eE".toList) : isMantissa c = false := by
  revert c
  decide

/-- Where no exponent follows what may precede one, there is none. -/
theorem refuses_exponentExpr {m r : List Char} (hm : ∀ c ∈ m, isMantissa c = true)
    (hr : ∀ c ∈ r.head?, isMantissa c = false ∧ c ∉ "eE".toList) :
    exponentExpr.Refuses (m ++ r).toArray 0 := by
  intro q hq
  obtain ⟨w, hw, hshows, -⟩ := hq.exists_word
  obtain ⟨m', e, rest, rfl, hm', he, -⟩ := mem_exponentExpr hw
  have hbreak : Shows (m ++ r).toArray 0 (m' ++ [e]) := by
    rw [List.append_cons] at hshows
    exact (shows_append.1 hshows).1
  cases r with
  | nil =>
    rw [List.append_nil] at hbreak
    have hmem : e ∈ m := (shows_zero.1 hbreak).subset (by simp)
    exact Bool.false_ne_true ((isMantissa_of_exponent he).symm.trans (hm e hmem))
  | cons c r =>
    obtain ⟨hc, hne⟩ := hr c rfl
    have hown : Shows (m ++ c :: r).toArray 0 (m ++ [c]) := shows_zero.2 ⟨r, by simp⟩
    obtain rfl : m' = m := eq_of_break (isMantissa_of_mem_mantissa hm') hm
      (isMantissa_of_exponent he) hc hbreak hown
    have heq : e = c := by simpa using hbreak.eq_of_length hown (by simp)
    exact hne (heq ▸ he)

section Exponent

variable {m r : List Char} {c : Char} (hm : m ∈ digitPart + pointFloat) (hc : c ∈ "eE".toList)
  (hr : r ∈ exponentTail)

include hm hc hr

theorem spans_exponent :
    exponentExpr.Spans (m ++ c :: r).toArray 0 (m ++ c :: r).length := by
  have hbefore : Shows (m ++ c :: r).toArray 0 m := shows_zero.2 (List.prefix_append _ _)
  have hfirst : (Expr.group 1 (.alt (.seq edge (digitsExpr 2)) (pointExpr 4))).Spans
      (m ++ c :: r).toArray 0 m.length := by
    rcases hm with hm | hm
    · exact .inl (spans_edge_digits hm hbefore 2)
    · refine .inr ((prefers_point hm hbefore (fun d hd hmem => ?_) 4).spans rfl (Nat.zero_le _))
      obtain rfl : c = d := by simpa using hd
      have hno : ∀ c ∈ "eE".toList, c ∉ "0123456789_".toList := by decide
      exact hno c hc hmem
  have he : (either 'e' 'E').language = among "eE" := language_set rfl
  have hsign : (either '+' '-').language = among "+-" := language_set rfl
  have hmem : c :: r ∈ ([either 'e' 'E', optional (either '+' '-'), digitsExpr 12,
      optional (either 'j' 'J')].map Expr.language).prod := by
    simp only [List.map_cons, List.map_nil, List.prod_cons, List.prod_nil, mul_one,
      language_optional, language_digits, language_suffix, he, hsign]
    exact Language.append_mem_mul (mem_among.2 ⟨c, hc, rfl⟩) hr
  have hafter : Shows (m ++ c :: r).toArray m.length (c :: r) := by
    have hall := shows_append.1 (shows_zero.2 (List.prefix_refl (m ++ c :: r)))
    rw [Nat.zero_add] at hall
    exact hall.2
  obtain ⟨sign, u, d, rfl, -, -, hd⟩ := exists_tail hr
  have hedge := holds_wordEdge_end (w := m ++ c :: (sign ++ u)) hd
  rw [List.append_assoc, List.cons_append, List.append_assoc] at hedge
  have hlength : (m ++ c :: (sign ++ (u ++ [d]))).length =
      m.length + (c :: (sign ++ (u ++ [d]))).length := List.length_append
  rw [hlength] at hedge ⊢
  exact ⟨m.length, hfirst, spans_upToEdge (by simp [optional, either, isFree, digitsExpr,
    furtherExpr, digitExpr]) hmem hafter hedge⟩

/-- Behind the letter of the exponent there is no edge before the end. -/
theorem eq_length_of_spans_exponent {q : Nat} (hq : exponentExpr.Spans (m ++ c :: r).toArray 0 q) :
    q = (m ++ c :: r).length := by
  have hedge : Assertion.wordEdge.holds (m ++ c :: r).toArray q = true := by
    obtain ⟨_, -, htail⟩ := hq
    exact holds_of_spans_upToEdge htail
  obtain ⟨w, hw, hshows, rfl⟩ := hq.exists_word
  obtain ⟨m', e, r', rfl, hm', he, hr'⟩ := mem_exponentExpr hw
  -- The letter of the exponent is the first that cannot precede one.
  have hbreak : Shows (m ++ c :: r).toArray 0 (m' ++ [e]) := by
    rw [List.append_cons m' e r'] at hshows
    exact (shows_append.1 hshows).1
  have hown : Shows (m ++ c :: r).toArray 0 (m ++ [c]) := shows_zero.2 ⟨r, by simp⟩
  obtain rfl : m' = m := eq_of_break (isMantissa_of_mem_mantissa hm')
    (isMantissa_of_mem_mantissa hm) (isMantissa_of_exponent he) (isMantissa_of_exponent hc) hbreak
    hown
  obtain rfl : e = c := by simpa using hbreak.eq_of_length hown (by simp)
  obtain ⟨rest, hrest⟩ := shows_zero.1 hshows
  obtain rfl : r' ++ rest = r := by simpa using hrest
  obtain ⟨sign, u, last, rfl, -, -, hlast⟩ := exists_tail hr'
  cases rest with
  | nil => simp
  | cons d rest =>
    have hd : isWord d = true := by
      obtain ⟨sign', u', last', heq, hshort, hu', hlast'⟩ := exists_tail hr
      have hmem : d ∈ u' ++ [last'] := by
        refine List.mem_of_getElem? (i := (sign ++ (u ++ [last])).length - sign'.length) ?_
        rw [← List.getElem?_append_right (by simp; omega), ← heq]
        simp
      rcases List.mem_append.1 hmem with hmem | hmem
      · exact hu' d hmem
      · exact List.mem_singleton.1 hmem ▸ hlast'
    have htext : m' ++ e :: (sign ++ (u ++ [last]) ++ d :: rest) =
        (m' ++ e :: (sign ++ u)) ++ last :: d :: rest := by simp
    have hend : 0 + (m' ++ e :: (sign ++ (u ++ [last]))).length =
        (m' ++ e :: (sign ++ u)).length + 1 := by
      simp
      omega
    rw [htext, hend, not_holds_wordEdge_between hlast hd] at hedge
    cases hedge

/-- **A numeral with an exponent** is taken as a whole. -/
theorem prefers_exponent :
    exponentExpr.Prefers (m ++ c :: r).toArray 0 (m ++ c :: r).length :=
  prefers_of_unique rfl (Nat.zero_le _) (spans_exponent hm hc hr)
    fun _ hq => eq_length_of_spans_exponent hm hc hr hq

end Exponent

/-! ## Numerals with a point -/

/-- A number with a point and perhaps an imaginary suffix is taken as a whole. -/
theorem prefers_pointFloatExpr (hu : u ∈ pointFloat) (hv : v ∈ 1 + among "jJ") :
    pointFloatExpr.Prefers (u ++ v).toArray 0 (u ++ v).length := by
  have hbefore : Shows (u ++ v).toArray 0 u := shows_zero.2 (List.prefix_append _ _)
  have hsize : u.length ≤ (u ++ v).toArray.size := by simp
  have hno : ∀ c ∈ "jJ".toList, c ∉ "0123456789_".toList := by decide
  rw [List.length_append]
  rcases hv with rfl | hv
  · refine prefers_seq_of_prefers (prefers_point hu hbefore (fun c hc => ?_) 1) ?_
    · simp at hc
    · refine prefers_optional_none rfl hsize fun q hq => ?_
      obtain ⟨rfl, c, hc, -⟩ := hq
      simp at hc
  · obtain ⟨c, hc, rfl⟩ := mem_among.1 hv
    have hafter : (u ++ [c]).toArray[u.length]? = some c := by simp
    refine prefers_seq_of_prefers (prefers_point hu hbefore (fun d hd => ?_) 1) ?_
    · obtain rfl : c = d := Option.some.inj (hafter.symm.trans hd)
      exact hno c hc
    · refine prefers_optional (prefers_of_unique rfl hsize ?_ fun q hq => hq.1)
      exact spans_of_mem rfl (language_suffix ▸ hv) (shows_singleton.2 hafter)

/-- What has no point is no number with a point. -/
theorem refuses_pointFloatExpr (h : '.' ∉ w) : pointFloatExpr.Refuses w.toArray 0 := by
  intro q hq
  obtain ⟨x, hx, hshows, -⟩ := hq.exists_word
  rw [language_pointFloatExpr] at hx
  obtain ⟨y, hy, z, -, rfl⟩ := Language.mem_mul.1 hx
  obtain ⟨u, v, rfl, -⟩ := exists_point hy
  exact h ((shows_zero.1 hshows).subset (by simp))

/-! ## Numerals of word characters -/

/-- An expression between word edges takes all of a word, or nothing. -/
theorem refuses_or_prefers {es : List Expr} (hall : ∀ c ∈ w, isWord c = true)
    (hwidth : 0 < (Expr.seq edge (upToEdge es)).minWidth)
    (hregular : (Expr.seq edge (upToEdge es)).isRegular = true) :
    (Expr.seq edge (upToEdge es)).Refuses w.toArray 0 ∨
      (Expr.seq edge (upToEdge es)).Prefers w.toArray 0 w.length := by
  have honly {q : Nat} (hq : (Expr.seq edge (upToEdge es)).Spans w.toArray 0 q) : q = w.length :=
    eq_size_of_spans hall hwidth hregular hq
  by_cases hspans : (Expr.seq edge (upToEdge es)).Spans w.toArray 0 w.length
  · exact .inr (prefers_of_unique hregular (Nat.zero_le _) hspans fun q hq => honly hq)
  · exact .inl fun q hq => hspans (honly hq ▸ hq)

/-- It takes the words of its language. -/
theorem prefers_framed {es : List Expr} (hall : ∀ c ∈ w, isWord c = true)
    (hwidth : 0 < (Expr.seq edge (upToEdge es)).minWidth)
    (hregular : (Expr.seq edge (upToEdge es)).isRegular = true)
    (hfree : ∀ e ∈ es, e.isFree = true) (hw : w ∈ (es.map Expr.language).prod) (hne : w ≠ []) :
    (Expr.seq edge (upToEdge es)).Prefers w.toArray 0 w.length := by
  refine (refuses_or_prefers hall hwidth hregular).resolve_left fun hrefuses => ?_
  have hstart : Assertion.wordEdge.holds w.toArray 0 = true := by
    obtain ⟨c, u, rfl⟩ := List.exists_cons_of_ne_nil hne
    exact holds_wordEdge_zero (c := c) (by simp) (hall c (by simp))
  have hend : Assertion.wordEdge.holds w.toArray (0 + w.length) = true := by
    rw [Nat.zero_add]
    rcases List.eq_nil_or_concat w with rfl | ⟨u, c, rfl⟩
    · exact absurd rfl hne
    · rw [List.concat_eq_append] at hall ⊢
      exact holds_wordEdge_end (hall c (by simp))
  exact hrefuses _ ⟨0, ⟨hstart, rfl⟩,
    spans_upToEdge hfree hw (shows_zero.2 (List.prefix_refl w)) hend⟩

/-- **A numeral of word characters** without an exponent is taken as a whole by one of the
expressions, if one takes it. -/
theorem exists_word_variant {m r : List Char} (hall : ∀ c ∈ m ++ r, isWord c = true)
    (hm : ∀ c ∈ m, isMantissa c = true)
    (hr : ∀ c ∈ r.head?, isMantissa c = false ∧ c ∉ "eE".toList)
    (hsome : ∃ e ∈ wordVariants, e.Prefers (m ++ r).toArray 0 (m ++ r).length) :
    ∃ index < variants.length, Chooses (m ++ r).toArray 0 (m ++ r).length variants index := by
  obtain ⟨e, he, hprefers⟩ := hsome
  refine exists_chooses (fun e' he' => ?_) ⟨e, .tail _ (.tail _ he), hprefers⟩
  rcases List.mem_cons.1 he' with rfl | he'
  · exact .inl (refuses_exponentExpr hm hr)
  rcases List.mem_cons.1 he' with rfl | he'
  · refine .inl (refuses_pointFloatExpr fun hdot => ?_)
    have hno : isWord '.' = false := by decide +kernel
    rw [hall '.' hdot] at hno
    cases hno
  · simp only [wordVariants, List.mem_cons, List.not_mem_nil, or_false] at he'
    rcases he' with rfl | rfl | rfl | rfl | rfl <;>
      exact refuses_or_prefers hall (by decide) rfl

theorem over_isWord_based {letters digits : String}
    (hletters : ∀ c ∈ letters.toList, isWord c = true)
    (hdigits : ∀ c ∈ digits.toList, isWord c = true) :
    Over (isWord · = true) (basedInteger letters digits * (1 + among "lL")) := by
  have hunder : Over (isWord · = true) (among "_") := over_among (by decide +kernel)
  have hone : Over (isWord · = true) (among digits) := over_among hdigits
  have hzero : Over (isWord · = true) (among "0") := over_among (by decide +kernel)
  have hsuffix : Over (isWord · = true) (among "lL") := over_among (by decide +kernel)
  exact (hzero.mul ((over_among hletters).mul ((hunder.optional.mul hone).mul
    (over_separated (by decide +kernel) hone)))).mul hsuffix.optional

/-- An integer in another base. -/
theorem exists_based_variant {letters digits : String} {lower upper : Char} {set : CharSet}
    (hvariant : basedExpr lower upper set ∈ wordVariants)
    (hletters : (either lower upper).language = among letters)
    (hset : (Expr.set (.bracket false set) false).language = among digits)
    (hbreak : ∀ c ∈ letters.toList, isWord c = true ∧ isMantissa c = false ∧ c ∉ "eE".toList)
    (hdigits : ∀ c ∈ digits.toList, isWord c = true)
    (hw : w ∈ basedInteger letters digits * (1 + among "lL")) :
    ∃ index < variants.length, Chooses w.toArray 0 w.length variants index := by
  have hall := over_isWord_based (fun c hc => (hbreak c hc).1) hdigits w hw
  have hzero : (Expr.char '0' false).language = among "0" := language_char rfl
  have hl : (either 'l' 'L').language = among "lL" := language_set rfl
  have hprefers : (basedExpr lower upper set).Prefers w.toArray 0 w.length := by
    refine prefers_framed hall (Nat.zero_lt_succ _) rfl (by simp [optional, either, isFree,
      furtherExpr]) ?_ ?_
    · simp only [List.map_cons, List.map_nil, List.prod_cons, List.prod_nil, mul_one,
        language_optional, language_further_one, hzero, hletters, hset, hl]
      simpa only [basedInteger, mul_assoc] using hw
    · rintro rfl
      obtain ⟨u, hu, v, -, hnil⟩ := Language.mem_mul.1 hw
      obtain ⟨zero, hzero, x, -, rfl⟩ := Language.mem_mul.1 hu
      obtain ⟨c, -, rfl⟩ := mem_among.1 hzero
      cases hnil
  obtain ⟨u, hu, v, -, rfl⟩ := Language.mem_mul.1 hw
  obtain ⟨first, hfirst, x, hx, rfl⟩ := Language.mem_mul.1 hu
  obtain ⟨letter, hletter, rest, -, rfl⟩ := Language.mem_mul.1 hx
  obtain ⟨d, hd, rfl⟩ := mem_among.1 hletter
  obtain rfl := eq_of_mem_among (c := '0') rfl hfirst
  refine exists_word_variant (m := ['0']) (r := d :: (rest ++ v)) hall (by decide) ?_
    ⟨_, hvariant, hprefers⟩
  rintro c ⟨⟩
  exact (hbreak d hd).2

/-- A decimal integer. -/
theorem exists_decimal_variant (hw : w ∈ decimalInteger * (1 + among "lL")) :
    ∃ index < variants.length, Chooses w.toArray 0 w.length variants index := by
  have hnonzero : (Expr.set (.bracket false (.range '1' '9')) false).language = among "123456789" :=
    language_set rfl
  have hzero : (Expr.char '0' false).language = among "0" := language_char rfl
  have hsuffix : (Expr.set (.bracket false (.union (.union (.union (.range 'l' 'l')
      (.range 'L' 'L')) (.range 'j' 'j')) (.range 'J' 'J'))) false).language = among "lLjJ" :=
    language_set rfl
  have hover (P : Char → Prop) (h : ∀ c ∈ "0123456789_".toList, P c) : Over P decimalInteger := by
    have hdigit : Over P digit := over_among fun c hc => h c (List.mem_append_left ['_'] hc)
    have hzeros : Over P (among "0") := over_among fun c hc => h c (List.mem_append_left
      "123456789_".toList hc)
    refine Over.add ?_ ((hzeros.mul hzeros.kstar).mul (over_separated (h '_' (by decide)) hzeros))
    refine Over.mul (over_among fun c hc => h c ?_) (over_separated (h '_' (by decide)) hdigit)
    revert c
    decide
  have hall : ∀ c ∈ w, isWord c = true :=
    ((hover _ (by decide +kernel)).mul (over_among (by decide +kernel)).optional) w hw
  obtain ⟨u, hu, v, hv, rfl⟩ := Language.mem_mul.1 hw
  have hne : u ≠ [] := by
    rintro rfl
    rcases hu with hu | hu
    · obtain ⟨x, hx, y, -, hnil⟩ := Language.mem_mul.1 hu
      obtain ⟨c, -, rfl⟩ := mem_among.1 hx
      cases hnil
    · obtain ⟨x, hx, y, -, hnil⟩ := Language.mem_mul.1 hu
      obtain ⟨z, hz, zs, -, rfl⟩ := Language.mem_mul.1 hx
      obtain ⟨c, -, rfl⟩ := mem_among.1 hz
      cases hnil
  have hprefers : decimalExpr.Prefers (u ++ v).toArray 0 (u ++ v).length := by
    refine prefers_framed hall (by decide) rfl (by decide) ?_ (by simp [hne])
    have hfirst : (Expr.group 1 (.alt
        (.seq (.set (.bracket false (.range '1' '9')) false) (furtherExpr 2 digitExpr 0))
        (.seq (.rep (.char '0' false) 1 none true)
          (furtherExpr 3 (.char '0' false) 0)))).language = decimalInteger := by
      show (Expr.set (.bracket false (.range '1' '9')) false).language *
          (furtherExpr 2 digitExpr 0).language +
        repeats (Expr.char '0' false).language 1 none *
          (furtherExpr 3 (.char '0' false) 0).language = _
      rw [language_further, language_further, repeats_one_none, hnonzero, hzero,
        language_digitExpr, decimalInteger]
    simp only [List.map_cons, List.map_nil, List.prod_cons, List.prod_nil, mul_one,
      language_optional, hfirst, hsuffix]
    refine Language.append_mem_mul hu (hv.imp id fun hv => ?_)
    obtain ⟨c, hc, rfl⟩ := mem_among.1 hv
    exact mem_among.2 ⟨c, List.mem_append_left ['j', 'J'] hc, rfl⟩
  refine exists_word_variant hall (hover _ (by decide) u hu) ?_
    ⟨decimalExpr, by simp [wordVariants], hprefers⟩
  rcases hv with rfl | hv
  · simp
  · obtain ⟨c, hc, rfl⟩ := mem_among.1 hv
    rintro d ⟨⟩
    have hbreak : ∀ c ∈ "lL".toList, isMantissa c = false ∧ c ∉ "eE".toList := by decide
    exact hbreak c hc

/-- An imaginary number without a point. -/
theorem exists_imaginary_variant (hw : w ∈ digitPart * among "jJ") :
    ∃ index < variants.length, Chooses w.toArray 0 w.length variants index := by
  have hdigits : Over (isWord · = true) digitPart := fun w hw => isWord_of_digitPart hw
  have hall : ∀ c ∈ w, isWord c = true := hdigits.mul (over_among (by decide +kernel)) w hw
  have hprefers : imaginaryExpr.Prefers w.toArray 0 w.length := by
    refine prefers_framed hall (by decide) rfl (by decide) ?_ ?_
    · simp only [List.map_cons, List.map_nil, List.prod_cons, List.prod_nil, mul_one,
        language_digits, language_suffix]
      exact hw
    · rintro rfl
      obtain ⟨u, hu, v, -, hnil⟩ := Language.mem_mul.1 hw
      obtain ⟨c, x, rfl, -⟩ := opens_digitPart u hu
      cases hnil
  obtain ⟨u, hu, v, hv, rfl⟩ := Language.mem_mul.1 hw
  obtain ⟨c, hc, rfl⟩ := mem_among.1 hv
  refine exists_word_variant hall (isMantissa_of_mem_mantissa (.inl hu)) ?_
    ⟨imaginaryExpr, by simp [wordVariants], hprefers⟩
  rintro d ⟨⟩
  have hbreak : ∀ c ∈ "jJ".toList, isMantissa c = false ∧ c ∉ "eE".toList := by decide
  exact hbreak c hc

/-! ## All numerals -/

/-- A numeral with an exponent, and perhaps with an imaginary suffix. -/
theorem exists_exponent_variant (hw : w ∈ exponentFloat * (1 + among "jJ")) :
    ∃ index < variants.length, Chooses w.toArray 0 w.length variants index := by
  rw [exponentFloat, mul_assoc, mul_assoc, mul_assoc] at hw
  obtain ⟨m, hm, x, hx, rfl⟩ := Language.mem_mul.1 hw
  obtain ⟨e, he, r, hr, rfl⟩ := Language.mem_mul.1 hx
  obtain ⟨c, hc, rfl⟩ := mem_among.1 he
  exact ⟨0, by decide, .here (prefers_exponent hm hc hr)⟩

/-- A numeral with a point and no exponent. -/
theorem exists_point_variant (hw : w ∈ pointFloat * (1 + among "jJ")) :
    ∃ index < variants.length, Chooses w.toArray 0 w.length variants index := by
  obtain ⟨u, hu, v, hv, rfl⟩ := Language.mem_mul.1 hw
  have hbreak : ∀ c ∈ "jJ".toList, isMantissa c = false ∧ c ∉ "eE".toList := by decide
  refine ⟨1, by decide, .later (refuses_exponentExpr (isMantissa_of_mem_mantissa (.inr hu)) ?_)
    (.here (prefers_pointFloatExpr hu hv))⟩
  rcases hv with rfl | hv
  · simp
  · obtain ⟨c, hc, rfl⟩ := mem_among.1 hv
    rintro d ⟨⟩
    exact hbreak c hc

theorem exists_integer_variant (hw : w ∈ integer) :
    ∃ index < variants.length, Chooses w.toArray 0 w.length variants index := by
  rw [integer, add_mul, add_mul, add_mul] at hw
  rcases hw with ((hw | hw) | hw) | hw
  · exact exists_decimal_variant hw
  · exact exists_based_variant (.tail _ (.head _)) (language_set rfl) (language_set rfl)
      (by decide +kernel) (by decide +kernel) hw
  · exact exists_based_variant (.tail _ (.tail _ (.head _))) (language_set rfl) (language_set rfl)
      (by decide +kernel) (by decide +kernel) hw
  · exact exists_based_variant (.tail _ (.tail _ (.tail _ (.head _)))) (language_set rfl)
      (language_set rfl) (by decide +kernel) (by decide +kernel) hw

/-- **Of the expressions for numbers the first that matches a numeral takes all of it.** -/
theorem exists_variant (hw : w ∈ numeral) :
    ∃ index < variants.length, Chooses w.toArray 0 w.length variants index := by
  have hbare {l : Language Char} : l ≤ l * (1 + among "jJ") := fun x hx => by
    rw [mul_add, mul_one]
    exact .inl hx
  have hsuffixed {l : Language Char} : l * among "jJ" ≤ l * (1 + among "jJ") := fun x hx => by
    rw [mul_add]
    exact .inr hx
  rcases hw with ((hw | hw) | hw) | hw
  · exact exists_point_variant (hbare hw)
  · exact exists_exponent_variant (hbare hw)
  · rw [imaginary, add_mul, add_mul] at hw
    rcases hw with (hw | hw) | hw
    · exact exists_point_variant (hsuffixed hw)
    · exact exists_exponent_variant (hsuffixed hw)
    · exact exists_imaginary_variant hw
  · exact exists_integer_variant hw

/-- A numeral begins with a digit or a point. -/
theorem opens_numeral : Opens (· ∈ "0123456789.".toList) numeral := by
  have hdigits : Opens (· ∈ "0123456789.".toList) digitPart :=
    opens_digitPart.mono fun _ hc => List.mem_append_left ['.'] hc
  have hpoint : Opens (· ∈ "0123456789.".toList) pointFloat :=
    (Opens.optional_mul hdigits ((opens_among (by decide)).mul _)).add (hdigits.mul _)
  have hexponent : Opens (· ∈ "0123456789.".toList) exponentFloat := (hdigits.add hpoint).mul _
  have hdecimal : Opens (· ∈ "0123456789.".toList) decimalInteger :=
    ((opens_among (by decide)).mul _).add (((opens_among (by decide)).mul _).mul _)
  have hbased (letters digits : String) :
      Opens (· ∈ "0123456789.".toList) (basedInteger letters digits) :=
    (opens_among (by decide)).mul _
  exact ((hpoint.add hexponent).add (((hpoint.add hexponent).add hdigits).mul _)).add
    ((((hdecimal.add (hbased _ _)).add (hbased _ _)).add (hbased _ _)).mul _)

/-- The characters of numerals. -/
def characters : String := "0123456789_.+-abcdefABCDEFxXoOjJlL"

theorem over_among_of_subset (h : ∀ c ∈ characters.toList, P c)
    (hsubset : cs.toList ⊆ characters.toList) : Over P (among cs) :=
  over_among fun c hc => h c (hsubset hc)

theorem over_based {letters digits : String} (h : ∀ c ∈ characters.toList, P c)
    (hletters : letters.toList ⊆ characters.toList)
    (hdigits : digits.toList ⊆ characters.toList) : Over P (basedInteger letters digits) := by
  have hone := over_among_of_subset h hdigits
  exact (over_among_of_subset h (by decide)).mul ((over_among_of_subset h hletters).mul
    (((over_among_of_subset h (by decide)).optional.mul hone).mul
      (over_separated (h '_' (by decide)) hone)))

theorem over_numeral (h : ∀ c ∈ characters.toList, P c) : Over P numeral := by
  have hunder : P '_' := h '_' (by decide)
  have hdigits : Over P digitPart := over_digitPart fun c hc => h c (by revert c; decide)
  have hpoint : Over P pointFloat := over_pointFloat fun c hc => h c (by revert c; decide)
  have hexponent : Over P exponentFloat :=
    (hdigits.add hpoint).mul ((over_among_of_subset h (by decide)).mul
      ((over_among_of_subset h (by decide)).optional.mul hdigits))
  have hzero : Over P (among "0") := over_among_of_subset h (by decide)
  have hdecimal : Over P decimalInteger :=
    ((over_among_of_subset h (by decide)).mul
      (over_separated hunder (over_among_of_subset h (by decide)))).add
      ((hzero.mul hzero.kstar).mul (over_separated hunder hzero))
  have hinteger : Over P integer :=
    (((hdecimal.add (over_based h (by decide) (by decide))).add
      (over_based h (by decide) (by decide))).add (over_based h (by decide) (by decide))).mul
      (over_among_of_subset h (by decide)).optional
  exact ((hpoint.add hexponent).add (((hpoint.add hexponent).add hdigits).mul
    (over_among_of_subset h (by decide)))).add hinteger

end ModeStack.Language.Python.Numeral
