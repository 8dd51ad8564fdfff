import ModeStack.Proofs.Regex.Beside
import ModeStack.Proofs.Regex.Raising

/-!
# Reading what renumbering writes

A pattern is read three times: as it is, with its references raised (`raisedExpression`), and as
renumbering writes it. `Tracks` says of three parsers that where the first succeeds, the others do
the same and agree with each other, and that they differ from the first in the numbers of references
only. This is kept by the ways in which parsers are put together. It holds of what is read of a
pattern besides groups, which contain patterns again.

A reference that is raised must not get too large. Since the numbers of references are seen in the
value that is read, `Tracks` asks this of the value (`Small`); so where parsers are put together,
the value of the whole must refer to all that its parts refer to (`Yields`).
-/

namespace ModeStack.Regex

open ModeStack.Text
open ModeStack.Rule (Position)

/-! ## What a value refers to -/

/-- How the groups that a value refers to are renamed, and which they are. -/
structure View (α : Type) where
  rename : (Nat → Nat) → α → α
  references : α → List Nat

namespace View

/-- A value that refers to no group. -/
def none : View α := ⟨fun _ a => a, fun _ => []⟩

def expr : View Expr := ⟨Expr.mapReferences, Expr.references⟩

def exprs : View (List Expr) :=
  ⟨fun f => List.map (Expr.mapReferences f), List.flatMap Expr.references⟩

end View

/-- A pattern that is renumbered, and a condition that tells where the renumbering machine raises a
reference. -/
structure Renumbering where
  source : List Char
  offset : Nat
  raises : List Char → Bool
  locates : Locates source raises

/-- Whether there are no references by name, and none by a number that begins with a zero. -/
def refersPlainly (source : List Char) : Bool :=
  source.tails.all fun
    | '\\' :: c :: _ => c ≠ 'k' && c ≠ '0'
    | '?' :: 'P' :: '=' :: _ => false
    | _ => true

variable {x : Renumbering} {n : Nat} {α β : Type} {r s : Reading} {c : Char} {cs : List Char}
  {view : View α} {view' : View β}

theorem refersPlainly_escape {source : List Char} (h : '\\' :: c :: cs <:+ source)
    (hplainly : refersPlainly source = true) : c ≠ 'k' ∧ c ≠ '0' := by
  rw [refersPlainly, List.all_eq_true] at hplainly
  simpa using hplainly _ ((List.mem_tails ..).2 h)

theorem refersPlainly_named {source : List Char} (h : '?' :: 'P' :: '=' :: cs <:+ source) :
    refersPlainly source = false := by
  rw [refersPlainly, List.all_eq_false]
  exact ⟨_, (List.mem_tails ..).2 h, Bool.false_ne_true⟩

/-- All that a value refers to can be raised. -/
def Small (x : Renumbering) (view : View α) (a : α) : Prop :=
  ∀ index ∈ view.references a, index + x.offset < 18446744073709551616

theorem Small.of_subset {a : α} {b : β} (h : Small x view a)
    (hsubset : view'.references b ⊆ view.references a) : Small x view' b :=
  fun index hindex => h index (hsubset hindex)

/-- Two values that differ in the numbers of references only. If all references are raised, these
are the numbers with the offset added. -/
structure Apart (x : Renumbering) (view : View α) (a b : α) : Prop where
  anonymous : view.rename (fun _ => 0) b = view.rename (fun _ => 0) a
  raised : (∀ cs, x.raises cs = true) → refersPlainly x.source = true →
    b = view.rename (· + x.offset) a

namespace Apart

variable {a b : α}

theorem refl (h : ∀ f, view.rename f a = a) : Apart x view a a :=
  ⟨rfl, fun _ _ => (h _).symm⟩

/-- A reference by name stays as it is. -/
theorem named (h : refersPlainly x.source = false) (a : α) : Apart x view a a := by
  refine ⟨rfl, fun _ hplainly => ?_⟩
  rw [h] at hplainly
  cases hplainly

theorem eq (h : Apart x .none a b) : b = a := h.anonymous

theorem map {g : α → β} (h : Apart x view a b)
    (hg : ∀ f a, view'.rename f (g a) = g (view.rename f a)) : Apart x view' (g a) (g b) where
  anonymous := by rw [hg, hg, h.anonymous]
  raised := fun hall hplainly => by rw [hg, h.raised hall hplainly]

theorem map₂ {γ : Type} {views : View γ} {b b' : β} {g : α → β → γ} {a' : α}
    (ha : Apart x view a a') (hb : Apart x view' b b')
    (hg : ∀ f a b, views.rename f (g a b) = g (view.rename f a) (view'.rename f b)) :
    Apart x views (g a b) (g a' b') where
  anonymous := by rw [hg, hg, ha.anonymous, hb.anonymous]
  raised := fun hall hplainly => by rw [hg, ha.raised hall hplainly, hb.raised hall hplainly]

end Apart

/-! ## Reading in step -/

/-- The second state has what renumbering writes left to read, and is otherwise the first. -/
structure Shadows (x : Renumbering) (r s : Reading) : Prop where
  eq : s = r.withRest s.rest
  verbose : r.flags.verbose = true → 'x' ∈ x.source
  beside : Beside x.source x.offset r.rest s.rest

namespace Shadows

theorem withRest {rest rest' : List Char} (h : Shadows x r s)
    (hrest : Beside x.source x.offset rest rest') :
    Shadows x (r.withRest rest) (s.withRest rest') where
  eq := by
    rw [h.eq]
    rfl
  verbose := h.verbose
  beside := hrest

/-- Something else than what is left may change. -/
theorem change (h : Shadows x r s) {k : Reading → Reading}
    (hk : ∀ r rest, k (r.withRest rest) = (k r).withRest rest)
    (hverbose : (k r).flags.verbose = true → 'x' ∈ x.source) : Shadows x (k r) (k s) := by
  have hrest (r : Reading) : (k r).rest = r.rest := congrArg (·.rest) (hk r r.rest)
  refine ⟨?_, hverbose, ?_⟩
  · rw [hrest, h.eq, hk]
    rfl
  · rw [hrest, hrest]
    exact h.beside

theorem flags_eq (h : Shadows x r s) : s.flags = r.flags := congrArg (·.flags) h.eq

theorem groups_eq (h : Shadows x r s) : s.groups = r.groups := congrArg (·.groups) h.eq

theorem names_eq (h : Shadows x r s) : s.names = r.names := congrArg (·.names) h.eq

theorem numbered_eq (h : Shadows x r s) : s.numbered = r.numbered := congrArg (·.numbered) h.eq

theorem cons (h : Shadows x r s) (hr : r.rest = c :: cs) (hc : c ≠ '\\' ∧ c ≠ '[') :
    ∃ t, s.rest = c :: t ∧ Shadows x (r.withRest cs) (s.withRest t) := by
  have hbeside := h.beside
  rw [hr] at hbeside
  obtain ⟨t, ht, hnext⟩ := hbeside.cons hc
  exact ⟨t, ht, h.withRest hnext⟩

end Shadows

/-- Whatever a parser reads has a property. -/
def Yields (p : Parser α) (P : α → Prop) : Prop := ∀ r a r₁, p r = .ok (a, r₁) → P a

namespace Yields

variable {p : Parser α} {P : α → Prop}

theorem pure {a : α} (h : P a) : Yields (pure a) P := by
  intro r b r₁ hb
  cases hb
  exact h

theorem throw (e : SyntaxError) : Yields (throw e) P := by
  intro r a r₁ ha
  cases ha

theorem bind {q : Parser β} {k : β → Parser α} (h : ∀ b, Yields (k b) P) : Yields (q >>= k) P := by
  intro r a r₂ ha
  obtain ⟨b, r₁, -, ha⟩ := exists_of_parser_bind ha
  exact h b r₁ a r₂ ha

theorem ite {c : Prop} [Decidable c] {q : Parser α} (hp : Yields p P) (hq : Yields q P) :
    Yields (if c then p else q) P := by
  split_ifs
  · exact hp
  · exact hq

end Yields

/-- Where the first parser succeeds, leaving at most `n` characters, the others do the same. -/
def Tracks (x : Renumbering) (n : Nat) (view : View α) (p q p' : Parser α) (r s : Reading) : Prop :=
  ∀ a r₁, p r = .ok (a, r₁) → Small x view a → r₁.rest.length ≤ n ∧ ∃ b s₁, q r = .ok (b, r₁) ∧
    p' s = .ok (b, s₁) ∧ Shadows x r₁ s₁ ∧ Apart x view a b

namespace Tracks

variable {p q p' : Parser α}

theorem mono {m : Nat} (h : Tracks x m view p q p' r s) (hle : m ≤ n) :
    Tracks x n view p q p' r s := by
  intro a r₁ ha hsmall
  obtain ⟨hlength, hrest⟩ := h a r₁ ha hsmall
  exact ⟨hlength.trans hle, hrest⟩

theorem pure {a b : α} (h : Shadows x r s) (hn : r.rest.length ≤ n) (hvalue : Apart x view a b) :
    Tracks x n view (pure a) (pure b) (pure b) r s := by
  intro d r₁ hd _
  cases hd
  exact ⟨hn, b, s, rfl, rfl, h, hvalue⟩

/-- A parser that fails is tracked by any. -/
theorem of_error {e : SyntaxError} (h : p r = .error e) : Tracks x n view p q p' r s := by
  intro a r₁ ha
  rw [h] at ha
  cases ha

theorem throw (e : SyntaxError) : Tracks x n view (MonadExcept.throw e) q p' r s := of_error rfl

/-- Where the first parser is not refused, the others are not either. -/
theorem check {refused : Prop} [Decidable refused] (e : SyntaxError)
    (h : Tracks x n view p q p' r s) :
    Tracks x n view (if refused then MonadExcept.throw e else p)
      (if refused then MonadExcept.throw e else q)
      (if refused then MonadExcept.throw e else p') r s := by
  split_ifs
  · exact .throw e
  · exact h

theorem bind {m : Nat} {k l k' : α → Parser β} (hp : Tracks x m view p q p' r s)
    (hsmall : ∀ a, Yields (k a) fun d => Small x view' d → Small x view a)
    (hk : ∀ a b r₁ s₁, Apart x view a b → Shadows x r₁ s₁ → r₁.rest.length ≤ m →
      Tracks x n view' (k a) (l b) (k' b) r₁ s₁) :
    Tracks x n view' (p >>= k) (q >>= l) (p' >>= k') r s := by
  intro d r₂ hd hd'
  obtain ⟨a, r₁, ha, hd⟩ := exists_of_parser_bind hd
  obtain ⟨hlength, b, s₁, hq, hp', hs₁, hvalue⟩ := hp a r₁ ha (hsmall a r₁ d r₂ hd hd')
  rw [parser_bind_of_ok hq, parser_bind_of_ok hp']
  exact hk a b r₁ s₁ hvalue hs₁ hlength d r₂ hd hd'

/-- What follows a value that is the same in all three. -/
theorem bind_same {m : Nat} {k l k' : α → Parser β} (hp : Tracks x m .none p q p' r s)
    (hk : ∀ a r₁ s₁, Shadows x r₁ s₁ → r₁.rest.length ≤ m →
      Tracks x n view' (k a) (l a) (k' a) r₁ s₁) :
    Tracks x n view' (p >>= k) (q >>= l) (p' >>= k') r s := by
  refine hp.bind (fun a r₁ d r₂ _ hsmall => hsmall.of_subset (List.nil_subset _)) ?_
  intro a b r₁ s₁ hvalue hs₁ hlength
  rw [hvalue.eq]
  exact hk a r₁ s₁ hs₁ hlength

theorem map {g : α → β} (hp : Tracks x n view p q p' r s)
    (hrename : ∀ f a, view'.rename f (g a) = g (view.rename f a))
    (hreferences : ∀ a, view'.references (g a) = view.references a) :
    Tracks x n view' (do return g (← p)) (do return g (← q)) (do return g (← p')) r s := by
  refine hp.bind (fun a => .pure fun hsmall => hsmall.of_subset ?_)
    fun _ _ _ _ hvalue hs₁ hlength => .pure hs₁ hlength (hvalue.map hrename)
  rw [hreferences]
  exact List.Subset.refl _

/-- Only what is read matters. -/
theorem congr {p₀ q₀ p₀' : Parser α} {r₀ s₀ : Reading} (h : Tracks x n view p q p' r s)
    (hp : p₀ r₀ = p r) (hq : q₀ r₀ = q r) (hp' : p₀' s₀ = p' s) :
    Tracks x n view p₀ q₀ p₀' r₀ s₀ := by
  intro a r₁ ha
  rw [hq, hp']
  exact h a r₁ (hp ▸ ha)

/-- What is done depends on the state. -/
theorem get {k l k' : Reading → Parser α} (h : Tracks x n view (k r) (l r) (k' s) r s) :
    Tracks x n view (get >>= k) (get >>= l) (get >>= k') r s :=
  h.congr (bind_get _ _) (bind_get _ _) (bind_get _ _)

/-- What is done depends on what is left. -/
theorem remaining {k l k' : List Char → Parser α}
    (h : Tracks x n view (k r.rest) (l r.rest) (k' s.rest) r s) :
    Tracks x n view (remaining >>= k) (remaining >>= l) (remaining >>= k') r s :=
  h.congr (bind_remaining _ _) (bind_remaining _ _) (bind_remaining _ _)

/-- Something else than what is left changes. -/
theorem modify (h : Shadows x r s) {k : Reading → Reading}
    (hk : ∀ r rest, k (r.withRest rest) = (k r).withRest rest)
    (hverbose : (k r).flags.verbose = true → 'x' ∈ x.source) :
    Tracks x r.rest.length .none (modify k) (modify k) (modify k) r s := by
  intro a r₁ ha _
  cases ha
  have hlength : (k r).rest.length ≤ r.rest.length := (congrArg (·.rest.length) (hk r r.rest)).le
  exact ⟨hlength, (), k s, rfl, rfl, h.change hk hverbose, .refl fun _ => rfl⟩

/-- A parser that reads the same from texts that lie beside each other. -/
theorem of_alongside {F : Bool → List Char → Option (α × List Char)} {e : SyntaxError}
    (hF : ∀ v, (v = true → 'x' ∈ x.source) → Alongside x.source x.offset (F v))
    (hp : ∀ r, p r = (F r.flags.verbose r.rest).elim (.error e) fun x => .ok (x.1, r.withRest x.2))
    (h : Shadows x r s) : Tracks x r.rest.length .none p p p r s := by
  intro a r₁ ha _
  have hrest := hF r.flags.verbose h.verbose _ _ h.beside
  have hr := hp r
  have hs := hp s
  rw [h.flags_eq] at hs
  generalize F r.flags.verbose r.rest = left, F r.flags.verbose s.rest = right at hrest hr hs
  cases hrest with
  | none =>
    rw [hr] at ha
    cases ha
  | @some y z hyz =>
    obtain ⟨b, rest⟩ := y
    obtain ⟨b', rest'⟩ := z
    obtain ⟨rfl, hleaves⟩ := hyz
    rw [hr] at ha
    cases ha
    exact ⟨hleaves.length_le, _, _, hr, hs, h.withRest hleaves.beside, .refl fun _ => rfl⟩

/-- A parser that reads quiet characters, in the same way whatever follows. -/
theorem of_framed (hp : ∀ a r₁, p r = .ok (a, r₁) →
      (∃ v, Framed p r r₁ v ∧ v r.flags.ignoreCase = a) ∧ ∀ f, view.rename f a = a)
    (h : Shadows x r s) : Tracks x r.rest.length view p p p r s := by
  intro a r₁ ha _
  obtain ⟨⟨v, ⟨w, hw, hrest, hr₁, hframe⟩, hv⟩, hsame⟩ := hp a r₁ ha
  have hbeside := h.beside
  rw [hrest] at hbeside
  obtain ⟨t, ht, hnext⟩ := hbeside.append fun c hc =>
    ⟨(isQuiet_iff.1 (hw c hc)).1.1, (isQuiet_iff.1 (hw c hc)).1.2.1⟩
  have hs : p s = .ok (a, s.withRest t) := by
    have hrun := hframe s t
    rw [← ht, h.flags_eq, hv] at hrun
    exact hrun
  have hlength : r₁.rest.length ≤ r.rest.length := by
    rw [hrest, List.length_append]
    omega
  rw [hr₁] at ha ⊢
  exact ⟨hlength, a, _, ha, hs, h.withRest hnext, .refl hsame⟩

end Tracks

/-! ## Characters, names and references -/

theorem skip_tracks (h : Shadows x r s) :
    Tracks x r.rest.length .none skip skip skip r s := by
  refine .of_alongside (e := .unclosedComment) (fun _ => gap_alongside) (fun r => ?_) h
  have herror {v : Bool} {cs : List Char} {mode : Skipping} {e : SyntaxError}
      (h : skipped v mode cs = .error e) : e = .unclosedComment := by
    fun_induction skipped v mode cs with
    | case4 => cases h
    | case9 =>
      cases h
      rfl
    | case10 => cases h
    | case1 _ ih | case2 _ _ _ _ ih | case3 _ _ _ _ _ ih | case5 _ _ ih | case6 _ ih
    | case7 _ _ ih | case8 _ _ _ _ ih => exact ih h
  unfold skip gap
  rw [bind_get]
  cases hskip : skipped r.flags.verbose .space r.rest with
  | ok rest => rfl
  | error e =>
    obtain rfl := herror hskip
    rfl

/-- Where white space and comments are skipped first, it is enough to look at what follows. -/
theorem Tracks.after_skip {p q p' : Parser α} (h : Shadows x r s)
    (hp : ∀ {r e}, skip r = .error e → p r = .error e)
    (hpskip : ∀ {r r₁}, skip r = .ok ((), r₁) → skip r₁ = .ok ((), r₁) → p r = p r₁)
    (hqskip : ∀ {r r₁}, skip r = .ok ((), r₁) → skip r₁ = .ok ((), r₁) → q r = q r₁)
    (hpskip' : ∀ {r r₁}, skip r = .ok ((), r₁) → skip r₁ = .ok ((), r₁) → p' r = p' r₁)
    (hnext : ∀ r₁ s₁, Shadows x r₁ s₁ → skip r₁ = .ok ((), r₁) → skip s₁ = .ok ((), s₁) →
      r₁.rest.length ≤ r.rest.length → Tracks x n view p q p' r₁ s₁) :
    Tracks x n view p q p' r s := by
  cases hr : skip r with
  | error e => exact .of_error (hp hr)
  | ok y =>
    obtain ⟨u, r₁⟩ := y
    obtain ⟨hlength, _, s₁, -, hs, hs₁, -⟩ :=
      skip_tracks h u r₁ hr fun index hindex => absurd hindex List.not_mem_nil
    exact (hnext r₁ s₁ hs₁ (skip_skip hr) (skip_skip hs) hlength).congr (hpskip hr (skip_skip hr))
      (hqskip hr (skip_skip hr)) (hpskip' hs (skip_skip hs))

theorem name_tracks {close : Char} (hclose : close ≠ '\\' ∧ close ≠ '[') (h : Shadows x r s) :
    Tracks x r.rest.length .none (name close) (name close) (name close) r s :=
  .of_alongside (fun _ _ => nameUpTo?_alongside hclose) (name_eq close) h

theorem repetition?_tracks (h : Shadows x r s) :
    Tracks x r.rest.length .none repetition? repetition? repetition? r s :=
  .of_alongside (fun _ hv => (sign?_alongside hv).optionally) repetition?_eq h

theorem accept_tracks (hc : c ≠ '\\' ∧ c ≠ '[') (h : Shadows x r s) :
    Tracks x r.rest.length .none (accept c) (accept c) (accept c) r s := by
  by_cases hhead : r.rest.head? = some c
  · obtain ⟨cs, hr⟩ := List.head?_eq_some_iff.1 hhead
    obtain ⟨t, hs, hnext⟩ := h.cons hr hc
    refine (Tracks.pure hnext ?_ (.refl fun _ => rfl)).congr (accept_of_cons hr)
      (accept_of_cons hr) (accept_of_cons hs)
    rw [hr]
    exact Nat.le_succ _
  · have hhead' : s.rest.head? ≠ some c := by
      rw [h.beside.head?_eq]
      exact hhead
    exact (Tracks.pure h le_rfl (.refl fun _ => rfl)).congr (accept_of_head?_ne hhead)
      (accept_of_head?_ne hhead) (accept_of_head?_ne hhead')

/-- A reference by name or number, after its sign. -/
def afterSign (backwards : Bool) (close : Char) : Parser Expr := do
  let id ← name close
  let r ← get
  let index ←
    if backwards then
      match decimal? id.toList with
      | some (n, []) => if n ≤ r.groups then pure (r.groups + 1 - n) else throw .unknownGroup
      | _ => throw .unknownName
    else
      match r.names.lookup id, decimal? id.toList with
      | some index, _ => pure index
      | none, some (n, []) => pure n
      | none, _ => throw .unknownName
  return .ref index r.flags.ignoreCase

theorem namedReference_backwards {close : Char} (hr : r.rest = '-' :: cs) :
    namedReference close r = afterSign true close (r.withRest cs) := by
  rw [namedReference, bind_remaining, hr]
  rfl

theorem namedReference_other {close : Char} (hr : r.rest.head? ≠ some '-') :
    namedReference close r = afterSign false close r := by
  rw [namedReference, bind_remaining]
  generalize r.rest = cs at hr
  split
  · exact absurd rfl hr
  · rfl

section Named

variable {close : Char} (hplainly : refersPlainly x.source = false)
  (hclose : close ≠ '\\' ∧ close ≠ '[')

include hplainly hclose

theorem afterSign_tracks (backwards : Bool) (h : Shadows x r s) :
    Tracks x r.rest.length .expr (afterSign backwards close) (afterSign backwards close)
      (afterSign backwards close) r s := by
  unfold afterSign
  refine (name_tracks hclose h).bind_same fun id r₁ s₁ hs₁ hlength => ?_
  refine .get ?_
  have hpure (index : Nat) : Tracks x r.rest.length .expr
      (pure (.ref index r₁.flags.ignoreCase)) (pure (.ref index r₁.flags.ignoreCase))
      (pure (.ref index r₁.flags.ignoreCase)) r₁ s₁ := .pure hs₁ hlength (.named hplainly _)
  rw [hs₁.groups_eq, hs₁.names_eq, hs₁.flags_eq]
  cases backwards with
  | true =>
    simp only [if_true]
    split
    · split_ifs
      · exact hpure _
      · exact .throw _
    · exact .throw _
  | false =>
    simp only [Bool.false_eq_true, if_false]
    split
    · exact hpure _
    · exact hpure _
    · exact .throw _

theorem namedReference_tracks (h : Shadows x r s) :
    Tracks x r.rest.length .expr (namedReference close) (namedReference close)
      (namedReference close) r s := by
  by_cases hhead : r.rest.head? = some '-'
  · obtain ⟨cs, hr⟩ := List.head?_eq_some_iff.1 hhead
    obtain ⟨t, hs, hnext⟩ := h.cons hr (by decide)
    refine ((afterSign_tracks hplainly hclose true hnext).mono ?_).congr
      (namedReference_backwards hr) (namedReference_backwards hr) (namedReference_backwards hs)
    rw [hr]
    exact Nat.le_succ _
  · have hhead' : s.rest.head? ≠ some '-' := by
      rw [h.beside.head?_eq]
      exact hhead
    exact (afterSign_tracks hplainly hclose false h).congr (namedReference_other hhead)
      (namedReference_other hhead) (namedReference_other hhead')

end Named

/-! ## Escapes and brackets -/

section Atoms

variable {g gRaised g' : Parser Expr} {d : Char}

/-- An atom that is no reference by number is not raised. -/
theorem raisedAtom_of_not_numbered (h : isNumbered r.rest = false) :
    raisedAtom x.offset x.raises g r = atom g r := by
  rw [raisedAtom, bind_remaining, h]
  exact congrFun (bind_pure (atom g)) r

/-- A reference by number. -/
theorem atom_reference_tracks (h : Shadows x r s) (hr : r.rest = '\\' :: d :: cs)
    (hd : isAsciiDigit d = true) :
    Tracks x cs.length .expr (atom g) (raisedAtom x.offset x.raises gRaised) (atom g') r s := by
  intro a r₁ ha hsmall
  have hread (g : Parser Expr) := (atom_escape (p := g) hr).trans (escape_digit rfl hd)
  rw [hread] at ha
  cases hn : decimal? (d :: cs) with
  | none =>
    rw [hn] at ha
    cases ha
  | some y =>
    obtain ⟨n, rest⟩ := y
    rw [hn] at ha
    cases ha
    have hbeside := h.beside
    rw [hr] at hbeside
    obtain ⟨inBracket, hstands, e, es, t, hs, he, ht, hrest⟩ :=
      hbeside.reference hd hn (hsmall n List.mem_cons_self)
    have hread' : atom g' s =
        .ok (.ref (if Position.isLeading d && !inBracket then n + x.offset else n)
          r.flags.ignoreCase, { s with rest := t, numbered := true }) := by
      rw [atom_escape hs, escape_digit rfl he, ht, ← h.flags_eq]
      rfl
    have hreadRaised := hread gRaised
    rw [hn] at hreadRaised
    have hraises : x.raises r.rest = !inBracket := by
      rw [hr]
      exact x.locates inBracket _ hstands
    have hnumbered : isNumbered r.rest = Position.isLeading d := by
      rw [hr]
      rfl
    have hshadows : Shadows x { r with rest := rest, numbered := true }
        { s with rest := t, numbered := true } := by
      refine ⟨?_, h.verbose, hrest⟩
      rw [h.eq]
      rfl
    refine ⟨?_, _, _, ?_, hread', hshadows, ?_⟩
    · have hdrop := (decimal?_of_takeWhile rfl hn).1
      rw [List.dropWhile_cons_of_pos hd] at hdrop
      show rest.length ≤ cs.length
      rw [hdrop]
      exact (List.dropWhile_suffix _).length_le
    · rw [raisedAtom, bind_remaining, parser_bind_of_ok hreadRaised, hnumbered, hraises]
      cases Position.isLeading d && !inBracket <;> rfl
    · refine ⟨rfl, fun hall hplainly => ?_⟩
      have hzero := (refersPlainly_escape hbeside.suffix hplainly).2
      have hlead := Position.isLeading_of_isAsciiDigit hd hzero
      rw [← hraises, hall, hlead]
      rfl

theorem mapReferences_of_assertionEscape? {e : Expr} {f : Nat → Nat}
    (h : assertionEscape? c = some e) : e.mapReferences f = e := by
  unfold assertionEscape? at h
  split at h <;> cases h <;> rfl

theorem IsSingle.mapReferences_eq {v : Bool → Expr} {b : Bool} {f : Nat → Nat} (h : IsSingle v) :
    (v b).mapReferences f = v b := by
  rcases h with ⟨c, hc⟩ | ⟨set, rfl⟩
  · obtain ⟨b', hb'⟩ := hc b
    rw [hb']
    rfl
  · rfl

/-- An escape that is no reference by number. -/
theorem atom_escape_tracks (h : Shadows x r s) (hr : r.rest = '\\' :: d :: cs)
    (hd : isAsciiDigit d = false) :
    Tracks x cs.length .expr (atom g) (raisedAtom x.offset x.raises gRaised) (atom g') r s := by
  have hbeside := h.beside
  rw [hr] at hbeside
  have hnumbered : isNumbered r.rest = false := by
    rw [hr]
    exact Position.isLeading_eq_false hd
  obtain ⟨t, hs, hnext⟩ := hbeside.escape (Position.isLeading_eq_false hd)
  have hshadows : Shadows x (r.withRest cs) (s.withRest t) := h.withRest hnext
  suffices hescape : Tracks x cs.length .expr escape escape escape
      (r.withRest (d :: cs)) (s.withRest (d :: t)) from
    hescape.congr (atom_escape hr) ((raisedAtom_of_not_numbered hnumbered).trans (atom_escape hr))
      (atom_escape hs)
  by_cases hname : d = 'k'
  · subst hname
    have hplainly : refersPlainly x.source = false := by
      by_contra hplainly
      exact (refersPlainly_escape hbeside.suffix (Bool.eq_true_of_not_eq_false hplainly)).1 rfl
    by_cases hnone : ∀ opener ∈ cs.head?, nameCloser? opener = none
    · exact .of_error (escape_unnamed rfl hnone)
    obtain ⟨opener, hopener, hcloser⟩ : ∃ opener ∈ cs.head?, nameCloser? opener ≠ none := by
      simpa using hnone
    obtain ⟨close, hclose⟩ := Option.ne_none_iff_exists'.1 hcloser
    obtain ⟨rest, rfl⟩ := List.head?_eq_some_iff.1 hopener
    have hne : (opener ≠ '\\' ∧ opener ≠ '[') ∧ close ≠ '\\' ∧ close ≠ '[' := by
      unfold nameCloser? at hclose
      split_ifs at hclose with hangle hquote
      · cases hclose
        exact ⟨hangle ▸ by decide, by decide⟩
      · cases hclose
        exact ⟨hquote ▸ by decide, by decide⟩
    obtain ⟨t', rfl, hrest⟩ := hnext.cons hne.1
    exact ((namedReference_tracks hplainly hne.2 (h.withRest hrest)).mono (Nat.le_succ _)).congr
      (escape_named hclose rfl) (escape_named hclose rfl) (escape_named hclose rfl)
  by_cases hbrace : d = 'b' ∧ cs.head? = some '\x7b'
  · obtain ⟨rfl, hhead⟩ := hbrace
    obtain ⟨rest, rfl⟩ := List.head?_eq_some_iff.1 hhead
    exact .of_error (escape_brace rfl)
  · have hbrace' : d = 'b' → t.head? ≠ some '\x7b' := by
      rw [hnext.head?_eq]
      exact fun hb hh => hbrace ⟨hb, hh⟩
    have hplain : Tracks x cs.length .expr (plainEscape d) (plainEscape d) (plainEscape d)
        (r.withRest cs) (s.withRest t) :=
      .of_framed (fun e r₁ he => ?_) hshadows
    · exact hplain.congr (escape_other rfl hd hname fun hb hh => hbrace ⟨hb, hh⟩)
        (escape_other rfl hd hname fun hb hh => hbrace ⟨hb, hh⟩) (escape_other rfl hd hname hbrace')
    · obtain ⟨v, hframed, hv, hkind⟩ := plainEscape_framed he
      refine ⟨⟨v, hframed, hv⟩, fun f => ?_⟩
      rcases hkind with ⟨hassert, -⟩ | hsingle
      · exact mapReferences_of_assertionEscape? hassert
      · rw [← hv]
        exact hsingle.mapReferences_eq

theorem atom_bracket_tracks (h : Shadows x r s) (hr : r.rest = '[' :: cs) :
    Tracks x cs.length .expr (atom g) (raisedAtom x.offset x.raises gRaised) (atom g') r s := by
  intro e r₁ he _
  have hread := he
  rw [atom_bracket hr] at hread
  obtain ⟨hr₁, ⟨w, hw, hafter⟩, -, -, set, rfl, hrun⟩ := bracket_run hread
  have hbeside := h.beside
  rw [hr] at hbeside
  obtain ⟨hs, hrest⟩ := hbeside.bracket hw hafter
  have hnumbered : isNumbered r.rest = false := by
    rw [hr]
    rfl
  have hrun' := hrun x.offset [] s (by simp) (by simp)
  rw [List.append_nil, List.append_nil, h.flags_eq] at hrun'
  refine ⟨?_, _, s.withRest (Position.run x.offset (.plain false) r₁.rest), ?_, ?_, ?_,
    .refl fun _ => rfl⟩
  · have hcs : cs = w ++ r₁.rest := hw
    rw [hcs, List.length_append]
    exact Nat.le_add_left _ _
  · rw [raisedAtom_of_not_numbered hnumbered, atom_bracket hr]
    exact hread
  · rw [atom_bracket hs]
    exact hrun'
  · rw [hr₁]
    exact h.withRest hrest

/-- An atom of one character. -/
theorem atom_single_tracks (h : Shadows x r s) (hr : r.rest = c :: cs)
    (hc : c ≠ '\\' ∧ c ≠ '[') {v : Flags → Expr}
    (hv : ∀ flags f, (v flags).mapReferences f = v flags)
    (heq : ∀ (p : Parser Expr) (s : Reading) rest, s.rest = c :: rest →
      atom p s = .ok (v s.flags, s.withRest rest)) :
    Tracks x cs.length .expr (atom g) (raisedAtom x.offset x.raises gRaised) (atom g') r s := by
  obtain ⟨t, hs, hnext⟩ := h.cons hr hc
  have hnumbered : isNumbered r.rest = false := by
    rw [hr]
    unfold isNumbered
    split
    · rename_i heq
      exact absurd (List.cons.inj heq).1 hc.1
    · rfl
  refine (Tracks.pure (r := r.withRest cs) (a := v r.flags) hnext le_rfl
    (.refl (hv r.flags))).congr (heq _ _ _ hr)
    ((raisedAtom_of_not_numbered hnumbered).trans (heq _ _ _ hr)) ?_
  rw [heq _ _ _ hs, h.flags_eq]
  rfl

end Atoms

end ModeStack.Regex
