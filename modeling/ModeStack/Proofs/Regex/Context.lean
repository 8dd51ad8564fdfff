import ModeStack.Proofs.Regex.Shift
import ModeStack.Proofs.Rule.Raised

/-!
# A text read inside a longer pattern

The text of a pattern may be read alone, or with its references raised, inside a longer pattern:
after other groups and before a closing parenthesis, under the same flags. A `Context` is such a
place, and `Context.place` puts a state of the parser there.

`Sim p₀ p r Q` relates the two ways to read. Where `p₀` succeeds alone, `p` does the same in every
context or refuses it, and what it has accepted in one context it accepts in every roomier one.
The rules for `Sim` follow the ways in which parsers are put together.
-/

namespace ModeStack.Regex

open ModeStack.Text
open ModeStack.Rule (raised)

/-! ## Running parsers -/

/-- The state with something else left to read. -/
def Reading.withRest (r : Reading) (rest : List Char) : Reading := { r with rest := rest }

section Running

variable {α β : Type} {r r₁ : Reading}

theorem exists_of_parser_bind {p : Parser α} {f : α → Parser β} {b : β} {r r' : Reading}
    (h : (p >>= f) r = .ok (b, r')) : ∃ a r₁, p r = .ok (a, r₁) ∧ f a r₁ = .ok (b, r') := by
  obtain ⟨⟨a, r₁⟩, ha, hb⟩ := exists_of_bind_eq_ok h
  exact ⟨a, r₁, ha, hb⟩

theorem parser_bind_of_ok {p : Parser α} {f : α → Parser β} {a : α} {r r₁ : Reading}
    (h : p r = .ok (a, r₁)) : (p >>= f) r = f a r₁ := by
  show (p r >>= fun x => f x.1 x.2) = _
  rw [h]
  rfl

theorem parser_bind_of_error {p : Parser α} {f : α → Parser β} {e : SyntaxError} {r : Reading}
    (h : p r = .error e) : (p >>= f) r = .error e := by
  show (p r >>= fun x => f x.1 x.2) = _
  rw [h]
  rfl

theorem pure_apply (a : α) (r : Reading) : (pure a : Parser α) r = .ok (a, r) := rfl

theorem throw_apply (e : SyntaxError) (r : Reading) : (throw e : Parser α) r = .error e := rfl

theorem bind_get (f : Reading → Parser β) (r : Reading) : (get >>= f) r = f r r := rfl

theorem bind_remaining (f : List Char → Parser β) (r : Reading) :
    (remaining >>= f) r = f r.rest r := rfl

theorem bind_continueAt (rest : List Char) (f : Unit → Parser β) (r : Reading) :
    (continueAt rest >>= f) r = f () (r.withRest rest) := rfl

theorem bind_modify (g : Reading → Reading) (f : Unit → Parser β) (r : Reading) :
    (modify g >>= f) r = f () (g r) := rfl

theorem bind_throw (e : SyntaxError) (f : α → Parser β) (r : Reading) :
    ((throw e : Parser α) >>= f) r = .error e := rfl

end Running

/-! ## Contexts -/

/-- A place inside a longer pattern, in front of a closing parenthesis. -/
structure Context where
  /-- The number of groups opened before. -/
  offset : Nat
  /-- The names of groups before. -/
  names : List (String × Nat)
  /-- Whether a group was referred to as `\N` before. -/
  numbered : Bool
  /-- How deep groups may still nest. -/
  depth : Nat
  /-- What follows the parenthesis. -/
  after : List Char

namespace Context

/-- What follows the text. -/
def tail (c : Context) : List Char := ')' :: c.after

/-- The state in which a text is read in a context, from the state in which it is read alone. -/
def place (c : Context) (r : Reading) : Reading where
  rest := raised c.offset r.rest ++ c.tail
  flags := r.flags
  groups := r.groups + c.offset
  names := r.names.map (fun (id, index) => (id, index + c.offset)) ++ c.names
  numbered := r.numbered || c.numbered

/-- The first context is like the second but leaves more room. -/
structure Roomier (c' c : Context) : Prop where
  offset : c'.offset ≤ c.offset
  names : c.names = [] → c'.names = []
  numbered : c.numbered = false → c'.numbered = false
  depth : c.depth ≤ c'.depth

end Context

/-! ## Reading in every context -/

/-- In every context the parser reads the text between two states and gives a value, or refuses
it. What it does not refuse in one context, it does not refuse in a roomier one. -/
structure Reads {α : Type} (p : Context → Parser α) (r r' : Reading) (value : Context → α) :
    Prop where
  run : ∀ c, p c (c.place r) = .ok (value c, c.place r') ∨ ∃ e, p c (c.place r) = .error e
  mono : ∀ {c c'}, c'.Roomier c → p c (c.place r) = .ok (value c, c.place r') →
    p c' (c'.place r) = .ok (value c', c'.place r')

/-- Where the first parser succeeds, the second reads the same text in every context, with a
value as stated. -/
def Sim {α : Type} (p₀ : Parser α) (p : Context → Parser α) (r : Reading)
    (Q : α → Reading → (Context → α) → Prop) : Prop :=
  ∀ a r', p₀ r = .ok (a, r') → ∃ value, Reads p r r' value ∧ Q a r' value

section Rules

variable {α β : Type} {p : Context → Parser α} {q : Context → α → Parser β}
  {r r₁ r₂ : Reading} {v : Context → α} {w : Context → β}

namespace Reads

theorem of_ok (h : ∀ c, p c (c.place r) = .ok (v c, c.place r₁)) : Reads p r r₁ v where
  run := fun c => .inl (h c)
  mono := fun _ _ => h _

theorem bind (hp : Reads p r r₁ v) (hq : Reads (fun c => q c (v c)) r₁ r₂ w) :
    Reads (fun c => p c >>= q c) r r₂ w where
  run := by
    intro c
    rcases hp.run c with hok | ⟨e, herror⟩
    · rw [parser_bind_of_ok hok]
      exact hq.run c
    · exact .inr ⟨e, parser_bind_of_error herror⟩
  mono := by
    intro c c' hc hok
    rcases hp.run c with hokp | ⟨e, herror⟩
    · rw [parser_bind_of_ok hokp] at hok
      rw [parser_bind_of_ok (hp.mono hc hokp)]
      exact hq.mono hc hok
    · rw [parser_bind_of_error herror] at hok
      cases hok

/-- Only what is read matters. -/
theorem congr {p' : Context → Parser α} (hp : Reads p r r₁ v) {r' : Reading}
    (h : ∀ c, p' c (c.place r') = p c (c.place r)) : Reads p' r' r₁ v where
  run := fun c => by rw [h c]; exact hp.run c
  mono := fun hc hok => by rw [h] at hok ⊢; exact hp.mono hc hok

end Reads

namespace Sim

variable {p₀ p₀' : Parser α} {p' : Context → Parser α} {q₀ : α → Parser β}
  {Q Q' : α → Reading → (Context → α) → Prop} {R : β → Reading → (Context → β) → Prop}

theorem mono (h : Sim p₀ p r Q) (hQ : ∀ a r' v, Q a r' v → Q' a r' v) : Sim p₀ p r Q' := by
  intro a r' ha
  obtain ⟨v, hv, hq⟩ := h a r' ha
  exact ⟨v, hv, hQ a r' v hq⟩

theorem pure {a : α} (h : Q a r v) : Sim (pure a) (fun c => pure (v c)) r Q := by
  intro a' r' ha
  cases ha
  exact ⟨v, .of_ok fun c => rfl, h⟩

theorem bind (hp : Sim p₀ p r Q)
    (hq : ∀ a r₁ v, Q a r₁ v → Sim (q₀ a) (fun c => q c (v c)) r₁ R) :
    Sim (p₀ >>= q₀) (fun c => p c >>= q c) r R := by
  intro b r₂ hb
  obtain ⟨a, r₁, ha, hb⟩ := exists_of_parser_bind hb
  obtain ⟨v, hv, hQ⟩ := hp a r₁ ha
  obtain ⟨w, hw, hR⟩ := hq a r₁ v hQ b r₂ hb
  exact ⟨w, hv.bind hw, hR⟩

/-- Only what is read matters. -/
theorem congr {r' : Reading} (h : Sim p₀ p r Q) (h₀ : p₀' r' = p₀ r)
    (hc : ∀ c, p' c (c.place r') = p c (c.place r)) : Sim p₀' p' r' Q := by
  intro a r₁ ha
  rw [h₀] at ha
  obtain ⟨v, hv, hq⟩ := h a r₁ ha
  exact ⟨v, hv.congr hc, hq⟩

/-- One thing is read in every context. -/
theorem of_ok (h : ∀ a r', p₀ r = .ok (a, r') →
    ∃ v, (∀ c, p c (c.place r) = .ok (v c, c.place r')) ∧ Q a r' v) : Sim p₀ p r Q := by
  intro a r' ha
  obtain ⟨v, hv, hq⟩ := h a r' ha
  exact ⟨v, .of_ok hv, hq⟩

/-- A parser that always fails alone. -/
theorem of_error {e : SyntaxError} (h : p₀ r = .error e) : Sim p₀ p r Q := by
  intro a r' ha
  rw [h] at ha
  cases ha

/-- A check that is passed alone and does not get stricter in a roomier context. -/
theorem check {refused₀ : Prop} {refused : Context → Prop} [Decidable refused₀]
    [∀ c, Decidable (refused c)] {fail₀ : Parser α} {fail : Context → Parser α}
    (hfail₀ : ∃ e, fail₀ r = .error e) (hfail : ∀ c, ∃ e, fail c (c.place r) = .error e)
    (hmono : ∀ {c c'}, c'.Roomier c → refused c' → refused c)
    (h : ¬ refused₀ → Sim p₀ p r Q) :
    Sim (if refused₀ then fail₀ else p₀) (fun c => if refused c then fail c else p c) r Q := by
  intro a r' ha
  obtain ⟨e₀, he₀⟩ := hfail₀
  split_ifs at ha with hr
  · rw [he₀] at ha
    cases ha
  · obtain ⟨v, hv, hq⟩ := h hr a r' ha
    refine ⟨v, ⟨fun c => ?_, fun {c c'} hc hok => ?_⟩, hq⟩
    · split_ifs
      · exact .inr (hfail c)
      · exact hv.run c
    · split_ifs at hok with hrc
      · obtain ⟨e, he⟩ := hfail c
        rw [he] at hok
        cases hok
      · rw [if_neg fun hrc' => hrc (hmono hc hrc')]
        exact hv.mono hc hok

end Sim

end Rules

end ModeStack.Regex
