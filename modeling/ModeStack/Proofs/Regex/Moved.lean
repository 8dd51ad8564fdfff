import ModeStack.Proofs.Regex.Escapes

/-!
# Expressions read in a context

What is read in a context is what is read alone, except for the numbers of groups, which are
raised. `Moves` says this of a parser that gives an expression. It holds of a group in its
parentheses if it holds of what is inside (`closed_sim`, `bounded_sim`, `captured_sim`), and of
references by name.
-/

namespace ModeStack.Regex

open ModeStack.Text
open ModeStack.Rule (Position raised isOrdinary isOrdinary_iff)

/-! ## The numbers of groups -/

/-- The start of the search and of the match play no part in an expression, and its groups have
numbers above `lo` and up to `hi`. -/
structure Fit (lo hi : Nat) (e : Expr) : Prop where
  isPlain : e.isPlain = true
  captured : ∀ i ∈ e.captured, lo < i ∧ i ≤ hi

namespace Fit

variable {lo hi : Nat} {e f : Expr}

theorem mono {lo' hi' : Nat} (h : Fit lo hi e) (hlo : lo' ≤ lo) (hhi : hi ≤ hi') :
    Fit lo' hi' e where
  isPlain := h.isPlain
  captured := fun i hi => ⟨lt_of_le_of_lt hlo (h.captured i hi).1, (h.captured i hi).2.trans hhi⟩

theorem leaf (hplain : e.isPlain = true) (hcaptured : e.captured = []) : Fit lo hi e where
  isPlain := hplain
  captured := by simp [hcaptured]

theorem seq (he : Fit lo hi e) (hf : Fit lo hi f) : Fit lo hi (.seq e f) where
  isPlain := by simp [Expr.isPlain, he.isPlain, hf.isPlain]
  captured := by
    intro i hi
    rcases List.mem_append.1 hi with hi | hi
    · exact he.captured i hi
    · exact hf.captured i hi

theorem alt (he : Fit lo hi e) (hf : Fit lo hi f) : Fit lo hi (.alt e f) :=
  ⟨(he.seq hf).isPlain, (he.seq hf).captured⟩

/-- A group takes the next number. -/
theorem group (h : Fit (lo + 1) hi e) (hlo : lo + 1 ≤ hi) :
    Fit lo hi (.group (lo + 1) e) where
  isPlain := h.isPlain
  captured := by
    rintro i (_ | ⟨_, hi⟩)
    · exact ⟨Nat.lt_succ_self lo, hlo⟩
    · exact ⟨(Nat.lt_succ_self lo).trans (h.captured i hi).1, (h.captured i hi).2⟩

theorem rep (h : Fit lo hi e) (least : Nat) (most : Option Nat) (greedy : Bool) :
    Fit lo hi (.rep e least most greedy) := ⟨h.isPlain, h.captured⟩

theorem look (h : Fit lo hi e) (d : Direction) (negated : Bool) :
    Fit lo hi (.look d negated e) := ⟨h.isPlain, h.captured⟩

theorem atomic (h : Fit lo hi e) : Fit lo hi (.atomic e) := ⟨h.isPlain, h.captured⟩

theorem ofSequence {es : List Expr} (h : ∀ e ∈ es, Fit lo hi e) : Fit lo hi (.ofSequence es) := by
  induction es with
  | nil => exact .leaf rfl rfl
  | cons e es ih =>
    have hrest := ih fun f hf => h f (List.mem_cons_of_mem _ hf)
    cases es with
    | nil => exact h e List.mem_cons_self
    | cons f fs => exact (h e List.mem_cons_self).seq hrest

theorem ofAlternatives {es : List Expr} (he : Fit lo hi e) (h : ∀ e ∈ es, Fit lo hi e) :
    Fit lo hi (.ofAlternatives e es) := by
  induction es generalizing e with
  | nil => exact he
  | cons f fs ih =>
    exact he.alt (ih (h f List.mem_cons_self) fun e he => h e (List.mem_cons_of_mem _ he))

end Fit

namespace Expr

variable {n : Nat}

theorem shift_eq_empty_iff {e : Expr} : e.shift n = .empty ↔ e = .empty := by
  cases e <;> simp [shift]

theorem isRepeatable_shift (e : Expr) : isRepeatable (e.shift n) = isRepeatable e := by
  cases e <;> rfl

theorem shift_ofSequence (es : List Expr) :
    (ofSequence es).shift n = ofSequence (es.map (shift n)) := by
  induction es with
  | nil => rfl
  | cons e es ih =>
    cases es with
    | nil => rfl
    | cons f fs => exact congrArg (seq (e.shift n)) ih

theorem shift_ofAlternatives (e : Expr) (es : List Expr) :
    (ofAlternatives e es).shift n = ofAlternatives (e.shift n) (es.map (shift n)) := by
  induction es generalizing e with
  | nil => rfl
  | cons f fs ih => exact congrArg (alt (e.shift n)) (ih f)

end Expr

/-- In every context an expression is read that is the one read alone, with the numbers of its
groups raised. -/
structure Moves (outer : List (Option Bool)) (r : Reading) (e : Expr) (r' : Reading)
    (value : Context → Expr) : Prop extends Advances outer r r' where
  fit : Fit r.groups r'.groups e
  value_eq : value = fun c => e.shift c.offset

/-- In every context several expressions are read. -/
structure MovesAll (outer : List (Option Bool)) (r : Reading) (es : List Expr) (r' : Reading)
    (value : Context → List Expr) : Prop extends Advances outer r r' where
  fit : ∀ e ∈ es, Fit r.groups r'.groups e
  value_eq : value = fun c => es.map (Expr.shift c.offset)

/-- An expression is read, and something is left out of what is left to read. -/
structure Takes (outer : List (Option Bool)) (r : Reading) (e : Expr) (r' : Reading)
    (value : Context → Expr) : Prop extends Moves outer r e r' value where
  length_lt : r'.rest.length < r.rest.length

section Moves

variable {outer outer' : List (Option Bool)} {r₀ r r' r₁ : Reading} {e : Expr}
  {value : Context → Expr}

theorem Moves.after (h : Moves outer r e r' value) (h₀ : Reaches r₀ r) :
    Moves outer r₀ e r' value where
  toAdvances := h₀.advances h.toAdvances
  fit := h.fit.mono h₀.groups_le le_rfl
  value_eq := h.value_eq

theorem MovesAll.after {es : List Expr} {values : Context → List Expr}
    (h : MovesAll outer r es r' values) (h₀ : Reaches r₀ r) : MovesAll outer r₀ es r' values where
  toAdvances := h₀.advances h.toAdvances
  fit := fun e he => (h.fit e he).mono h₀.groups_le le_rfl
  value_eq := h.value_eq

theorem Moves.takes (h : Moves outer r e r' value) (h₀ : Reaches r₀ r)
    (hlength : r.rest.length < r₀.rest.length) : Takes outer r₀ e r' value :=
  ⟨h.after h₀, h.length_le.trans_lt hlength⟩

theorem Moves.before (h : Moves outer' r e r' value) (h₁ : Advances outer r' r₁) :
    Moves outer r e r₁ value where
  toAdvances := h.toReaches.advances h₁
  fit := h.fit.mono le_rfl h₁.groups_le
  value_eq := h.value_eq

end Moves

/-- Where a part of the parser goes on for at least one round, it does so in every context. -/
theorem exists_more {rounds : Nat} {rounds' : Context → Nat} (hle : ∀ c, rounds + 1 ≤ rounds' c) :
    ∃ more : Context → Nat, rounds' = (fun c => more c + 1) ∧ ∀ c, rounds ≤ more c := by
  refine ⟨fun c => rounds' c - 1, funext fun c => ?_, fun c => Nat.le_sub_one_of_lt (hle c)⟩
  exact (Nat.succ_pred_eq_of_pos (Nat.lt_of_lt_of_le (Nat.succ_pos _) (hle c))).symm

/-! ## Groups -/

variable {outer outer' : List (Option Bool)} {r : Reading} {inner₀ : Parser Expr}
  {inner : Context → Parser Expr}

theorem closeGroup_close {s s₁ : Reading} {rest : List Char} (hskip : skip s = .ok ((), s₁))
    (hs : s₁.rest = ')' :: rest) : closeGroup s = .ok ((), s₁.withRest rest) := by
  unfold closeGroup
  rw [parser_bind_of_ok hskip, bind_remaining, hs]
  rfl

theorem closeGroup_other {s s₁ : Reading} (hskip : skip s = .ok ((), s₁))
    (hs : s₁.rest.head? ≠ some ')') : closeGroup s = .error .unclosedGroup := by
  unfold closeGroup
  rw [parser_bind_of_ok hskip, bind_remaining]
  generalize s₁.rest = cs at hs
  split
  · exact absurd rfl hs
  · rfl

/-- A group is closed in every context. What follows may be read in another mode. -/
theorem closeGroup_sim {mode : Option Bool} (hr : Alone (mode :: outer) r) :
    Sim closeGroup (fun _ => closeGroup) r fun _ r' _ => Reaches r r' ∧ r'.flags = r.flags ∧
      calm .outside (mode.getD r.flags.verbose) outer r'.rest = true := by
  have hskip := skip_of_uncommented hr.uncommented
  by_cases hclose : r.afterGap.rest.head? = some ')'
  · obtain ⟨rest, hrest⟩ := List.head?_eq_some_iff.1 hclose
    have halone := hr.afterGap.alone
    rw [Alone, hrest, calm_close] at halone
    have hreaches : Reaches r.afterGap (r.afterGap.withRest rest) :=
      reaches_withRest (w := [')']) (List.all_eq_true.1 rfl) hrest
    refine .of_ok fun a r' ha => ?_
    rw [closeGroup_close hskip hrest] at ha
    cases ha
    refine ⟨fun _ => (), fun ctx => ?_, hr.afterGap.toReaches.trans hreaches, rfl, halone⟩
    refine closeGroup_close (skip_place hr.uncommented ctx) ?_
    rw [Context.rest_place, hrest, Context.put_ordinary (by decide)]
    rfl
  · exact .of_error (closeGroup_other hskip hclose)

/-- The inside of a group at whose end the flags are kept. -/
theorem closed_sim (h : Sim inner₀ inner r (Moves (none :: outer) r)) :
    Sim (closed inner₀) (fun c => closed (inner c)) r (Moves outer r) := by
  unfold closed
  refine h.bind fun e r₁ v hv => (closeGroup_sim hv.alone).bind fun _ r₂ _ hr₂ => .pure ?_
  obtain ⟨hreaches, hflags, hcalm⟩ := hr₂
  refine hv.before ⟨hreaches, ?_⟩
  rw [Alone, hflags]
  exact hcalm

/-- The inside of a group after which certain flags are in force. -/
def bounded (p : Parser Expr) (flags : Flags) : Parser Expr := do
  let e ← closed p
  modify fun r => { r with flags := flags }
  return e

/-- A group that starts at `r₀`, is read from `r` on, and sets flags for its inside. -/
theorem bounded_sim {r₀ : Reading} (flags : Flags)
    (h : Sim inner₀ inner r (Moves (some flags.verbose :: outer) r))
    (hlength : r.rest.length < r₀.rest.length) (hgroups : r₀.groups = r.groups)
    (hkeeps : ∀ r', Keeps r r' → Keeps r₀ { r' with flags := flags }) :
    Sim (bounded inner₀ flags) (fun c => bounded (inner c) flags) r (Takes outer r₀) := by
  unfold bounded closed
  simp only [bind_assoc, pure_bind]
  refine h.bind fun e r₁ v hv => (closeGroup_sim hv.alone).bind fun _ r₂ _ hr₂ => .of_ok ?_
  obtain ⟨hreaches, -, hcalm⟩ := hr₂
  intro a r' ha
  cases ha
  have hlt := (hreaches.length_le.trans hv.length_le).trans_lt hlength
  refine ⟨v, fun c => rfl, ⟨⟨⟨⟨hlt.le, ?_, hkeeps _ (hv.keeps.trans hreaches.keeps)⟩, hcalm⟩, ?_,
    hv.value_eq⟩, hlt⟩⟩
  · rw [hgroups]
    exact hv.groups_le.trans hreaches.groups_le
  · rw [hgroups]
    exact hv.fit.mono le_rfl hreaches.groups_le

/-- The state after a group has been opened. -/
def Reading.opened (r : Reading) : Reading := { r with groups := r.groups + 1 }

theorem openGroup_sim :
    Sim openGroup (fun _ => openGroup) r fun index r' v =>
      index = r.groups + 1 ∧ r' = r.opened ∧ v = fun c => r.groups + 1 + c.offset := by
  refine .of_ok fun a r' ha => ?_
  cases ha
  refine ⟨fun c => r.groups + 1 + c.offset, fun c => ?_, rfl, rfl, rfl⟩
  have hgroups : (c.place r).groups + 1 = r.groups + 1 + c.offset :=
    Nat.add_right_comm r.groups c.offset 1
  show Except.ok ((c.place r).groups + 1, { c.place r with groups := (c.place r).groups + 1 }) = _
  rw [hgroups]
  rfl

/-- The inside of a group that captures, after it has been opened. -/
theorem captured_sim {r₁ : Reading} (h₁ : Reaches r.opened r₁)
    (h : Sim inner₀ inner r₁ (Moves (none :: outer) r₁)) :
    Sim (do return .group (r.groups + 1) (← closed inner₀))
      (fun c => do return .group (r.groups + 1 + c.offset) (← closed (inner c))) r₁
      (Moves outer r) := by
  have hopened : Reaches r r.opened := ⟨le_rfl, Nat.le_succ _, .refl r⟩
  refine (closed_sim h).bind fun e r₂ v hv => .pure ?_
  refine ⟨(hopened.trans h₁).advances hv.toAdvances, ?_, ?_⟩
  · exact (hv.fit.mono h₁.groups_le le_rfl).group (h₁.groups_le.trans hv.groups_le)
  · rw [hv.value_eq]
    rfl

variable (h : ∀ outer r, Alone outer r → Sim inner₀ inner r (Moves outer r))

include h in
theorem namedGroup_sim {close : Char} (hquiet : isQuiet close = true)
    (hr : Alone (none :: outer) r) :
    Sim (namedGroup inner₀ close) (fun c => namedGroup (inner c) close) r (Moves outer r) := by
  unfold namedGroup
  refine openGroup_sim.bind fun index r₁ v hv => ?_
  obtain ⟨rfl, rfl, rfl⟩ := hv
  have hopened : Alone (none :: outer) r.opened := hr
  refine (name_sim (isOrdinary_of_isQuiet hquiet) (fun cs => calm_quiet hquiet) hopened).bind
    fun id r₂ v hv => ?_
  obtain ⟨⟨hr₂, -, -⟩, rfl⟩ := hv
  -- The name is kept, with the number the group has in the context.
  let r₃ : Reading := { r₂ with names := (id, r.groups + 1) :: r₂.names }
  have hr₃ : Alone (none :: outer) r₃ := hr₂.alone
  have hreaches : Reaches r.opened r₃ := ⟨hr₂.length_le, hr₂.groups_le, hr₂.keeps⟩
  refine (captured_sim hreaches (h _ r₃ hr₃)).congr ?_ fun c => ?_
  · exact bind_modify _ _ _
  · exact bind_modify _ _ _

theorem lookup_place {id : String} {index : Nat} (h : r.names.lookup id = some index)
    (c : Context) : (c.place r).names.lookup id = some (index + c.offset) := by
  show (r.names.map (fun x : String × Nat => (x.1, x.2 + c.offset)) ++ c.names).lookup id = _
  generalize r.names = names at h
  induction names with
  | nil => simp at h
  | cons x names ih =>
    obtain ⟨id', index'⟩ := x
    simp only [List.map_cons, List.cons_append, List.lookup_cons] at h ⊢
    cases hid : id == id' with
    | true =>
      rw [hid] at h
      exact congrArg (fun index => some (index + c.offset)) (Option.some.inj h)
    | false =>
      rw [hid] at h
      exact ih h

/-- A name means the same group in every context, under the number it has there. -/
theorem referTo_sim (hr : Alone outer r) (id : String) :
    Sim (referTo id) (fun _ => referTo id) r (Moves outer r) := by
  refine .of_ok fun a r' ha => ?_
  rw [referTo, bind_get] at ha
  cases hid : r.names.lookup id with
  | none =>
    rw [hid] at ha
    cases ha
  | some index =>
    rw [hid] at ha
    cases ha
    refine ⟨fun c => .ref (index + c.offset) r.flags.ignoreCase, fun c => ?_, .refl hr,
      .leaf rfl rfl, rfl⟩
    rw [referTo, bind_get, lookup_place hid c]
    rfl

/-- A reference by name reads the same in every context. -/
theorem namedReference_sim {close : Char} (hord : isOrdinary close = true)
    (hclose : ∀ cs, calm .outside r.flags.verbose outer (close :: cs) =
      calm .outside r.flags.verbose outer' cs)
    (hr : Alone outer r) (hnamed : isNamed r.rest = true) :
    Sim (namedReference close) (fun _ => namedReference close) r (Moves outer' r) := by
  have hname : Sim (name close >>= referTo) (fun _ => name close >>= referTo) r
      (Moves outer' r) := by
    refine (name_sim hord hclose hr).bind fun id r₁ v hv => ?_
    obtain ⟨⟨hr₁, -, -⟩, rfl⟩ := hv
    exact (referTo_sim hr₁.alone id).mono fun a r₂ v hv => hv.after hr₁.toReaches
  refine hname.congr (namedReference_of_isNamed hnamed) fun c => namedReference_of_isNamed ?_
  rw [Context.rest_place, isNamed,
    (c.takeWhile_put false r.rest isOrdinary_of_isNameChar (by decide)).1]
  exact hnamed

end ModeStack.Regex
