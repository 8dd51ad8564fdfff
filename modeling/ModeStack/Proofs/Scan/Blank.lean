import ModeStack.Proofs.Scan.Stream

/-!
# A mode that opens and closes everywhere

`blank` has one child without patterns of its own. Such a mode opens at every position and ends
at every position, so that each character takes three steps: the child opens, its end is
suppressed and the character passed, and the child ends behind it. `IsBlank` says this of a
grammar by what the steps look at, and the three step lemmas hold for any text.
-/

namespace ModeStack.Grammar

/-- A root whose only child has no patterns. -/
def blank : Draft where
  name := "blank"
  definitions := #[{ scope := some "blank" }, { contains := [.mode 0] }]
  root := some 1

/-! ## What a step looks at -/

/-- What a step looks at in a mode. -/
structure Outline where
  rules : List Rule
  search : Option (Regex.Plan × List Nat)
  closing : Option Regex.Plan
  guard : Guard
  keywords : Option Keyword.Table
  flags : Flags
  starts : Option Nat
  deriving DecidableEq

/-- The outline of a mode. -/
def Mode.outline (m : Mode) : Outline where
  rules := m.rules.clauses.toList.map (·.rule)
  search := m.rules.full.map fun c => (c.regex.plan, c.wrappers)
  closing := m.closing.map (·.regex.plan)
  guard := m.guard
  keywords := m.keywords
  flags := m.flags
  starts := m.starts

/-- Matches at every position and takes nothing. -/
def anywhere : Regex.Expr := .alt (.assert .notWordEdge) (.assert .wordEdge)

/-- The outline of a mode with one rule, which matches at every position. -/
def outlineAnywhere (rule : Rule) (closing : Option Regex.Plan) : Outline :=
  ⟨[rule], some (.direct (.group 1 anywhere), [1]), closing, .always, none, {}, none⟩

/-- A grammar whose root opens its child everywhere, and whose child ends everywhere. -/
structure IsBlank (g : Grammar) : Prop where
  root : (g.mode 0).outline = outlineAnywhere (.opening 1) none
  child : (g.mode 1).outline = outlineAnywhere .ending (some (.direct anywhere))

theorem blank_builds : ∃ g, blank.build = .ok g ∧ g.SearchesOnward ∧ g.IsBlank := by
  obtain ⟨g, hbuild, hforward, hroot, hchild⟩ := blank.exists_built
    (fun g => g.isForward = true ∧
      (g.mode 0).outline = outlineAnywhere (.opening 1) none ∧
      (g.mode 1).outline = outlineAnywhere .ending (some (.direct anywhere)))
    (by decide +kernel)
  exact ⟨g, hbuild, searchesOnward_of_isForward hforward, hroot, hchild⟩

/-! ## Searches that match at once -/

theorem ends_anywhere (t : Text) (origin : Nat) (h : Regex.Hit) :
    anywhere.ends t origin h = [h] := by
  simp only [anywhere, Regex.Expr.ends, Regex.Assertion.holds]
  by_cases hedge : Regex.wordBefore t h.pos = Regex.wordAt t h.pos
  · simp [hedge, Regex.distinct]
  · simp [hedge, Regex.distinct]

/-- An expression that matches where the search starts is found there. -/
theorem search_of_ends {re : Regex} {e : Regex.Expr} {hit : Regex.Hit} {t : Text} {pos : Nat}
    (hplan : re.plan = .direct e) (hends : e.ends t pos { pos := pos } = [hit])
    (hpos : pos ≤ t.size) : re.search t pos = some (pos, hit) := by
  have hrounds : t.size + 1 - pos = t.size - pos + 1 := by omega
  simp [Regex.search, hrounds, Regex.searchFrom, hplan, Regex.Plan.run, hends, Regex.fromEach,
    Regex.accepted]

theorem find_anywhere {m : Mode} {rule : Rule} {closing : Option Regex.Plan}
    (hm : m.outline = outlineAnywhere rule closing) {t : Text} {pos : Nat}
    (hpos : pos ≤ t.size) : m.rules.find t pos none = some ⟨rule, 0, ⟨pos, pos⟩⟩ := by
  have hrules := congrArg Outline.rules hm
  have hsearch := congrArg Outline.search hm
  simp only [Mode.outline, outlineAnywhere] at hrules hsearch
  obtain ⟨c, hc, hcombined⟩ := Option.map_eq_some_iff.1 hsearch
  simp only [Prod.mk.injEq] at hcombined
  obtain ⟨clause, hclauses, rfl⟩ := List.map_eq_singleton_iff.1 hrules
  have hfirst : m.rules.clauses[0]? = some clause := by
    rw [← Array.getElem?_toList, hclauses]
    rfl
  have hends : (Regex.Expr.group 1 anywhere).ends t pos { pos := pos } =
      [Regex.Hit.capture { pos := pos } 1 pos] := by
    simp [Regex.Expr.ends, ends_anywhere]
  have hfound := search_of_ends hcombined.1 hends hpos
  simp [Rule.RuleSet.find, Rule.RuleSet.search, Rule.RuleSet.from?, hc, Rule.Combined.search,
    hfound, hcombined.2, Rule.Combined.winner?, Regex.Hit.captureOf?, Regex.Hit.capture, hfirst]

theorem matchAt_anywhere {p : Pattern} (hp : p.regex.plan = .direct anywhere) {t : Text}
    {pos : Nat} (hpos : pos ≤ t.size) : p.matchAt t pos = some pos := by
  have hfound := search_of_ends hp (ends_anywhere t pos { pos := pos }) hpos
  simp [Pattern.matchAt, Pattern.find, Regex.find, hfound, Regex.Hit.captureOf?]

end ModeStack.Grammar

namespace ModeStack.Scan

open ModeStack.Grammar

variable {scan : Scan} {s : State} {i : Nat}

/-! ## Three steps for a character -/

/-- The child opens, and nothing is emitted. -/
theorem blank_step_open (hb : scan.grammar.IsBlank) (hstack : s.stack = [0])
    (hcur : s.cursor = i) (hflushed : s.flushed = i) (hres : s.resume = none)
    (hi : i ≤ scan.text.size) :
    scan.step s = scan.countStall
      { s with
        stack := [1, 0], last := some ⟨true, i⟩,
        score := s.score.addMode (scan.grammar.mode 1).relevance } i := by
  have hfind := find_anywhere hb.root hi
  have hguard := congrArg Outline.guard hb.child
  have hflags := congrArg Outline.flags hb.child
  simp only [Mode.outline, outlineAnywhere] at hguard hflags
  simp [step, top, hstack, hcur, hres, hfind, isVacuousEnd, act, openMode, hguard, hflags,
    Guard.allows, enter, flush, hflushed, isOpening]

/-- The empty end where the child has opened is suppressed, and the character passed. -/
theorem blank_step_pass (hb : scan.grammar.IsBlank) (hstack : s.stack = [1, 0])
    (hcur : s.cursor = i) (hlast : s.last = some ⟨true, i⟩) (hres : s.resume = none)
    (hi : i < scan.text.size) : scan.step s = { s with cursor := i + 1 } := by
  have hfind := find_anywhere hb.child hi.le
  simp [step, top, hstack, hcur, hres, hfind, isVacuousEnd, hlast, passChar, Text.next?, hi]

/-- Behind the character the child ends, and its text is emitted. -/
theorem blank_step_close (hb : scan.grammar.IsBlank) (hstack : s.stack = [1, 0])
    (hcur : s.cursor = i + 1) (hflushed : s.flushed = i) (hlast : s.last = some ⟨true, i⟩)
    (hres : s.resume = none) (hi : i < scan.text.size) :
    scan.step s = scan.countStall
      { s with
        stack := [0], flushed := i + 1, last := some ⟨false, i + 1⟩,
        queue := s.queue ++ [⟨scan.scopeOf [1, 0], ⟨i, i + 1⟩⟩] } (i + 1) := by
  have hfind := find_anywhere hb.child (show i + 1 ≤ scan.text.size from hi)
  have hflags := congrArg Outline.flags hb.child
  have hclosing := congrArg Outline.closing hb.child
  have hkeywords := congrArg Outline.keywords hb.child
  have hstarts := congrArg Outline.starts hb.child
  simp only [Mode.outline, outlineAnywhere] at hflags hclosing hkeywords hstarts
  obtain ⟨p, hp, hplan⟩ := Option.map_eq_some_iff.1 hclosing
  have hmatch := matchAt_anywhere hplan (show i + 1 ≤ scan.text.size from hi)
  simp [step, top, hstack, hcur, hres, hfind, isVacuousEnd, hlast, act, closeModes, ending?, hp,
    hmatch, outermost, leave, hflags, flush, hflushed, hkeywords, startNext, hstarts, isOpening]

end ModeStack.Scan
