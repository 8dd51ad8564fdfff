import ModeStack.Proofs.Keyword.Written

/-!
# Folding a table

A table compares words in lower case if this is decided when it is written, or because it is
folded for a grammar that ignores case. The first goes through the words as they were written, the
second through the words of a finished table, which are in no order that means anything.

If no two words have the same lower case, both ways lead to tables that find the same
(`folded_agrees`): of the words that are written, those with a lower case are one word, written
again and again, so the last entry for the lower case is the last one for that word
(`lookup_insertAll_lowercase`).
-/

namespace ModeStack.Keyword

open ModeStack.Text

/-- The tables find the same for every word, and count it under the same key. -/
structure Table.Agrees (table table' : Table) : Prop where
  ignoreCase_eq : table'.ignoreCase = table.ignoreCase
  classify_eq : ∀ word, table'.classify word = table.classify word

/-- The same words with the same entries, kept in another order. -/
structure Table.Reordered (table table' : Table) : Prop where
  entries_perm : table'.entries.Perm table.entries
  classes_eq : table'.classes = table.classes
  ignoreCase_eq : table'.ignoreCase = table.ignoreCase

theorem Table.Agrees.refl (table : Table) : table.Agrees table := ⟨rfl, fun _ => rfl⟩

theorem Table.Agrees.key_eq {table table' : Table} (h : table.Agrees table') (word : String) :
    table'.key word = table.key word := by
  unfold key
  rw [h.ignoreCase_eq]

/-! ## Words in any order -/

section

variable {entries entries' : List (String × Entry)}

/-- The entry of a word that occurs once is found. -/
theorem mem_iff_lookup_eq_some (hnodup : (entries.map Prod.fst).Nodup) (word : String) (entry : Entry) :
    (word, entry) ∈ entries ↔ entries.lookup word = some entry := by
  induction entries with
  | nil => simp
  | cons first entries ih =>
    obtain ⟨w, e⟩ := first
    rw [List.map_cons, List.nodup_cons] at hnodup
    obtain ⟨hnew, hnodup⟩ := hnodup
    rw [List.mem_cons, List.lookup_cons]
    by_cases hword : word = w
    · subst hword
      have hnot : (word, entry) ∉ entries := by
        intro hmem
        have hkey : word ∈ entries.map Prod.fst := List.mem_map_of_mem (f := Prod.fst) hmem
        exact hnew hkey
      simp [hnot, eq_comm]
    · simp [hword, beq_eq_false_iff_ne.2 hword, ih hnodup]

/-- Setting words that differ finds the entries that they had. -/
theorem lookup_insertAll_of_nodup (hnodup : (entries.map Prod.fst).Nodup) (word : String) :
    (insertAll false entries).lookup word = entries.lookup word := by
  have hreverse : (entries.reverse.map Prod.fst).Nodup := by
    rw [List.map_reverse]
    exact List.nodup_reverse.2 hnodup
  rw [lookup_insertAll]
  cases hfind : entries.reverse.find? fun note => form false note.1 = word with
  | none =>
    symm
    rw [Option.map_none, Option.eq_none_iff_forall_ne_some]
    intro entry hentry
    have hmem := (mem_iff_lookup_eq_some hnodup word entry).2 hentry
    have hnot := List.find?_eq_none.1 hfind _ (List.mem_reverse.2 hmem)
    exact hnot (decide_eq_true rfl)
  | some note =>
    have hfound := List.find?_some hfind
    have hword : note.1 = word := of_decide_eq_true hfound
    have hmem := List.mem_reverse.1 (List.mem_of_find?_eq_some hfind)
    rw [Option.map_some, ← hword]
    exact ((mem_iff_lookup_eq_some hnodup note.1 note.2).1 hmem).symm

/-- **Words that differ in lower case** are found by it as they were without. -/
theorem lookup_insertAll_lowercase {words : Set String} (hinj : Set.InjOn lowercase words)
    (hwords : ∀ note ∈ entries, note.1 ∈ words) {word : String} (hword : word ∈ words) :
    (insertAll true entries).lookup (lowercase word) = (insertAll false entries).lookup word := by
  have hfind : entries.reverse.find? (fun note => form true note.1 = lowercase word) =
      entries.reverse.find? (fun note => form false note.1 = word) := by
    refine List.find?_congr fun note hnote => ?_
    have hmem := hwords note (List.mem_reverse.1 hnote)
    have hiff : lowercase note.1 = lowercase word ↔ note.1 = word := hinj.eq_iff hmem hword
    exact decide_eq_decide.2 hiff
  rw [lookup_insertAll, lookup_insertAll, hfind]

/-- Lists with the same words have as many of them. -/
theorem length_insertAll_eq (fold : Bool)
    (h : ∀ word, word ∈ entries'.map Prod.fst ↔ word ∈ entries.map Prod.fst) :
    (insertAll fold entries').length = (insertAll fold entries).length := by
  obtain ⟨hnodup, hmem⟩ := keys_insertAll fold entries
  obtain ⟨hnodup', hmem'⟩ := keys_insertAll fold entries'
  have hnote (notes : List (String × Entry)) (key : String) :
      (∃ note ∈ notes, form fold note.1 = key) ↔ ∃ word ∈ notes.map Prod.fst, form fold word = key := by
    simp
  have hkeys : ((insertAll fold entries').map Prod.fst).Perm
      ((insertAll fold entries).map Prod.fst) := by
    rw [List.perm_ext_iff_of_nodup hnodup' hnodup]
    intro key
    simp only [hmem, hmem', hnote, h]
  simpa using hkeys.length_eq

end

/-! ## Both ways of folding -/

section

variable {steps : List Step} {table : Table}

/-- The words of the notes are those of the entries. -/
theorem mem_wordsOf_of_note (hcase : folds steps = false) {note : String × Entry}
    (h : note ∈ notesOf steps) : note.1 ∈ wordsOf steps := by
  obtain ⟨p, hp, hread⟩ := List.mem_filterMap.1 h
  obtain ⟨hdenotes, hne, -⟩ := note?_eq_some_iff.1 hread
  exact ⟨p, hp, note.1, note.2.weight, hdenotes, hne, by rw [hcase]; rfl⟩

theorem entriesOf_concat_ignoreCase (yes : Bool) :
    entriesOf (steps ++ [Step.ignoreCase yes]) = entriesOf steps := by
  rw [entriesOf_concat]
  exact List.append_nil _

/-- Deciding about case in the end changes nothing else. -/
theorem tableOf_concat_ignoreCase (yes : Bool) :
    tableOf (steps ++ [Step.ignoreCase yes]) =
      ⟨insertAll yes (notesOf steps), (classNames steps).toArray, yes⟩ := by
  unfold tableOf notesOf
  rw [entriesOf_concat_ignoreCase, classNames_concat_ignoreCase, folds_concat_ignoreCase]

/-- A decision about case does not make an entry malformed. -/
theorem build_concat_ignoreCase (hbuild : build steps = .ok table) (yes : Bool) :
    build (steps ++ [Step.ignoreCase yes]) = .ok (tableOf (steps ++ [Step.ignoreCase yes])) := by
  rw [build_eq] at hbuild ⊢
  rw [entriesOf_concat_ignoreCase]
  cases hfind : ((entriesOf steps).map (·.2)).find? fun entry => (readEntry entry).isNone with
  | none => rfl
  | some entry =>
    rw [hfind] at hbuild
    cases hbuild

/-- **Both ways of folding agree** if no two words have the same lower case: whatever the order in
which a finished table keeps its words, folding it finds the same as deciding that case does not
count before it is finished, and has as many words. -/
theorem folded_agrees (hcase : folds steps = false)
    (hapart : Set.InjOn lowercase (wordsOf steps)) (h : (tableOf steps).Reordered table) :
    (tableOf (steps ++ [Step.ignoreCase true])).Agrees (table.forGrammar true) ∧
      (table.forGrammar true).size = (tableOf (steps ++ [Step.ignoreCase true])).size := by
  have hfolded : table.forGrammar true =
      ⟨insertAll true table.entries, (classNames steps).toArray, true⟩ := by
    have hplain : table.ignoreCase = false := h.ignoreCase_eq.trans hcase
    unfold Table.forGrammar
    rw [hplain]
    exact congrArg (Table.mk (insertAll true table.entries) · true) h.classes_eq
  have hentries : (tableOf steps).entries = insertAll false (notesOf steps) :=
    congrArg (insertAll · (notesOf steps)) hcase
  have hperm : table.entries.Perm (insertAll false (notesOf steps)) := hentries ▸ h.entries_perm
  obtain ⟨hnodup, hkeys⟩ := keys_insertAll false (notesOf steps)
  have hnodup' : (table.entries.map Prod.fst).Nodup := (hperm.map Prod.fst).nodup_iff.2 hnodup
  -- The finished table has the words that were written, each once.
  have hsame (word : String) :
      word ∈ table.entries.map Prod.fst ↔ word ∈ (notesOf steps).map Prod.fst := by
    rw [(hperm.map Prod.fst).mem_iff, hkeys, List.mem_map]
    rfl
  have hnotes : ∀ note ∈ notesOf steps, note.1 ∈ wordsOf steps :=
    fun note => mem_wordsOf_of_note hcase
  have hwords : ∀ note ∈ table.entries, note.1 ∈ wordsOf steps := by
    intro note hnote
    obtain ⟨written, hwritten, heq⟩ := List.mem_map.1 ((hsame note.1).1 (List.mem_map_of_mem hnote))
    rw [← heq]
    exact hnotes written hwritten
  have hlookup (word : String) :
      (insertAll true table.entries).lookup (lowercase word) =
        (insertAll true (notesOf steps)).lookup (lowercase word) := by
    by_cases hword : ∃ note ∈ notesOf steps, lowercase note.1 = lowercase word
    · obtain ⟨note, hnote, heq⟩ := hword
      rw [← heq, lookup_insertAll_lowercase hapart hwords (hnotes note hnote),
        lookup_insertAll_lowercase hapart hnotes (hnotes note hnote),
        lookup_insertAll_of_nodup hnodup']
      refine Option.ext fun entry => ?_
      rw [← mem_iff_lookup_eq_some hnodup', ← mem_iff_lookup_eq_some hnodup, hperm.mem_iff]
    · have hnone (notes : List (String × Entry))
          (hnotes : ∀ key, key ∈ notes.map Prod.fst → key ∈ (notesOf steps).map Prod.fst) :
          (insertAll true notes).lookup (lowercase word) = none := by
        rw [lookup_insertAll, Option.map_eq_none_iff, List.find?_eq_none]
        intro note hnote heq
        obtain ⟨written, hwritten, hkey⟩ :=
          List.mem_map.1 (hnotes note.1 (List.mem_map_of_mem (List.mem_reverse.1 hnote)))
        exact hword ⟨written, hwritten, hkey ▸ of_decide_eq_true heq⟩
      rw [hnone table.entries fun key => (hsame key).1, hnone (notesOf steps) fun _ => id]
  rw [hfolded, tableOf_concat_ignoreCase]
  refine ⟨⟨rfl, fun word => ?_⟩, length_insertAll_eq true hsame⟩
  show ((insertAll true table.entries).lookup (lowercase word)).map _ = _
  rw [hlookup]
  rfl

end

end ModeStack.Keyword
