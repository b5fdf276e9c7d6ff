import MailMerge.Proofs.Shrinking

/-!
# Rounds of the table pass

A round of the table pass resolves the first mark in the text that is left, and there are two ways
in which it does so (`tableRound_cases`). A mark without a row around it is taken away. Otherwise
the row is cut out of the text before and behind the mark, at two angle brackets, and what comes of
it is put in its place. No tag reaches over an angle bracket, so both cuts are cuts between tokens.
-/

namespace MailMerge

open Markup

/-- The text of a list that is read from a text is read as that list. -/
theorem isRead_tokens (window : Nat) (s : List Char) : IsRead window (tokens window s) := by
  rw [IsRead, text_tokens]

/-- The first mark in a text, with the texts around it. -/
theorem exists_of_firstMark?_tokens {window : Nat} {s between : List Char} {name : String}
    (h : firstMark? (tokens window s) = some (between, name)) :
    ∃ after, s = between ++ ((Tag.table name).text ++ after) ∧ (Tag.table name).Fits window ∧
      ∀ t ∈ tokens window between, t.isMark = false := by
  obtain ⟨before, after, hs, rfl, hbefore⟩ := eq_append_of_firstMark? h
  have hfits : (Tag.table name).Fits window := fits_of_mem_tokens (s := s) (by simp [hs])
  have htext : s = before.flatMap Token.text
      ++ ((Tag.table name).text ++ after.flatMap Token.text) := by
    rw [← text_tokens window s, hs, List.flatMap_append, List.flatMap_cons]
    rfl
  refine ⟨after.flatMap Token.text, htext, hfits, ?_⟩
  -- what stands before the mark is read as it was
  have hread : IsRead window (before ++ .tag (.table name) :: after) := hs ▸ isRead_tokens window s
  rw [hread.of_append_tag]
  exact hbefore

section Rounds

variable {data : DataTree} {options : Options} {done rest done' rest' : List Char}
  {note : Expansion}

/-- There is no round for a text without marks only. -/
theorem isMark_of_tableRound (h : tableRound data options done rest = none) :
    ∀ t ∈ tokens options.window rest, t.isMark = false := by
  cases hfirst : firstMark? (tokens options.window rest) with
  | none => exact isMark_of_firstMark? hfirst
  | some found =>
    obtain ⟨between, name⟩ := found
    obtain ⟨after, hrest, -⟩ := exists_of_firstMark?_tokens hfirst
    rw [tableRound_eq data hfirst hrest] at h
    split at h <;> cases h

/-- **The two kinds of rounds.** The first mark in `rest` has no row around it and is taken away, or
the row `'<' … '>'` around it gives way to what comes of it. -/
theorem tableRound_cases (h : tableRound data options done rest = some (note, done', rest')) :
    ∃ between name after, rest = between ++ ((Tag.table name).text ++ after) ∧
      (Tag.table name).Fits options.window ∧
      (∀ t ∈ tokens options.window between, t.isMark = false) ∧
      ((note = .warning (.outsideRow name) ∧ done' = done ++ between ∧ rest' = after) ∨
        ∃ front row₁ row₂, done ++ between = front ++ '<' :: row₁ ∧ after = row₂ ++ '>' :: rest' ∧
          rowStart (done ++ between) ((Tag.table name).text ++ after) = some front.length ∧
          let row := expandRow data options name
            ('<' :: row₁ ++ (Tag.table name).text ++ (row₂ ++ ['>']))
          note = row.withoutText ∧ done' = front ++ row.text) := by
  cases hfirst : firstMark? (tokens options.window rest) with
  | none => simp [tableRound, hfirst] at h
  | some found =>
    obtain ⟨between, name⟩ := found
    obtain ⟨after, hrest, hfits, hbetween⟩ := exists_of_firstMark?_tokens hfirst
    rw [tableRound_eq data hfirst hrest] at h
    refine ⟨between, name, after, hrest, hfits, hbetween, ?_⟩
    split at h
    · next start stop hstart hstop =>
      simp only [Option.some.injEq, Prod.mk.injEq] at h
      obtain ⟨rfl, rfl, rfl⟩ := h
      obtain ⟨front, row₁, hfront, rfl⟩ := exists_of_rowStart hstart
      obtain ⟨row₂, r, rfl, rfl⟩ :=
        exists_of_rowStop (notMem_tagText hfits) (length_text_table name) hstop
      have hinside : ∀ n, n + row₂.length + 1 - n = (row₂ ++ ['>']).length := fun n => by
        rw [List.length_append, List.length_singleton]
        omega
      have hrow₂ : row₂ ++ '>' :: r = (row₂ ++ ['>']) ++ r := by simp
      refine .inr ⟨front, row₁, row₂, hfront, ?_, hstart, ?_⟩
      · rw [hinside, hrow₂, List.drop_left, ← hrow₂]
      · simp only [hinside, hrow₂, List.take_left, hfront, List.drop_left, and_self]
    · simp only [Option.some.injEq, Prod.mk.injEq] at h
      obtain ⟨rfl, rfl, rfl⟩ := h
      exact .inl ⟨rfl, rfl, rfl⟩

/-- What a round notes has no text. -/
theorem text_note_of_tableRound
    (h : tableRound data options done rest = some (note, done', rest')) : note.text = [] := by
  obtain ⟨between, name, after, -, -, -, ⟨rfl, -⟩ | ⟨front, row₁, row₂, -, -, -, rfl, -⟩⟩ :=
    tableRound_cases h
  · rfl
  · rfl

end Rounds

end MailMerge
