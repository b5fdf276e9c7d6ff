import MailMerge.Proofs.Passes

/-!
# Loops that come too late

The pass for loops runs first. A tag that opens a loop and is still there afterwards, or comes into
the text with a value, is plain text to the passes that follow: they take it for the characters it
is spelled with. `spellLoops` spells such tags out, and each of these passes makes the same of both
lists of tokens.
-/

namespace MailMerge

/-- The characters of an opening tag of a loop; other tokens as they are. -/
def Token.spellLoop : Token → List Token
  | .tag (.loopOpen name) => (Tag.loopOpen name).text.map .char
  | t => [t]

/-- Tokens with the opening tags of loops spelled out. -/
def spellLoops (ts : List Token) : List Token :=
  ts.flatMap Token.spellLoop

@[simp]
theorem spellLoops_nil : spellLoops [] = [] := rfl

theorem spellLoops_cons (t : Token) (ts : List Token) :
    spellLoops (t :: ts) = t.spellLoop ++ spellLoops ts := rfl

@[simp]
theorem spellLoops_append (us vs : List Token) :
    spellLoops (us ++ vs) = spellLoops us ++ spellLoops vs :=
  List.flatMap_append

theorem spellLoop_of_ne {t : Token} (h : ∀ name, t ≠ .tag (.loopOpen name)) :
    t.spellLoop = [t] := by
  unfold Token.spellLoop
  split
  · next name => exact absurd rfl (h name)
  · rfl

theorem spellLoops_cons_of_ne {t : Token} (h : ∀ name, t ≠ .tag (.loopOpen name))
    (ts : List Token) : spellLoops (t :: ts) = t :: spellLoops ts := by
  rw [spellLoops_cons, spellLoop_of_ne h]
  rfl

@[simp]
theorem spellLoops_map_char (s : List Char) : spellLoops (s.map .char) = s.map .char := by
  induction s with
  | nil => rfl
  | cons c s ih => rw [List.map_cons, spellLoops_cons_of_ne (by simp), ih]

/-- Tokens that hold no other tags are spelled out entirely. -/
theorem spellLoops_eq_map_char {ts : List Token}
    (h : ∀ t, .tag t ∈ ts → ∃ name, t = .loopOpen name) :
    spellLoops ts = (ts.flatMap Token.text).map .char := by
  induction ts with
  | nil => rfl
  | cons t ts ih =>
    have hts := ih fun u hu => h u (List.mem_cons_of_mem _ hu)
    rw [spellLoops_cons, hts, List.flatMap_cons, List.map_append]
    cases t with
    | char c => rfl
    | tag t =>
      obtain ⟨name, rfl⟩ := h t List.mem_cons_self
      rfl

/-- Other tags are neither lost nor won. -/
theorem tag_mem_spellLoops {t : Tag} (h : ∀ name, t ≠ .loopOpen name) {ts : List Token} :
    .tag t ∈ spellLoops ts ↔ .tag t ∈ ts := by
  induction ts with
  | nil => rfl
  | cons u ts ih =>
    rw [spellLoops_cons, List.mem_append, ih, List.mem_cons]
    refine or_congr ?_ Iff.rfl
    unfold Token.spellLoop
    split
    · next name =>
      simp only [List.mem_map, reduceCtorEq, and_false, exists_false, Token.tag.injEq, false_iff]
      exact h name
    · simp

/-! ### Conditionals -/

theorem closedBy?_spellLoops (name : String) (ts : List Token) :
    closedBy? name (spellLoops ts)
      = (closedBy? name ts).map fun (body, rest) => (spellLoops body, spellLoops rest) := by
  induction ts with
  | nil => rfl
  | cons t ts ih =>
    by_cases hclose : t = .tag (.close name)
    · subst hclose
      rw [spellLoops_cons_of_ne (by simp)]
      simp [closedBy?]
    · have hspell : .tag (.close name) ∉ t.spellLoop := by
        unfold Token.spellLoop
        split
        · simp
        · simpa using Ne.symm hclose
      rw [spellLoops_cons, closedBy?_append hspell, ih, closedBy?_cons_of_ne hclose]
      cases closedBy? name ts with
      | none => rfl
      | some found => rfl

theorem branches_spellLoops (opened : List String) (ts : List Token) :
    branches opened (spellLoops ts)
      = (spellLoops (branches opened ts).1, (branches opened ts).2.map spellLoops) := by
  induction ts generalizing opened with
  | nil => rfl
  | cons t ts ih =>
    by_cases hloop : ∃ name, t = .tag (.loopOpen name)
    · obtain ⟨name, rfl⟩ := hloop
      have hskip : branches opened (.tag (.loopOpen name) :: ts)
          = (.tag (.loopOpen name) :: (branches opened ts).1, (branches opened ts).2) := by
        simp [branches, nest]
      rw [hskip, spellLoops_cons, Token.spellLoop, branches_map_char_append, ih]
      rfl
    · have hne : ∀ name, t ≠ .tag (.loopOpen name) := fun name he => hloop ⟨name, he⟩
      rw [spellLoops_cons_of_ne hne, branches, branches]
      split
      · rfl
      · rw [ih]
        simp only [spellLoops_cons_of_ne hne]

theorem chosen_spellLoops (holds : Bool) (ts : List Token) :
    chosen holds (spellLoops ts) = spellLoops (chosen holds ts) := by
  simp only [chosen, branches_spellLoops]
  cases holds with
  | true => rfl
  | false => cases (branches [] ts).2 <;> rfl

theorem expandConditionals_spellLoops (data : DataTree) (ts : List Token) :
    expandConditionals data (spellLoops ts) = expandConditionals data ts := by
  -- a branch and what follows the conditional are shorter, but no tails of the list
  suffices hlength : ∀ n (ts : List Token), ts.length ≤ n →
      expandConditionals data (spellLoops ts) = expandConditionals data ts from
    hlength ts.length ts (Nat.le_refl _)
  intro n
  induction n using Nat.strongRecOn with
  | ind n ihn =>
    intro ts hn
    induction ts with
    | nil => rfl
    | cons t ts ih =>
      rw [List.length_cons] at hn
      by_cases hopen : ∃ name, t = .tag (.condOpen name)
      · obtain ⟨name, rfl⟩ := hopen
        rw [spellLoops_cons_of_ne (by simp)]
        have hclosed := closedBy?_spellLoops name ts
        cases h : closedBy? name ts with
        | none =>
          rw [h, Option.map_none] at hclosed
          rw [expandConditionals_unclosed hclosed, expandConditionals_unclosed h, ih (by omega)]
        | some found =>
          obtain ⟨body, after⟩ := found
          rw [h, Option.map_some] at hclosed
          have hlt := length_lt_of_closedBy? h
          have hltc := length_chosen_lt h (holds data name)
          rw [expandConditionals_closed hclosed, expandConditionals_closed h, chosen_spellLoops,
            ihn _ (by omega) _ (Nat.le_refl _), ihn _ (by omega) after (Nat.le_refl _)]
      · have hne : ∀ name, t ≠ .tag (.condOpen name) := fun name he => hopen ⟨name, he⟩
        rw [expandConditionals_cons hne, ← ih (by omega), spellLoops_cons]
        unfold Token.spellLoop
        split
        · exact expandConditionals_map_char_append _ _
        · exact expandConditionals_cons hne _

/-! ### Table rows and placeholders -/

theorem firstMark?_spellLoops (ts : List Token) : firstMark? (spellLoops ts) = firstMark? ts := by
  induction ts with
  | nil => rfl
  | cons t ts ih =>
    cases hmark : t.isMark with
    | true =>
      obtain ⟨name, rfl⟩ := t.exists_of_isMark hmark
      rfl
    | false =>
      rw [firstMark?_cons hmark, ← ih, spellLoops_cons]
      unfold Token.spellLoop
      split
      · exact firstMark?_map_char_append _ _
      · exact firstMark?_cons hmark _

theorem expandFields_spellLoops (options : Options) (of : Repetition) (owner : String) (v : Value)
    (ts : List Token) :
    expandFields options of owner v (spellLoops ts) = expandFields options of owner v ts := by
  induction ts with
  | nil => rfl
  | cons t ts ih =>
    have hcons : expandFields options of owner v (t :: ts)
        = expandField options of owner v t ++ expandFields options of owner v ts := rfl
    rw [hcons, ← ih, spellLoops_cons]
    unfold Token.spellLoop
    split
    · exact expandFields_map_char_append options of owner v _ _
    · rfl

theorem expandItems_spellLoops (options : Options) (of : Repetition) (owner : String)
    (ts : List Token) (items : List Value) :
    expandItems options of owner (spellLoops ts) items = expandItems options of owner ts items := by
  simp only [expandItems, expandFields_spellLoops]

theorem expandPlaceholders_spellLoops (data : DataTree) (options : Options) (placed : Nat)
    (ts : List Token) :
    expandPlaceholders data options placed (spellLoops ts)
      = expandPlaceholders data options placed ts := by
  induction ts generalizing placed with
  | nil => rfl
  | cons t ts ih =>
    by_cases hsimple : ∃ name, t = .tag (.simple name)
    · obtain ⟨name, rfl⟩ := hsimple
      rw [spellLoops_cons_of_ne (by simp), expandPlaceholders, expandPlaceholders, ih]
    · have hne : ∀ name, t ≠ .tag (.simple name) := fun name he => hsimple ⟨name, he⟩
      rw [expandPlaceholders_cons hne, ← ih, spellLoops_cons]
      unfold Token.spellLoop
      split
      · exact expandPlaceholders_map_char_append _ _
      · exact expandPlaceholders_cons hne _

/-! ### Lists that are spelled alike -/

section SpelledAlike

variable {us vs : List Token} (h : spellLoops us = spellLoops vs)

include h

theorem expandConditionals_of_spellLoops_eq (data : DataTree) :
    expandConditionals data us = expandConditionals data vs := by
  rw [← expandConditionals_spellLoops, h, expandConditionals_spellLoops]

theorem firstMark?_of_spellLoops_eq : firstMark? us = firstMark? vs := by
  rw [← firstMark?_spellLoops, h, firstMark?_spellLoops]

theorem expandItems_of_spellLoops_eq (options : Options) (of : Repetition) (owner : String)
    (items : List Value) :
    expandItems options of owner us items = expandItems options of owner vs items := by
  rw [← expandItems_spellLoops, h, expandItems_spellLoops]

theorem expandPlaceholders_of_spellLoops_eq (data : DataTree) (options : Options) (placed : Nat) :
    expandPlaceholders data options placed us = expandPlaceholders data options placed vs := by
  rw [← expandPlaceholders_spellLoops, h, expandPlaceholders_spellLoops]

end SpelledAlike

end MailMerge
