import Mathlib.Data.List.Flatten
import MailMerge.Proofs.Leaf

/-!
# Tags in values are lost

Behind the pass for loops, a text is read again, and with it the values that the loops have put into
it. A text is **quiet** when the tags that are read in it are of no consequence there: it holds no
placeholder, no mark of a row, and no conditional that is closed. A quiet text stays as it is
(`settled_eq`).

When the data have nothing to put in the place of a tag, each of these passes only takes away from
the text. So what is left is a sublist of it, and a shorter one if the text is not quiet
(`length_settled_lt`): a value in it is not put out as it is.
-/

namespace MailMerge

/-! ### Conditionals -/

/-- A conditional that is closed. -/
def HasConditional (ts : List Token) : Prop :=
  ∃ name us vs, ts = us ++ .tag (.condOpen name) :: vs ∧ .tag (.close name) ∈ vs

theorem HasConditional.cons {ts : List Token} (h : HasConditional ts) (t : Token) :
    HasConditional (t :: ts) := by
  obtain ⟨name, us, vs, rfl, hclose⟩ := h
  exact ⟨name, t :: us, vs, rfl, hclose⟩

theorem close_notMem_of_closedBy? {name : String} {ts : List Token} (h : closedBy? name ts = none) :
    .tag (.close name) ∉ ts := by
  induction ts with
  | nil => exact List.not_mem_nil
  | cons t ts ih =>
    by_cases ht : t = .tag (.close name)
    · rw [closedBy?, if_pos ht] at h
      cases h
    · rw [closedBy?_cons_of_ne ht, Option.map_eq_none_iff] at h
      rw [List.mem_cons, not_or]
      exact ⟨Ne.symm ht, ih h⟩

section Conditionals

variable (data : DataTree)

/-- Conditionals give way to a part of them. -/
theorem expandConditionals_sublist (ts : List Token) :
    (expandConditionals data ts).text.Sublist (ts.flatMap Token.text) := by
  fun_induction expandConditionals data ts with
  | case1 => exact .slnil
  | case2 name rest body after hclosed _ _ ihc iha =>
    rw [eq_append_of_closedBy? hclosed, Expansion.text_append, Expansion.text_append,
      List.nil_append, List.flatMap_cons, List.flatMap_append, List.flatMap_cons]
    have hbody := (chosen_sublist (holds data name) body).flatMap Token.text
    exact ((ihc.trans hbody).append (iha.trans (List.sublist_append_right _ _))).trans
      (List.sublist_append_right _ _)
  | case3 name rest hclosed ih =>
    rw [Expansion.text_append, Expansion.text_append, Expansion.text_literal,
      Expansion.text_warning, List.append_nil, List.flatMap_cons, Token.text]
    exact (List.Sublist.refl _).append ih
  | case4 t rest hne ih =>
    rw [Expansion.text_append, Expansion.text_literal, List.flatMap_cons]
    exact (List.Sublist.refl _).append ih

/-- The tags of a closed conditional are lost. -/
theorem length_expandConditionals_lt {ts : List Token} (h : HasConditional ts) :
    (expandConditionals data ts).text.length < (ts.flatMap Token.text).length := by
  induction ts with
  | nil =>
    obtain ⟨name, us, vs, he, -⟩ := h
    simp at he
  | cons t ts ih =>
    by_cases hopen : ∃ name, t = .tag (.condOpen name) ∧ .tag (.close name) ∈ ts
    · obtain ⟨name, rfl, hclose⟩ := hopen
      cases hclosed : closedBy? name ts with
      | none => exact absurd hclose (close_notMem_of_closedBy? hclosed)
      | some found =>
        obtain ⟨body, after⟩ := found
        -- whatever is chosen, both tags are lost
        have hchosen := ((expandConditionals_sublist data _).trans
          ((chosen_sublist (holds data name) body).flatMap Token.text)).length_le
        have hafter := (expandConditionals_sublist data after).length_le
        rw [expandConditionals_closed hclosed, Expansion.text_append, Expansion.text_append,
          List.nil_append, eq_append_of_closedBy? hclosed]
        simp only [List.flatMap_cons, List.flatMap_append, List.length_append, Token.text, Tag.text,
          List.length_cons]
        omega
    · -- the first token stays, and the conditional stands behind it
      have htail : HasConditional ts := by
        obtain ⟨name, us, vs, he, hclose⟩ := h
        cases us with
        | nil =>
          obtain ⟨rfl, rfl⟩ := List.cons.inj he
          exact absurd ⟨name, rfl, hclose⟩ hopen
        | cons u us => exact ⟨name, us, vs, (List.cons.inj he).2, hclose⟩
      have hlt := ih htail
      have hcons : (expandConditionals data (t :: ts)).text
          = t.text ++ (expandConditionals data ts).text := by
        by_cases hcond : ∃ name, t = .tag (.condOpen name)
        · obtain ⟨name, rfl⟩ := hcond
          have hclosed : closedBy? name ts = none := by
            refine Option.eq_none_iff_forall_not_mem.2 fun found hfound => hopen ⟨name, rfl, ?_⟩
            rw [eq_append_of_closedBy? hfound]
            simp
          rw [expandConditionals_unclosed hclosed, Expansion.text_append, Expansion.text_append]
          simp [Token.text]
        · rw [expandConditionals_cons fun name he => hcond ⟨name, he⟩]
          rfl
      rw [hcons, List.flatMap_cons, List.length_append, List.length_append]
      omega

/-- Without a closed conditional the text stays as it is. -/
theorem text_expandConditionals_of_not {ts : List Token} (h : ¬HasConditional ts) :
    (expandConditionals data ts).text = ts.flatMap Token.text := by
  induction ts with
  | nil => simp
  | cons t ts ih =>
    have ih := ih fun hts => h (hts.cons t)
    by_cases hopen : ∃ name, t = .tag (.condOpen name)
    · obtain ⟨name, rfl⟩ := hopen
      cases hclosed : closedBy? name ts with
      | none =>
        rw [expandConditionals_unclosed hclosed, Expansion.text_append, Expansion.text_append, ih]
        simp [Token.text]
      | some found =>
        obtain ⟨body, after⟩ := found
        refine absurd ⟨name, [], ts, rfl, ?_⟩ h
        rw [eq_append_of_closedBy? hclosed]
        simp
    · rw [expandConditionals_cons fun name he => hopen ⟨name, he⟩, Expansion.text_append, ih]
      rfl

theorem expandConditionals_tokens_sublist (window : Nat) (s : List Char) :
    (expandConditionals data (tokens window s)).text.Sublist s := by
  simpa only [text_tokens] using expandConditionals_sublist data (tokens window s)

theorem text_expandConditionals_tokens {window : Nat} {s : List Char}
    (h : ¬HasConditional (tokens window s)) :
    (expandConditionals data (tokens window s)).text = s := by
  rw [text_expandConditionals_of_not data h, text_tokens]

end Conditionals

/-! ### Placeholders and table rows -/

section Passes

variable {data : DataTree} {options : Options}

/-- Placeholders without data are lost. -/
theorem expandPlaceholders_sublist
    (h : ∀ placed name, (expandPlaceholder data options placed name).text = []) (placed : Nat)
    (ts : List Token) :
    (expandPlaceholders data options placed ts).text.Sublist (ts.flatMap Token.text) ∧
      ((∃ name, .tag (.simple name) ∈ ts) →
        (expandPlaceholders data options placed ts).text.length
          < (ts.flatMap Token.text).length) := by
  induction ts generalizing placed with
  | nil => exact ⟨.slnil, by simp⟩
  | cons t ts ih =>
    by_cases hsimple : ∃ name, t = .tag (.simple name)
    · obtain ⟨name, rfl⟩ := hsimple
      have hsub := (ih (placed + (expandPlaceholder data options placed name).images.length)).1
      simp only [expandPlaceholders, Expansion.text_append, h, List.nil_append, List.flatMap_cons]
      refine ⟨hsub.trans (List.sublist_append_right _ _), fun _ => ?_⟩
      have := hsub.length_le
      simp only [Token.text, Tag.text, List.length_append, List.length_cons]
      omega
    · have hne : ∀ name, t ≠ .tag (.simple name) := fun name he => hsimple ⟨name, he⟩
      obtain ⟨hsub, hlt⟩ := ih placed
      rw [expandPlaceholders_cons hne, Expansion.text_append, Expansion.text_literal,
        List.flatMap_cons]
      refine ⟨(List.Sublist.refl _).append hsub, ?_⟩
      rintro ⟨name, hname⟩
      have := hlt ⟨name, (List.mem_cons.1 hname).resolve_left (Ne.symm (hne name))⟩
      rw [List.length_append, List.length_append]
      omega

theorem expandPlaceholders_tokens_sublist
    (h : ∀ placed name, (expandPlaceholder data options placed name).text = []) (s : List Char) :
    (expandPlaceholders data options 0 (tokens options.window s)).text.Sublist s ∧
      ((∃ name, .tag (.simple name) ∈ tokens options.window s) →
        (expandPlaceholders data options 0 (tokens options.window s)).text.length < s.length) := by
  simpa only [text_tokens] using expandPlaceholders_sublist h 0 (tokens options.window s)

theorem text_expandPlaceholders_of_not (placed : Nat) {ts : List Token}
    (h : ∀ name, .tag (.simple name) ∉ ts) :
    (expandPlaceholders data options placed ts).text = ts.flatMap Token.text := by
  induction ts with
  | nil => rfl
  | cons t ts ih =>
    have hts : ∀ name, .tag (.simple name) ∉ ts := fun name hm => h name (List.mem_cons_of_mem _ hm)
    have ht : ∀ name, t ≠ .tag (.simple name) := by
      rintro name rfl
      exact h name List.mem_cons_self
    rw [expandPlaceholders_cons ht, Expansion.text_append, ih hts]
    rfl

/-- The first mark, with the tokens around it. -/
theorem eq_append_of_firstMark? {ts : List Token} {between : List Char} {name : String}
    (h : firstMark? ts = some (between, name)) :
    ∃ before after, ts = before ++ .tag (.table name) :: after ∧
      between = before.flatMap Token.text ∧ ∀ t ∈ before, t.isMark = false := by
  induction ts generalizing between with
  | nil => cases h
  | cons t ts ih =>
    cases hmark : t.isMark with
    | true =>
      obtain ⟨n, rfl⟩ := t.exists_of_isMark hmark
      simp only [firstMark?, Option.some.injEq, Prod.mk.injEq] at h
      obtain ⟨rfl, rfl⟩ := h
      exact ⟨[], ts, rfl, rfl, by simp⟩
    | false =>
      rw [firstMark?_cons hmark, Option.map_eq_some_iff] at h
      obtain ⟨⟨between', name'⟩, hfirst, he⟩ := h
      simp only [Prod.mk.injEq] at he
      obtain ⟨rfl, rfl⟩ := he
      obtain ⟨before, after, rfl, rfl, hbefore⟩ := ih hfirst
      exact ⟨t :: before, after, rfl, rfl, List.forall_mem_cons.2 ⟨hmark, hbefore⟩⟩

theorem exists_of_firstMark? {ts : List Token} {between : List Char} {name : String}
    (h : firstMark? ts = some (between, name)) :
    .tag (.table name) ∈ ts ∧
      ∃ after, ts.flatMap Token.text = between ++ ((Tag.table name).text ++ after) := by
  obtain ⟨before, after, rfl, rfl, -⟩ := eq_append_of_firstMark? h
  refine ⟨by simp, after.flatMap Token.text, ?_⟩
  rw [List.flatMap_append, List.flatMap_cons]
  rfl

theorem isMark_of_firstMark? {ts : List Token} (h : firstMark? ts = none) :
    ∀ t ∈ ts, t.isMark = false := by
  induction ts with
  | nil => simp
  | cons t ts ih =>
    cases hmark : t.isMark with
    | true =>
      obtain ⟨name, rfl⟩ := t.exists_of_isMark hmark
      cases h
    | false =>
      rw [firstMark?_cons hmark, Option.map_eq_none_iff] at h
      rw [List.forall_mem_cons]
      exact ⟨hmark, ih h⟩

/-- A text in which no mark has a row with items around it. -/
def Rowless (data : DataTree) (options : Options) (s : List Char) : Prop :=
  '<' ∉ s ∨ ∀ name row, (Tag.table name).Fits options.window →
    (expandRow data options name row).text = []

theorem rowStart_eq_none {before : List Char} (h : '<' ∉ before) (after : List Char) :
    Markup.rowStart before after = none := by
  rw [Markup.rowStart_eq_unmatchedOpening? (Markup.inMarkup_of_notMem h),
    Markup.angleMarks_of_notMem h]
  rfl

theorem Rowless.of_sublist {s r : List Char} (h : Rowless data options s) (hsub : r.Sublist s) :
    Rowless data options r :=
  h.imp_left fun hangle hm => hangle (hsub.subset hm)

/-- A round without items takes away a row, or just the mark. -/
theorem tableRound_sublist {done rest done' rest' : List Char} {note : Expansion}
    (hrowless : Rowless data options (done ++ rest))
    (h : tableRound data options done rest = some (note, done', rest')) :
    note.text = [] ∧ (done' ++ rest').Sublist (done ++ rest) ∧
      (done' ++ rest').length < (done ++ rest).length := by
  cases hfirst : firstMark? (tokens options.window rest) with
  | none => simp [tableRound, hfirst] at h
  | some found =>
    obtain ⟨between, name⟩ := found
    obtain ⟨hmem, after, hrest⟩ := exists_of_firstMark? hfirst
    rw [text_tokens] at hrest
    have hmark := length_text_table name
    rw [tableRound_eq data hfirst hrest] at h
    subst hrest
    rw [← List.append_assoc done] at hrowless ⊢
    split at h
    · next start stop hstart _ =>
      simp only [Option.some.injEq, Prod.mk.injEq] at h
      obtain ⟨rfl, rfl, rfl⟩ := h
      rcases hrowless with hangle | hempty
      · rw [List.mem_append, not_or] at hangle
        rw [rowStart_eq_none hangle.1] at hstart
        cases hstart
      · rw [hempty name _ (fits_of_mem_tokens hmem), List.append_nil]
        refine ⟨rfl, ?_, ?_⟩
        · exact (List.take_sublist _ _).append
            ((List.drop_sublist _ _).trans (List.sublist_append_right _ _))
        · simp only [List.length_append, List.length_take, List.length_drop]
          omega
    · simp only [Option.some.injEq, Prod.mk.injEq] at h
      obtain ⟨rfl, rfl, rfl⟩ := h
      refine ⟨rfl, (List.Sublist.refl _).append (List.sublist_append_right _ _), ?_⟩
      simp only [List.length_append]
      omega

theorem expandTablesFrom_sublist {done rest : List Char}
    (h : Rowless data options (done ++ rest)) :
    (expandTablesFrom data options done rest).text.Sublist (done ++ rest) := by
  fun_induction expandTablesFrom data options done rest with
  | case1 => exact .refl _
  | case2 done rest note done' rest' hround _ ih =>
    obtain ⟨hnote, hsub, -⟩ := tableRound_sublist h hround
    rw [Expansion.text_append, hnote, List.nil_append]
    exact (ih (h.of_sublist hsub)).trans hsub

/-- Marks without items are lost, with their rows. -/
theorem expandTables_sublist {s : List Char} (h : Rowless data options s) :
    (expandTables data options s).text.Sublist s ∧
      ((∃ name, .tag (.table name) ∈ tokens options.window s) →
        (expandTables data options s).text.length < s.length) := by
  have hnil : Rowless data options ([] ++ s) := h
  refine ⟨expandTablesFrom_sublist hnil, ?_⟩
  rintro ⟨name, hname⟩
  cases hround : tableRound data options [] s with
  | none =>
    cases hfirst : firstMark? (tokens options.window s) with
    | none => exact absurd (isMark_of_firstMark? hfirst _ hname) (by simp [Token.isMark])
    | some found =>
      obtain ⟨between, name⟩ := found
      obtain ⟨-, after, hs⟩ := exists_of_firstMark? hfirst
      rw [text_tokens] at hs
      rw [tableRound_eq data hfirst hs] at hround
      split at hround <;> cases hround
  | some found =>
    obtain ⟨note, done', rest'⟩ := found
    obtain ⟨hnote, hsub, hlt⟩ := tableRound_sublist hnil hround
    rw [expandTables, expandTablesFrom_of_some hround, Expansion.text_append, hnote,
      List.nil_append]
    exact Nat.lt_of_le_of_lt (expandTablesFrom_sublist (hnil.of_sublist hsub)).length_le hlt

/-! ### The passes behind the loops -/

/-- What comes of the text that the pass for loops has left. -/
def settled (data : DataTree) (options : Options) (s : List Char) : List Char :=
  (expandPlaceholders data options 0 (tokens options.window (expandTables data options
    (expandConditionals data (tokens options.window s)).text).text)).text

theorem text_expand_eq_settled (data : DataTree) (options : Options) (template : List Char) :
    (expand data options template).text
      = settled data options (expandLoops data options (tokens options.window template)).text := by
  simp [expand, settled, Expansion.withoutText]

/-- Tokens among which none is resolved behind the loops. -/
structure Quiet (ts : List Token) : Prop where
  simple : ∀ name, .tag (.simple name) ∉ ts
  table : ∀ name, .tag (.table name) ∉ ts
  conditional : ¬HasConditional ts

/-- A quiet text stays as it is, whatever the data. -/
theorem settled_eq (data : DataTree) {options : Options} {s : List Char}
    (h : Quiet (tokens options.window s)) : settled data options s = s := by
  rw [settled, text_expandConditionals_tokens data h.conditional,
    expandTables_of_no_mark (isMark_eq_false_of_notMem h.table), Expansion.text_literal,
    text_expandPlaceholders_of_not 0 h.simple, text_tokens]

section Settled

variable (hvalues : ∀ placed name, (expandPlaceholder data options placed name).text = [])
  {s : List Char} (hrowless : Rowless data options s)

include hvalues hrowless

/-- With nothing to put in the place of tags, these passes only take away. -/
theorem settled_sublist :
    (settled data options s).Sublist (expandConditionals data (tokens options.window s)).text := by
  have hconds := expandConditionals_tokens_sublist data options.window s
  have htables := (expandTables_sublist (hrowless.of_sublist hconds)).1
  exact (expandPlaceholders_tokens_sublist hvalues _).1.trans htables

/-- A text that is not quiet gets shorter. -/
theorem length_settled_lt (h : ¬Quiet (tokens options.window s)) :
    (settled data options s).length < s.length := by
  by_cases hcond : HasConditional (tokens options.window s)
  · have hlt := length_expandConditionals_lt data hcond
    rw [text_tokens] at hlt
    exact Nat.lt_of_le_of_lt (settled_sublist hvalues hrowless).length_le hlt
  -- each pass that takes nothing away hands the text on as it is
  rw [settled, text_expandConditionals_tokens data hcond]
  obtain ⟨-, hmarks⟩ := expandTables_sublist hrowless
  obtain ⟨hplaced, hsimple⟩ := expandPlaceholders_tokens_sublist hvalues
    (expandTables data options s).text
  by_cases hmark : ∃ name, .tag (.table name) ∈ tokens options.window s
  · exact Nat.lt_of_le_of_lt hplaced.length_le (hmarks hmark)
  · have hname : ∃ name, .tag (.simple name) ∈ tokens options.window s := by
      refine Classical.byContradiction fun hno => h ⟨fun name hm => hno ⟨name, hm⟩,
        fun name hm => hmark ⟨name, hm⟩, hcond⟩
    have hstays : (expandTables data options s).text = s := by
      rw [expandTables_of_no_mark (isMark_eq_false_of_notMem fun name hm => hmark ⟨name, hm⟩)]
      rfl
    rw [hstays] at hsimple ⊢
    exact hsimple hname

end Settled

end Passes

end MailMerge
