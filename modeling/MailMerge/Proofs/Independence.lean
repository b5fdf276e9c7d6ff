import MailMerge.Proofs.Occurrences
import MailMerge.Proofs.RowDepth

/-!
# Texts expand independently

Each pass can be cut behind a text in which all that it looks for is complete. The passes for loops
and conditionals look for closing tags: where every opening tag has one in the text, no search goes
on behind it (`expandLoops_append`, `expandConditionals_append`). The table pass looks for row tags
in both directions. A round whose mark stands in the text cuts a row out of it, as long as its row
tags match (`LeadsRows.tableRound_append`), and leaves a text with this property; all later rounds
pass over what has become of it (`LeadsRows.expandTablesFrom_append_left`). So what comes of the
text and of any text behind it is what comes of the two (`LeadsRows.expandTables_append`).

Placeholders are looked at one by one. A picture behind a text has another number, and that is all
the text does to it: an `Outline` is an expansion without the numbers of its pictures.
-/

namespace MailMerge

open Markup

/-! ### Loops and conditionals -/

/-- The name of a loop that is opened. -/
def Token.loop? : Token → Option String
  | .tag (.loopOpen name) => some name
  | _ => none

/-- The name of a conditional that is opened. -/
def Token.cond? : Token → Option String
  | .tag (.condOpen name) => some name
  | _ => none

/-- Each name that is opened is closed further on. -/
def AllClosed (opens? : Token → Option String) : List Token → Prop
  | [] => True
  | t :: ts => (∀ name ∈ opens? t, .tag (.close name) ∈ ts) ∧ AllClosed opens? ts

instance instDecidableAllClosed (opens? : Token → Option String) :
    (ts : List Token) → Decidable (AllClosed opens? ts)
  | [] => isTrue trivial
  | _ :: ts =>
    have := instDecidableAllClosed opens? ts
    inferInstanceAs (Decidable (_ ∧ _))

theorem AllClosed.of_append {opens? : Token → Option String} {us vs : List Token}
    (h : AllClosed opens? (us ++ vs)) : AllClosed opens? vs := by
  induction us with
  | nil => exact h
  | cons u us ih => exact ih h.2

/-- What stands behind the nearest closing tag does not matter. -/
theorem closedBy?_append_of_some {name : String} {ts body rest : List Token}
    (h : closedBy? name ts = some (body, rest)) (us : List Token) :
    closedBy? name (ts ++ us) = some (body, rest ++ us) := by
  induction ts generalizing body with
  | nil => cases h
  | cons t ts ih =>
    by_cases ht : t = .tag (.close name)
    · simp only [closedBy?, ht, if_true, Option.some.injEq, Prod.mk.injEq] at h
      obtain ⟨rfl, rfl⟩ := h
      simp only [List.cons_append, closedBy?, ht, if_true]
    · rw [closedBy?_cons_of_ne ht, Option.map_eq_some_iff] at h
      obtain ⟨⟨body', rest'⟩, hclosed, he⟩ := h
      simp only [Prod.mk.injEq] at he
      obtain ⟨rfl, rfl⟩ := he
      rw [List.cons_append, closedBy?_cons_of_ne ht, ih hclosed]
      rfl

section Blocks

variable {data : DataTree} {options : Options} {us : List Token}

/-- The loop pass can be cut behind tokens that close their loops. -/
theorem expandLoops_append (h : AllClosed Token.loop? us) (vs : List Token) :
    expandLoops data options (us ++ vs)
      = expandLoops data options us ++ expandLoops data options vs := by
  fun_induction expandLoops data options us with
  | case1 => exact (Expansion.empty_append _).symm
  | case2 name rest body after hclosed _ ih =>
    have hrest := h.2
    rw [eq_append_of_closedBy? hclosed] at hrest
    rw [List.cons_append, expandLoops_closed (closedBy?_append_of_some hclosed vs),
      ih hrest.of_append.2, Expansion.append_assoc]
  | case3 name rest hclosed ih => exact absurd (h.1 name rfl) (close_notMem_of_closedBy? hclosed)
  | case4 t rest hne ih =>
    rw [List.cons_append, expandLoops_cons fun name ht => hne name ht, ih h.2,
      Expansion.append_assoc]

/-- The pass for conditionals can be cut behind tokens that close their conditionals. -/
theorem expandConditionals_append (h : AllClosed Token.cond? us) (vs : List Token) :
    expandConditionals data (us ++ vs)
      = expandConditionals data us ++ expandConditionals data vs := by
  fun_induction expandConditionals data us with
  | case1 => exact (Expansion.empty_append _).symm
  | case2 name rest body after hclosed _ _ ihc iha =>
    have hrest := h.2
    rw [eq_append_of_closedBy? hclosed] at hrest
    rw [List.cons_append, expandConditionals_closed (closedBy?_append_of_some hclosed vs),
      iha hrest.of_append.2, ← Expansion.append_assoc]
  | case3 name rest hclosed ih => exact absurd (h.1 name rfl) (close_notMem_of_closedBy? hclosed)
  | case4 t rest hne ih =>
    rw [List.cons_append, expandConditionals_cons fun name ht => hne name ht, ih h.2,
      Expansion.append_assoc]

end Blocks

/-! ### Placeholders -/

/-- An expansion without the numbers of its pictures: for each picture, its key and the text up to
the next one. -/
structure Outline where
  front : List Char := []
  pictures : List (String × Image × List Char) := []
  warnings : List Warning := []
  stats : Stats := {}

/-- The expansion with its pictures numbered from `n`. -/
def Outline.numbered (o : Outline) (n : Nat) : Expansion where
  text := o.front ++ (o.pictures.zipIdx n).flatMap fun ((_, _, behind), i) => marker i ++ behind
  warnings := o.warnings
  stats := o.stats
  images := (o.pictures.zipIdx n).map fun ((key, image, _), i) => ⟨marker i, key, image⟩

/-- What comes of placeholders does not depend on the number of pictures before them, but for the
numbers of their own. -/
theorem exists_outline (data : DataTree) (options : Options) (ts : List Token) :
    ∃ o : Outline, ∀ n, expandPlaceholders data options n ts = o.numbered n := by
  induction ts with
  | nil => exact ⟨{}, fun n => rfl⟩
  | cons t ts ih =>
    obtain ⟨o, ho⟩ := ih
    cases hpicture : isPictureToken data t with
    | true =>
      obtain ⟨name, image, rfl, himage⟩ := exists_of_isPictureToken hpicture
      let e := expandValue options 0 name (.image image)
      refine ⟨⟨[], (name, image, o.front) :: o.pictures, e.warnings ++ o.warnings,
        e.stats + o.stats⟩, fun n => ?_⟩
      have htoken : expandToken data options n (.tag (.simple name))
          = expandValue options n name (.image image) := by
        rw [expandToken, expandPlaceholder_eq, himage, Option.elim_some]
      rw [expandPlaceholders_cons_eq, hpicture, if_pos rfl, htoken, ho]
      apply Expansion.ext' <;> simp [Outline.numbered, expandValue, e]
    | false =>
      let e := expandToken data options 0 t
      have himages : e.images = [] := by
        have hlength := length_images_expandToken data options 0 t
        rw [hpicture] at hlength
        exact List.eq_nil_of_length_eq_zero hlength
      refine ⟨⟨e.text ++ o.front, o.pictures, e.warnings ++ o.warnings, e.stats + o.stats⟩,
        fun n => ?_⟩
      rw [expandPlaceholders_cons_eq, hpicture, expandToken_of_plain data options hpicture,
        if_neg Bool.false_ne_true, Nat.add_zero, ho]
      apply Expansion.ext' <;> simp [Outline.numbered, himages, e]

/-! ### Copies of rows -/

section Tables

variable {data : DataTree} {options : Options} {d e : Nat} {s a : List Char}

theorem notMem_fieldTokens (hescape : options.escapeValues = true) (of : Repetition) (v : Value)
    {t : Token} (ht : '<' ∉ t.text) : '<' ∉ (fieldTokens options of v t).flatMap Token.text := by
  have hsame : '<' ∉ [t].flatMap Token.text := by simpa using ht
  cases t with
  | char c => exact hsame
  | tag t =>
    cases t with
    | simple name =>
      rw [fieldTokens, flatMap_text_map_tokenChar, fieldText]
      cases hw : (v.field? name).bind options.scalarText? with
      | none => exact List.not_mem_nil
      | some text =>
        obtain ⟨w, -, htext⟩ := Option.bind_eq_some_iff.1 hw
        exact fun hm => (angleFree_of_scalarText? hescape htext _ hm).1 rfl
    | table name =>
      rw [fieldTokens]
      split
      · exact List.not_mem_nil
      · exact hsame
    | loopOpen | condOpen | close | otherwise => exact hsame

/-- A copy for an item leads where the text does. -/
theorem LeadsRows.copy (h : LeadsRows d e s) (hescape : options.escapeValues = true)
    (of : Repetition) (v : Value) :
    LeadsRows d e (((tokens options.window s).flatMap (fieldTokens options of v)).flatMap
      Token.text) := by
  have hdata : ∀ {s}, '<' ∉ s →
      '<' ∉ ((tokens options.window s).flatMap (fieldTokens options of v)).flatMap Token.text := by
    intro s hs hm
    rw [List.flatMap_assoc] at hm
    obtain ⟨t, ht, hm⟩ := List.mem_flatMap.1 hm
    refine notMem_fieldTokens hescape of v (fun hm => hs ?_) hm
    rw [← text_tokens options.window s]
    exact List.mem_flatMap.2 ⟨t, ht, hm⟩
  induction h with
  | data hs => exact .data (hdata hs)
  | @piece d e f s body r hs hbody hstep _ ih =>
    have hread : tokens options.window (s ++ '<' :: (body ++ '>' :: r))
        = tokens options.window s
          ++ (('<' :: (body ++ ['>'])).map Token.char ++ tokens options.window r) := by
      rw [tokens_append_separator (by decide), tokens_braceFree_append hbody.braceFree,
        tokens_cons (tagAt?_eq_none_of_ne (by decide) r)]
      simp
    rw [hread, List.flatMap_append, List.flatMap_append, List.flatMap_append,
      flatMap_fieldTokens_map_char, flatMap_text_map_char_append]
    have hpiece := LeadsRows.piece (hdata hs) hbody hstep ih
    simpa using hpiece

/-- What comes of a row leads where the row does. -/
theorem LeadsRows.expandRow (h : LeadsRows d d s) (hescape : options.escapeValues = true)
    (name : String) : LeadsRows d d (expandRow data options name s).text := by
  rw [expandRow_eq]
  cases tableProblem? data name with
  | some w => exact .nil d
  | none =>
    rw [List.flatMap_assoc]
    exact .flatMap fun v _ => h.copy hescape .table v

/-! ### Rounds -/

theorem firstMark?_append_of_some {us : List Token} {found : List Char × String}
    (h : firstMark? us = some found) (vs : List Token) : firstMark? (us ++ vs) = some found := by
  induction us generalizing found with
  | nil => cases h
  | cons u us ih =>
    cases hmark : u.isMark with
    | true =>
      obtain ⟨name, rfl⟩ := u.exists_of_isMark hmark
      exact h
    | false =>
      rw [firstMark?_cons hmark, Option.map_eq_some_iff] at h
      obtain ⟨found', hfirst, rfl⟩ := h
      rw [List.cons_append, firstMark?_cons hmark, ih hfirst]
      rfl

/-- **A round for a mark in a text that closes its rows stays in that text**, whatever follows, and
what it leaves closes its rows as well. -/
theorem LeadsRows.tableRound_append (hescape : options.escapeValues = true)
    {done rest done' rest' : List Char} {note : Expansion} (hdone : LeadsRows 0 d done)
    (hrest : LeadsRows d 0 rest) (hbraces : BracesInTags options.window rest)
    (h : tableRound data options done rest = some (note, done', rest')) (b : List Char) :
    tableRound data options done (rest ++ b) = some (note, done', rest' ++ b) ∧
      ∃ m, LeadsRows 0 m done' ∧ LeadsRows m 0 rest' ∧ BracesInTags options.window rest' := by
  cases hfirst : firstMark? (tokens options.window rest) with
  | none => simp [tableRound, hfirst] at h
  | some found =>
    obtain ⟨between, name⟩ := found
    obtain ⟨after, rfl, hfits, -⟩ := exists_of_firstMark?_tokens hfirst
    have hmark := notMem_tagText hfits
    have hlength := length_text_table name
    have hlater : firstMark? (tokens options.window
        (between ++ ((Tag.table name).text ++ after) ++ b)) = some (between, name) := by
      rw [hbraces.tokens_append]
      exact firstMark?_append_of_some hfirst _
    have htext : between ++ ((Tag.table name).text ++ after) ++ b
        = between ++ ((Tag.table name).text ++ (after ++ b)) := by simp
    -- the mark stands in character data, where `n` rows are open
    obtain ⟨n, hbetween, hafter⟩ := hrest.cut (c := '{') (by decide)
    have hafter : LeadsRows n 0 after := .of_data_append hmark hafter
    have hbefore := hdone.append hbetween
    have hbraces' : BracesInTags options.window after := by
      rw [BracesInTags, tokens_append_text_append hfits] at hbraces
      exact fun c hc => hbraces c (by simp [hc])
    rw [tableRound_eq data hfirst rfl, rowStart_eq_unmatchedOpening? hbefore.inMarkup_eq,
      rowStop_append hmark hlength] at h
    rw [tableRound_eq data hlater htext, rowStart_eq_unmatchedOpening? hbefore.inMarkup_eq,
      rowStop_append hmark hlength, hafter.angleMarks_append, List.map_append]
    obtain ⟨-, hnone⟩ | ⟨m, front, row₁, rfl, hsplit, hfront, hrow₁, hstart⟩ :=
      hbefore.openings.found 0
    · rw [hnone] at h ⊢
      cases h
      exact ⟨rfl, n, hbefore, hafter, hbraces'⟩
    · obtain ⟨row₂, r, rfl, hrow₂, hr, hstop⟩ := hafter.closing rfl (Nat.zero_le m)
      have hcut : row₂ ++ '>' :: r = (row₂ ++ ['>']) ++ r := by simp
      have hstop' := hstop (done ++ between ++ (Tag.table name).text).length []
      rw [List.append_nil] at hstop'
      rw [hstart, hstop'] at h
      rw [hstart, hstop]
      simp only [Nat.add_sub_cancel_left, hcut, List.append_assoc (row₂ ++ ['>']), List.take_left,
        List.drop_left, hsplit, Option.some.injEq, Prod.mk.injEq] at h ⊢
      obtain ⟨rfl, rfl, rfl⟩ := h
      have hrow : LeadsRows m m (MailMerge.expandRow data options name
          (row₁ ++ (Tag.table name).text ++ (row₂ ++ ['>']))).text :=
        ((hrow₁.append (.data hmark)).append hrow₂).expandRow hescape name
      refine ⟨⟨rfl, rfl, rfl⟩, m, hfront.append (by simpa using hrow), hr, ?_⟩
      · rw [BracesInTags, tokens_append_separator (by decide)] at hbraces'
        exact fun c hc => hbraces' c (by simp [hc])

/-- Rounds pass over a text that closes its rows. -/
theorem LeadsRows.tableRound_append_left (data : DataTree) (options : Options)
    (ha : LeadsRows 0 0 a) (done rest : List Char) :
    tableRound data options (a ++ done) rest
      = (tableRound data options done rest).map
          fun (note, done', rest') => (note, a ++ done', rest') := by
  cases hfirst : firstMark? (tokens options.window rest) with
  | none => simp [tableRound, hfirst]
  | some found =>
    obtain ⟨between, name⟩ := found
    obtain ⟨after, hrest, hfits, -⟩ := exists_of_firstMark?_tokens hfirst
    rw [tableRound_eq data hfirst hrest, tableRound_eq data hfirst hrest, List.append_assoc a,
      ha.rowStart_append_left,
      LeadsRows.rowStop_append_left a (notMem_tagText hfits) (length_text_table name)]
    cases rowStart (done ++ between) ((Tag.table name).text ++ after) with
    | none => rfl
    | some start =>
      cases rowStop (done ++ between ++ (Tag.table name).text) after with
      | none => rfl
      | some stop =>
        have hinside : ∀ k, a.length + stop - (a.length + k) = stop - k := fun k => by omega
        simp only [Option.map_some, List.append_assoc, @List.length_append _ a, hinside,
          List.drop_length_add_append, List.take_length_add_append]

theorem LeadsRows.expandTablesFrom_append_left (ha : LeadsRows 0 0 a) (done rest : List Char) :
    expandTablesFrom data options (a ++ done) rest
      = .literal a ++ expandTablesFrom data options done rest := by
  fun_induction expandTablesFrom data options done rest with
  | case1 done rest hround =>
    have hround' := ha.tableRound_append_left data options done rest
    rw [hround] at hround'
    rw [expandTablesFrom_of_none hround', List.append_assoc, Expansion.literal_append]
  | case2 done rest note done' rest' hround _ ih =>
    have hround' := ha.tableRound_append_left data options done rest
    rw [hround] at hround'
    rw [expandTablesFrom_of_some hround', ih, ← Expansion.append_assoc,
      ← Expansion.literal_append_comm (text_note_of_tableRound hround), Expansion.append_assoc]

/-- **The table pass can be cut behind a text that closes its rows.** -/
theorem LeadsRows.expandTables_append (ha : LeadsRows 0 0 a) (hescape : options.escapeValues = true)
    (hbraces : BracesInTags options.window a) (b : List Char) :
    expandTables data options (a ++ b)
      = expandTables data options a ++ expandTables data options b := by
  suffices hfrom : ∀ done rest d, LeadsRows 0 d done → LeadsRows d 0 rest →
      BracesInTags options.window rest →
      expandTablesFrom data options done (rest ++ b)
        = expandTablesFrom data options done rest ++ expandTablesFrom data options [] b from
    hfrom [] a 0 (.nil 0) ha hbraces
  intro done rest
  fun_induction expandTablesFrom data options done rest with
  | case1 done rest hround =>
    -- no mark is left: what has been dealt with closes its rows
    intro d hdone hrest hbraces
    have hread : IsRead options.window (tokens options.window rest ++ tokens options.window b) := by
      rw [IsRead, List.flatMap_append, text_tokens, text_tokens, hbraces.tokens_append]
    have hskip := expandTablesFrom_tokens data (isMark_of_tableRound hround) hread done
    rw [text_tokens, text_tokens] at hskip
    rw [hskip, ← (hdone.append hrest).expandTablesFrom_append_left, List.append_nil]
  | case2 done rest note done' rest' hround _ ih =>
    intro d hdone hrest hbraces
    obtain ⟨hround', m, hdone', hrest', hbraces'⟩ :=
      hdone.tableRound_append hescape hrest hbraces hround b
    rw [expandTablesFrom_of_some hround', ih m hdone' hrest' hbraces', Expansion.append_assoc]

end Tables

/-! ### All passes -/

/-- **Texts expand independently.** Behind a text whose braces belong to tags, each pass can be cut:
the pass for loops when each loop that is opened there is closed there, and that for conditionals
likewise; the table pass, with escaped values, when the text ends in complete markup, its tags and
row tags stand in character data, and its row tags match; and the pass for placeholders always, with
the pictures behind numbered from the number of those in the text. -/
theorem passes_append (data : DataTree) (options : Options) {a : List Char}
    (ha : BracesInTags options.window a) (b : List Char) :
    (AllClosed Token.loop? (tokens options.window a) →
      expandLoops data options (tokens options.window (a ++ b))
        = expandLoops data options (tokens options.window a)
          ++ expandLoops data options (tokens options.window b)) ∧
      (AllClosed Token.cond? (tokens options.window a) →
        expandConditionals data (tokens options.window (a ++ b))
          = expandConditionals data (tokens options.window a)
            ++ expandConditionals data (tokens options.window b)) ∧
      (options.escapeValues = true → HasWholeRows options.window a →
        OutsideMarkup StartsRow false a →
          expandTables data options (a ++ b)
            = expandTables data options a ++ expandTables data options b) ∧
      ∃ o : Outline,
        expandPlaceholders data options 0 (tokens options.window b) = o.numbered 0 ∧
          let e := expandPlaceholders data options 0 (tokens options.window a)
          expandPlaceholders data options 0 (tokens options.window (a ++ b))
            = e ++ o.numbered e.images.length := by
  rw [ha.tokens_append]
  refine ⟨fun hloops => expandLoops_append hloops _,
    fun hconds => expandConditionals_append hconds _, fun hescape hwhole hrows => ?_, ?_⟩
  · have hmatched := hwhole.matched
    rw [rowMarks_eq] at hmatched
    exact (leadsRows_of_openAfter ha hwhole.complete hwhole.tags hrows 0
      hmatched).expandTables_append hescape ha b
  · obtain ⟨o, ho⟩ := exists_outline data options (tokens options.window b)
    refine ⟨o, ho 0, ?_⟩
    dsimp only
    rw [expandPlaceholders_append, length_images_expandPlaceholders, Nat.zero_add, ho]

/-- A loop, a conditional, a row and a picture in front of a text without any order. -/
theorem passes_append_malformed :
    let a := "\x7b#k\x7d\x7bn\x7d\x7b/k\x7d\x7b?c\x7dyes\x7b:else\x7dno\x7b/c\x7d".toList
      ++ "<w:tr>\x7btable:k\x7d\x7bn\x7d</w:tr>\x7blogo\x7d".toList
    let b := "\x7b/k\x7d</w:tr>\x7btable:k\x7d\x7blogo\x7d<w:tr><\x7b#k\x7d\x7b".toList
    let data : DataTree :=
      ⟨[("k", .list [.map ⟨[("n", .string "\x7b/c\x7d<")]⟩, .null]), ("logo", .image dot)]⟩
    let options : Options := {}
    (BracesInTags options.window a ∧ AllClosed Token.loop? (tokens options.window a) ∧
        AllClosed Token.cond? (tokens options.window a) ∧ options.escapeValues = true ∧
        HasWholeRows options.window a ∧ OutsideMarkup StartsRow false a) ∧
      expandLoops data options (tokens options.window (a ++ b))
        = expandLoops data options (tokens options.window a)
          ++ expandLoops data options (tokens options.window b) ∧
      expandConditionals data (tokens options.window (a ++ b))
        = expandConditionals data (tokens options.window a)
          ++ expandConditionals data (tokens options.window b) ∧
      expandTables data options (a ++ b)
        = expandTables data options a ++ expandTables data options b ∧
      ∃ o : Outline,
        expandPlaceholders data options 0 (tokens options.window b) = o.numbered 0 ∧
          let e := expandPlaceholders data options 0 (tokens options.window a)
          expandPlaceholders data options 0 (tokens options.window (a ++ b))
            = e ++ o.numbered e.images.length := by
  intro a b data options
  have hbraces : BracesInTags options.window a := by decide +kernel
  have hloops : AllClosed Token.loop? (tokens options.window a) := by decide +kernel
  have hconds : AllClosed Token.cond? (tokens options.window a) := by decide +kernel
  have hwhole : HasWholeRows options.window a :=
    ⟨by decide +kernel, by decide +kernel, by decide +kernel⟩
  have hrows : OutsideMarkup StartsRow false a := by decide +kernel
  obtain ⟨hl, hc, ht, hp⟩ := passes_append data options hbraces b
  exact ⟨⟨hbraces, hloops, hconds, rfl, hwhole, hrows⟩, hl hloops, hc hconds,
    ht rfl hwhole hrows, hp⟩

/-- A row tag that starts inside of markup: taking the row away leaves an angle bracket that starts
a row in the text behind. -/
theorem expandTables_append_ne_stray :
    let a := "<<w:tr>\x7btable:q\x7d</w:tr>".toList
    let b := "w:tr>\x7btable:k\x7d</w:tr>".toList
    let data : DataTree := ⟨[]⟩
    let options : Options := {}
    (BracesInTags options.window a ∧ options.escapeValues = true ∧
        HasWholeRows options.window a) ∧
      expandTables data options (a ++ b)
        ≠ expandTables data options a ++ expandTables data options b := by
  intro a b data options
  refine ⟨⟨by decide +kernel, rfl, by decide +kernel, by decide +kernel, by decide +kernel⟩,
    fun heq => ?_⟩
  have htext := congrArg Expansion.text heq
  revert htext
  decide +kernel

end MailMerge
