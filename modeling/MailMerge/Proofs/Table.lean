import MailMerge.Proofs.Rows

/-!
# Marked table rows

The table pass edits a text in place: a round resolves the first mark, and the next one goes on
behind the row. On a list of rows (`Rows`) in which a row with a mark of its own holds no other
mark, it does what recursion on the rows says (`expandTables_rows`): `Rows.fill` puts a copy for
each item in place of a marked row, and drops marks outside of all rows; `Rows.warnings` says what
is noted.

What has been dealt with is never looked at again, since the row around the next mark starts behind
it. So the induction on the rows (`expandTablesFrom_rows`) carries that text along as it is,
whatever values may have been put into it.
-/

namespace MailMerge

open Markup

/-! ### Lists that are read back -/

/-- A list of tokens that is read back from its own text. -/
def IsRead (window : Nat) (ts : List Token) : Prop :=
  tokens window (ts.flatMap Token.text) = ts

namespace IsRead

variable {window : Nat}

theorem tail {t : Token} {ts : List Token} (h : IsRead window (t :: ts)) : IsRead window ts := by
  unfold IsRead at h ⊢
  rw [List.flatMap_cons] at h
  generalize hs : ts.flatMap Token.text = r at h ⊢
  cases hw : t.text ++ r with
  | nil => simp [hw] at h
  | cons c s =>
    rw [hw] at h
    cases htag : tagAt? window (c :: s) with
    | some found =>
      obtain ⟨u, rest⟩ := found
      obtain ⟨hfits, hu⟩ := tagAt?_eq_some_iff.1 htag
      rw [hu, tokens_text_append hfits] at h
      obtain ⟨rfl, hrest⟩ := List.cons.inj h
      obtain rfl : r = rest := List.append_cancel_left (hw.trans hu)
      exact hrest
    | none =>
      rw [tokens_cons htag] at h
      obtain ⟨rfl, hrest⟩ := List.cons.inj h
      obtain rfl : r = s := (List.cons.inj hw).2
      exact hrest

theorem of_append_right {us vs : List Token} (h : IsRead window (us ++ vs)) : IsRead window vs := by
  induction us with
  | nil => exact h
  | cons u us ih => exact ih h.tail

/-- What comes before a character that stands in no tag is read back, and with that character. -/
theorem of_append_separator {us vs : List Token} {d : Char} (hd : Tag.isSeparator d = true)
    (h : IsRead window (us ++ .char d :: vs)) : IsRead window (us ++ [.char d]) := by
  have hvs : IsRead window vs := h.of_append_right.tail
  unfold IsRead at h hvs ⊢
  simp only [List.flatMap_append, List.flatMap_cons, List.flatMap_nil, Token.text,
    List.singleton_append] at h ⊢
  rw [tokens_append_separator hd, hvs] at h
  rw [tokens_append_separator hd, List.append_cancel_right h, tokens_nil]

/-- What comes before a tag is read back. -/
theorem of_append_tag {us vs : List Token} {t : Tag} (h : IsRead window (us ++ .tag t :: vs)) :
    IsRead window us := by
  have hfits : t.Fits window := by
    refine fits_of_mem_tokens (s := (us ++ .tag t :: vs).flatMap Token.text) ?_
    rw [h]
    simp
  have hvs : IsRead window vs := h.of_append_right.tail
  unfold IsRead at h hvs ⊢
  rw [List.flatMap_append, List.flatMap_cons, Token.text, tokens_append_text_append hfits, hvs] at h
  exact List.append_cancel_right h

theorem named {ts : List Token} (h : IsRead window ts) {t : Tag} (ht : .tag t ∈ ts) :
    t.IsNamed := by
  rw [← h] at ht
  exact (fits_of_mem_tokens ht).named

end IsRead

/-! ### Rounds -/

section Rounds

variable (data : DataTree) {options : Options}

/-- A token that marks no row may as well be dealt with already. -/
theorem tableRound_token {t : Token} (ht : t.isMark = false) {ts : List Token}
    (h : IsRead options.window (t :: ts)) (done : List Char) :
    tableRound data options done (t.text ++ ts.flatMap Token.text)
      = tableRound data options (done ++ t.text) (ts.flatMap Token.text) := by
  have hts : tokens options.window (ts.flatMap Token.text) = ts := h.tail
  have hcons : tokens options.window (t.text ++ ts.flatMap Token.text) = t :: ts := h
  rw [tableRound, tableRound, hcons, hts, firstMark?_cons ht]
  cases firstMark? ts with
  | none => rfl
  | some found =>
    obtain ⟨between, name⟩ := found
    have hdrop : (t.text ++ ts.flatMap Token.text).drop
        ((t.text ++ between).length + (Tag.table name).text.length)
        = (ts.flatMap Token.text).drop (between.length + (Tag.table name).text.length) := by
      rw [List.length_append, Nat.add_assoc, List.drop_append, List.drop_eq_nil_of_le (by omega),
        Nat.add_sub_cancel_left, List.nil_append]
    simp only [Option.map_some, hdrop, ← List.append_assoc]

theorem expandTablesFrom_token {t : Token} (ht : t.isMark = false) {ts : List Token}
    (h : IsRead options.window (t :: ts)) (done : List Char) :
    expandTablesFrom data options done (t.text ++ ts.flatMap Token.text)
      = expandTablesFrom data options (done ++ t.text) (ts.flatMap Token.text) := by
  have hround := tableRound_token data ht h done
  cases hr : tableRound data options (done ++ t.text) (ts.flatMap Token.text) with
  | none =>
    rw [expandTablesFrom_of_none hr, expandTablesFrom_of_none (hround.trans hr), List.append_assoc]
  | some round =>
    obtain ⟨note, done', rest'⟩ := round
    rw [expandTablesFrom_of_some hr, expandTablesFrom_of_some (hround.trans hr)]

theorem expandTablesFrom_tokens {us : List Token} (hu : ∀ t ∈ us, t.isMark = false)
    {vs : List Token} (h : IsRead options.window (us ++ vs)) (done : List Char) :
    expandTablesFrom data options done (us.flatMap Token.text ++ vs.flatMap Token.text)
      = expandTablesFrom data options (done ++ us.flatMap Token.text) (vs.flatMap Token.text) := by
  induction us generalizing done with
  | nil => simp
  | cons u us ih =>
    have hus : ∀ t ∈ us, t.isMark = false := fun t ht => hu t (List.mem_cons_of_mem _ ht)
    have hread : IsRead options.window (u :: (us ++ vs)) := h
    have hstep := expandTablesFrom_token data (hu u List.mem_cons_self) hread done
    rw [List.flatMap_append] at hstep
    rw [List.flatMap_cons, List.append_assoc, hstep, ih hus hread.tail, List.append_assoc]

theorem expandTablesFrom_chars {s : List Char} {vs : List Token}
    (h : IsRead options.window (s.map .char ++ vs)) (done : List Char) :
    expandTablesFrom data options done (s ++ vs.flatMap Token.text)
      = expandTablesFrom data options (done ++ s) (vs.flatMap Token.text) := by
  have hmark : ∀ t ∈ s.map Token.char, t.isMark = false := by
    intro t ht
    obtain ⟨c, -, rfl⟩ := List.mem_map.1 ht
    rfl
  simpa only [flatMap_text_map_tokenChar] using expandTablesFrom_tokens data hmark h done

/-- The round for a mark with a row around it. -/
theorem tableRound_mark {name : String} {ts : List Token}
    (h : IsRead options.window (.tag (.table name) :: ts)) {before : List Char} {start inside : Nat}
    (hstart : rowStart before ((Tag.table name).text ++ ts.flatMap Token.text) = some start)
    (hstop : rowStop (before ++ (Tag.table name).text) (ts.flatMap Token.text)
      = some ((before ++ (Tag.table name).text).length + inside)) {row : List Char}
    (hrow : before.drop start ++ (Tag.table name).text ++ (ts.flatMap Token.text).take inside
      = row) :
    tableRound data options before ((Tag.table name).text ++ ts.flatMap Token.text) =
      some ((expandRow data options name row).withoutText,
        before.take start ++ (expandRow data options name row).text,
        (ts.flatMap Token.text).drop inside) := by
  have hcons : tokens options.window ((Tag.table name).text ++ ts.flatMap Token.text)
      = .tag (.table name) :: ts := h
  have hinside : (before ++ (Tag.table name).text).length + inside
      - (before.length + (Tag.table name).text.length) = inside := by
    rw [List.length_append, Nat.add_sub_cancel_left]
  rw [tableRound, hcons, firstMark?]
  simp only [List.append_nil, List.length_nil, Nat.zero_add, List.drop_left, hstart, hstop, hinside,
    hrow]

/-- The round for a mark outside of all rows. -/
theorem tableRound_loose {name : String} {ts : List Token}
    (h : IsRead options.window (.tag (.table name) :: ts)) {before : List Char}
    (hstop : rowStop (before ++ (Tag.table name).text) (ts.flatMap Token.text) = none) :
    tableRound data options before ((Tag.table name).text ++ ts.flatMap Token.text) =
      some (.warning (.outsideRow name), before, ts.flatMap Token.text) := by
  have hcons : tokens options.window ((Tag.table name).text ++ ts.flatMap Token.text)
      = .tag (.table name) :: ts := h
  rw [tableRound, hcons, firstMark?]
  simp only [List.append_nil, List.length_nil, Nat.zero_add, List.drop_left, hstop]
  cases rowStart before ((Tag.table name).text ++ ts.flatMap Token.text) <;> rfl

theorem length_text_table (name : String) : 2 ≤ (Tag.table name).text.length := by
  simp [Tag.text]

end Rounds

/-! ### What marked rows stand for -/

/-- Why there is nothing to repeat a row for, if so: the data have no list with items there. -/
def tableProblem? (data : DataTree) (name : String) : Option Warning :=
  match data.get? name with
  | none | some .null => some (.noData .table name)
  | some (.list []) => some (.emptyList .table name)
  | some (.list (_ :: _)) => none
  | some v => some (.notList .table name v.typeName)

namespace Rows

/-- The name in the first mark that stands in no row of the list. -/
def mark? : Rows → Option String
  | nil => none
  | token (.tag (.table name)) _ => some name
  | token _ rest => rest.mark?
  | row _ _ _ rest => rest.mark?

/-- The number of marks, at any depth. -/
def markCount (rows : Rows) : Nat :=
  rows.print.countP Token.isMark

/-- A row with a mark of its own holds no other mark. -/
def MarkedOnce : Rows → Prop
  | nil => True
  | token _ rest => rest.MarkedOnce
  | row _ _ body rest =>
    (body.mark?.isSome → body.markCount = 1) ∧ body.MarkedOnce ∧ rest.MarkedOnce

instance instDecidableMarkedOnce : (rows : Rows) → Decidable rows.MarkedOnce
  | nil => isTrue trivial
  | token _ rest => instDecidableMarkedOnce rest
  | row _ _ body rest =>
    have := instDecidableMarkedOnce body
    have := instDecidableMarkedOnce rest
    inferInstanceAs (Decidable (_ ∧ _ ∧ _))

variable (data : DataTree) (options : Options)

/-- The text in which a copy for each item takes the place of a marked row, and the marks outside of
all rows are gone. -/
def fill : Rows → List Char
  | nil => []
  | token (.tag (.table _)) rest => rest.fill
  | token t rest => t.text ++ rest.fill
  | row opening closing body rest =>
    (match body.mark? with
      | some name =>
        (itemsOf data name).flatMap fun v =>
          ((row opening closing body nil).print.flatMap
            (fieldTokens options .table v)).flatMap Token.text
      | none => openingTag opening ++ (body.fill ++ closingTag closing)) ++ rest.fill

/-- What is noted about the marks: one warning for a row without items or a mark outside of all
rows, and what is noted about fields in copies. -/
def warnings : Rows → List Warning
  | nil => []
  | token (.tag (.table name)) rest => .outsideRow name :: rest.warnings
  | token _ rest => rest.warnings
  | row _ _ body rest =>
    (match body.mark? with
      | some name =>
        match tableProblem? data name with
        | some w => [w]
        | none =>
          (itemsOf data name).flatMap fun v => body.print.flatMap (fieldWarnings options name v)
      | none => body.warnings) ++ rest.warnings

/-- The number of marked rows for which there are items. -/
def repeated : Rows → Nat
  | nil => 0
  | token _ rest => rest.repeated
  | row _ _ body rest =>
    (match body.mark? with
      | some name => if (tableProblem? data name).isSome then 0 else 1
      | none => body.repeated) + rest.repeated

/-- What is noted about the marks, and the count. -/
def notes (rows : Rows) : Expansion :=
  { warnings := rows.warnings data options, stats := { tables := rows.repeated data } }

end Rows

/-! ### Rows are filled -/

/-- What comes of a marked row. -/
theorem expandRow_eq (data : DataTree) (options : Options) (name : String) (row : List Char) :
    expandRow data options name row =
      match tableProblem? data name with
      | some w => .warning w
      | none =>
        { text := ((itemsOf data name).flatMap fun v =>
            (tokens options.window row).flatMap (fieldTokens options .table v)).flatMap Token.text
          warnings := (itemsOf data name).flatMap fun v =>
            (tokens options.window row).flatMap (fieldWarnings options name v)
          stats := { tables := 1 } } := by
  simp only [expandRow, listFor, itemsOf, tableProblem?]
  cases data.get? name with
  | none => rfl
  | some v =>
    cases v with
    | list items =>
      cases items with
      | nil => rfl
      | cons item items =>
        dsimp only
        rw [expandItems_eq]
        apply Expansion.ext' <;> simp
    | _ => rfl

theorem itemsOf_eq_nil_of_tableProblem? {data : DataTree} {name : String} {w : Warning}
    (h : tableProblem? data name = some w) : itemsOf data name = [] := by
  unfold tableProblem? at h
  unfold itemsOf
  cases hv : data.get? name with
  | none => rfl
  | some v =>
    cases v with
    | list items =>
      cases items with
      | nil => rfl
      | cons item items => simp [hv] at h
    | _ => rfl

namespace Rows

variable {data : DataTree} {options : Options}

theorem mark?_token {t : Token} (ht : t.isMark = false) (rest : Rows) :
    (token t rest).mark? = rest.mark? := by
  rw [mark?]
  exact t.ne_table_of_isMark ht

theorem fill_token {t : Token} (ht : t.isMark = false) (rest : Rows) :
    (token t rest).fill data options = t.text ++ rest.fill data options := by
  rw [fill]
  exact t.ne_table_of_isMark ht

theorem notes_token {t : Token} (ht : t.isMark = false) (rest : Rows) :
    (token t rest).notes data options = rest.notes data options := by
  simp only [notes, repeated]
  rw [warnings]
  exact t.ne_table_of_isMark ht

theorem notes_mark (name : String) (rest : Rows) :
    (token (.tag (.table name)) rest).notes data options
      = .warning (.outsideRow name) ++ rest.notes data options := by
  apply Expansion.ext' <;> simp [notes, warnings, repeated]

theorem notes_row (opening closing : List Char) (body rest : Rows) :
    (row opening closing body rest).notes data options
      = (row opening closing body nil).notes data options ++ rest.notes data options := by
  apply Expansion.ext'
  · rfl
  · simp [notes, warnings]
  · apply Stats.ext' <;> simp [notes, repeated]
  · rfl

theorem fill_row (opening closing : List Char) (body rest : Rows) :
    (row opening closing body rest).fill data options
      = (row opening closing body nil).fill data options ++ rest.fill data options := by
  simp [fill]

theorem markCount_pos_of_mark? {rows : Rows} (h : rows.mark?.isSome) : 0 < rows.markCount := by
  induction rows with
  | nil => cases h
  | token t rest ih =>
    cases ht : t.isMark with
    | true => simp [markCount, print, ht]
    | false =>
      have := ih (mark?_token ht rest ▸ h)
      simpa [markCount, print, ht] using this
  | row opening closing body rest _ ih =>
    have := ih h
    simp only [markCount, print, List.countP_append] at this ⊢
    omega

/-- The mark of a row stands behind rows and tokens without marks. -/
theorem exists_append_of_mark? {rows : Rows} {name : String} (h : rows.mark? = some name)
    (hone : rows.markCount = 1) :
    ∃ before after : Rows, rows = before.append (token (.tag (.table name)) after) ∧
      ∀ t ∈ before.print, t.isMark = false := by
  induction rows with
  | nil => cases h
  | token t rest ih =>
    cases ht : t.isMark with
    | true =>
      obtain ⟨n, rfl⟩ := t.exists_of_isMark ht
      obtain rfl : n = name := by simpa [mark?] using h
      exact ⟨nil, rest, rfl, by simp [print]⟩
    | false =>
      obtain ⟨before, after, rfl, hbefore⟩ :=
        ih (mark?_token ht rest ▸ h) (by simpa [markCount, print, ht] using hone)
      exact ⟨token t before, after, rfl, by simpa [print, ht] using hbefore⟩
  | row opening closing body rest _ ih =>
    have hpos : 0 < rest.markCount := markCount_pos_of_mark? (h ▸ rfl : rest.mark?.isSome)
    -- the one mark stands in the rest, and none in the row
    have hcount : body.markCount = 0 ∧ rest.markCount = 1 := by
      simp only [markCount, print, List.countP_append] at hone hpos ⊢
      omega
    have hbody : ∀ t ∈ body.print, t.isMark = false := by
      simpa [markCount, List.countP_eq_zero] using hcount.1
    obtain ⟨before, after, rfl, hbefore⟩ := ih h hcount.2
    refine ⟨row opening closing body before, after, rfl, fun t ht => ?_⟩
    simp only [print, List.mem_append, List.mem_map] at ht
    rcases ht with ⟨c, -, rfl⟩ | ht | ⟨c, -, rfl⟩ | ht
    · rfl
    · exact hbody t ht
    · rfl
    · exact hbefore t ht

/-- A marked row gives way to its copies. -/
theorem expandTablesFrom_row {opening closing : List Char} {before after : Rows} {name : String}
    {body : Rows} (hsplit : body = before.append (token (.tag (.table name)) after))
    (hbefore : ∀ t ∈ before.print, t.isMark = false) {ts : List Token}
    (hread : IsRead options.window ((row opening closing body nil).print ++ ts))
    (ho : IsOpeningTail opening ∧ '<' ∉ opening) (hc : IsClosingTail closing ∧ '<' ∉ closing)
    (hbody : body.Tagged (closingTag closing ++ ts.flatMap Token.text)) (done : List Char) :
    expandTablesFrom data options done
        ((row opening closing body nil).text ++ ts.flatMap Token.text) =
      (expandRow data options name (row opening closing body nil).text).withoutText ++
        expandTablesFrom data options
          (done ++ (expandRow data options name (row opening closing body nil).text).text)
          (ts.flatMap Token.text) := by
  subst hsplit
  obtain ⟨htbefore, -, htafter⟩ := tagged_append.1 hbody
  generalize hrow : (row opening closing (before.append (token (.tag (.table name)) after))
    nil).text = rowText
  -- the text before the mark, and the tokens after it
  obtain ⟨us, hus⟩ : ∃ us, us = (openingTag opening).map Token.char ++ before.print := ⟨_, rfl⟩
  obtain ⟨vs, hvs⟩ : ∃ vs, vs = after.print ++ ((closingTag closing).map Token.char ++ ts) :=
    ⟨_, rfl⟩
  have hustext : us.flatMap Token.text = openingTag opening ++ before.text := by
    simp [hus, List.flatMap_append, flatMap_text_map_tokenChar, text]
  have hvstext : vs.flatMap Token.text
      = after.text ++ (closingTag closing ++ ts.flatMap Token.text) := by
    simp [hvs, List.flatMap_append, flatMap_text_map_tokenChar, text]
  have hread' : IsRead options.window (us ++ .tag (.table name) :: vs) := by
    simpa [hus, hvs, print, print_append] using hread
  have hmarks : ∀ t ∈ us, t.isMark = false := by
    intro t ht
    rw [hus, List.mem_append] at ht
    rcases ht with ht | ht
    · obtain ⟨c, -, rfl⟩ := List.mem_map.1 ht
      rfl
    · exact hbefore t ht
  have hangle : '<' ∉ (Tag.table name).text :=
    Tag.notMem_text (hread'.named (t := .table name) (by simp)) (by decide)
  have hstart : rowStart (done ++ us.flatMap Token.text)
      ((Tag.table name).text ++ vs.flatMap Token.text) = some done.length := by
    rw [hustext]
    refine rowStart_eq ho.1 ho.2 ?_ (fun t ht => hread'.named (by simp [hus, ht])) done
    simpa [hvstext, Token.text] using htbefore
  have hstop : rowStop (done ++ us.flatMap Token.text ++ (Tag.table name).text)
      (vs.flatMap Token.text) = some ((done ++ us.flatMap Token.text
        ++ (Tag.table name).text).length + (after.text ++ closingTag closing).length) := by
    rw [hvstext, rowStop_eq hc.1 hc.2 hangle (length_text_table name) htafter
      (fun t ht => hread'.named (by simp [hvs, ht])), Nat.add_assoc,
      ← List.length_append]
  have hcut : (done ++ us.flatMap Token.text).drop done.length ++ (Tag.table name).text
      ++ (vs.flatMap Token.text).take (after.text ++ closingTag closing).length = rowText := by
    rw [← hrow, List.drop_left, hustext, hvstext, ← List.append_assoc after.text, List.take_left]
    simp [text_append, Token.text]
  have hround := tableRound_mark data hread'.of_append_right hstart hstop hcut
  rw [List.take_left, hvstext, ← List.append_assoc after.text, List.drop_left] at hround
  have htext : rowText ++ ts.flatMap Token.text = us.flatMap Token.text
      ++ (Token.tag (.table name) :: vs).flatMap Token.text := by
    rw [← hrow, List.flatMap_cons, hustext, hvstext]
    simp [text_append]
  rw [htext, expandTablesFrom_tokens data hmarks hread', List.flatMap_cons, hvstext,
    ← List.append_assoc after.text]
  exact expandTablesFrom_of_some hround

theorem isRead_row {opening closing : List Char} {body rest : Rows} {ts : List Token}
    (h : IsRead options.window ((row opening closing body rest).print ++ ts)) :
    IsRead options.window (row opening closing body nil).print := by
  have hlast : (row opening closing body nil).print = (openingTag opening).map Token.char ++
      (body.print ++ ('<' :: '/' :: (rowName ++ closing)).map Token.char) ++ [.char '>'] := by
    simp [print, closingTag]
  rw [hlast]
  have hsep : Tag.isSeparator '>' = true := by decide
  refine IsRead.of_append_separator hsep (?_ : IsRead options.window (_ ++ _ :: (rest.print ++ ts)))
  simpa [print, closingTag] using h

theorem flatMap_fieldWarnings_row (owner : String) (v : Value) (opening closing : List Char)
    (body : Rows) :
    (row opening closing body nil).print.flatMap (fieldWarnings options owner v)
      = body.print.flatMap (fieldWarnings options owner v) := by
  have hchars : ∀ s : List Char,
      (s.map Token.char).flatMap (fieldWarnings options owner v) = [] := by
    intro s
    simp [List.flatMap_map, fieldWarnings]
  simp [print, hchars]

/-- What comes of a marked row, said by the rows. -/
theorem expandRow_row (data : DataTree) {opening closing : List Char} {body rest : Rows}
    {name : String} (hmark : body.mark? = some name) {ts : List Token}
    (h : IsRead options.window ((row opening closing body rest).print ++ ts)) :
    (expandRow data options name (row opening closing body nil).text).withoutText
        = (row opening closing body nil).notes data options ∧
      (expandRow data options name (row opening closing body nil).text).text
        = (row opening closing body nil).fill data options := by
  have hread : tokens options.window (row opening closing body nil).text
      = (row opening closing body nil).print := isRead_row h
  rw [expandRow_eq, hread]
  simp only [notes, warnings, repeated, fill, hmark, List.append_nil, Nat.add_zero]
  cases hproblem : tableProblem? data name with
  | none =>
    constructor
    · simp only [flatMap_fieldWarnings_row]
      rfl
    · simp only [List.flatMap_assoc]
  | some w =>
    rw [itemsOf_eq_nil_of_tableProblem? hproblem]
    exact ⟨rfl, rfl⟩

/-- A row without a mark of its own stays, around what comes of its body. -/
theorem expandTablesFrom_row_of_mark?_eq_none (data : DataTree) {opening closing : List Char}
    {body : Rows} (hmark : body.mark? = none) {ts : List Token}
    (hread : IsRead options.window ((row opening closing body nil).print ++ ts))
    (hbody : ∀ done, expandTablesFrom data options done
        (body.text ++ ((closingTag closing).map Token.char ++ ts).flatMap Token.text) =
      body.notes data options ++ expandTablesFrom data options (done ++ body.fill data options)
        (((closingTag closing).map Token.char ++ ts).flatMap Token.text)) (done : List Char) :
    expandTablesFrom data options done
        ((row opening closing body nil).text ++ ts.flatMap Token.text) =
      (row opening closing body nil).notes data options ++
        expandTablesFrom data options (done ++ (row opening closing body nil).fill data options)
          (ts.flatMap Token.text) := by
  have hnotes : (row opening closing body nil).notes data options = body.notes data options := by
    simp [notes, warnings, repeated, hmark]
  have hfill : (row opening closing body nil).fill data options
      = openingTag opening ++ (body.fill data options ++ closingTag closing) := by
    simp [fill, hmark]
  have htext : (row opening closing body nil).text ++ ts.flatMap Token.text
      = openingTag opening ++
        (body.print ++ ((closingTag closing).map Token.char ++ ts)).flatMap Token.text := by
    simp [text, print, List.flatMap_append, flatMap_text_map_tokenChar]
  have hreado : IsRead options.window ((openingTag opening).map Token.char ++
      (body.print ++ ((closingTag closing).map Token.char ++ ts))) := by
    simpa [print] using hread
  rw [hnotes, hfill, htext, expandTablesFrom_chars data hreado, List.flatMap_append]
  refine (hbody _).trans ?_
  rw [flatMap_text_map_char_append,
    expandTablesFrom_chars data hreado.of_append_right.of_append_right]
  simp only [List.append_assoc]

/-- **The table pass on rows, part by part.** What has been dealt with stays as it is; what follows
the rows matters only for a mark outside of all of them. -/
theorem expandTablesFrom_rows (data : DataTree) {rows : Rows} {ts : List Token}
    (hread : IsRead options.window (rows.print ++ ts))
    (htagged : rows.Tagged (ts.flatMap Token.text)) (honce : rows.MarkedOnce)
    (hloose : ts = [] ∨ rows.mark? = none) (done : List Char) :
    expandTablesFrom data options done (rows.text ++ ts.flatMap Token.text) =
      rows.notes data options ++
        expandTablesFrom data options (done ++ rows.fill data options)
          (ts.flatMap Token.text) := by
  induction rows generalizing ts done with
  | nil =>
    rw [fill, List.append_nil]
    exact (Expansion.empty_append _).symm
  | token t rest ih =>
    have hreadr : IsRead options.window (rest.print ++ ts) := hread.tail
    cases ht : t.isMark with
    | false =>
      have hread' : IsRead options.window (t :: (rest.print ++ ts)) := hread
      have hstep := expandTablesFrom_token data ht hread' done
      rw [List.flatMap_append] at hstep
      rw [text_token, List.append_assoc, notes_token ht, fill_token ht, ← List.append_assoc done,
        ← ih hreadr htagged.2 honce (mark?_token ht rest ▸ hloose)]
      exact hstep
    | true =>
      obtain ⟨name, rfl⟩ := t.exists_of_isMark ht
      obtain rfl : ts = [] := hloose.resolve_right (by simp [mark?])
      rw [List.append_nil] at hread hreadr
      have hangle : '<' ∉ (Tag.table name).text :=
        Tag.notMem_text (hread.named List.mem_cons_self) (by decide)
      -- behind a mark outside of all rows each row that stops has started there
      have hstop := rowStop_eq_none hangle (length_text_table name) htagged.2
        (fun t ht => hread.named (List.mem_cons_of_mem _ ht)) done
      have hround := tableRound_loose data hread hstop
      have hreadr' : IsRead options.window (rest.print ++ []) := by simpa using hreadr
      have ih := ih hreadr' htagged.2 honce (Or.inl rfl) done
      rw [List.flatMap_nil, List.append_nil] at ih
      rw [text_token, notes_mark, fill, List.flatMap_nil, List.append_nil, Expansion.append_assoc,
        ← ih]
      exact expandTablesFrom_of_some hround
  | row opening closing body rest ihb ihr =>
    obtain ⟨ho, hc, hbody, hrest⟩ := htagged
    obtain ⟨hone, honceb, honcer⟩ := honce
    have hsplit : (row opening closing body rest).text ++ ts.flatMap Token.text
        = (row opening closing body nil).text ++ (rest.print ++ ts).flatMap Token.text := by
      simp [text, print, List.flatMap_append]
    have hreadrow : IsRead options.window
        ((row opening closing body nil).print ++ (rest.print ++ ts)) := by
      simpa [print] using hread
    have ihr := ihr hreadrow.of_append_right hrest honcer hloose
    have htext : rest.text ++ ts.flatMap Token.text = (rest.print ++ ts).flatMap Token.text :=
      List.flatMap_append.symm
    rw [notes_row, fill_row, Expansion.append_assoc, ← List.append_assoc done, ← ihr, hsplit, htext]
    -- a mark of its own decides whether the row is filled as a whole or part by part
    cases hmark : body.mark? with
    | some name =>
      obtain ⟨before, after, happend, hbefore⟩ :=
        exists_append_of_mark? hmark (hone (by simp [hmark]))
      obtain ⟨hnotes, hfill⟩ := expandRow_row data hmark hread
      rw [← hnotes, ← hfill]
      exact expandTablesFrom_row happend hbefore hreadrow ho hc (by rwa [← htext]) done
    | none =>
      refine expandTablesFrom_row_of_mark?_eq_none data hmark hreadrow (fun done => ?_) done
      have hreadb : IsRead options.window ((openingTag opening).map Token.char ++
          (body.print ++ ((closingTag closing).map Token.char ++ (rest.print ++ ts)))) := by
        simpa [print] using hreadrow
      refine ihb hreadb.of_append_right ?_ honceb (Or.inr hmark) done
      rwa [flatMap_text_map_char_append, ← htext]

end Rows

/-- **The table pass fills rows.** A text is a list of rows whose row tags are all there are, and a
row with a mark of its own holds no other mark. Then each marked row gives way to its copies, marks
outside of all rows are dropped, and everything else stays. -/
theorem expandTables_rows {data : DataTree} {options : Options} {s : List Char} {rows : Rows}
    (hread : tokens options.window s = rows.print) (htagged : rows.Tagged [])
    (honce : rows.MarkedOnce) :
    (expandTables data options s).text = rows.fill data options ∧
      (expandTables data options s).warnings = rows.warnings data options ∧
      (expandTables data options s).stats = { tables := rows.repeated data } := by
  have hs : s = rows.text := by
    rw [Rows.text, ← hread, text_tokens]
  have hprint : IsRead options.window rows.print := by
    rw [IsRead, ← Rows.text, ← hs, hread]
  have hprint' : IsRead options.window (rows.print ++ []) := by simpa using hprint
  have hrows := Rows.expandTablesFrom_rows data hprint' htagged honce (Or.inl rfl) []
  have hend : tableRound data options ([] ++ rows.fill data options) [] = none := by
    simp [tableRound, firstMark?]
  rw [List.flatMap_nil, List.append_nil, expandTablesFrom_of_none hend] at hrows
  rw [expandTables, hs, hrows]
  exact ⟨by simp [Rows.notes], by simp [Rows.notes], by simp [Rows.notes]⟩

/-- A table around a marked row with two items and one that is `null`, a row without data, and a
mark outside of all rows. -/
theorem expandTables_rows_names :
    let s := "<w:tr a><w:tbl><w:tr>{table:names}<w:tr/>{n}</w:tr>".toList
      ++ "<w:tr>{m}{table:none}</w:tr ></w:tbl></w:tr>{table:names}!".toList
    let chars : List Char → Rows → Rows :=
      fun s rest => s.foldr (fun c rest => .token (.char c) rest) rest
    let rows : Rows :=
      .row " a".toList []
        (chars "<w:tbl>".toList
          (.row [] [] (.token (.tag (.table "names")) (chars "<w:tr/>".toList
              (.token (.tag (.simple "n")) .nil)))
            (.row [] " ".toList (.token (.tag (.simple "m")) (.token (.tag (.table "none")) .nil))
              (chars "</w:tbl>".toList .nil))))
        (.token (.tag (.table "names")) (chars "!".toList .nil))
    let data : DataTree :=
      ⟨[("names", .list
        [.map ⟨[("n", .string "<A>")]⟩, .null, .map ⟨[("n", .list [])]⟩])]⟩
    let options : Options := {}
    (tokens options.window s = rows.print ∧ rows.Tagged [] ∧ rows.MarkedOnce) ∧
      (expandTables data options s).text
        = "<w:tr a><w:tbl><w:tr><w:tr/>&lt;A&gt;</w:tr><w:tr><w:tr/></w:tr></w:tbl></w:tr>!".toList
      ∧ (expandTables data options s).warnings
        = [.fieldNotText "names" "n" "list", .noData .table "none", .outsideRow "names"] := by
  intro s chars rows data options
  have hread : tokens options.window s = rows.print := by
    have hs : s = rows.print.flatMap Token.text := by decide
    have hproper : ∀ t ∈ rows.print, t.Proper options.window := by decide
    rw [hs, tokens_flatMap_text hproper]
  have htagged : rows.Tagged [] := by decide
  have honce : rows.MarkedOnce := by decide
  obtain ⟨htext, hwarnings, -⟩ := @expandTables_rows data options s rows hread htagged honce
  exact ⟨⟨hread, htagged, honce⟩, htext.trans (by decide), hwarnings.trans (by decide)⟩

end MailMerge
