import MailMerge.Expansion.Repeat
import MailMerge.Markup.Row

/-!
# Table rows

The mark `{table:name}` repeats the table row around it for each item of a list. The row may start
anywhere before the mark, also in text that has been dealt with already; the search for the next
mark goes on behind the row, so it always ends. A mark outside of any row is removed.
-/

namespace MailMerge

/-- The text before the first mark of a table row, and the name in the mark. -/
def firstMark? : List Token → Option (List Char × String)
  | [] => none
  | .tag (.table name) :: _ => some ([], name)
  | t :: ts => (firstMark? ts).map fun (before, name) => (t.text ++ before, name)

/-- What comes of a marked row. -/
def expandRow (data : DataTree) (options : Options) (name : String) (row : List Char) : Expansion :=
  match listFor data .table name with
  | .error w => .warning w
  | .ok items =>
    { stats := { tables := 1 } }
      ++ expandItems options .table name (tokens options.window row) items

/-- Resolves the first mark in `rest`, when `done` comes before: what is noted about it, and the two
texts afterwards. The row of the mark may start in `done`, but never stops before the mark. -/
def tableRound (data : DataTree) (options : Options) (done rest : List Char) :
    Option (Expansion × List Char × List Char) :=
  match firstMark? (tokens options.window rest) with
  | none => none
  | some (between, name) =>
    let before := done ++ between
    let mark := (Tag.table name).text
    let after := rest.drop (between.length + mark.length)
    match Markup.rowStart before (mark ++ after), Markup.rowStop (before ++ mark) after with
    | some start, some stop =>
      let inside := stop - (before.length + mark.length)
      let row := expandRow data options name (before.drop start ++ mark ++ after.take inside)
      some (row.withoutText, before.take start ++ row.text, after.drop inside)
    | _, _ => some (.warning (.outsideRow name), before, after)

/-- A round leaves less text to be dealt with. -/
theorem length_lt_of_tableRound {data : DataTree} {options : Options} {done rest : List Char}
    {note : Expansion} {done' rest' : List Char}
    (h : tableRound data options done rest = some (note, done', rest')) :
    rest'.length < rest.length := by
  unfold tableRound at h
  split at h
  · simp at h
  · next between name hm =>
    have hpos : 0 < rest.length := by
      cases rest with
      | nil => simp [tokens, pieces, firstMark?] at hm
      | cons c s => simp
    have hmark : 0 < (Tag.table name).text.length := by simp [Tag.text]
    dsimp only at h
    split at h
    all_goals
      simp only [Option.some.injEq, Prod.mk.injEq] at h
      simp only [← h.2.2, List.length_drop]
      omega

/-- What comes of the text `done ++ rest` when the rows of the marks in `rest` are resolved. -/
def expandTablesFrom (data : DataTree) (options : Options) (done rest : List Char) : Expansion :=
  match h : tableRound data options done rest with
  | none => .literal (done ++ rest)
  | some (note, done', rest') =>
    have := length_lt_of_tableRound h
    note ++ expandTablesFrom data options done' rest'
termination_by rest.length

/-- What comes of a text when its marked table rows are resolved. -/
def expandTables (data : DataTree) (options : Options) (s : List Char) : Expansion :=
  expandTablesFrom data options [] s

end MailMerge
