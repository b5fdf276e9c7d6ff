import MailMerge.Markup.TextElement

/-!
# Table rows

A table row is the text from an opening tag `<w:tr …>` to the closing tag `</w:tr>` that belongs to
it. As rows of a nested table stand inside a row, tags are matched by counting: `rowStart` looks for
the row around a place backwards, `rowStop` forwards. Empty rows, `<w:tr/>`, and tags whose names
only start alike (`<w:trPr>`) do not count.

Places are counted in characters.
-/

namespace MailMerge.Markup

/-- The name of a row element. -/
def rowName : List Char := "w:tr".toList

/-- A tag of a row. -/
inductive RowTag where
  /-- An opening tag and the place where it starts. -/
  | opens (start : Nat)
  /-- A closing tag and the place behind it. -/
  | closes (stop : Nat)
  deriving DecidableEq, Repr

/-- A tag of a row with the place of its name. -/
structure RowMark where
  place : Nat
  tag : RowTag
  deriving DecidableEq, Repr

/-- The tag whose name starts `s`, at `place` and after the two characters `p` and `q`. -/
def rowTag? (place : Nat) (p q : Option Char) (s : List Char) : Option RowTag :=
  match Text.after? rowName s with
  | none => none
  | some rest =>
    if nameEnds rest then
      match Text.breakAt? ['>'] s with
      | none => none
      | some (inner, _) =>
        if q = some '/' ∧ p = some '<' then some (.closes (place + inner.length + 1))
        else if q = some '<' ∧ inner.getLast? ≠ some '/' then some (.opens (place - 1))
        else none
    else none

/-- The tags of rows in `s`, which starts at `place`, after the two characters `p` and `q`. -/
def rowMarksFrom (place : Nat) (p q : Option Char) : List Char → List RowMark
  | [] => []
  | c :: s =>
    match rowTag? place p q (c :: s) with
    | some tag => ⟨place, tag⟩ :: rowMarksFrom (place + 1) q (some c) s
    | none => rowMarksFrom (place + 1) q (some c) s

/-- The tags of rows in a text, in order. -/
def rowMarks (s : List Char) : List RowMark :=
  rowMarksFrom 0 none none s

/-- The first opening tag that is left over when the tags, given from last to first, are matched;
`depth` closing tags wait for their partners. -/
def unmatchedOpening? : (depth : Nat) → List RowTag → Option Nat
  | _, [] => none
  | depth, .closes _ :: tags => unmatchedOpening? (depth + 1) tags
  | 0, .opens start :: _ => some start
  | depth + 1, .opens _ :: tags => unmatchedOpening? depth tags

/-- The first closing tag that is left over when the tags are matched; `depth` opening tags wait
for their partners. -/
def unmatchedClosing? : (depth : Nat) → List RowTag → Option Nat
  | _, [] => none
  | depth, .opens _ :: tags => unmatchedClosing? (depth + 1) tags
  | 0, .closes stop :: _ => some stop
  | depth + 1, .closes _ :: tags => unmatchedClosing? depth tags

/-- Where the row around the end of `before` starts in `before ++ after`. -/
def rowStart (before after : List Char) : Option Nat :=
  let place := before.length
  let marks := (rowMarks (before ++ after)).filter fun m => m.place + rowName.length ≤ place
  unmatchedOpening? 0 (marks.reverse.map RowMark.tag)

/-- Where the row around the start of `after` stops in `before ++ after`. -/
def rowStop (before after : List Char) : Option Nat :=
  let place := before.length
  let marks := (rowMarks (before ++ after)).filter fun m => place ≤ m.place
  unmatchedClosing? 0 (marks.map RowMark.tag)

end MailMerge.Markup
