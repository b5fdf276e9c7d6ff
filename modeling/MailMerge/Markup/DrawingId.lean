import MailMerge.Number.Numeral
import MailMerge.Text.Search

/-!
# Drawing ids

Every drawing of a document carries a number, the `id` of its `<wp:docPr>` element, that no other
drawing of the same part may have. `maxDrawingId` finds the largest in use, and `DrawingIds` counts
on from there. Ids are 32-bit words; the count stays at the largest of them once it gets there.
-/

namespace MailMerge.Markup

/-- The start of an element that holds a drawing id. -/
def drawingOpening : List Char := "<wp:docPr".toList

/-- The id in the tag of a drawing. -/
def drawingId? (tag : List Char) : Option Nat :=
  match Text.breakAt? " id=\"".toList tag with
  | none => none
  | some (_, value) => word? (value.takeWhile Char.isDigit)

/-- The drawing ids in a text, up to the first tag that is not ended. -/
def drawingIds : List Char → List Nat
  | [] => []
  | c :: s =>
    if Text.startsWith drawingOpening (c :: s) then
      match Text.breakAt? ['>'] (c :: s) with
      | none => []
      | some (tag, _) => (drawingId? tag).toList ++ drawingIds s
    else drawingIds s

/-- The largest drawing id in a text, or zero. -/
def maxDrawingId (s : List Char) : Nat :=
  (drawingIds s).foldl max 0

/-- A supply of drawing ids. -/
structure DrawingIds where
  /-- The id that is handed out next. -/
  upcoming : Nat
  deriving DecidableEq, Repr

namespace DrawingIds

/-- The word after `n`; the largest word is its own successor. -/
def succ (n : Nat) : Nat :=
  min (n + 1) maxWord

/-- The ids above those in a text. -/
def above (s : List Char) : DrawingIds :=
  ⟨succ (maxDrawingId s)⟩

/-- The next id, and the supply of those after it. -/
def next (ids : DrawingIds) : Nat × DrawingIds :=
  (ids.upcoming, ⟨succ ids.upcoming⟩)

/-- The next `n` ids, and the supply of those after them. -/
def take (ids : DrawingIds) : Nat → List Nat × DrawingIds
  | 0 => ([], ids)
  | n + 1 =>
    let (id, ids) := ids.next
    let (others, ids) := ids.take n
    (id :: others, ids)

end DrawingIds

end MailMerge.Markup
