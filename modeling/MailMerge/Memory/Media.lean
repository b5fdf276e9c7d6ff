import MailMerge.Memory.Markup
import MailMerge.Render.Media

/-!
# Putting pictures in, in memory

A marker is looked for in the text of a part, and the stretch where it stands is replaced by the
drawing. Everything else about a picture is a matter of parts and relationships and takes no places.
-/

namespace MailMerge.Memory

/-- What comes of a package may be an error of its own; the steps on places may fail besides. -/
abbrev Attempt : Type → Type :=
  ExceptT PackageError (Except Fault)

/-- A text with a drawing in place of the first marker. -/
def splice (marker drawing s : List Char) : Except Fault (List Char) := do
  match (Text.breakAt? marker s).map fun (before, _) => Text.byteSize before with
  | none => return s
  | some place =>
    let stop := place + Text.byteSize marker
    if ← insideTextElement place (Text.encode s) then
      replace place stop
        (Markup.textClosing ++ (drawing ++ "<w:t xml:space=\"preserve\">".toList)) s
    else replace place stop drawing s

/-- Puts one picture in. -/
def place (options : Options) (source : PartName) (e : Embedding) (p : Placement) :
    Attempt Embedding := do
  let (name, rendering) ← ExceptT.mk (.ok (e.rendering.store source p.key p.image))
  let (relationshipId, e) := { e with rendering }.relate source name p.key
  let (drawingId, drawingIds) := e.drawingIds.next
  let drawing : Drawing := {
    relationshipId
    drawingId
    name := String.ofList name.filename
    extent := Image.Extent.ofImage p.image options }
  let text ← splice p.marker drawing.text e.text
  return { e with drawingIds, text }

/-- Puts pictures into the text of a part, and lists their relationships. -/
def embed (r : Rendering) (options : Options) (source : PartName) (text : List Char)
    (placements : List Placement) : Attempt (List Char × Rendering) := do
  let relationships ← ExceptT.mk (.ok (r.package.relationships source))
  let largest ← maxDrawingId (Text.encode text)
  let start : Embedding := {
    rendering := r
    relationships
    relationshipIds := RelationshipIds.above relationships
    drawingIds := ⟨Markup.DrawingIds.succ largest⟩
    text }
  let done ← placements.foldlM (place options source) start
  let package := done.rendering.package.setRelationships source done.relationships
  return (done.text, { done.rendering with package })

end MailMerge.Memory
