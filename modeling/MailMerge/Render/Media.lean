import MailMerge.Expansion.Basic
import MailMerge.Image.Drawing
import MailMerge.Markup.DrawingId
import MailMerge.Markup.TextElement
import MailMerge.Package.Basic

/-!
# Media

Every picture that a document shows is stored in a part of its own, in the folder `media` beside the
part that shows it first. All parts share it by its key. A part that shows a picture has one
relationship to it, however often it does, and one drawing for each time.

`Rendering` is a package that is being rendered, `Embedding` a part of it in which the markers give
way to drawings.
-/

namespace MailMerge

/-- A package that is being rendered. -/
structure Rendering where
  package : Package
  types : ContentTypes
  /-- The part of each picture that has been stored, by its key. -/
  media : List (String × PartName) := []
  /-- Whether a content type has been declared. -/
  declared : Bool := false
  deriving Inhabited

namespace Rendering

/-- The text of the name of a file in the folder for the pictures of a part. -/
def mediaText (source : PartName) (file : List Char) : List Char :=
  (source.folder.reverse.dropWhile (· == '/')).reverse ++ "/media/".toList ++ file

/-- The name for the part of a picture: its key and extension, or else the key with the first number
that makes a name which is not taken. -/
def mediaName (package : Package) (source : PartName) (key extension : String) :
    Except PackageError PartName :=
  let text := mediaText source (key.toList ++ '.' :: extension.toList)
  match PartName.ofText? text with
  | none => .error (.relativeName (String.ofList text))
  | some name =>
    if package.contains name then
      package.freeName (mediaText source (key.toList ++ "_%d.".toList ++ extension.toList))
    else .ok name

/-- The part of a picture, which is stored when it is asked for the first time. -/
def store (r : Rendering) (source : PartName) (key : String) (image : Image) :
    Except PackageError (PartName × Rendering) :=
  match Assoc.get? key r.media with
  | some name => .ok (name, r)
  | none => do
    let name ← mediaName r.package source key image.extension
    let isNew := !r.types.hasDefault image.extension
    let types :=
      if isNew then
        r.types.setDefault image.extension (ContentTypes.ofImageExtension image.extension)
      else r.types
    return (name, {
      package := r.package.set name image.bytes
      types
      media := r.media ++ [(key, name)]
      declared := r.declared || isNew })

end Rendering

/-- A part in which the markers of pictures give way to drawings. -/
structure Embedding where
  rendering : Rendering
  relationships : Relationships
  relationshipIds : RelationshipIds
  drawingIds : Markup.DrawingIds
  /-- The id of the relationship to each picture that the part shows, by its key. -/
  shown : List (String × String) := []
  text : List Char

namespace Embedding

/-- A text with a drawing in place of the first marker. A drawing stands beside text elements, so
one whose content it falls into is closed before and opened again behind. -/
def splice (marker drawing text : List Char) : List Char :=
  match Text.breakAt? marker text with
  | none => text
  | some (before, after) =>
    if Markup.insideTextElement before (marker ++ after) then
      before ++ Markup.textClosing ++ drawing ++ "<w:t xml:space=\"preserve\">".toList ++ after
    else before ++ drawing ++ after

/-- The id of the relationship to a picture, which is added when the part shows it the first time.
-/
def relate (e : Embedding) (source name : PartName) (key : String) : String × Embedding :=
  match Assoc.get? key e.shown with
  | some id => (id, e)
  | none =>
    let (id, ids) := e.relationshipIds.next
    let target := String.ofList (name.relativeTo source.folder)
    (id, { e with
      relationships := e.relationships.add { id, type := Relationship.image, target }
      relationshipIds := ids
      shown := e.shown ++ [(key, id)] })

/-- Puts one picture in. -/
def place (options : Options) (source : PartName) (e : Embedding) (p : Placement) :
    Except PackageError Embedding := do
  let (name, rendering) ← e.rendering.store source p.key p.image
  let (relationshipId, e) := { e with rendering }.relate source name p.key
  let (drawingId, drawingIds) := e.drawingIds.next
  let drawing : Drawing := {
    relationshipId
    drawingId
    name := String.ofList name.filename
    extent := Image.Extent.ofImage p.image options }
  return { e with drawingIds, text := splice p.marker drawing.text e.text }

end Embedding

namespace Rendering

/-- Puts pictures into the text of a part, and lists their relationships. -/
def embed (r : Rendering) (options : Options) (source : PartName) (text : List Char)
    (placements : List Placement) : Except PackageError (List Char × Rendering) := do
  let relationships ← r.package.relationships source
  let start : Embedding := {
    rendering := r
    relationships
    relationshipIds := RelationshipIds.above relationships
    drawingIds := Markup.DrawingIds.above text
    text }
  let done ← placements.foldlM (Embedding.place options source) start
  let package := done.rendering.package.setRelationships source done.relationships
  return (done.text, { done.rendering with package })

end Rendering

end MailMerge
