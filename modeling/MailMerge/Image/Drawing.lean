import MailMerge.Image.Extent
import MailMerge.Markup.Escape
import MailMerge.Number.Text

/-!
# Drawings

The markup that shows a picture in a line of text. It declares its own name spaces, so it may stand
anywhere in a document.
-/

namespace MailMerge

/-- A picture in a line of text, which is found by the id of a relationship. -/
structure Drawing where
  relationshipId : String
  drawingId : Nat
  name : String
  extent : Image.Extent
  deriving Repr

namespace Drawing

/-- The name space of drawings in a text. -/
def wordDrawingSpace : String :=
  "http://schemas.openxmlformats.org/drawingml/2006/wordprocessingDrawing"

/-- The name space of drawings. -/
def drawingSpace : String := "http://schemas.openxmlformats.org/drawingml/2006/main"

/-- The name space of pictures. -/
def pictureSpace : String := "http://schemas.openxmlformats.org/drawingml/2006/picture"

/-- The name space of references to relationships. -/
def relationshipSpace : String :=
  "http://schemas.openxmlformats.org/officeDocument/2006/relationships"

/-- The markup of a drawing. -/
def text (drawing : Drawing) : List Char :=
  let name := String.ofList (Markup.escape drawing.name.toList)
  let id := String.ofList (decimalDigits drawing.drawingId)
  let cx := String.ofList (integerText drawing.extent.width)
  let cy := String.ofList (integerText drawing.extent.height)
  [
    "<w:drawing>",
    "<wp:inline distT=\"0\" distB=\"0\" distL=\"0\" distR=\"0\" xmlns:wp=\"",
    wordDrawingSpace, "\">",
    "<wp:extent cx=\"", cx, "\" cy=\"", cy, "\"/>",
    "<wp:effectExtent l=\"0\" t=\"0\" r=\"0\" b=\"0\"/>",
    "<wp:docPr id=\"", id, "\" name=\"", name, "\"/>",
    "<wp:cNvGraphicFramePr>",
    "<a:graphicFrameLocks xmlns:a=\"", drawingSpace, "\" noChangeAspect=\"1\"/>",
    "</wp:cNvGraphicFramePr>",
    "<a:graphic xmlns:a=\"", drawingSpace, "\"><a:graphicData uri=\"", pictureSpace, "\">",
    "<pic:pic xmlns:pic=\"", pictureSpace, "\">",
    "<pic:nvPicPr><pic:cNvPr id=\"0\" name=\"", name, "\"/><pic:cNvPicPr/></pic:nvPicPr>",
    "<pic:blipFill><a:blip r:embed=\"", drawing.relationshipId, "\" xmlns:r=\"", relationshipSpace,
    "\"/><a:stretch><a:fillRect/></a:stretch></pic:blipFill>",
    "<pic:spPr><a:xfrm><a:off x=\"0\" y=\"0\"/><a:ext cx=\"", cx, "\" cy=\"", cy, "\"/></a:xfrm>",
    "<a:prstGeom prst=\"rect\"><a:avLst/></a:prstGeom></pic:spPr>",
    "</pic:pic></a:graphicData></a:graphic></wp:inline></w:drawing>"].flatMap String.toList

end Drawing

end MailMerge
