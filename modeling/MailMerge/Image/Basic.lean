import MailMerge.Image.Raster
import MailMerge.Text.Blank

/-!
# Images

An `Image` is a picture to be put into a document: its bytes, which are never empty, an extension
that is fit for a file name, and the width and height that were asked for, if any. An extension that
is not made of ASCII letters and digits is replaced by that of the format the bytes are in.
-/

namespace MailMerge

namespace Image

/-- Whether a text is fit to be an extension: one or more ASCII letters and digits. -/
def isExtension (s : List Char) : Bool :=
  !s.isEmpty && s.all Char.isAlphanum

end Image

/-- A picture that a placeholder can stand for. -/
structure Image where
  bytes : List UInt8
  /-- The extension of the picture's file: ASCII lower-case letters and digits. -/
  extension : String
  /-- The extension that was asked for, when it had to be replaced. -/
  rejected : Option String := none
  /-- The width that was asked for, in inches. -/
  width : Option Float := none
  /-- The height that was asked for, in inches. -/
  height : Option Float := none
  isExtension_extension : Image.isExtension extension.toList = true

instance : Inhabited Image :=
  ⟨{ bytes := [0], extension := "png", isExtension_extension := by decide }⟩

namespace Image

/-- What is asked for as an extension: white space around it and dots in front do not count, and
neither does the case of ASCII letters. -/
def requestedExtension (s : List Char) : List Char :=
  ((Text.trim s).dropWhile (· == '.')).map Char.toLower

/-- The extension for bytes whose extension is not known. -/
def fallbackExtension (bytes : List UInt8) : String :=
  ((Format.ofBytes? bytes).map Format.extension).getD "png"

theorem isExtension_fallbackExtension (bytes : List UInt8) :
    isExtension (fallbackExtension bytes).toList = true := by
  unfold fallbackExtension
  cases Format.ofBytes? bytes with
  | none => decide
  | some format => cases format <;> decide

/-- A picture with the given bytes, or `none` when there are none. -/
def ofBytes? (bytes : List UInt8) (extension : String) : Option Image :=
  let requested := requestedExtension extension.toList
  if bytes.isEmpty then none
  else if h : isExtension requested then
    some {
      bytes
      extension := String.ofList requested
      isExtension_extension := by rwa [String.toList_ofList] }
  else
    let rejected := if requested.isEmpty then none else some (String.ofList requested)
    some {
      bytes
      extension := fallbackExtension bytes
      rejected
      isExtension_extension := isExtension_fallbackExtension bytes }

/-- Equality of pictures. Sizes are compared as floats, so a size that is no number differs from
itself. -/
def beq (a b : Image) : Bool :=
  a.bytes == b.bytes && a.extension == b.extension && a.rejected == b.rejected
    && a.width == b.width && a.height == b.height

instance : BEq Image := ⟨beq⟩

end Image

end MailMerge
