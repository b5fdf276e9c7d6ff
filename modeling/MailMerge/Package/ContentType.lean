import MailMerge.Data.Assoc
import MailMerge.Package.Error
import MailMerge.Xml.Reader

/-!
# Content types

A package says of what type its parts are: by **defaults** for file extensions, in which the case of
ASCII letters does not count, and by **overrides** for single parts, which go before the defaults.
Both keep the order in which they were first declared.
-/

namespace MailMerge

/-- The content types that a package declares. -/
structure ContentTypes where
  /-- The types for extensions in lower case. -/
  defaults : List (String × String) := []
  /-- The types for the names of parts. -/
  overrides : List (String × String) := []
  deriving DecidableEq, Repr, Inhabited

namespace ContentTypes

/-- An extension with its ASCII letters in lower case. -/
def lower (extension : String) : String :=
  String.ofList (extension.toList.map Char.toLower)

/-- Whether there is a default for an extension. -/
def hasDefault (types : ContentTypes) (extension : String) : Bool :=
  Assoc.contains (lower extension) types.defaults

/-- The content types with a default for an extension. -/
def setDefault (types : ContentTypes) (extension type : String) : ContentTypes :=
  { types with defaults := Assoc.set (lower extension) type types.defaults }

/-- The content types with an override for a part. -/
def setOverride (types : ContentTypes) (part type : String) : ContentTypes :=
  { types with overrides := Assoc.set part type types.overrides }

/-- The override for a part. -/
def override? (types : ContentTypes) (part : PartName) : Option String :=
  Assoc.get? (String.ofList part.text) types.overrides

/-- The type of a part. -/
def get? (types : ContentTypes) (part : PartName) : Option String :=
  types.override? part <|> Assoc.get? (lower (String.ofList part.extension)) types.defaults

/-- The content types with what an element of a listing declares. -/
def declare (types : ContentTypes) (e : Xml.Element) : ContentTypes :=
  let isDefault := e.name == "Default"
  match e.fields.lookup (if isDefault then "Extension" else "PartName"),
    e.fields.lookup "ContentType" with
  | some key, some type =>
    if isDefault then types.setDefault key type else types.setOverride key type
  | _, _ => types

/-- The elements of a listing, and their attributes that matter. -/
def wanted : List (String × List String) :=
  [("Default", ["Extension", "ContentType"]), ("Override", ["PartName", "ContentType"])]

/-- Reads a listing of content types. -/
def ofXml (bytes : List UInt8) : Except PackageError ContentTypes :=
  match Xml.readElements wanted bytes with
  | .ok elements => .ok (elements.foldl declare {})
  | .error e => .error (.unreadable .contentTypes e)

/-- The name space of listings of content types. -/
def nameSpace : String := "http://schemas.openxmlformats.org/package/2006/content-types"

/-- The listing of content types. -/
def toXml (types : ContentTypes) : List Char :=
  Xml.declaration ++ "<Types xmlns=\"".toList ++ nameSpace.toList ++ "\">".toList
    ++ types.defaults.flatMap (fun (extension, type) =>
      Xml.elementText "Default" [("Extension", extension), ("ContentType", type)])
    ++ types.overrides.flatMap (fun (part, type) =>
      Xml.elementText "Override" [("PartName", part), ("ContentType", type)])
    ++ "</Types>".toList

/-- The media type of images with a given extension. -/
def ofImageExtension (extension : String) : String :=
  match extension with
  | "png" => "image/png"
  | "jpg" | "jpeg" | "jpe" => "image/jpeg"
  | "gif" => "image/gif"
  | "bmp" => "image/bmp"
  | "tif" | "tiff" => "image/tiff"
  | "emf" => "image/x-emf"
  | "wmf" => "image/x-wmf"
  | "svg" => "image/svg+xml"
  | other => "image/" ++ other

end ContentTypes

end MailMerge
