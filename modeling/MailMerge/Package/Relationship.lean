import MailMerge.Number.Numeral
import MailMerge.Number.Text
import MailMerge.Package.Error
import MailMerge.Xml.Reader

/-!
# Relationships

A part refers to other parts, and to things outside of the package, by **relationships**, which have
an id, a type and a target. `Relationships` are those of one source, in the order in which they are
listed; `toXml` writes the listing and `ofXml` reads it.

`RelationshipIds` is a supply of ids that no relationship has yet.
-/

namespace MailMerge

/-- A reference from one part to another, or out of the package. -/
structure Relationship where
  id : String
  type : String
  /-- Where it leads: a reference relative to the folder of the source, or an address outside. -/
  target : String
  isExternal : Bool := false
  deriving DecidableEq, Repr, Inhabited

/-- The relationships of one source. -/
structure Relationships where
  /-- The folder of the source. -/
  folder : List Char := ['/']
  entries : List Relationship := []
  deriving DecidableEq, Repr, Inhabited

namespace Relationship

/-- The type of the relationship of a package to its main document. -/
def officeDocument : String :=
  "http://schemas.openxmlformats.org/officeDocument/2006/relationships/officeDocument"

/-- The type of relationships to headers. -/
def header : String := "http://schemas.openxmlformats.org/officeDocument/2006/relationships/header"

/-- The type of relationships to footers. -/
def footer : String := "http://schemas.openxmlformats.org/officeDocument/2006/relationships/footer"

/-- The type of relationships to images. -/
def image : String := "http://schemas.openxmlformats.org/officeDocument/2006/relationships/image"

/-- The name space of listings of relationships. -/
def nameSpace : String := "http://schemas.openxmlformats.org/package/2006/relationships"

/-- The mode of targets outside of the package. -/
def externalMode : String := "External"

/-- The part that a relationship leads to from a folder. -/
def part (r : Relationship) (folder : List Char) : Except PackageError PartName :=
  if r.isExternal then .error (.externalTarget r.id)
  else .ok (PartName.resolve folder r.target.toList)

/-- The relationship of an element of a listing; it needs an id, a type and a target. -/
def ofElement? (e : Xml.Element) : Option Relationship := do
  let id ← e.fields.lookup "Id"
  let type ← e.fields.lookup "Type"
  let target ← e.fields.lookup "Target"
  return ⟨id, type, target, e.fields.lookup "TargetMode" == some externalMode⟩

/-- The element for a relationship in a listing. -/
def text (r : Relationship) : List Char :=
  Xml.elementText "Relationship"
    ([("Id", r.id), ("Type", r.type), ("Target", r.target)]
      ++ if r.isExternal then [("TargetMode", externalMode)] else [])

/-- The number in an id that is made of `rId` and a 32-bit number. -/
def number? (r : Relationship) : Option Nat :=
  (Text.after? "rId".toList r.id.toList).bind word?

end Relationship

namespace Relationships

/-- The relationships with one more at the end. -/
def add (rs : Relationships) (r : Relationship) : Relationships :=
  { rs with entries := rs.entries ++ [r] }

/-- The first relationship with an id. -/
def get? (rs : Relationships) (id : String) : Option Relationship :=
  rs.entries.find? fun r => r.id == id

/-- The relationships of a type, in order. -/
def ofType (rs : Relationships) (type : String) : List Relationship :=
  rs.entries.filter fun r => r.type == type

/-- The one relationship of a type. -/
def only (rs : Relationships) (type : String) : Except PackageError Relationship :=
  match rs.ofType type with
  | [] => .error (.noRelationship type)
  | [r] => .ok r
  | _ => .error (.severalRelationships type)

/-- The largest number in the ids, or zero. -/
def maxNumber (rs : Relationships) : Nat :=
  (rs.entries.filterMap Relationship.number?).foldl max 0

/-- The elements of a listing, and their attributes that matter. -/
def wanted : List (String × List String) :=
  [("Relationship", ["Id", "Type", "Target", "TargetMode"])]

/-- Reads the listing of the relationships of a source in a folder. -/
def ofXml (folder : List Char) (bytes : List UInt8) : Except PackageError Relationships :=
  match Xml.readElements wanted bytes with
  | .ok elements => .ok ⟨folder, elements.filterMap Relationship.ofElement?⟩
  | .error e => .error (.unreadable .relationships e)

/-- The listing of the relationships of a source. -/
def toXml (rs : Relationships) : List Char :=
  Xml.declaration ++ "<Relationships xmlns=\"".toList ++ Relationship.nameSpace.toList
    ++ "\">".toList ++ rs.entries.flatMap Relationship.text ++ "</Relationships>".toList

end Relationships

/-- A supply of ids for relationships. Its count has no bound here; it stands for a 64-bit one,
which is never used up, since it starts at most one above the largest 32-bit word. -/
structure RelationshipIds where
  /-- The number in the id that is handed out next. -/
  upcoming : Nat
  deriving DecidableEq, Repr

namespace RelationshipIds

/-- The ids with numbers above those of some relationships. -/
def above (rs : Relationships) : RelationshipIds :=
  ⟨rs.maxNumber + 1⟩

/-- The next id, and the supply of those after it. -/
def next (ids : RelationshipIds) : String × RelationshipIds :=
  (String.ofList ("rId".toList ++ decimalDigits ids.upcoming), ⟨ids.upcoming + 1⟩)

end RelationshipIds

end MailMerge
