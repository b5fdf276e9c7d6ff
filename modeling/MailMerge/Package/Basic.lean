import MailMerge.Package.ContentType
import MailMerge.Package.Relationship

/-!
# Packages

A `Package` holds parts under their names, in the order in which they came. It can be made from the
members of an archive, and gives such members again.
-/

namespace MailMerge

/-- Parts with distinct names. -/
structure Package where
  parts : List (PartName × List UInt8) := []
  deriving DecidableEq, Repr, Inhabited

/-- A member of an archive: its name and its bytes. -/
abbrev Member := List Char × List UInt8

namespace Package

/-- The bytes of a part. -/
def get? (package : Package) (name : PartName) : Option (List UInt8) :=
  Assoc.get? name package.parts

/-- Whether there is a part of a name. -/
def contains (package : Package) (name : PartName) : Bool :=
  Assoc.contains name package.parts

/-- The bytes of a part that has to be there. -/
def require (package : Package) (name : PartName) : Except PackageError (List UInt8) :=
  match package.get? name with
  | some bytes => .ok bytes
  | none => .error (.noPart (String.ofList name.text))

/-- The package with the given bytes in a part: in place of those that were there, or else in a new
part at the end. -/
def set (package : Package) (name : PartName) (bytes : List UInt8) : Package :=
  ⟨Assoc.set name bytes package.parts⟩

/-- The names of the parts, in order. -/
def names (package : Package) : List PartName :=
  package.parts.map Prod.fst

/-- The number of parts. -/
def size (package : Package) : Nat :=
  package.parts.length

/-! ### Listings -/

/-- The content types of a package. -/
def contentTypes (package : Package) : Except PackageError ContentTypes := do
  ContentTypes.ofXml (← package.require .contentTypes)

/-- The package with other content types. -/
def setContentTypes (package : Package) (types : ContentTypes) : Package :=
  package.set .contentTypes (Text.encode types.toXml)

/-- The relationships of a part; there are none where none are listed. -/
def relationships (package : Package) (source : PartName) : Except PackageError Relationships :=
  match package.get? source.relationshipsPart with
  | some bytes => Relationships.ofXml source.folder bytes
  | none => .ok { folder := source.folder }

/-- The package with other relationships of a part. -/
def setRelationships (package : Package) (source : PartName) (rs : Relationships) : Package :=
  package.set source.relationshipsPart (Text.encode rs.toXml)

/-- The part of the main document: the one that the package has its one relationship of that type
to, or else the usual one. -/
def mainDocument (package : Package) : Except PackageError PartName := do
  let rs ← package.relationships .root
  match rs.only Relationship.officeDocument with
  | .ok r =>
    let name ← r.part rs.folder
    if package.contains name then return name
    else throw (.noPart (String.ofList name.text))
  | .error _ =>
    if package.contains .usualDocument then return .usualDocument
    else
      throw (.noPart ("main document part (" ++ String.ofList PartName.usualDocument.text ++ ")"))

/-! ### New names -/

/-- A text with `new` in place of each `%d`. -/
def fillPattern (new : List Char) : List Char → List Char
  | [] => []
  | '%' :: 'd' :: s => new ++ fillPattern new s
  | c :: s => c :: fillPattern new s

/-- The first of `count` names of a pattern that is not taken, beginning with number `n`. -/
def freeNameFrom (package : Package) (pattern : List Char) (n : Nat) :
    Nat → Except PackageError PartName
  | 0 => .error (.noFreeName (String.ofList pattern))
  | count + 1 =>
    let text := fillPattern (decimalDigits n) pattern
    match PartName.ofText? text with
    | none => .error (.relativeName (String.ofList text))
    | some name =>
      if package.contains name then package.freeNameFrom pattern (n + 1) count else .ok name

/-- The number of names that are tried. -/
def triedNames : Nat := 10000

/-- The first name of a pattern that is not taken; the names have the numbers from one on in place
of `%d`. -/
def freeName (package : Package) (pattern : List Char) : Except PackageError PartName :=
  package.freeNameFrom pattern 1 triedNames

/-! ### Archives -/

/-- Whether a member of an archive is a folder. -/
def isFolder (name : List Char) : Bool :=
  name.getLast? == some '/' || name.getLast? == some '\\'

/-- The package of the members of an archive, which has to list content types. Of several members
for one part the last counts, at the place of the first. -/
def ofMembers (members : List Member) : Except PackageError Package :=
  let files := members.filter fun m => !isFolder m.1
  let package := files.foldl (fun p (name, bytes) => p.set (.ofMember name) bytes) ({} : Package)
  if package.contains .contentTypes then .ok package
  else .error (.noPart (String.ofList PartName.contentTypes.text))

/-- The members of the archive of a package: the content types first, and the other parts in
order. -/
def members (package : Package) : Except PackageError (List Member) := do
  let types ← package.require .contentTypes
  let others := package.parts.filter fun part => part.1 != .contentTypes
  return ((PartName.contentTypes, types) :: others).map fun (name, bytes) => (name.member, bytes)

end Package

end MailMerge
