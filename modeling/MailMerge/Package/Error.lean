import MailMerge.Package.PartName
import MailMerge.Xml.Attribute

/-!
# Faults of packages

What can be wrong with a package, and the words for it.
-/

namespace MailMerge

/-- The listings of a package that are written in XML. -/
inductive Listing where
  | relationships
  | contentTypes
  deriving DecidableEq, Repr

/-- What can be wrong with a package. -/
inductive PackageError where
  /-- There is no file to read. -/
  | noPackage (path : String)
  /-- The name of a part does not start with a slash. -/
  | relativeName (name : String)
  /-- All names of a pattern are taken. -/
  | noFreeName (pattern : String)
  /-- A part is missing. -/
  | noPart (name : String)
  /-- No relationship is of a type. -/
  | noRelationship (type : String)
  /-- More than one relationship is of a type. -/
  | severalRelationships (type : String)
  /-- The target of a relationship is not in the package. -/
  | externalTarget (id : String)
  /-- A listing cannot be read. -/
  | unreadable (listing : Listing) (e : Xml.ReadError)
  /-- The bytes are no archive. -/
  | notArchive
  /-- A file cannot be read. -/
  | noAccess
  deriving DecidableEq, Repr

/-- The words for a name that does not start with a slash. -/
def relativeNameMessage (name : String) : String :=
  "PackURI must begin with slash, got '" ++ name ++ "'"

namespace PackageError

/-- What went wrong in a listing, in words. -/
def listingFault : Listing → Xml.ReadError → String
  | .relationships, .badMarkup => "Rels parse error: malformed markup"
  | .contentTypes, .badMarkup => "Content types parse error: malformed markup"
  | _, .badAttribute => "malformed attribute"
  | _, .badValue => "malformed attribute value"

/-- The words for a fault. -/
def message : PackageError → String
  | noPackage path => "Package not found: " ++ path
  | relativeName name => "Invalid pack URI: " ++ relativeNameMessage name
  | noFreeName pattern =>
    "Invalid pack URI: Too many parts, cannot find next partname for '" ++ pattern ++ "'"
  | noPart name => "Part not found: " ++ name
  | noRelationship type => "Relationship not found: No relationship of type '" ++ type ++ "'"
  | severalRelationships type =>
    "Relationship not found: Multiple relationships of type '" ++ type ++ "'"
  | externalTarget id => "Relationship not found: " ++ id ++ " is external, it has no target part"
  | unreadable listing .badAttribute => "Attribute error: " ++ listingFault listing .badAttribute
  | unreadable listing e => "XML parsing error: " ++ listingFault listing e
  | notArchive => "ZIP error: not an archive"
  | noAccess => "IO error: no such file"

end PackageError

end MailMerge
