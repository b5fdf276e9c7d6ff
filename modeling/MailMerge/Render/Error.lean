import MailMerge.Package.Basic

/-!
# Faults of rendering

What can keep a document from being rendered, and the words for it. Wrong data never does. `Failure`
sums the causes up for those who render a document in one step.
-/

namespace MailMerge

/-- The content type of a document. -/
def documentType : String :=
  "application/vnd.openxmlformats-officedocument.wordprocessingml.document.main+xml"

/-- What can keep a document from being rendered. -/
inductive RenderError where
  /-- Something is wrong with the package. -/
  | package (e : PackageError)
  /-- The main document is not to be found. -/
  | noMainDocument (e : PackageError)
  /-- The bytes of a part are no text. -/
  | notText (part : PartName) (e : Text.DecodeError)
  /-- The main document is declared to be something else. -/
  | wrongType (found : String)
  deriving DecidableEq, Repr

namespace RenderError

/-- The words for a part whose bytes are no text. -/
def notTextMessage (part : PartName) (e : Text.DecodeError) : String :=
  "Invalid part " ++ String.ofList part.text ++ ": not valid UTF-8: " ++ e.message

/-- The words for a main document that is declared to be something else. -/
def wrongTypeMessage (found : String) : String :=
  "Invalid content type: expected " ++ documentType ++ ", got " ++ found

/-- What is missing when the main document is not to be found. -/
def missingDocument (e : PackageError) : String :=
  "main document part: " ++ e.message

/-- The words for a fault. -/
def message : RenderError → String
  | package e => "OPC error: " ++ e.message
  | noMainDocument e => "Part not found: " ++ missingDocument e
  | notText part e => notTextMessage part e
  | wrongType found => wrongTypeMessage found

end RenderError

/-- What keeps a document from being rendered, summed up. -/
inductive Failure where
  /-- A file cannot be read. -/
  | access
  /-- The bytes are no archive. -/
  | archive
  /-- XML is malformed. -/
  | markup (fault : String)
  /-- Something is missing. -/
  | missing (what : String)
  /-- The bytes of a part are no text. -/
  | notText (part : PartName) (e : Text.DecodeError)
  /-- The main document is declared to be something else. -/
  | wrongType (found : String)
  /-- Anything else. -/
  | other (words : String)
  deriving DecidableEq, Repr

namespace Failure

/-- The words for a failure. -/
def message : Failure → String
  | access => "IO error: no such file"
  | archive => "ZIP error: not an archive"
  | markup fault => "XML error: " ++ fault
  | missing what => "Component not found: " ++ what
  | notText part e => RenderError.notTextMessage part e
  | wrongType found => RenderError.wrongTypeMessage found
  | other words => words

end Failure

/-- A fault of a package, summed up. -/
def PackageError.failure : PackageError → Failure
  | noAccess => .access
  | notArchive => .archive
  | noPart name => .missing name
  | unreadable listing .badMarkup => .markup (listingFault listing .badMarkup)
  | unreadable listing .badValue => .markup (listingFault listing .badValue)
  | e => .other e.message

/-- A fault of rendering, summed up. -/
def RenderError.failure : RenderError → Failure
  | package e => e.failure
  | noMainDocument e => .missing (missingDocument e)
  | notText part e => .notText part e
  | wrongType found => .wrongType found

end MailMerge
