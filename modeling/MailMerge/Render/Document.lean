import MailMerge.Expansion.Template
import MailMerge.Render.Error
import MailMerge.Render.Media
import MailMerge.Template.Gather

/-!
# Documents

A `Document` is a package that serves as a template. Rendering expands its main document, and its
headers and footers if that is chosen, against some data; all other parts stay as they are. It
either succeeds for all of these parts or leaves the document alone.
-/

namespace MailMerge

/-- A package that serves as a template, and how it is to be expanded. -/
structure Document where
  package : Package
  options : Options := {}
  deriving Inhabited

/-- What has been rendered. -/
structure Report where
  /-- The parts, the main document first. -/
  parts : List PartName := []
  warnings : List Warning := []
  stats : Stats := {}
  deriving Inhabited

namespace Document

/-- The content types that a main document may be declared to have. -/
def mainTypes : List String :=
  [documentType,
    "application/vnd.openxmlformats-officedocument.wordprocessingml.template.main+xml",
    "application/vnd.ms-word.document.macroEnabled.main+xml",
    "application/vnd.ms-word.template.macroEnabledTemplate.main+xml"]

/-- The elements of a list without those that came before. -/
def distinct (names : List PartName) : List PartName :=
  names.foldl (fun seen name => if name ∈ seen then seen else seen ++ [name]) []

/-- The parts to be expanded, given the content types: the main document, and the headers and then
the footers that it refers to, as far as they exist. -/
def partsFor (document : Document) (types : ContentTypes) : Except RenderError (List PartName) := do
  let main ← document.package.mainDocument.mapError .noMainDocument
  match types.override? main with
  | some found => if found ∉ mainTypes then throw (.wrongType found)
  | none => pure ()
  if !document.options.includeHeadersFooters then return [main]
  let rs ← (document.package.relationships main).mapError .package
  let linked := rs.ofType Relationship.header ++ rs.ofType Relationship.footer
  let names := linked.filterMap fun r => (r.part rs.folder).toOption
  return distinct (main :: names.filter document.package.contains)

/-- The parts to be expanded. -/
def parts (document : Document) : Except RenderError (List PartName) := do
  let types ← document.package.contentTypes.mapError .package
  document.partsFor types

/-- Expands one part. -/
def renderPart (options : Options) (data : DataTree) (r : Rendering) (report : Report)
    (name : PartName) : Except RenderError (Rendering × Report) := do
  let bytes ← (r.package.require name).mapError .package
  let source ← (Text.decode bytes).mapError (.notText name)
  let expansion := expand data options (Markup.gatherPart options.window source)
  let (text, r) ←
    if expansion.images.isEmpty then pure (expansion.text, r)
    else (r.embed options name expansion.text expansion.images).mapError .package
  let report : Report := {
    parts := report.parts ++ [name]
    warnings := report.warnings ++ expansion.warnings
    stats := report.stats + expansion.stats }
  return ({ r with package := r.package.set name (Text.encode text) }, report)

/-- Expands parts one after the other. -/
def renderParts (options : Options) (data : DataTree) (r : Rendering) (report : Report) :
    List PartName → Except RenderError (Rendering × Report)
  | [] => .ok (r, report)
  | name :: names => do
    let (r, report) ← renderPart options data r report name
    renderParts options data r report names

/-- Expands a document against some data, and reports what was done. -/
def render (document : Document) (data : DataTree) : Except RenderError (Report × Document) := do
  let types ← document.package.contentTypes.mapError .package
  let names ← document.partsFor types
  let start : Rendering := { package := document.package, types }
  let (r, report) ← renderParts document.options data start {} names
  let package := if r.declared then r.package.setContentTypes r.types else r.package
  return (report, { document with package })

/-- Expands a document in place: parts are expanded in a copy of the package, which takes the place
of the package at the end. -/
def update (data : DataTree) : ExceptT RenderError (StateM Document) Report := do
  let (report, document) ← MonadExcept.ofExcept ((← get).render data)
  set document
  return report

end Document

end MailMerge
