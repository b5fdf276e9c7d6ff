import MailMerge.Data.Value
import MailMerge.Markup.Escape
import MailMerge.Options

/-!
# Expansions

An `Expansion` is what comes of a text when tags are resolved: the new text, warnings, counts of
what produced output, and the pictures to be put in. Expansions of adjoining texts are put together
by `++`.
-/

namespace MailMerge

/-- The two kinds of warnings. -/
inductive WarningKind where
  /-- Data is missing or of the wrong kind. -/
  | dataMismatch
  /-- Markup cannot be understood as it was meant. -/
  | layoutAmbiguity
  deriving DecidableEq, Repr

/-- What repeats a text for each item of a list. -/
inductive Repetition where
  | loop
  | table
  deriving DecidableEq, Repr

/-- The word for a repetition. -/
def Repetition.word : Repetition → String
  | .loop => "loop"
  | .table => "table"

/-- Something that did not go as the template asks for. -/
inductive Warning where
  /-- A repetition has no data. -/
  | noData (of : Repetition) (name : String)
  /-- The list of a repetition is empty. -/
  | emptyList (of : Repetition) (name : String)
  /-- The data of a repetition is no list. -/
  | notList (of : Repetition) (name found : String)
  /-- A field of an item has no text. -/
  | fieldNotText (owner field found : String)
  /-- The data of a placeholder has no text. -/
  | notText (name found : String)
  /-- The extension of a picture had to be replaced. -/
  | extensionReplaced (name rejected used : String)
  /-- A loop has no end. -/
  | unclosedLoop (name : String)
  /-- A conditional has no end. -/
  | unclosedConditional (name : String)
  /-- The mark of a table row is in no row. -/
  | outsideRow (name : String)
  deriving DecidableEq, Repr

namespace Warning

/-- The kind of a warning. -/
def kind : Warning → WarningKind
  | noData .. | emptyList .. | notList .. | fieldNotText .. | notText .. | extensionReplaced .. =>
    .dataMismatch
  | unclosedLoop _ | unclosedConditional _ | outsideRow _ => .layoutAmbiguity

/-- The words of a warning. -/
def message : Warning → String
  | noData r name => r.word ++ " `" ++ name ++ "`: no data, block removed"
  | emptyList r name => r.word ++ " `" ++ name ++ "`: empty list, block removed"
  | notList r name found => r.word ++ " `" ++ name ++ "`: expected a list, found a " ++ found
  | fieldNotText owner field found =>
    "`" ++ owner ++ "`: field `" ++ field ++ "` is a " ++ found ++ ", not text"
  | notText name found => "placeholder `" ++ name ++ "` is a " ++ found ++ ", not text"
  | extensionReplaced name rejected used =>
    "image `" ++ name ++ "`: extension `" ++ rejected ++ "` is not usable, `" ++ used
      ++ "` used instead"
  | unclosedLoop name => "loop `" ++ name ++ "` has no closing tag, left as text"
  | unclosedConditional name => "conditional `" ++ name ++ "` has no closing tag, left as text"
  | outsideRow name => "table marker `" ++ name ++ "` is not inside a table row, removed"

end Warning

/-- Counts of what produced output. -/
structure Stats where
  placeholders : Nat := 0
  loops : Nat := 0
  conditionals : Nat := 0
  tables : Nat := 0
  images : Nat := 0
  deriving DecidableEq, Repr, Inhabited

/-- Counts of two things together. -/
def Stats.add (a b : Stats) : Stats :=
  ⟨a.placeholders + b.placeholders, a.loops + b.loops, a.conditionals + b.conditionals,
    a.tables + b.tables, a.images + b.images⟩

instance : Add Stats := ⟨Stats.add⟩

/-- A picture, the key of its data, and the marker that stands for it in the text. -/
structure Placement where
  marker : List Char
  key : String
  image : Image
  deriving Inhabited

/-- What comes of a text. -/
structure Expansion where
  text : List Char := []
  warnings : List Warning := []
  stats : Stats := {}
  images : List Placement := []
  deriving Inhabited

namespace Expansion

/-- What comes of two adjoining texts. -/
def append (a b : Expansion) : Expansion :=
  ⟨a.text ++ b.text, a.warnings ++ b.warnings, a.stats + b.stats, a.images ++ b.images⟩

instance : Append Expansion := ⟨append⟩

@[simp]
theorem text_append (a b : Expansion) : (a ++ b).text = a.text ++ b.text := rfl

@[simp]
theorem warnings_append (a b : Expansion) : (a ++ b).warnings = a.warnings ++ b.warnings := rfl

@[simp]
theorem stats_append (a b : Expansion) : (a ++ b).stats = a.stats + b.stats := rfl

@[simp]
theorem images_append (a b : Expansion) : (a ++ b).images = a.images ++ b.images := rfl

/-- What comes of adjoining texts. -/
def join : List Expansion → Expansion
  | [] => {}
  | e :: es => e ++ join es

/-- A text that stays as it is. -/
def literal (text : List Char) : Expansion :=
  { text }

/-- No text, and a warning. -/
def warning (w : Warning) : Expansion :=
  { warnings := [w] }

/-- Everything but the text. -/
def withoutText (e : Expansion) : Expansion :=
  { e with text := [] }

end Expansion

/-- The text of a scalar as it is put into a template. -/
def Options.scalarText? (options : Options) (value : Value) : Option (List Char) :=
  if options.escapeValues then value.text?.map fun s => (Markup.escapeIfNeeded s).text
  else value.text?

theorem Options.scalarText?_eq (options : Options) (value : Value) :
    options.scalarText? value
      = if options.escapeValues then value.text?.map Markup.escape else value.text? := by
  rw [scalarText?, funext Markup.text_escapeIfNeeded]

end MailMerge
