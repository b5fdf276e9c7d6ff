import MailMerge.Json.Reader
import MailMerge.Markup.DrawingId
import MailMerge.Template.Span

/-!
# Options

What may be chosen about the expansion of a template, and how such choices are written in JSON.
-/

namespace MailMerge

/-- The choices for an expansion. -/
structure Options where
  /-- Whether texts from the data are escaped, so that they cannot become markup. -/
  escapeValues : Bool := true
  /-- Whether headers and footers are expanded besides the main document. -/
  includeHeadersFooters : Bool := true
  /-- The pixels of a picture to an inch; zero stands for the usual number. -/
  pixelDpi : UInt32 := 96
  /-- The longest side of a picture whose size is not asked for, in inches. -/
  maxImageInches : Float := 6.0
  /-- The largest number of bytes between the braces of a tag; zero counts as one. -/
  maxTokenLength : UInt64 := 256
  deriving Inhabited

namespace Options

/-- The pixels to an inch when none are chosen. -/
def usualDpi : Nat := 96

/-- The pixels to an inch. -/
def dpi (options : Options) : Nat :=
  if options.pixelDpi = 0 then usualDpi else options.pixelDpi.toNat

/-- The number of bytes searched after an opening brace. -/
def window (options : Options) : Nat :=
  windowSize options.maxTokenLength

/-- Equality of choices; the length is compared as a float. -/
def beq (a b : Options) : Bool :=
  a.escapeValues == b.escapeValues && a.includeHeadersFooters == b.includeHeadersFooters
    && a.pixelDpi == b.pixelDpi && a.maxImageInches == b.maxImageInches
    && a.maxTokenLength == b.maxTokenLength

instance : BEq Options := ⟨beq⟩

/-! ### Options in JSON -/

/-- The truth value that a JSON text is. -/
def bool? : Json → Option Bool
  | .bool b => some b
  | _ => none

/-- The natural number up to `bound` that a JSON text is. -/
def natUpTo? (bound : Nat) : Json → Option Nat
  | .number n => n.nat?.filter (· ≤ bound)
  | _ => none

/-- The number that a JSON text is. -/
def number? : Json → Option Float
  | .number n => n.float?
  | _ => none

/-- The names of the choices, in order. -/
def names : List String :=
  ["escape_values", "include_headers_footers", "pixel_dpi", "max_image_inches", "max_token_len"]

/-- The choices for what is given under each name; where nothing is given, the usual choice is
made. -/
def ofGiven? (given : String → Option Json) : Option Options := do
  let choose {α : Type} (name : String) (usual : α) (read : Json → Option α) : Option α :=
    match given name with
    | none => some usual
    | some json => read json
  let usual : Options := {}
  return {
    escapeValues := ← choose "escape_values" usual.escapeValues bool?
    includeHeadersFooters := ← choose "include_headers_footers" usual.includeHeadersFooters bool?
    pixelDpi := UInt32.ofNat
      (← choose "pixel_dpi" usual.pixelDpi.toNat (natUpTo? (UInt32.size - 1)))
    maxImageInches := ← choose "max_image_inches" usual.maxImageInches number?
    maxTokenLength := UInt64.ofNat
      (← choose "max_token_len" usual.maxTokenLength.toNat (natUpTo? (UInt64.size - 1))) }

/-- The choices that a JSON text makes: by name in an object, or in order in an array. Other names
in an object do not matter. -/
def ofJson? : Json → Option Options
  | .array items =>
    if names.length < items.length then none
    else ofGiven? fun name => (names.idxOf? name).bind fun i => items[i]?
  | .object members => ofGiven? fun name => (Json.object members).member? name
  | _ => none

/-- Whether every name of a list of members is a text, and none of the choices is made twice. -/
def hasClearNames (members : List (List Letter × Json)) : Bool :=
  members.all (fun m => (Letter.text? m.1).isSome) &&
    names.all fun name => (members.filter fun m => Letter.text? m.1 == some name).length ≤ 1

/-- The choices that a text makes. -/
def ofText? (s : List Char) : Option Options :=
  match Json.ofText? s.length s with
  | some (.object members) => if hasClearNames members then ofJson? (.object members) else none
  | some json => ofJson? json
  | none => none

end Options

end MailMerge
