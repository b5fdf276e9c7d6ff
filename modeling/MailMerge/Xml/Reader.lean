import MailMerge.Xml.Declaration

/-!
# Reading XML

Only the tags of an XML text matter here. Text, comments, character data sections, processing
instructions and the document type are passed over; `events` lists the tags that open or stand for
an element, up to the first place where the markup is not well formed. Closing tags have to match,
but elements may still be open at the end.

`readElements` gives the elements of some kinds with the texts of their attributes.
-/

namespace MailMerge.Xml

open MailMerge.Text (Glyph glyphsOf)

/-- What follows the reference that an ampersand starts. -/
def afterReference? : List Glyph → Option (List Glyph)
  | [] => none
  | g :: s =>
    if g = .char ';' then some s
    else if g = .char '&' ∨ g = .char '<' then none
    else afterReference? s

theorem length_le_of_afterReference? {s rest : List Glyph}
    (h : afterReference? s = some rest) : rest.length ≤ s.length := by
  induction s with
  | nil => simp [afterReference?] at h
  | cons g s ih =>
    simp only [afterReference?] at h
    split at h
    · cases h
      simp
    split at h
    · simp at h
    · exact Nat.le_succ_of_le (ih h)

/-- What reading a text comes upon. -/
inductive Event where
  /-- A tag that opens or stands for an element: its name, and the text after it. -/
  | element (name attributes : List Glyph)
  /-- A place where the markup is not well formed; reading stops here. -/
  | malformed
  deriving DecidableEq, Repr

/-- The element event of a tag without its angle brackets. -/
def Event.ofTag (tag : List Glyph) : Event :=
  .element (tag.takeWhile (!isSpace ·)) (tag.dropWhile (!isSpace ·))

/-- The name in a closing tag; white space after it does not count. A tag of white space alone is
its own name, so that it closes no element. -/
def closingName (tag : List Glyph) : List Glyph :=
  if tag.all isSpace then tag else (tag.reverse.dropWhile isSpace).reverse

/-- The events of a text, given the names of the elements that are open, the innermost first. -/
def events (opened : List (List Glyph)) (s : List Glyph) : List Event :=
  match s with
  | [] => []
  | .char '<' :: .char '!' :: rest =>
    match h : afterDeclaration? rest with
    | some after =>
      have := length_le_of_afterDeclaration? h
      events opened after
    | none => [.malformed]
  | .char '<' :: .char '?' :: rest =>
    match h : afterInstruction? rest with
    | some after =>
      have := length_le_of_afterInstruction? h
      events opened after
    | none => [.malformed]
  | .char '<' :: .char '/' :: rest =>
    match h : tagEnd? rest with
    | some (tag, after) =>
      have := length_le_of_tagEnd? h
      match opened with
      | name :: others => if closingName tag = name then events others after else [.malformed]
      | [] => [.malformed]
    | none => [.malformed]
  | .char '<' :: rest =>
    match h : tagEnd? rest with
    | some (tag, after) =>
      have := length_le_of_tagEnd? h
      if tag.getLast? = some (.char '/') then
        Event.ofTag tag.dropLast :: events opened after
      else Event.ofTag tag :: events (tag.takeWhile (!isSpace ·) :: opened) after
    | none => [.malformed]
  | .char '&' :: rest =>
    match h : afterReference? rest with
    | some after =>
      have := length_le_of_afterReference? h
      events opened after
    | none => [.malformed]
  | _ :: rest => events opened rest
termination_by s.length

/-- The glyphs of some bytes, without a byte order mark in front. -/
def glyphsWithoutMark (bytes : List UInt8) : List Glyph :=
  match Text.glyphs bytes with
  | .char '\ufeff' :: rest => rest
  | glyphs => glyphs

/-- A name without what stands up to its first colon. -/
def localName (name : List Glyph) : List Glyph :=
  match Text.breakAt? [.char ':'] name with
  | some (_, rest) => rest
  | none => name

/-- An element: its name, and the texts of those of its attributes that are wanted. -/
structure Element where
  name : String
  fields : List (String × String)
  deriving DecidableEq, Repr

/-- The elements among some events whose names are wanted, with those of their attributes that are
wanted for the name. -/
def wantedElements (wanted : List (String × List String)) : List Event →
    Except ReadError (List Element)
  | [] => .ok []
  | .malformed :: _ => .error .badMarkup
  | .element name attributes :: rest =>
    match wanted.find? fun w => glyphsOf w.1.toList == localName name with
    | none => wantedElements wanted rest
    | some (name, names) =>
      match wantedFields names (attributeItems [] attributes) with
      | .error e => .error e
      | .ok fields => (wantedElements wanted rest).map (⟨name, fields⟩ :: ·)

/-- Reads the elements of some names from an XML text. -/
def readElements (wanted : List (String × List String)) (bytes : List UInt8) :
    Except ReadError (List Element) :=
  wantedElements wanted (events [] (glyphsWithoutMark bytes))

/-- The first line of the XML texts that are written. -/
def declaration : List Char :=
  "<?xml version=\"1.0\" encoding=\"UTF-8\" standalone=\"yes\"?>\n".toList

/-- An attribute as it is written, with a space in front. -/
def attributeText (name : String) (value : String) : List Char :=
  ' ' :: (name.toList ++ "=\"".toList ++ Markup.escape value.toList ++ ['"'])

/-- An element without content as it is written. -/
def elementText (name : String) (attributes : List (String × String)) : List Char :=
  '<' :: (name.toList ++ attributes.flatMap (fun (n, v) => attributeText n v) ++ "/>".toList)

end MailMerge.Xml
