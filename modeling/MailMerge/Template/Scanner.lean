import MailMerge.Markup.TextElement
import MailMerge.Template.Span

/-!
# Spans, tags and text elements by their place

The places of a text are counted in bytes of its UTF-8 form. `spansFrom` and `tagsFrom` list the
spans and tags that start at or after a place; a place past the end, or inside a character, is as
good as any other. A `Scanner` goes from one of them to the next and can be sent to any place.
`Markup.elementsIn` lists the text elements of a text.
-/

namespace MailMerge

/-- Something found in a text, with the places of its first byte and of the byte after its last. -/
structure Found (α : Type) where
  start : Nat
  stop : Nat
  value : α
  deriving DecidableEq, Repr

/-- The spans among `ps`, the first of which starts at `start`. -/
def locate (start : Nat) : List Piece → List (Found (List Char))
  | [] => []
  | p :: ps =>
    let stop := start + Text.byteSize p.text
    match p with
    | .char _ => locate stop ps
    | .span body => ⟨start, stop, body⟩ :: locate stop ps

/-- What is left of a text at the first character that starts at or after `place`, and where that
character starts. -/
def dropTo (place : Nat) (start : Nat) : List Char → Nat × List Char
  | [] => (start, [])
  | c :: s => if place ≤ start then (start, c :: s) else dropTo place (start + c.utf8Size) s

/-- The brace spans that start at or after `place`, from left to right. -/
def spansFrom (window place : Nat) (s : List Char) : List (Found (List Char)) :=
  let (start, rest) := dropTo place 0 s
  locate start (pieces window rest)

/-- The tag that a span is, if it is one. -/
def Found.tag? (span : Found (List Char)) : Option (Found Tag) :=
  (Tag.ofInner? span.value).map fun t => { span with value := t }

/-- The tags that start at or after `place`, from left to right. -/
def tagsFrom (window place : Nat) (s : List Char) : List (Found Tag) :=
  (spansFrom window place s).filterMap Found.tag?

/-- A place in a text from which spans and tags are looked for. -/
structure Scanner where
  text : List Char
  window : Nat
  place : Nat
  deriving Repr

namespace Scanner

/-- The same scanner at another place. -/
def seek (scanner : Scanner) (place : Nat) : Scanner :=
  { scanner with place }

/-- The first of some things that are found, and the scanner behind it; the scanner stays where it
is when nothing is found. -/
def behind {α : Type} (scanner : Scanner) : List (Found α) → Option (Found α) × Scanner
  | [] => (none, scanner)
  | found :: _ => (some found, scanner.seek found.stop)

/-- The next brace span. -/
def nextSpan (scanner : Scanner) : Option (Found (List Char)) × Scanner :=
  scanner.behind (spansFrom scanner.window scanner.place scanner.text)

/-- The next tag. -/
def nextTag (scanner : Scanner) : Option (Found Tag) × Scanner :=
  scanner.behind (tagsFrom scanner.window scanner.place scanner.text)

end Scanner

namespace Markup

/-- A text element: its opening tag and its content, with the places where they start and stop. -/
structure TextElement where
  opening : Found (List Char)
  content : Found (List Char)
  deriving DecidableEq, Repr

/-- The text element that starts at a place. -/
def TextElement.at (place : Nat) (opening content : List Char) : TextElement :=
  let inner := place + Text.byteSize opening
  ⟨⟨place, inner, opening⟩, ⟨inner, inner + Text.byteSize content, content⟩⟩

/-- The text elements among some chunks, the first of which starts at `place`. -/
def locateElements (place : Nat) : List Chunk → List TextElement
  | [] => []
  | .char c :: cs => locateElements (place + c.utf8Size) cs
  | .element opening content :: cs =>
    let e := TextElement.at place opening content
    e :: locateElements e.content.stop cs

/-- The text elements that are found in a text, from left to right. -/
def elementsIn (s : List Char) : List TextElement :=
  locateElements 0 (chunks s)

end Markup

end MailMerge
