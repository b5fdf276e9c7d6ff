import MailMerge.Markup.TextElement
import MailMerge.Template.Span

/-!
# Gathering split spans

The text of a paragraph is often split over several fragments, at places that mean nothing, and a
brace span may be split with it. **Gathering** moves every span whole into the fragment that holds
its opening brace; every other character stays where it is. The order of characters and the number
of fragments stay the same.

`gather` works on any list of fragments, `gatherPart` on the text elements of a document part.
-/

namespace MailMerge

/-- The room that is left in fragments of the given sizes after `count` characters. -/
def consume : (count : Nat) → (sizes : List Nat) → List Nat
  | _, [] => []
  | count, size :: sizes =>
    if count ≤ size then (size - count) :: sizes else 0 :: consume (count - size) sizes

@[simp]
theorem length_consume (count : Nat) (sizes : List Nat) :
    (consume count sizes).length = sizes.length := by
  induction sizes generalizing count with
  | nil => rfl
  | cons size sizes ih =>
    simp only [consume]
    split <;> simp [ih]

/-- Fragments with `s` in front of the first. -/
def prepend (s : List Char) : List (List Char) → List (List Char)
  | [] => []
  | fragment :: fragments => (s ++ fragment) :: fragments

/-- Deals pieces out to fragments that had the given sizes: each piece goes whole to the fragment in
which it starts, and takes the room it had before in this fragment and those after it. -/
def deal : List Piece → (sizes : List Nat) → List (List Char)
  | _, [] => []
  | [], _ :: sizes => [] :: deal [] sizes
  | p :: ps, 0 :: sizes => [] :: deal (p :: ps) sizes
  | p :: ps, (size + 1) :: sizes =>
    prepend p.text (deal ps (consume p.text.length ((size + 1) :: sizes)))
termination_by ps sizes => ps.length + sizes.length

/-- The fragments after every brace span has moved to the fragment where it starts. -/
def gather (window : Nat) (fragments : List (List Char)) : List (List Char) :=
  deal (pieces window fragments.flatten) (fragments.map List.length)

/-- For each fragment, whether it differs. -/
def changes (before after : List (List Char)) : List Bool :=
  List.zipWith (fun b a => b != a) before after

namespace Markup

/-- The opening tag of a text element, saying that the white space of its content counts. -/
def keepingSpace (opening : List Char) : List Char :=
  if Text.contains "xml:space".toList opening then opening
  else opening.dropLast ++ " xml:space=\"preserve\">".toList

/-- The text of a list of chunks in which the text elements have the given contents; white space
counts in those that are new. -/
def withContents : List Chunk → List (List Char) → List Char
  | [], _ => []
  | .char c :: cs, contents => c :: withContents cs contents
  | .element opening content :: cs, new :: contents =>
    (if new = content then opening else keepingSpace opening) ++ new ++ withContents cs contents
  | .element opening content :: cs, [] => opening ++ content ++ withContents cs []

/-- A part after every brace span has moved to the text element where it starts. -/
def gatherPart (window : Nat) (s : List Char) : List Char :=
  withContents (chunks s) (gather window (textContents s))

end Markup

end MailMerge
