import MailMerge.Memory.Markup
import MailMerge.Memory.Scanner
import MailMerge.Template.Gather

/-!
# Gathering in memory

The fragments of a paragraph are joined, and the brace spans of the joined text are found by a
sweep. A span is split when it starts in one fragment and stops in another. Each fragment that a
split span touches is built anew from stretches of the joined text: a `cursor` runs from the start
of the fragment over the spans that touch it, and stops at its end or behind.
-/

namespace MailMerge.Memory

/-- The places where fragments start that stand one behind the other, the first of them at `start`.
-/
def startsFrom (start : Nat) : List (List Char) → List Nat
  | [] => []
  | fragment :: fragments => start :: startsFrom (start + Text.byteSize fragment) fragments

/-- The number of the last fragment that starts at a place or before. An empty fragment starts where
the next one does, which then has the place. -/
def fragmentAt (starts : List Nat) (place : Nat) : Nat :=
  (starts.takeWhile fun start => start ≤ place).length - 1

/-- A brace span that is split, with the numbers of the fragments where it starts and where it
stops. -/
structure SplitSpan where
  start : Nat
  stop : Nat
  first : Nat
  last : Nat
  deriving DecidableEq, Repr

/-- The split spans among some spans. -/
def splitSpans (starts : List Nat) : List (Nat × Nat) → Except Fault (List SplitSpan)
  | [] => .ok []
  | (start, stop) :: spans => do
    let first := fragmentAt starts start
    let last := fragmentAt starts (← sub stop 1)
    let others ← splitSpans starts spans
    return if first = last then others else ⟨start, stop, first, last⟩ :: others

/-- The numbers of the split spans that touch a fragment. -/
def touching (spans : List SplitSpan) (i : Nat) : List Nat :=
  (spans.zipIdx.filter fun span => span.1.first ≤ i ∧ i ≤ span.1.last).map Prod.snd

/-- What the fragment with number `i` gets from a place on, given the numbers of the split spans
that touch it from there on; the fragment ends at `stop`. -/
def rebuild (joined : List Char) (spans : List SplitSpan) (i stop : Nat) (cursor : Nat) :
    List Nat → Except Fault (List Char)
  | [] => if cursor < stop then slice cursor stop joined else .ok []
  | index :: indices => do
    let span ← item index spans
    let front ←
      if cursor < span.start then slice cursor (min span.start stop) joined else .ok []
    let own ← if span.first = i then slice span.start span.stop joined else .ok []
    let rest ← rebuild joined spans i stop (max cursor span.stop) indices
    return front ++ (own ++ rest)

/-- The fragment with number `i` after the split spans have been moved. -/
def gatherFragment (fragments : List (List Char)) (spans : List SplitSpan) (i : Nat) :
    Except Fault (List Char) := do
  let fragment ← item i fragments
  let indices := touching spans i
  if indices = [] ∨ fragment = [] then return fragment
  else
    let start ← item i (startsFrom 0 fragments)
    rebuild fragments.flatten spans i (start + Text.byteSize fragment) start indices

/-- The fragments after every brace span has moved to the fragment where it starts. -/
def gather (bound : UInt64) (fragments : List (List Char)) : Except Fault (List (List Char)) := do
  let found ← ofSweep (Sweep.ofText fragments.flatten bound 0).spans
  let spans ← splitSpans (startsFrom 0 fragments) found
  if spans = [] then return fragments
  else (List.range fragments.length).mapM (gatherFragment fragments spans)

/-- What stands between the cursor and the new content of a text element: white space counts in that
content, so the opening tag says so. -/
def lead (s : List Char) (cursor : Nat) (element : Element) : Except Fault (List Char) := do
  let opening ← itemsBetween element.opening.start element.opening.stop (Text.encode s)
  if Text.contains (Text.encode "xml:space".toList) opening then
    slice cursor element.content.start s
  else
    let unended ← slice cursor (← sub element.opening.stop 1) s
    return unended ++ " xml:space=\"preserve\">".toList

/-- A part from a place on, with new contents for those text elements from there on that have
changed; white space counts in these. -/
def weave (s : List Char) (cursor : Nat) :
    List (Element × List Char × Bool) → Except Fault (List Char)
  | [] => sliceFrom cursor s
  | (_, _, false) :: elements => weave s cursor elements
  | (element, new, true) :: elements => do
    let front ← lead s cursor element
    let rest ← weave s element.content.stop elements
    return front ++ (new ++ rest)

/-- A part after every brace span has moved to the text element where it starts. -/
def gatherPart (bound : UInt64) (s : List Char) : Except Fault (List Char) := do
  let elements ← elementsFrom 0 (Text.encode s)
  let contents ← elements.mapM fun element => slice element.content.start element.content.stop s
  let gathered ← gather bound contents
  let changed := changes contents gathered
  if changed.contains true then weave s 0 (elements.zip (gathered.zip changed))
  else return s

end MailMerge.Memory
