import MailMerge.Markup.DrawingId
import MailMerge.Markup.Row
import MailMerge.Markup.TextElement
import MailMerge.Memory.Text

/-!
# Markup in memory

Text elements, the tags of rows and drawing ids are looked for in the bytes of a text. Whatever is
found is known by its places. A byte is read only at a place that is in the text, and the place
before another one only where there is one; otherwise the search fails.
-/

namespace MailMerge.Memory

open Markup

/-- The byte of the character that starts a tag. -/
def openingAngleByte : UInt8 := '<'.toUInt8

/-- The byte of the slash in a closing tag or an empty element. -/
def slashByte : UInt8 := '/'.toUInt8

/-- Whether a name is complete that stops at a place. -/
def nameEndsAt (place : Nat) (bytes : List UInt8) : Bool :=
  bytes[place]?.any fun b => (Text.encode ">/ \t\r\n".toList).contains b

/-- The byte in front of a place. -/
def byteBefore (place : Nat) (bytes : List UInt8) : Except Fault UInt8 := do
  item (← sub place 1) bytes

/-! ### Text elements -/

/-- A stretch of a text, by the places where it starts and stops. -/
structure Stretch where
  start : Nat
  stop : Nat
  deriving DecidableEq, Repr

/-- A text element, by the stretches of its opening tag and its content. -/
structure Element where
  opening : Stretch
  content : Stretch
  deriving DecidableEq, Repr

/-- The text elements from a place on, up to an opening tag that is never ended or never closed. -/
def elementsFrom (place : Nat) (bytes : List UInt8) : Except Fault (List Element) :=
  match hstart : findFrom textOpening place bytes with
  | .error fault => .error fault
  | .ok none => .ok []
  | .ok (some start) =>
    have := of_findFrom hstart
    let nameStop := start + textOpening.length
    if nameEndsAt nameStop bytes then
      match hangle : findFrom ['>'] nameStop bytes with
      | .error fault => .error fault
      | .ok none => .ok []
      | .ok (some angle) =>
        have := of_findFrom hangle
        match byteBefore angle bytes with
        | .error fault => .error fault
        | .ok last =>
          let inner := angle + 1
          if last = slashByte then elementsFrom inner bytes
          else
            match hstop : findFrom textClosing inner bytes with
            | .error fault => .error fault
            | .ok none => .ok []
            | .ok (some stop) =>
              have := of_findFrom hstop
              (elementsFrom (stop + textClosing.length) bytes).map
                (⟨⟨start, inner⟩, ⟨inner, stop⟩⟩ :: ·)
    else elementsFrom nameStop bytes
termination_by bytes.length - place
decreasing_by
  all_goals
    have hopening : (Text.encode textOpening).length = 4 := rfl
    have hopening' : textOpening.length = 4 := rfl
    omega

/-- Whether a place lies in the content of a text element. -/
def insideTextElement (place : Nat) (bytes : List UInt8) : Except Fault Bool := do
  let front ← itemsUpTo place bytes
  let openings := placesOf (Text.encode textOpening) 0 front
  match openings.reverse.find? fun start => nameEndsAt (start + textOpening.length) bytes with
  | none => return false
  | some start =>
    match ← findFrom ['>'] start front with
    | none => return false
    | some angle =>
      if (← byteBefore angle front) = slashByte then return false
      else
        match (placesOf (Text.encode textClosing) 0 front).getLast? with
        | none => return true
        | some closing => return closing < start

/-! ### Rows -/

/-- The byte so many places before another one, if there is one. -/
def byteBack? (count place : Nat) (bytes : List UInt8) : Except Fault (Option UInt8) :=
  if count ≤ place then (item (place - count) bytes).map some else .ok none

/-- The tag of a row whose name starts at a place. -/
def rowTag? (place : Nat) (bytes : List UInt8) : Except Fault (Option RowTag) := do
  if nameEndsAt (place + rowName.length) bytes then
    match ← findFrom ['>'] place bytes with
    | none => return none
    | some angle =>
      let second ← byteBack? 2 place bytes
      let first ← byteBack? 1 place bytes
      if second = some openingAngleByte ∧ first = some slashByte then
        return some (.closes (angle + 1))
      else if first = some openingAngleByte then
        if (← byteBefore angle bytes) = slashByte then return none
        else return some (.opens (← sub place 1))
      else return none
  else return none

/-- The first opening tag that is left over when the tags with the given names are matched, from the
last to the first; `depth` closing tags wait for their partners. -/
def unmatchedOpening? (bytes : List UInt8) (depth : Nat) : List Nat → Except Fault (Option Nat)
  | [] => .ok none
  | place :: places => do
    match ← rowTag? place bytes with
    | none => unmatchedOpening? bytes depth places
    | some (.closes _) => unmatchedOpening? bytes (depth + 1) places
    | some (.opens start) =>
      if depth = 0 then return some start
      else unmatchedOpening? bytes (← sub depth 1) places

/-- The first closing tag that is left over when the tags with the given names are matched; `depth`
opening tags wait for their partners. -/
def unmatchedClosing? (bytes : List UInt8) (depth : Nat) : List Nat → Except Fault (Option Nat)
  | [] => .ok none
  | place :: places => do
    match ← rowTag? place bytes with
    | none => unmatchedClosing? bytes depth places
    | some (.opens _) => unmatchedClosing? bytes (depth + 1) places
    | some (.closes stop) =>
      if depth = 0 then return some stop
      else unmatchedClosing? bytes (← sub depth 1) places

/-- Where the row around a place starts. -/
def rowStart (place : Nat) (bytes : List UInt8) : Except Fault (Option Nat) := do
  let front ← itemsUpTo place bytes
  unmatchedOpening? bytes 0 (placesOf (Text.encode rowName) 0 front).reverse

/-- Where the row around a place stops. -/
def rowStop (place : Nat) (bytes : List UInt8) : Except Fault (Option Nat) := do
  let rest ← itemsFrom place bytes
  unmatchedClosing? bytes 0 (placesOf (Text.encode rowName) place rest)

/-! ### Drawing ids -/

/-- What stands before the value of an id. -/
def idName : List Char := " id=\"".toList

/-- The character of a byte, if it takes no more. -/
def charOf (b : UInt8) : Char :=
  .ofNat b.toNat

/-- The id in the tag of a drawing. -/
def drawingId? (tag : List UInt8) : Except Fault (Option Nat) := do
  match find? (Text.encode idName) tag with
  | none => return none
  | some place =>
    let value ← itemsFrom (place + idName.length) tag
    let count := (value.takeWhile fun b => (charOf b).isDigit).length
    let digits ← itemsUpTo count value
    return word? (digits.map charOf)

/-- The drawing ids in the tags that start at some places, up to the first tag that is not ended. -/
def drawingIdsAt (bytes : List UInt8) : List Nat → Except Fault (List Nat)
  | [] => .ok []
  | start :: starts => do
    match ← findFrom ['>'] start bytes with
    | none => return []
    | some stop =>
      let id ← drawingId? (← itemsBetween start stop bytes)
      let ids ← drawingIdsAt bytes starts
      return id.toList ++ ids

/-- The largest drawing id in a text, or zero. -/
def maxDrawingId (bytes : List UInt8) : Except Fault Nat := do
  let ids ← drawingIdsAt bytes (placesOf (Text.encode drawingOpening) 0 bytes)
  return ids.foldl max 0

end MailMerge.Memory
