import MailMerge.Data.Value
import MailMerge.Json.Reader
import MailMerge.Text.Base64

/-!
# Data from JSON

JSON values become values of the data as they are, with one exception: an object with a text
`buffer`, which holds bytes in base 64, and a text `extension` is a picture. Of several members of
an object under one name the last counts. There is no value for JSON with a numeral or a string
literal that stands for nothing.
-/

namespace MailMerge

/-- The text of a value that is a text. -/
def Value.string? : Value → Option String
  | .string s => some s
  | _ => none

/-- The number that a value is. -/
def Value.number? : Value → Option Float
  | .number x => some x
  | _ => none

/-- The picture that some fields describe. -/
def Image.ofFields? (fields : Fields Value) : Option Image := do
  let buffer ← (← fields.get? "buffer").string?
  let extension ← (← fields.get? "extension").string?
  let bytes ← Text.Base64.decode? (Text.trim buffer.toList)
  let image ← Image.ofBytes? bytes extension
  return { image with
    width := (fields.get? "widthInches").bind Value.number?
    height := (fields.get? "heightInches").bind Value.number? }

/-- The value of a JSON object with the given fields. -/
def Value.ofFields (fields : Fields Value) : Value :=
  match Image.ofFields? fields with
  | some picture => .image picture
  | none => .map fields

namespace Value

mutual

/-- The value of a JSON text. -/
def ofJson? : Json → Option Value
  | .null => some .null
  | .bool b => some (.bool b)
  | .number n => n.float?.map .number
  | .string letters => (Letter.text? letters).map .string
  | .array items => (ofItems? items).map .list
  | .object members => (ofMembers? members).map fun entries => ofFields (Fields.ofList entries)

/-- The values of the items of an array. -/
def ofItems? : List Json → Option (List Value)
  | [] => some []
  | item :: items => do
    let value ← ofJson? item
    let values ← ofItems? items
    return value :: values

/-- The values of the members of an object. -/
def ofMembers? : List (List Letter × Json) → Option (List (String × Value))
  | [] => some []
  | (name, item) :: members => do
    let key ← Letter.text? name
    let value ← ofJson? item
    let entries ← ofMembers? members
    return (key, value) :: entries

end

end Value

namespace DataTree

/-- The data that a JSON object holds. A JSON value of any other kind holds none. -/
def ofJson? : Json → Option DataTree
  | .object members => (Value.ofMembers? members).map Fields.ofList
  | json => (Value.ofJson? json).map fun _ => Fields.empty

/-- The data that a JSON text holds. -/
def ofText? (s : List Char) : Option DataTree :=
  (Json.ofText? Json.dataDepth s).bind ofJson?

end DataTree

end MailMerge
