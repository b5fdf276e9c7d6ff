import MailMerge.Data.Fields
import MailMerge.Image.Basic
import MailMerge.Number.Text

/-!
# Data

A template is expanded against a `DataTree`: values under keys. A `Value` is a scalar, a list, a
tree again, or a picture. Scalars have a text; in a condition, every value is true or false.
-/

namespace MailMerge

/-- A value in the data. -/
inductive Value where
  | null
  | bool (b : Bool)
  | number (x : Float)
  | string (s : String)
  /-- Items in order. Those that are maps have fields; those that are `null` are passed over. -/
  | list (items : List Value)
  | map (fields : Fields Value)
  | image (image : Image)
  deriving Inhabited

/-- The data that a template is expanded against. -/
abbrev DataTree := Fields Value

namespace Value

/-- Whether a value is `null`. -/
def isNull : Value → Bool
  | null => true
  | _ => false

/-- Whether a condition on a value holds. It fails for `null`, `false`, zero, what is no number, the
texts `""`, `"false"` and `"0"`, and the empty list. -/
def isTruthy : Value → Bool
  | null => false
  | bool b => b
  | number x => x != 0.0 && !x.isNaN
  | string s => s != "" && s != "false" && s != "0"
  | list items => !items.isEmpty
  | map _ => true
  | image _ => true

/-- The text of a scalar other than `null`. -/
def text? : Value → Option (List Char)
  | bool true => some "true".toList
  | bool false => some "false".toList
  | number x => some (numberText x)
  | string s => some s.toList
  | _ => none

/-- A field of a map. -/
def field? (value : Value) (name : String) : Option Value :=
  match value with
  | map fields => fields.get? name
  | _ => none

/-- What kind of value it is, in a word. -/
def typeName : Value → String
  | null => "null"
  | bool _ => "boolean"
  | number _ => "number"
  | string _ => "string"
  | list _ => "list"
  | map _ => "map"
  | image _ => "image"

mutual

/-- Equality of values; numbers are compared as floats, so what is no number differs from itself. -/
def beq : Value → Value → Bool
  | null, null => true
  | bool a, bool b => a == b
  | number a, number b => a == b
  | string a, string b => a == b
  | list as, list bs => beqItems as bs
  | map as, map bs => beqFields as bs
  | image a, image b => a == b
  | _, _ => false

/-- Equality of lists of values, item by item. -/
def beqItems : List Value → List Value → Bool
  | [], [] => true
  | a :: as, b :: bs => beq a b && beqItems as bs
  | _, _ => false

/-- Equality of trees. -/
def beqFields : Fields Value → Fields Value → Bool
  | ⟨as⟩, ⟨bs⟩ => beqEntries as bs

/-- Equality of entries, one by one. -/
def beqEntries : List (String × Value) → List (String × Value) → Bool
  | [], [] => true
  | (k, a) :: as, (l, b) :: bs => k == l && beq a b && beqEntries as bs
  | _, _ => false

end

instance : BEq Value := ⟨beq⟩

end Value

instance : BEq (Fields Value) := ⟨Value.beqFields⟩

end MailMerge
