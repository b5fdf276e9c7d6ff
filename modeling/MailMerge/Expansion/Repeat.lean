import MailMerge.Expansion.Basic

/-!
# Repetition

Loops and table rows repeat a text for each item of a list. In each copy, placeholders stand for
fields of the item.
-/

namespace MailMerge

/-- The list under a name, or a warning why there is nothing to repeat for. -/
def listFor (data : DataTree) (of : Repetition) (name : String) : Except Warning (List Value) :=
  match data.get? name with
  | none | some .null => .error (.noData of name)
  | some (.list []) => .error (.emptyList of name)
  | some (.list items) => .ok items
  | some other => .error (.notList of name other.typeName)

/-- What comes of a token in a text that is repeated. A placeholder stands for a field of the item;
marks of table rows vanish from the rows they mark. All other tags stay as they are. -/
def expandField (options : Options) (of : Repetition) (owner : String) (item : Value) :
    Token → Expansion
  | .tag (.simple field) =>
    match item.field? field with
    | none => {}
    | some value =>
      match options.scalarText? value with
      | some text => .literal text
      | none => .warning (.fieldNotText owner field value.typeName)
  | .tag (.table name) => if of = .table then {} else .literal (Tag.table name).text
  | token => .literal token.text

/-- What comes of a text for one item. -/
def expandFields (options : Options) (of : Repetition) (owner : String) (item : Value)
    (template : List Token) : Expansion :=
  .join (template.map (expandField options of owner item))

/-- What comes of a text that is repeated for the items of a list, without those that are `null`. -/
def expandItems (options : Options) (of : Repetition) (owner : String) (template : List Token)
    (items : List Value) : Expansion :=
  .join ((items.filter fun item => !item.isNull).map fun item =>
    expandFields options of owner item template)

end MailMerge
