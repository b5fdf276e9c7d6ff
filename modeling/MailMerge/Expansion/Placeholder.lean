import MailMerge.Expansion.Basic

/-!
# Placeholders

A placeholder `{name}` stands for the text of a scalar, or for a picture. A picture is left to be
put in later: a **marker** of its own stands for it, the number of the picture between two
characters for private use.
-/

namespace MailMerge

/-- The character that starts a marker. -/
def markerOpen : Char := '\ue000'

/-- The character that ends a marker. -/
def markerClose : Char := '\ue001'

/-- The marker of the picture with number `n`. -/
def marker (n : Nat) : List Char :=
  markerOpen :: ("IMG".toList ++ decimalDigits n ++ [markerClose])

/-- What comes of a placeholder, when `placed` pictures come before. -/
def expandPlaceholder (data : DataTree) (options : Options) (placed : Nat) (name : String) :
    Expansion :=
  match data.getEntry? name with
  | none => {}
  | some (key, .image image) =>
    { text := marker placed
      warnings := image.rejected.toList.map fun rejected =>
        .extensionReplaced name rejected image.extension
      stats := { images := 1 }
      images := [⟨marker placed, key, image⟩] }
  | some (_, value) =>
    match options.scalarText? value with
    | some text => { text, stats := { placeholders := 1 } }
    | none => if value.isNull then {} else .warning (.notText name value.typeName)

/-- What comes of a text when its placeholders are resolved, when `placed` pictures come before. -/
def expandPlaceholders (data : DataTree) (options : Options) (placed : Nat) :
    List Token → Expansion
  | [] => {}
  | .tag (.simple name) :: ts =>
    let e := expandPlaceholder data options placed name
    e ++ expandPlaceholders data options (placed + e.images.length) ts
  | t :: ts => .literal t.text ++ expandPlaceholders data options placed ts

end MailMerge
