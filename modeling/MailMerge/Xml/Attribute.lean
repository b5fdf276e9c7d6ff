import MailMerge.Markup.Escape
import MailMerge.Text.Utf8

/-!
# Attributes

The attributes of an XML tag are names with quoted values, with an equals sign between and any white
space around. Values may hold entities and character references. Tags are read as glyphs: bytes that
are no characters do no harm where their meaning is not asked for.
-/

namespace MailMerge.Xml

open MailMerge.Text (Glyph)

/-- White space in a tag. -/
def isSpace (g : Glyph) : Bool :=
  g == .char ' ' || g == .char '\t' || g == .char '\n' || g == .char '\r'

/-- A name with a value, as they are written. -/
structure Attribute where
  name : List Glyph
  value : List Glyph
  deriving DecidableEq, Repr

namespace Attribute

/-- The text that the value of an attribute stands for. -/
def text? (a : Attribute) : Option String :=
  ((Text.charsOf? a.value).bind Markup.unescape?).map String.ofList

end Attribute

/-- Reads an attribute at the start of `s`, where no white space comes first, and gives what follows
it. -/
def attribute? (s : List Glyph) : Option (Attribute × List Glyph) :=
  match s with
  | [] => none
  | first :: rest =>
    let endsName (g : Glyph) : Bool := isSpace g || g == .char '='
    let name := first :: rest.takeWhile (!endsName ·)
    match (rest.dropWhile (!endsName ·)).dropWhile isSpace with
    | .char '=' :: afterSign =>
      match afterSign.dropWhile isSpace with
      | quote :: afterQuote =>
        if quote = .char '"' ∨ quote = .char '\'' then
          (Text.breakAt? [quote] afterQuote).map fun (value, after) => (⟨name, value⟩, after)
        else none
      | [] => none
    | _ => none

theorem length_lt_of_attribute? {s after : List Glyph} {a : Attribute}
    (h : attribute? s = some (a, after)) : after.length < s.length := by
  unfold attribute? at h
  split at h
  · simp at h
  · next first rest =>
    dsimp only at h
    split at h
    · next afterSign hs =>
      split at h
      · next quote afterQuote hq =>
        split at h
        · simp only [Option.map_eq_some_iff, Prod.mk.injEq, Prod.exists] at h
          obtain ⟨value, r, hb, _, rfl⟩ := h
          have h₁ := congrArg List.length (Text.eq_append_of_breakAt? hb)
          have h₂ := (List.dropWhile_sublist (l := afterSign) isSpace).length_le
          rw [hq] at h₂
          have h₃ := (List.dropWhile_sublist (l := rest)
            (fun g => !(isSpace g || g == .char '='))).length_le
          have h₄ := (List.dropWhile_sublist (l := rest.dropWhile
            (fun g => !(isSpace g || g == .char '='))) isSpace).length_le
          rw [hs] at h₄
          simp only [List.length_append, List.length_cons, List.length_nil] at *
          omega
        · simp at h
      · simp at h
    · simp at h

/-- What the attributes of a tag are read as. -/
inductive AttributeItem where
  | sound (a : Attribute)
  /-- Something that is no attribute, or has the name of one before; reading stops here. -/
  | malformed
  deriving DecidableEq, Repr

/-- The attributes of a tag, given the text after its name and the names that came before. -/
def attributeItems (seen : List (List Glyph)) (s : List Glyph) : List AttributeItem :=
  match hs : s.dropWhile isSpace with
  | [] => []
  | g :: rest =>
    match h : attribute? (g :: rest) with
    | none => [.malformed]
    | some (a, after) =>
      have : after.length < s.length := by
        have h₁ := length_lt_of_attribute? h
        have h₂ := (List.dropWhile_sublist (l := s) isSpace).length_le
        rw [hs] at h₂
        omega
      if a.name ∈ seen then [.malformed] else .sound a :: attributeItems (a.name :: seen) after
termination_by s.length

/-- Why a listing in XML cannot be read. -/
inductive ReadError where
  /-- The markup itself is not well formed. -/
  | badMarkup
  /-- An attribute is not well formed. -/
  | badAttribute
  /-- The value of an attribute stands for no text. -/
  | badValue
  deriving DecidableEq, Repr

/-- The texts of the attributes whose names are wanted, in order. -/
def wantedFields (wanted : List String) : List AttributeItem →
    Except ReadError (List (String × String))
  | [] => .ok []
  | .malformed :: _ => .error .badAttribute
  | .sound a :: items =>
    match wanted.find? fun name => Text.glyphsOf name.toList == a.name with
    | none => wantedFields wanted items
    | some name =>
      match a.text? with
      | none => .error .badValue
      | some text => (wantedFields wanted items).map ((name, text) :: ·)

end MailMerge.Xml
