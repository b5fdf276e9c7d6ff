import MailMerge.Text.Search

/-!
# Tags

A **tag** is what a template writes between braces: `{name}` stands for a value, `{#name}` and
`{?name}` open a loop and a conditional, `{/name}` closes either, `{:else}` parts a conditional,
and `{table:name}` marks the row of a table. Names are identifiers.

`Tag.inner` writes a tag and `Tag.ofInner?` reads one, both without the braces.
-/

namespace MailMerge

/-- Characters that names are made of: ASCII letters, digits and the underscore. -/
def isNameChar (c : Char) : Bool :=
  c.isAlphanum || c == '_'

/-- An identifier: one or more name characters. -/
def isIdentifier (s : List Char) : Bool :=
  !s.isEmpty && s.all isNameChar

/-- The meaning of a brace span. -/
inductive Tag where
  /-- A placeholder, `{name}`. -/
  | simple (name : String)
  /-- The start of a loop, `{#name}`. -/
  | loopOpen (name : String)
  /-- The start of a conditional, `{?name}`. -/
  | condOpen (name : String)
  /-- The end of the loop or conditional of that name, `{/name}`. -/
  | close (name : String)
  /-- The border between the two branches of a conditional, `{:else}`. -/
  | otherwise
  /-- The mark of a table row, `{table:name}`. -/
  | table (name : String)
  deriving DecidableEq, Repr, Inhabited

namespace Tag

/-- The letters before the name of a table mark. -/
def tableWord : List Char := "table:".toList

/-- The text of a tag without its braces. -/
def inner : Tag → List Char
  | simple name => name.toList
  | loopOpen name => '#' :: name.toList
  | condOpen name => '?' :: name.toList
  | close name => '/' :: name.toList
  | otherwise => ":else".toList
  | table name => tableWord ++ name.toList

/-- The text of a tag, braces included. -/
def text (t : Tag) : List Char :=
  '{' :: (t.inner ++ ['}'])

/-- The name `s`, when it is an identifier. -/
def name? (s : List Char) : Option String :=
  if isIdentifier s then some (String.ofList s) else none

/-- Reads a tag from the text between its braces. -/
def ofInner? : List Char → Option Tag
  | [] => none
  | c :: s =>
    if c = '#' then (name? s).map loopOpen
    else if c = '?' then (name? s).map condOpen
    else if c = '/' then (name? s).map close
    else if c = ':' then if s = "else".toList then some otherwise else none
    else
      match Text.after? tableWord (c :: s) with
      | some name => (name? name).map table
      | none => (name? (c :: s)).map simple

theorem eq_of_name? {s : List Char} {name : String} (h : name? s = some name) :
    name.toList = s := by
  unfold name? at h
  split at h
  · simp only [Option.some.injEq] at h
    simp [← h]
  · simp at h

/-- A tag is read only from its own text. -/
theorem inner_of_ofInner? {s : List Char} {t : Tag} (h : ofInner? s = some t) : t.inner = s := by
  cases s with
  | nil => simp [ofInner?] at h
  | cons c s =>
    simp only [ofInner?] at h
    split at h
    · next hc =>
      obtain ⟨name, hn, rfl⟩ := Option.map_eq_some_iff.1 h
      simp [inner, eq_of_name? hn, hc]
    split at h
    · next hc =>
      obtain ⟨name, hn, rfl⟩ := Option.map_eq_some_iff.1 h
      simp [inner, eq_of_name? hn, hc]
    split at h
    · next hc =>
      obtain ⟨name, hn, rfl⟩ := Option.map_eq_some_iff.1 h
      simp [inner, eq_of_name? hn, hc]
    split at h
    · next hc =>
      split at h
      · next hs =>
        cases h
        simp [inner, hc, hs]
      · simp at h
    · split at h
      · next name ha =>
        obtain ⟨n, hn, rfl⟩ := Option.map_eq_some_iff.1 h
        simp only [inner, eq_of_name? hn]
        exact (Text.eq_append_of_after? ha).symm
      · obtain ⟨name, hn, rfl⟩ := Option.map_eq_some_iff.1 h
        simp [inner, eq_of_name? hn]

end Tag

end MailMerge
