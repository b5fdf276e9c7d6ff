import MailMerge.Text.Search

/-!
# Text elements

The visible text of a document stands in **text elements**, `<w:t>` … `</w:t>`. Markup is read as
plain text here, so the only question is where these elements are: `chunks` cuts a text into them
and the characters outside, losing nothing (`text_chunks`). Elements with longer names that start
alike (`<w:tbl>`, `<w:tc>`, `<w:tab/>`) and empty ones, `<w:t/>`, are not text elements; after an
opening tag that is never ended or closed, no element is looked for.

`insideTextElement` looks at the same elements from a place in the text, backwards.
-/

namespace MailMerge.Markup

/-- The start of the opening tag of a text element. -/
def textOpening : List Char := "<w:t".toList

/-- The closing tag of a text element. -/
def textClosing : List Char := "</w:t>".toList

/-- Whether a name is complete where `s` follows: at the end of a tag or before white space. -/
def nameEnds : List Char → Bool
  | [] => false
  | c :: _ => c == '>' || c == '/' || c == ' ' || c == '\t' || c == '\r' || c == '\n'

/-- A part of a text: a text element without its closing tag, or a character outside. -/
inductive Chunk where
  | char (c : Char)
  | element (opening content : List Char)
  deriving DecidableEq, Repr

namespace Chunk

/-- The characters of a chunk. -/
def text : Chunk → List Char
  | char c => [c]
  | element opening content => opening ++ content

/-- The content of a text element. -/
def content? : Chunk → Option (List Char)
  | char _ => none
  | element _ content => some content

end Chunk

/-- What starts with the first character of a text. -/
inductive Start where
  /-- Nothing of interest. -/
  | plain
  /-- An empty text element. -/
  | empty (tag rest : List Char)
  /-- A text element; what is left starts with its closing tag. -/
  | element (opening content rest : List Char)
  /-- The opening tag of a text element that is never ended or never closed. -/
  | unclosed
  deriving DecidableEq, Repr

/-- Looks for a text element at the start of `s`. -/
def start (s : List Char) : Start :=
  match Text.after? textOpening s with
  | none => .plain
  | some afterName =>
    if nameEnds afterName then
      match Text.breakAt? ['>'] afterName with
      | none => .unclosed
      | some (attributes, rest) =>
        let tag := textOpening ++ attributes ++ ['>']
        if attributes.getLast? = some '/' then .empty tag rest
        else
          match Text.breakAt? textClosing rest with
          | none => .unclosed
          | some (content, after) => .element tag content (textClosing ++ after)
    else .plain

theorem eq_append_of_start_empty {s tag rest : List Char} (h : start s = .empty tag rest) :
    s = tag ++ rest := by
  unfold start at h
  repeat' split at h
  all_goals try (simp at h; done)
  next _ hn _ _ _ _ ha _ =>
    simp only [Start.empty.injEq] at h
    obtain ⟨rfl, rfl⟩ := h
    rw [Text.eq_append_of_after? hn, Text.eq_append_of_breakAt? ha]
    simp

theorem eq_append_of_start_element {s opening content rest : List Char}
    (h : start s = .element opening content rest) : s = opening ++ (content ++ rest) := by
  unfold start at h
  repeat' split at h
  all_goals try (simp at h; done)
  next _ hn _ _ _ _ ha _ _ _ _ hc =>
    simp only [Start.element.injEq] at h
    obtain ⟨rfl, rfl, rfl⟩ := h
    rw [Text.eq_append_of_after? hn, Text.eq_append_of_breakAt? ha, Text.eq_append_of_breakAt? hc]
    simp

theorem opening_ne_nil_of_start_element {s opening content rest : List Char}
    (h : start s = .element opening content rest) : opening ≠ [] := by
  unfold start at h
  repeat' split at h
  all_goals try (simp at h; done)
  simp only [Start.element.injEq] at h
  simp [← h.1]

theorem tag_ne_nil_of_start_empty {s tag rest : List Char} (h : start s = .empty tag rest) :
    tag ≠ [] := by
  unfold start at h
  repeat' split at h
  all_goals try (simp at h; done)
  simp only [Start.empty.injEq] at h
  simp [← h.1]

/-- The text elements of a text and the characters outside them, in order. -/
def chunks (s : List Char) : List Chunk :=
  match s with
  | [] => []
  | c :: rest =>
    match h : start (c :: rest) with
    | .plain => .char c :: chunks rest
    | .empty tag after =>
      have : after.length < rest.length + 1 := by
        have hs := congrArg List.length (eq_append_of_start_empty h)
        have ht := List.length_pos_iff.2 (tag_ne_nil_of_start_empty h)
        simp only [List.length_cons, List.length_append] at hs
        omega
      tag.map .char ++ chunks after
    | .element opening content after =>
      have : after.length < rest.length + 1 := by
        have hs := congrArg List.length (eq_append_of_start_element h)
        have ho := List.length_pos_iff.2 (opening_ne_nil_of_start_element h)
        simp only [List.length_cons, List.length_append] at hs
        omega
      .element opening content :: chunks after
    | .unclosed => (c :: rest).map .char
termination_by s.length

theorem flatMap_text_map_char (s : List Char) : (s.map Chunk.char).flatMap Chunk.text = s := by
  induction s with
  | nil => rfl
  | cons c s ih => simp [Chunk.text, ih]

/-- Cutting a text into chunks loses nothing. -/
theorem text_chunks (s : List Char) : (chunks s).flatMap Chunk.text = s := by
  fun_induction chunks s with
  | case1 => rfl
  | case2 c rest _ ih => simp [Chunk.text, ih]
  | case3 c rest tag after h _ ih =>
    rw [List.flatMap_append, flatMap_text_map_char, ih, ← eq_append_of_start_empty h]
  | case4 c rest opening content after h _ ih =>
    simp only [List.flatMap_cons, Chunk.text, ih]
    simpa using (eq_append_of_start_element h).symm
  | case5 c rest _ => rw [flatMap_text_map_char]

/-- The contents of the text elements of a text, in order. -/
def textContents (s : List Char) : List (List Char) :=
  (chunks s).filterMap Chunk.content?

/-- What is left of `s` after each occurrence of `p` that starts in it, from left to right. -/
def occurrences (p : List Char) : List Char → List (List Char)
  | [] => []
  | c :: s =>
    match Text.after? p (c :: s) with
    | some rest => rest :: occurrences p s
    | none => occurrences p s

/-- Whether the place between `before` and `after` is in the content of a text element: the last
opening tag before it is ended there, is not that of an empty element, and no closing tag
follows. -/
def insideTextElement (before after : List Char) : Bool :=
  let opened := (occurrences textOpening before).filter fun rest =>
    nameEnds (rest.take 1 ++ after.take 1)
  match opened.getLast? with
  | none => false
  | some rest =>
    match Text.breakAt? ['>'] rest with
    | none => false
    | some (attributes, _) =>
      attributes.getLast? != some '/' && !Text.contains textClosing rest

end MailMerge.Markup
