import MailMerge.Template.Tag

/-!
# Brace spans

A **brace span** is an opening brace, a text without braces, and a closing brace. The text has at
least one character, and its closing brace lies in the **window**: the stretch of a bounded number
of bytes after the opening brace. Spans never overlap, and whether one starts at a place depends
only on the text from there.

`pieces` cuts a text into spans and single characters, losing nothing (`text_pieces`), and `tokens`
keeps of the spans those that are tags.
-/

namespace MailMerge

/-- The number of bytes searched after an opening brace, for a bound on the length of the text
between the braces: one more than the bound, so that a closing brace right behind a text of that
length is still seen. A bound of zero counts as one. The count is a 64-bit word. -/
def windowSize (bound : UInt64) : Nat :=
  (max bound 1 + 1).toNat

/-- The text up to the first brace and what follows that brace, provided that it is a closing one
and starts within the first `room` bytes. -/
def body? (room : Nat) : List Char → Option (List Char × List Char)
  | [] => none
  | c :: s =>
    if room = 0 then none
    else if c = '{' then none
    else if c = '}' then some ([], s)
    else (body? (room - c.utf8Size) s).map fun (body, rest) => (c :: body, rest)

theorem eq_append_of_body? {room : Nat} {s body rest : List Char}
    (h : body? room s = some (body, rest)) : s = body ++ '}' :: rest := by
  induction s generalizing room body with
  | nil => simp [body?] at h
  | cons c s ih =>
    simp only [body?] at h
    split at h
    · simp at h
    split at h
    · simp at h
    split at h
    · next hc => simp_all
    · simp only [Option.map_eq_some_iff, Prod.mk.injEq, Prod.exists] at h
      obtain ⟨b, r, hb, rfl, rfl⟩ := h
      simp [ih hb]

/-- The text of the span that starts with the first character of `s`, and what follows it. -/
def span? (window : Nat) : List Char → Option (List Char × List Char)
  | '{' :: s =>
    match body? window s with
    | some (c :: body, rest) => some (c :: body, rest)
    | _ => none
  | _ => none

theorem eq_append_of_span? {window : Nat} {s body rest : List Char}
    (h : span? window s = some (body, rest)) : s = '{' :: (body ++ '}' :: rest) := by
  unfold span? at h
  split at h
  · split at h
    · next hb =>
      simp only [Option.some.injEq, Prod.mk.injEq] at h
      obtain ⟨rfl, rfl⟩ := h
      simp [eq_append_of_body? hb]
    · simp at h
  · simp at h

theorem length_lt_of_span? {window : Nat} {s body rest : List Char}
    (h : span? window s = some (body, rest)) : rest.length < s.length := by
  rw [eq_append_of_span? h]
  simp only [List.length_cons, List.length_append]
  omega

/-- A part of a text: a brace span, given by the text between its braces, or a character that is
in none. -/
inductive Piece where
  | char (c : Char)
  | span (body : List Char)
  deriving DecidableEq, Repr

namespace Piece

/-- The characters of a piece. -/
def text : Piece → List Char
  | char c => [c]
  | span body => '{' :: (body ++ ['}'])

end Piece

/-- The pieces of a text, in order. -/
def pieces (window : Nat) (s : List Char) : List Piece :=
  match s with
  | [] => []
  | c :: rest =>
    match h : span? window (c :: rest) with
    | some (body, after) =>
      have : after.length < rest.length + 1 := length_lt_of_span? h
      .span body :: pieces window after
    | none => .char c :: pieces window rest
termination_by s.length

/-- Cutting a text into pieces loses nothing. -/
theorem text_pieces (window : Nat) (s : List Char) : (pieces window s).flatMap Piece.text = s := by
  fun_induction pieces window s with
  | case1 => rfl
  | case2 c rest body after h _ ih =>
    simp only [List.flatMap_cons, Piece.text, ih]
    simpa using (eq_append_of_span? h).symm
  | case3 c rest _ ih => simp [Piece.text, ih]

/-- A part of a template: a tag, or a character that is in none. -/
inductive Token where
  | char (c : Char)
  | tag (t : Tag)
  deriving DecidableEq, Repr

namespace Token

/-- The characters of a token. -/
def text : Token → List Char
  | char c => [c]
  | tag t => t.text

end Token

/-- The tokens of a piece: a span that is no tag is plain text, braces and all. -/
def Piece.tokens : Piece → List Token
  | .char c => [.char c]
  | .span body =>
    match Tag.ofInner? body with
    | some t => [.tag t]
    | none => (Piece.span body).text.map .char

/-- The tokens of a text, in order. -/
def tokens (window : Nat) (s : List Char) : List Token :=
  (pieces window s).flatMap Piece.tokens

theorem text_tokens_piece (p : Piece) : p.tokens.flatMap Token.text = p.text := by
  cases p with
  | char c => simp [Piece.tokens, Token.text, Piece.text]
  | span body =>
    simp only [Piece.tokens]
    split
    · next t ht => simp [Token.text, Tag.text, Piece.text, Tag.inner_of_ofInner? ht]
    · generalize (Piece.span body).text = s
      induction s with
      | nil => rfl
      | cons c s ih => simp [Token.text, ih]

/-- Cutting a text into tokens loses nothing. -/
theorem text_tokens (window : Nat) (s : List Char) :
    (tokens window s).flatMap Token.text = s := by
  rw [tokens, List.flatMap_assoc]
  simp only [text_tokens_piece]
  exact text_pieces window s

end MailMerge
