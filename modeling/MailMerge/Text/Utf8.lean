import MailMerge.Text.Search

/-!
# UTF-8

Texts as bytes. The first byte of a character says which bytes may follow it (`followers?`), so that
only shortest forms of characters that are no surrogates are well formed. `decode` reads bytes that
are well formed throughout and says otherwise where and how they fail; `glyphs` reads any bytes,
keeping those that belong to no character.
-/

namespace MailMerge.Text

/-- The bytes of a text. -/
def encode (s : List Char) : List UInt8 :=
  s.flatMap String.utf8EncodeChar

@[simp]
theorem encode_nil : encode [] = [] := rfl

@[simp]
theorem encode_append (s r : List Char) : encode (s ++ r) = encode s ++ encode r :=
  List.flatMap_append

theorem encode_cons (c : Char) (s : List Char) :
    encode (c :: s) = String.utf8EncodeChar c ++ encode s := rfl

@[simp]
theorem length_encode (s : List Char) : (encode s).length = byteSize s := by
  induction s with
  | nil => rfl
  | cons c s ih => rw [encode_cons, List.length_append, String.length_utf8EncodeChar, ih, byteSize]

/-- The ranges of the bytes that follow the first byte of a character. -/
def followers? (first : UInt8) : Option (List (UInt8 × UInt8)) :=
  let tail : UInt8 × UInt8 := (0x80, 0xBF)
  if first ≤ 0x7F then some []
  else if 0xC2 ≤ first ∧ first ≤ 0xDF then some [tail]
  else if first = 0xE0 then some [(0xA0, 0xBF), tail]
  else if first = 0xED then some [(0x80, 0x9F), tail]
  else if 0xE1 ≤ first ∧ first ≤ 0xEF then some [tail, tail]
  else if first = 0xF0 then some [(0x90, 0xBF), tail, tail]
  else if 0xF1 ≤ first ∧ first ≤ 0xF3 then some [tail, tail, tail]
  else if first = 0xF4 then some [(0x80, 0x8F), tail, tail]
  else none

/-- The code point that the first byte of a character contributes, given how many bytes follow. -/
def leadBits (first : UInt8) : Nat → Nat
  | 0 => first.toNat
  | n + 1 => first.toNat % Nat.pow 2 (5 - n)

/-- What some bytes start with. -/
inductive Reading where
  /-- A character. -/
  | char (c : Char) (rest : List UInt8)
  /-- Bytes, so many, that start no character. -/
  | invalid (count : Nat)
  /-- The start of a character, which the bytes end in. -/
  | incomplete
  deriving DecidableEq, Repr

/-- Reads the bytes that follow in a character: `read` bytes are read, with the bits `bits`. -/
def readFollowers (read bits : Nat) : List (UInt8 × UInt8) → List UInt8 → Reading
  | [], bytes => .char (Char.ofNat bits) bytes
  | _ :: _, [] => .incomplete
  | (low, high) :: ranges, b :: bytes =>
    if low ≤ b ∧ b ≤ high then readFollowers (read + 1) (bits * 64 + b.toNat % 64) ranges bytes
    else .invalid read

/-- Reads the first character of some bytes. -/
def readChar (first : UInt8) (bytes : List UInt8) : Reading :=
  match followers? first with
  | none => .invalid 1
  | some ranges => readFollowers 1 (leadBits first ranges.length) ranges bytes

theorem length_le_of_readFollowers {read bits : Nat} {ranges : List (UInt8 × UInt8)}
    {bytes rest : List UInt8} {c : Char} (h : readFollowers read bits ranges bytes = .char c rest) :
    rest.length ≤ bytes.length := by
  induction ranges generalizing read bits bytes with
  | nil =>
    simp only [readFollowers, Reading.char.injEq] at h
    simp [h.2]
  | cons range ranges ih =>
    cases bytes with
    | nil => simp [readFollowers] at h
    | cons b bytes =>
      simp only [readFollowers] at h
      split at h
      · exact Nat.le_succ_of_le (ih h)
      · simp at h

theorem length_lt_of_readChar {first : UInt8} {bytes rest : List UInt8} {c : Char}
    (h : readChar first bytes = .char c rest) : rest.length < (first :: bytes).length := by
  unfold readChar at h
  split at h
  · simp at h
  · exact Nat.lt_succ_of_le (length_le_of_readFollowers h)

/-- Why and where bytes are not well formed. -/
structure DecodeError where
  /-- The number of bytes before. -/
  place : Nat
  /-- The number of bytes that start no character; there is none where the bytes end in the middle
  of a character. -/
  count : Option Nat
  deriving DecidableEq, Repr

/-- The words for bytes that are not well formed. -/
def DecodeError.message (e : DecodeError) : String :=
  match e.count with
  | some count =>
    "invalid utf-8 sequence of " ++ toString count ++ " bytes from index " ++ toString e.place
  | none => "incomplete utf-8 byte sequence from index " ++ toString e.place

/-- The text that well-formed bytes stand for, when `place` bytes come before. -/
def decodeFrom (place : Nat) (bytes : List UInt8) : Except DecodeError (List Char) :=
  match bytes with
  | [] => .ok []
  | b :: bs =>
    match h : readChar b bs with
    | .char c rest =>
      have : rest.length < bs.length + 1 := length_lt_of_readChar h
      (decodeFrom (place + c.utf8Size) rest).map (c :: ·)
    | .invalid count => .error ⟨place, some count⟩
    | .incomplete => .error ⟨place, none⟩
termination_by bytes.length

/-- The text that well-formed bytes stand for. -/
def decode (bytes : List UInt8) : Except DecodeError (List Char) :=
  decodeFrom 0 bytes

/-- A character, or a byte that belongs to none. -/
inductive Glyph where
  | char (c : Char)
  | stray (b : UInt8)
  deriving DecidableEq, Repr

/-- The characters of some bytes, and the bytes between that belong to none. -/
def glyphs (bytes : List UInt8) : List Glyph :=
  match bytes with
  | [] => []
  | b :: bs =>
    match h : readChar b bs with
    | .char c rest =>
      have : rest.length < bs.length + 1 := length_lt_of_readChar h
      .char c :: glyphs rest
    | _ => .stray b :: glyphs bs
termination_by bytes.length

/-- The glyphs of a text. -/
def glyphsOf (s : List Char) : List Glyph :=
  s.map .char

/-- The text of glyphs that are all characters. -/
def charsOf? : List Glyph → Option (List Char)
  | [] => some []
  | .char c :: gs => (charsOf? gs).map (c :: ·)
  | .stray _ :: _ => none

end MailMerge.Text
