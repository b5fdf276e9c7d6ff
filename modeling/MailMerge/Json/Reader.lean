import MailMerge.Json.Basic
import MailMerge.Number.Numeral

/-!
# Reading JSON

A JSON text is read in two steps. `lexemes?` cuts it into punctuation, literals and words, and
`assemble?` puts these together with a stack of the arrays and objects that are still open, one
lexeme at a time. Exactly the grammar of the standard is accepted: one value and white space around
it.
-/

namespace MailMerge.Json

/-- A word of a JSON text. -/
inductive Lexeme where
  | openArray
  | closeArray
  | openObject
  | closeObject
  | comma
  | colon
  /-- A value without parts. -/
  | leaf (value : Json)
  deriving Inhabited

/-- White space between lexemes. -/
def isSpace (c : Char) : Bool :=
  c == ' ' || c == '\t' || c == '\n' || c == '\r'

/-- The lexeme that a character is by itself. -/
def punctuation? (c : Char) : Option Lexeme :=
  match c with
  | '[' => some .openArray
  | ']' => some .closeArray
  | '\x7b' => some .openObject
  | '\x7d' => some .closeObject
  | ',' => some .comma
  | ':' => some .colon
  | _ => none

/-- The code unit that four hexadecimal digits spell. -/
def codeUnit? (a b c d : Char) : Option Nat :=
  numeral? 16 [a, b, c, d]

/-- The character that a backslash and `c` stand for. -/
def shortEscape? (c : Char) : Option Char :=
  match c with
  | '"' => some '"'
  | '\\' => some '\\'
  | '/' => some '/'
  | 'b' => some '\x08'
  | 'f' => some '\x0c'
  | 'n' => some '\n'
  | 'r' => some '\r'
  | 't' => some '\t'
  | _ => none

/-- The letters up to the next quotation mark, and what follows it. -/
def letters? : List Char → Option (List Letter × List Char)
  | [] => none
  | '"' :: s => some ([], s)
  | '\\' :: 'u' :: a :: b :: c :: d :: s =>
    match codeUnit? a b c d with
    | none => none
    | some n => (letters? s).map fun (letters, rest) => (.unit n :: letters, rest)
  | '\\' :: e :: s =>
    match shortEscape? e with
    | none => none
    | some c => (letters? s).map fun (letters, rest) => (.char c :: letters, rest)
  | c :: s =>
    if c = '\\' ∨ c.toNat < 0x20 then none
    else (letters? s).map fun (letters, rest) => (.char c :: letters, rest)

theorem length_lt_of_letters? {s : List Char} {letters : List Letter} {rest : List Char}
    (h : letters? s = some (letters, rest)) : rest.length < s.length := by
  fun_induction letters? s generalizing letters with
  | case1 => simp at h
  | case2 s =>
    simp only [Option.some.injEq, Prod.mk.injEq] at h
    simp [h.2]
  | case3 => simp at h
  | case4 a b c d s n _ ih =>
    simp only [Option.map_eq_some_iff, Prod.mk.injEq, Prod.exists] at h
    obtain ⟨l, r, hl, _, rfl⟩ := h
    have := ih hl
    simp only [List.length_cons]
    omega
  | case5 => simp at h
  | case6 e s _ c _ ih =>
    simp only [Option.map_eq_some_iff, Prod.mk.injEq, Prod.exists] at h
    obtain ⟨l, r, hl, _, rfl⟩ := h
    have := ih hl
    simp only [List.length_cons]
    omega
  | case7 => simp at h
  | case8 c s _ _ _ _ ih =>
    simp only [Option.map_eq_some_iff, Prod.mk.injEq, Prod.exists] at h
    obtain ⟨l, r, hl, _, rfl⟩ := h
    have := ih hl
    simp only [List.length_cons]
    omega

/-- The characters that numerals are made of. -/
def isNumeralChar (c : Char) : Bool :=
  c.isDigit || c == '-' || c == '+' || c == '.' || c == 'e' || c == 'E'

/-- Reads the exponent of a numeral, which is all of `s`. -/
def exponent? (s : List Char) : Option Int :=
  let (negative, digits) :=
    match s with
    | '-' :: r => (true, r)
    | '+' :: r => (false, r)
    | _ => (false, s)
  if digits.isEmpty || !digits.all Char.isDigit then none
  else
    let magnitude := Int.ofNat (Numeral.natOfDigits digits)
    some (if negative then -magnitude else magnitude)

/-- Reads what follows the fraction of a numeral. -/
def withExponent? (n : Numeral) (s : List Char) : Option Numeral :=
  match s with
  | [] => some n
  | c :: r =>
    if c = 'e' ∨ c = 'E' then (exponent? r).map fun e => { n with exponent := some e } else none

/-- Reads what follows the whole digits of a numeral. -/
def withFraction? (n : Numeral) (s : List Char) : Option Numeral :=
  match s with
  | '.' :: r =>
    let fraction := r.takeWhile Char.isDigit
    if fraction.isEmpty then none else withExponent? { n with fraction } (r.dropWhile Char.isDigit)
  | _ => withExponent? n s

/-- Reads a numeral, which is all of `s`. A zero in front stands alone. -/
def readNumeral? (s : List Char) : Option Numeral :=
  let (negative, r) :=
    match s with
    | '-' :: r => (true, r)
    | _ => (false, s)
  let whole := r.takeWhile Char.isDigit
  if whole.isEmpty || (whole.head? == some '0' && whole.length != 1) then none
  else withFraction? ⟨negative, whole, [], none⟩ (r.dropWhile Char.isDigit)

/-- The value that a word names. -/
def readWord? (s : List Char) : Option Json :=
  if s = "null".toList then some .null
  else if s = "true".toList then some (.bool true)
  else if s = "false".toList then some (.bool false)
  else none

theorem length_dropWhile_lt (p : Char → Bool) (s : List Char) :
    (s.dropWhile p).length < s.length + 1 :=
  Nat.lt_succ_of_le (List.dropWhile_sublist p).length_le

/-- The lexemes of a text. A numeral or a word is as long as it can be. -/
def lexemes? (s : List Char) : Option (List Lexeme) :=
  match s with
  | [] => some []
  | c :: rest =>
    if isSpace c then lexemes? rest
    else if c = '"' then
      match h : letters? rest with
      | none => none
      | some (letters, after) =>
        have : after.length < rest.length + 1 := Nat.lt_succ_of_lt (length_lt_of_letters? h)
        (lexemes? after).map (.leaf (.string letters) :: ·)
    else
      match punctuation? c with
      | some lexeme => (lexemes? rest).map (lexeme :: ·)
      | none =>
        if isNumeralChar c then
          have := length_dropWhile_lt isNumeralChar rest
          match readNumeral? (c :: rest.takeWhile isNumeralChar) with
          | none => none
          | some n => (lexemes? (rest.dropWhile isNumeralChar)).map (.leaf (.number n) :: ·)
        else
          have := length_dropWhile_lt Char.isAlpha rest
          match readWord? (c :: rest.takeWhile Char.isAlpha) with
          | none => none
          | some value => (lexemes? (rest.dropWhile Char.isAlpha)).map (.leaf value :: ·)
termination_by s.length

/-- An array or object that is still open, with its parts so far, the last one first. -/
inductive Frame where
  | array (items : List Json)
  | object (members : List (List Letter × Json)) (name : List Letter)

/-- What may come next. -/
inductive Expected where
  /-- A value. -/
  | value
  /-- A value, or the end of the array that was just opened. -/
  | firstItem
  /-- The name of a member of an object with the given members so far. -/
  | name (members : List (List Letter × Json))
  /-- The name of a member, or the end of the object that was just opened. -/
  | firstName
  /-- The colon between a name and its value. -/
  | colon (members : List (List Letter × Json)) (name : List Letter)
  /-- What follows a finished value. -/
  | afterValue (value : Json)

/-- Puts lexemes together to one value, with at most `depth` arrays and objects open at a time. -/
def assemble? (depth : Nat) : List Frame → Expected → List Lexeme → Option Json
  | [], .afterValue value, [] => some value
  | stack, .value, .leaf value :: ls => assemble? depth stack (.afterValue value) ls
  | stack, .firstItem, .leaf value :: ls =>
    assemble? depth (.array [] :: stack) (.afterValue value) ls
  | stack, .firstItem, .closeArray :: ls => assemble? depth stack (.afterValue (.array [])) ls
  | stack, .value, .openArray :: ls =>
    if stack.length < depth then assemble? depth stack .firstItem ls else none
  | stack, .value, .openObject :: ls =>
    if stack.length < depth then assemble? depth stack .firstName ls else none
  | stack, .firstItem, .openArray :: ls =>
    if stack.length + 1 < depth then assemble? depth (.array [] :: stack) .firstItem ls else none
  | stack, .firstItem, .openObject :: ls =>
    if stack.length + 1 < depth then assemble? depth (.array [] :: stack) .firstName ls else none
  | stack, .firstName, .closeObject :: ls => assemble? depth stack (.afterValue (.object [])) ls
  | stack, .firstName, .leaf (.string name) :: ls => assemble? depth stack (.colon [] name) ls
  | stack, .name members, .leaf (.string name) :: ls =>
    assemble? depth stack (.colon members name) ls
  | stack, .colon members name, .colon :: ls =>
    assemble? depth (.object members name :: stack) .value ls
  | .array items :: stack, .afterValue value, .comma :: ls =>
    assemble? depth (.array (value :: items) :: stack) .value ls
  | .array items :: stack, .afterValue value, .closeArray :: ls =>
    assemble? depth stack (.afterValue (.array (value :: items).reverse)) ls
  | .object members name :: stack, .afterValue value, .comma :: ls =>
    assemble? depth stack (.name ((name, value) :: members)) ls
  | .object members name :: stack, .afterValue value, .closeObject :: ls =>
    assemble? depth stack (.afterValue (.object ((name, value) :: members).reverse)) ls
  | _, _, _ => none

/-- Reads a JSON text with at most `depth` arrays and objects nested into each other. -/
def ofText? (depth : Nat) (s : List Char) : Option Json :=
  (lexemes? s).bind (assemble? depth [] .value)

/-- The depth up to which arrays and objects in data may be nested. -/
def dataDepth : Nat := 127

end MailMerge.Json
