import MailMerge.Number.Numeral
import MailMerge.Text.Search
import MailMerge.Text.Utf8

/-!
# Character entities

Five characters have a meaning of their own in markup, and are written in text as the **entities**
`&amp;`, `&lt;`, `&gt;`, `&quot;` and `&apos;`. `escape` writes a text, one character at a time, and
`escapeIfNeeded` takes the text itself where a search of its bytes finds none of the five.
`unescape?` reads one: besides the five entities it knows character references, `&#65;` and
`&#x41;`, and refuses an ampersand that starts neither. Reading undoes writing
(`unescape?_escape`).
-/

namespace MailMerge.Markup

/-- The name of the entity for a character that has one. -/
def entityName? (c : Char) : Option (List Char) :=
  if c = '&' then some "amp".toList
  else if c = '<' then some "lt".toList
  else if c = '>' then some "gt".toList
  else if c = '"' then some "quot".toList
  else if c = '\'' then some "apos".toList
  else none

/-- The written form of a character. -/
def escapeChar (c : Char) : List Char :=
  match entityName? c with
  | some name => '&' :: (name ++ [';'])
  | none => [c]

/-- The written form of a text. -/
def escape (s : List Char) : List Char :=
  s.flatMap escapeChar

/-- Whether a text holds one of the five characters. Its bytes are searched for ampersands and angle
brackets first, and for quotation marks then. -/
def needsEscape (s : List Char) : Bool :=
  let bytes := Text.encode s
  (bytes.any fun b => b == 0x26 || b == 0x3C || b == 0x3E)
    || bytes.any fun b => b == 0x22 || b == 0x27

/-- The written form of a text, and whether it had to be made. -/
inductive Written where
  /-- The text itself, in which nothing is written otherwise. -/
  | same (s : List Char)
  /-- A text that had to be made. -/
  | made (s : List Char)
  deriving DecidableEq, Repr

namespace Written

/-- The characters that are written. -/
def text : Written → List Char
  | same s => s
  | made s => s

/-- Whether it is the text itself. -/
def isSame : Written → Bool
  | same _ => true
  | made _ => false

end Written

/-- The written form of a text, which is only made if it differs from the text. -/
def escapeIfNeeded (s : List Char) : Written :=
  if needsEscape s then .made (escape s) else .same s

/-- Where the searches find nothing, each character is written as it is. -/
theorem escapeChar_of_needsEscape_eq_false {s : List Char} (h : needsEscape s = false) {c : Char}
    (hc : c ∈ s) : escapeChar c = [c] := by
  have hbyte : ∀ b ∈ String.utf8EncodeChar c, b ∈ Text.encode s := fun b hb =>
    List.mem_flatMap.2 ⟨c, hc, hb⟩
  simp only [needsEscape, Bool.or_eq_false_iff, List.any_eq_false, beq_iff_eq, Bool.or_eq_true,
    not_or] at h
  have hnone : entityName? c = none := by
    unfold entityName?
    split
    · next hc => exact absurd rfl (h.1 0x26 (hbyte _ (hc ▸ by decide))).1.1
    split
    · next hc => exact absurd rfl (h.1 0x3C (hbyte _ (hc ▸ by decide))).1.2
    split
    · next hc => exact absurd rfl (h.1 0x3E (hbyte _ (hc ▸ by decide))).2
    split
    · next hc => exact absurd rfl (h.2 0x22 (hbyte _ (hc ▸ by decide))).1
    split
    · next hc => exact absurd rfl (h.2 0x27 (hbyte _ (hc ▸ by decide))).2
    · rfl
  rw [escapeChar, hnone]

/-- The written form is the same, whether it had to be made or not. -/
theorem text_escapeIfNeeded (s : List Char) : (escapeIfNeeded s).text = escape s := by
  rw [escapeIfNeeded]
  split
  · rfl
  · next hneeds =>
    have hchar : ∀ c ∈ s, escapeChar c = [c] := fun c hc =>
      escapeChar_of_needsEscape_eq_false (Bool.eq_false_iff.2 hneeds) hc
    rw [escape, List.flatMap_def, List.map_congr_left hchar, ← List.flatMap_def,
      List.flatMap_singleton']
    rfl

/-- The character of a code point; code point zero and surrogates have none. -/
def charOfCodePoint? (n : Nat) : Option Char :=
  if h : n ≠ 0 ∧ n.isValidChar then some (Char.ofNatAux n h.2) else none

/-- The character that a reference stands for, given the text between `&` and `;`. -/
def referenced? : List Char → Option Char
  | '#' :: 'x' :: digits => numeral? 16 digits >>= charOfCodePoint?
  | '#' :: digits => numeral? 10 digits >>= charOfCodePoint?
  | name =>
    if name = "amp".toList then some '&'
    else if name = "lt".toList then some '<'
    else if name = "gt".toList then some '>'
    else if name = "quot".toList then some '"'
    else if name = "apos".toList then some '\''
    else none

/-- The text up to the semicolon that ends a reference, and what follows it. Another ampersand, or
the end of the text, may not come first. -/
def reference? : List Char → Option (List Char × List Char)
  | [] => none
  | c :: s =>
    if c = ';' then some ([], s)
    else if c = '&' then none
    else (reference? s).map fun (name, rest) => (c :: name, rest)

theorem length_lt_of_reference? {s name rest : List Char} (h : reference? s = some (name, rest)) :
    rest.length < s.length := by
  induction s generalizing name with
  | nil => simp [reference?] at h
  | cons c s ih =>
    simp only [reference?] at h
    split at h
    · simp only [Option.some.injEq, Prod.mk.injEq] at h
      simp [h.2]
    split at h
    · simp at h
    · simp only [Option.map_eq_some_iff, Prod.mk.injEq, Prod.exists] at h
      obtain ⟨n, r, hn, _, rfl⟩ := h
      exact Nat.lt_succ_of_lt (ih hn)

/-- Reads a written text. -/
def unescape? (s : List Char) : Option (List Char) :=
  match s with
  | [] => some []
  | c :: rest =>
    if c = '&' then
      match h : reference? rest with
      | some (name, after) =>
        have : after.length < rest.length + 1 := Nat.lt_succ_of_lt (length_lt_of_reference? h)
        match referenced? name with
        | some d => (unescape? after).map (d :: ·)
        | none => none
      | none => none
    else (unescape? rest).map (c :: ·)
termination_by s.length

theorem unescape?_cons_of_ne {c : Char} (h : c ≠ '&') (s : List Char) :
    unescape? (c :: s) = (unescape? s).map (c :: ·) := by
  rw [unescape?, if_neg h]

theorem unescape?_reference {name : List Char} {c : Char} (hn : ∀ d ∈ name, d ≠ ';' ∧ d ≠ '&')
    (hc : referenced? name = some c) (s : List Char) :
    unescape? ('&' :: (name ++ ';' :: s)) = (unescape? s).map (c :: ·) := by
  have hr : reference? (name ++ ';' :: s) = some (name, s) := by
    clear hc
    induction name with
    | nil => simp [reference?]
    | cons d name ih =>
      have hd := hn d (by simp)
      have hs := ih fun e he => hn e (by simp [he])
      simp [reference?, hd.1, hd.2, hs]
  rw [unescape?, if_pos rfl]
  split
  · next n after h =>
    rw [hr, Option.some.injEq, Prod.mk.injEq] at h
    obtain ⟨rfl, rfl⟩ := h
    rw [hc]
  · next h => simp [hr] at h

theorem unescape?_escapeChar (c : Char) (s : List Char) :
    unescape? (escapeChar c ++ s) = (unescape? s).map (c :: ·) := by
  unfold escapeChar
  split
  · next name h =>
    rw [List.cons_append, List.append_assoc, List.singleton_append]
    unfold entityName? at h
    split at h
    · next hc => subst hc; cases h; exact unescape?_reference (by simp) rfl s
    split at h
    · next hc => subst hc; cases h; exact unescape?_reference (by simp) rfl s
    split at h
    · next hc => subst hc; cases h; exact unescape?_reference (by simp) rfl s
    split at h
    · next hc => subst hc; cases h; exact unescape?_reference (by simp) rfl s
    split at h
    · next hc => subst hc; cases h; exact unescape?_reference (by simp) rfl s
    · cases h
  · next h =>
    refine unescape?_cons_of_ne (fun hc => ?_) s
    subst hc
    cases h

/-- Reading undoes writing. -/
theorem unescape?_escape (s : List Char) : unescape? (escape s) = some s := by
  induction s with
  | nil => simp [escape, unescape?]
  | cons c s ih =>
    rw [escape, List.flatMap_cons, unescape?_escapeChar, ← escape, ih]
    rfl

end MailMerge.Markup
