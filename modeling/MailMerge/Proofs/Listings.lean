import MailMerge.Package.Basic
import MailMerge.Proofs.WrittenTags

/-!
# Reading listings back

What is written is read back: a text from its bytes (`Text.decode_encode`), a listing of elements
from its markup (`Xml.readElements_listing`), and so the relationships of a part
(`Relationships.ofXml_toXml`).

A listing is a first line and a forest with one level of elements. Values are written with entities,
so that any text can be one.
-/

namespace MailMerge

namespace Text

/-! ### Bytes -/

/-- The ranges of the bytes that follow, by the number that the first byte is. -/
theorem followers?_ofNat {n : Nat} (hn : n < 256) :
    followers? (UInt8.ofNat n) =
      if n ≤ 0x7F then some []
      else if 0xC2 ≤ n ∧ n ≤ 0xDF then some [(0x80, 0xBF)]
      else if n = 0xE0 then some [(0xA0, 0xBF), (0x80, 0xBF)]
      else if n = 0xED then some [(0x80, 0x9F), (0x80, 0xBF)]
      else if 0xE1 ≤ n ∧ n ≤ 0xEF then some [(0x80, 0xBF), (0x80, 0xBF)]
      else if n = 0xF0 then some [(0x90, 0xBF), (0x80, 0xBF), (0x80, 0xBF)]
      else if 0xF1 ≤ n ∧ n ≤ 0xF3 then some [(0x80, 0xBF), (0x80, 0xBF), (0x80, 0xBF)]
      else if n = 0xF4 then some [(0x80, 0x8F), (0x80, 0xBF), (0x80, 0xBF)]
      else none := by
  revert n
  decide +kernel

theorem toNat_ofNat {n : Nat} (hn : n < 256) : (UInt8.ofNat n).toNat = n :=
  UInt8.toNat_ofNat_of_lt' hn

/-- A byte in its range adds its bits. -/
theorem readFollowers_cons (low high : Nat) {n : Nat} (hn : n < 256) (hlow : low ≤ n)
    (hhigh : n ≤ high) (hbyte : high < 256) (read bits : Nat) (ranges : List (UInt8 × UInt8))
    (bytes : List UInt8) :
    readFollowers read bits ((UInt8.ofNat low, UInt8.ofNat high) :: ranges)
        (UInt8.ofNat n :: bytes)
      = readFollowers (read + 1) (bits * 64 + n % 64) ranges bytes := by
  have hrange : UInt8.ofNat low ≤ UInt8.ofNat n ∧ UInt8.ofNat n ≤ UInt8.ofNat high := by
    rw [UInt8.le_iff_toNat_le, UInt8.le_iff_toNat_le, toNat_ofNat hn, toNat_ofNat hbyte,
      toNat_ofNat (by omega)]
    exact ⟨hlow, hhigh⟩
  rw [readFollowers, if_pos hrange, toNat_ofNat hn]

/-- The last byte of a character gives its last six bits. -/
theorem readFollowers_last {c : Char} {read bits n : Nat} (hn : n < 64)
    (hc : c.val.toNat = bits * 64 + n) (rest : List UInt8) :
    readFollowers read bits [(0x80, 0xBF)] (UInt8.ofNat (n + 128) :: rest) = .char c rest := by
  refine (readFollowers_cons 0x80 0xBF (by omega) (by omega) (by omega)
    (by omega) read bits [] rest).trans ?_
  rw [readFollowers, show bits * 64 + (n + 128) % 64 = c.val.toNat by omega]
  exact congrArg (Reading.char · rest) (Char.ofNat_toNat c)

/-- A character is read back from its bytes, whatever follows. -/
theorem exists_utf8EncodeChar (c : Char) :
    ∃ b bytes, String.utf8EncodeChar c = b :: bytes ∧
      ∀ rest, readChar b (bytes ++ rest) = .char c rest := by
  have hvalid : c.val.toNat < 0xD800 ∨ 0xDFFF < c.val.toNat ∧ c.val.toNat < 0x110000 := c.valid
  rw [String.utf8EncodeChar]
  obtain ⟨v, hv⟩ : ∃ v, v = c.val.toNat := ⟨_, rfl⟩
  rw [← hv] at hvalid ⊢
  split
  · next h =>
    refine ⟨_, _, rfl, fun rest => ?_⟩
    rw [readChar, followers?_ofNat (by omega), if_pos h]
    simp only [readFollowers, List.length_nil, leadBits, List.nil_append]
    rw [toNat_ofNat (by omega), hv]
    exact congrArg (Reading.char · rest) (Char.ofNat_toNat c)
  split
  · refine ⟨_, _, rfl, fun rest => ?_⟩
    rw [readChar, followers?_ofNat (by omega), if_neg (by omega), if_pos (by omega)]
    refine readFollowers_last (by omega) ?_ rest
    simp only [List.length_singleton, leadBits, Nat.pow_eq, Nat.reduceSub, Nat.reducePow]
    rw [toNat_ofNat (by omega)]
    omega
  split
  · refine ⟨_, _, rfl, fun rest => ?_⟩
    -- what the second byte may be depends on the first
    obtain ⟨low, high, hranges, hlow, hhigh, hbyte⟩ : ∃ low high,
        followers? (UInt8.ofNat (v / 4096 % 16 + 224))
          = some [(UInt8.ofNat low, UInt8.ofNat high), (0x80, 0xBF)] ∧
        low ≤ v / 64 % 64 + 128 ∧ v / 64 % 64 + 128 ≤ high ∧ high < 256 := by
      rw [followers?_ofNat (by omega), if_neg (by omega), if_neg (by omega)]
      by_cases hfirst : v / 4096 % 16 = 0
      · exact ⟨0xA0, 0xBF, if_pos (by omega), by omega, by omega, by omega⟩
      rw [if_neg (by omega)]
      by_cases hsurrogate : v / 4096 % 16 = 13
      · exact ⟨0x80, 0x9F, if_pos (by omega), by omega, by omega, by omega⟩
      rw [if_neg (by omega)]
      exact ⟨0x80, 0xBF, if_pos (by omega), by omega, by omega, by omega⟩
    rw [readChar, hranges]
    refine (readFollowers_cons low high (by omega) hlow hhigh hbyte _ _ _ _).trans
      (readFollowers_last (by omega) ?_ rest)
    simp only [List.length_cons, List.length_nil, leadBits, Nat.pow_eq, Nat.reduceSub,
      Nat.reducePow, Nat.reduceAdd]
    rw [toNat_ofNat (by omega)]
    omega
  · refine ⟨_, _, rfl, fun rest => ?_⟩
    obtain ⟨low, high, hranges, hlow, hhigh, hbyte⟩ : ∃ low high,
        followers? (UInt8.ofNat (v / 262144 % 8 + 240))
          = some [(UInt8.ofNat low, UInt8.ofNat high), (0x80, 0xBF), (0x80, 0xBF)] ∧
        low ≤ v / 4096 % 64 + 128 ∧ v / 4096 % 64 + 128 ≤ high ∧ high < 256 := by
      rw [followers?_ofNat (by omega), if_neg (by omega), if_neg (by omega), if_neg (by omega),
        if_neg (by omega), if_neg (by omega)]
      by_cases hfirst : v / 262144 % 8 = 0
      · exact ⟨0x90, 0xBF, if_pos (by omega), by omega, by omega, by omega⟩
      rw [if_neg (by omega)]
      by_cases hlast : v / 262144 % 8 = 4
      · rw [if_neg (by omega)]
        exact ⟨0x80, 0x8F, if_pos (by omega), by omega, by omega, by omega⟩
      · exact ⟨0x80, 0xBF, if_pos (by omega), by omega, by omega, by omega⟩
    rw [readChar, hranges]
    refine (readFollowers_cons low high (by omega) hlow hhigh hbyte _ _ _ _).trans
      ((readFollowers_cons 0x80 0xBF (by omega) (by omega) (by omega)
        (by omega) _ _ _ _).trans (readFollowers_last (by omega) ?_ rest))
    simp only [List.length_cons, List.length_nil, leadBits, Nat.pow_eq, Nat.reduceSub,
      Nat.reducePow, Nat.reduceAdd]
    rw [toNat_ofNat (by omega)]
    omega

/-- Bytes are read as the text that they are those of. -/
theorem glyphs_encode (s : List Char) : glyphs (encode s) = glyphsOf s := by
  induction s with
  | nil => rw [encode, List.flatMap_nil, glyphs]; rfl
  | cons c s ih =>
    obtain ⟨b, bytes, hbytes, hread⟩ := exists_utf8EncodeChar c
    have hcons : encode (c :: s) = b :: (bytes ++ encode s) := by
      rw [encode, List.flatMap_cons, hbytes]
      rfl
    rw [hcons, glyphs]
    split
    · next d rest h =>
      rw [hread, Reading.char.injEq] at h
      obtain ⟨rfl, rfl⟩ := h
      rw [ih]
      rfl
    · next h => exact absurd (hread _) (h c _)

theorem decodeFrom_encode (place : Nat) (s : List Char) : decodeFrom place (encode s) = .ok s := by
  induction s generalizing place with
  | nil => rw [encode, List.flatMap_nil, decodeFrom]
  | cons c s ih =>
    obtain ⟨b, bytes, hbytes, hread⟩ := exists_utf8EncodeChar c
    have hcons : encode (c :: s) = b :: (bytes ++ encode s) := by
      rw [encode, List.flatMap_cons, hbytes]
      rfl
    rw [hcons, decodeFrom]
    split
    · next d rest h =>
      rw [hread, Reading.char.injEq] at h
      obtain ⟨rfl, rfl⟩ := h
      rw [ih]
      rfl
    · next h => rw [hread] at h; cases h
    · next h => rw [hread] at h; cases h

/-- The text of bytes that are those of a text. -/
theorem decode_encode (s : List Char) : decode (encode s) = .ok s :=
  decodeFrom_encode 0 s

end Text

namespace Xml

open Markup
open MailMerge.Text (Glyph glyphsOf glyphsOf_append char_mem_glyphsOf)

/-! ### Attributes -/

/-- A name of letters. -/
def IsName (name : String) : Prop :=
  name.toList ≠ [] ∧ ∀ c ∈ name.toList, c.isAlpha = true

instance (name : String) : Decidable (IsName name) :=
  inferInstanceAs (Decidable (_ ∧ _))

theorem isNameSymbol_of_isAlpha {c : Char} (h : c.isAlpha = true) : isNameSymbol c = true := by
  rw [isNameSymbol, Bool.and_eq_true, Bool.not_eq_true', Bool.not_eq_true', ← Bool.not_eq_true,
    ← Bool.not_eq_true, List.contains_iff_mem]
  constructor
  · intro hspace
    simp only [isTagSpace, Bool.or_eq_true, beq_iff_eq] at hspace
    rcases hspace with ((rfl | rfl) | rfl) | rfl <;> cases h
  · exact fun hm => (by decide : ∀ c ∈ "<>/=!?&\"'".toList, c.isAlpha ≠ true) c hm h

theorem IsName.isPlainName {name : String} (h : IsName name) : IsPlainName name.toList :=
  ⟨h.1, fun c hc => isNameSymbol_of_isAlpha (h.2 c hc)⟩

theorem quote_notMem_escape (s : List Char) : '"' ∉ escape s :=
  fun hm => (isPlainValue_escape s _ hm).1 rfl

/-- Attributes with their values as they are written. -/
def written (attributes : List (String × String)) : List (String × List Char) :=
  attributes.map fun a => (a.1, escape a.2.toList)

/-- The attributes of an element as they are written. -/
def attributesText (attributes : List (String × String)) : List Char :=
  attributes.flatMap fun (name, value) => attributeText name value

section Attributes

variable {attributes : List (String × String)}

theorem attributesText_eq (attributes : List (String × String)) :
    attributesText attributes = Markup.attributesText (written attributes) := by
  have hpiece : ∀ a : String × String, attributeText a.1 a.2
      = ' ' :: (a.1.toList ++ '=' :: '"' :: (escape a.2.toList ++ ['"'])) := by
    simp [attributeText]
  rw [attributesText, Markup.attributesText, written, List.flatMap_map]
  exact List.flatMap_congr fun a _ => hpiece a

theorem attributesText_cons (a : String × String) (attributes : List (String × String)) :
    attributesText (a :: attributes)
      = ' ' :: (a.1.toList ++ ['=']) ++ '"' :: (escape a.2.toList ++ '"' ::
          attributesText attributes) := by
  simp [attributesText, attributeText]

/-- Attributes end in a quotation mark, if there are any. -/
theorem attributesText_ends (attributes : List (String × String)) :
    attributesText attributes = [] ∨ ∃ s, attributesText attributes = s ++ ['"'] := by
  rw [attributesText_eq]
  obtain hnil | ⟨s, hs, hquote⟩ := Markup.attributesText_ends (written attributes)
  · exact .inl hnil
  · rw [hs]
    exact .inr (List.getLast?_eq_some_iff.1 hquote)

theorem isPlain_written (h : ∀ a ∈ attributes, IsName a.1) :
    ∀ a ∈ written attributes, IsPlainName a.1.toList ∧ IsPlainValue a.2 :=
  List.forall_mem_map.2 fun a ha => ⟨(h a ha).isPlainName, isPlainValue_escape _⟩

theorem endless_attributesText (h : ∀ a ∈ attributes, IsName a.1) :
    Endless (glyphsOf (attributesText attributes)) := by
  rw [attributesText_eq]
  exact endless_of_isPlain (isPlain_written h)

/-- Attributes with distinct names are read as they were written. -/
theorem attributeItems_eq (hnames : ∀ a ∈ attributes, IsName a.1)
    (hdistinct : (attributes.map Prod.fst).Nodup) {seen : List (List Glyph)}
    (hseen : ∀ a ∈ attributes, glyphsOf a.1.toList ∉ seen) :
    attributeItems seen (glyphsOf (attributesText attributes))
      = attributes.map fun a => .sound ⟨glyphsOf a.1.toList, glyphsOf (escape a.2.toList)⟩ := by
  have hkeys : (written attributes).map Prod.fst = attributes.map Prod.fst := by
    simp [written]
  rw [attributesText_eq, attributeItems_attributesText (isPlain_written hnames)
    (hkeys ▸ hdistinct) (List.forall_mem_map.2 hseen), written, List.map_map]
  rfl

theorem text?_of_escape (name : List Glyph) (value : String) :
    (Attribute.mk name (glyphsOf (escape value.toList))).text? = some value := by
  simp [Attribute.text?, Text.charsOf?_glyphsOf, unescape?_escape]

end Attributes

/-- Attributes that are all wanted keep their texts. -/
theorem wantedFields_eq {wanted : List String} {attributes : List (String × String)}
    (h : ∀ a ∈ attributes, a.1 ∈ wanted) :
    wantedFields wanted (attributes.map fun a =>
      .sound ⟨glyphsOf a.1.toList, glyphsOf (Markup.escape a.2.toList)⟩) = .ok attributes := by
  induction attributes with
  | nil => rfl
  | cons a attributes ih =>
    rw [List.forall_mem_cons] at h
    have hfind : wanted.find? (fun name => glyphsOf name.toList == glyphsOf a.1.toList)
        = some a.1 := by
      simp only [Text.glyphsOf_beq]
      cases hfound : wanted.find? (· == a.1) with
      | none =>
        rw [List.find?_eq_none] at hfound
        exact absurd (beq_self_eq_true a.1) (hfound a.1 h.1)
      | some name =>
        have hname := List.find?_some hfound
        rw [beq_iff_eq.1 hname]
    rw [List.map_cons, wantedFields, hfind]
    dsimp only
    rw [text?_of_escape, ih h.2]
    rfl

/-! ### First lines -/

/-- An instruction is passed over. -/
theorem events_instruction {body : List Char} (hbody : '?' ∉ body)
    (hfirst : body.head? ≠ some '>')
    (opened : List (List Glyph)) (rest : List Glyph) :
    events opened (glyphsOf ('<' :: '?' :: (body ++ ['?', '>'])) ++ rest) = events opened rest := by
  have htext : glyphsOf ('<' :: '?' :: (body ++ ['?', '>'])) ++ rest
      = .char '<' :: .char '?' :: (glyphsOf body ++ ([.char '?', .char '>'] ++ rest)) := by
    simp [glyphsOf]
  have hafter : afterInstruction? (glyphsOf body ++ ([.char '?', .char '>'] ++ rest))
      = some rest := by
    have hbreak := Text.breakAt?_append_of_notMem (char_mem_glyphsOf.not.2 hbody)
      (p := [.char '>']) rest
    rw [afterInstruction?, if_neg, past?]
    · exact congrArg (Option.map Prod.snd) hbreak
    · cases body with
      | nil => simp [glyphsOf]
      | cons c body => simpa [glyphsOf] using hfirst
  rw [htext, events]
  split
  · next hsome =>
    rw [hafter] at hsome
    obtain rfl := Option.some.inj hsome
    rfl
  · next hnone =>
    rw [hafter] at hnone
    cases hnone

theorem events_char {c : Char} (hc : c ≠ '<' ∧ c ≠ '&') (opened : List (List Glyph))
    (rest : List Glyph) : events opened (.char c :: rest) = events opened rest := by
  rw [events]
  all_goals simp [hc]

/-- The first line of a listing is passed over. -/
theorem events_declaration (opened : List (List Glyph)) (rest : List Glyph) :
    events opened (glyphsOf declaration ++ rest) = events opened rest := by
  have htext : declaration = '<' :: '?' ::
      ("xml version=\"1.0\" encoding=\"UTF-8\" standalone=\"yes\"".toList ++ ['?', '>'])
        ++ ['\n'] := rfl
  rw [htext, glyphsOf_append, List.append_assoc, events_instruction (by decide) (by decide)]
  exact events_char (by decide) opened rest

/-! ### Listings -/

/-- An element without content as it is written. -/
def Element.text (e : Element) : List Char :=
  elementText e.name e.fields

/-- A listing: the first line, and elements without content in one that names their name space. -/
def listing (root nameSpace : String) (elements : List Element) : List Char :=
  declaration
    ++ (('<' :: (root.toList ++ attributesText [("xmlns", nameSpace)] ++ ['>']))
    ++ (elements.flatMap Element.text ++ '<' :: '/' :: (root.toList ++ ['>'])))

/-- An element that is wanted by its name, with attributes that are all wanted. -/
structure Element.IsWanted (wanted : List (String × List String)) (e : Element) : Prop where
  name : IsName e.name
  names : ∀ a ∈ e.fields, IsName a.1
  distinct : (e.fields.map Prod.fst).Nodup
  found : ∃ names, wanted.find? (·.1 == e.name) = some (e.name, names) ∧
    ∀ a ∈ e.fields, a.1 ∈ names

theorem localName_eq {name : String} (h : IsName name) :
    localName (glyphsOf name.toList) = glyphsOf name.toList := by
  rw [localName]
  split
  · next hbreak =>
    have hcolon := (Text.breakAt?_singleton_eq_some_iff.1 hbreak).1
    have hmem : ':' ∈ name.toList :=
      char_mem_glyphsOf.1 (hcolon ▸ List.mem_append_right _ List.mem_cons_self)
    exact absurd (h.2 _ hmem) (by decide)
  · rfl

/-- Elements without content, one behind the other. -/
def listed : List Element → Forest
  | [] => .nil
  | e :: elements => .empty e.name (written e.fields) (listed elements)

theorem text_listed (elements : List Element) :
    (listed elements).text = elements.flatMap Element.text := by
  induction elements with
  | nil => rfl
  | cons e elements ih =>
    have htext : e.text
        = '<' :: (e.name.toList ++ Markup.attributesText (written e.fields) ++ ['/'] ++ ['>']) := by
      rw [← attributesText_eq]
      simp [Element.text, elementText, attributesText]
    rw [listed, Forest.text, ih, List.flatMap_cons, htext]
    simp

theorem tags_listed (elements : List Element) :
    (listed elements).tags = elements.map fun e => (e.name, written e.fields) := by
  induction elements with
  | nil => rfl
  | cons e elements ih => rw [listed, Forest.tags, ih, List.map_cons]

/-- A listing is a first line and a forest. -/
theorem listing_eq (root nameSpace : String) (elements : List Element) :
    listing root nameSpace elements = declaration
      ++ (Forest.element root (written [("xmlns", nameSpace)]) (listed elements) .nil).text := by
  rw [listing, Forest.text, text_listed, attributesText_eq]
  simp [Forest.text]

theorem wantedElements_listed {wanted : List (String × List String)} {elements : List Element}
    (h : ∀ e ∈ elements, e.IsWanted wanted) :
    wantedElements wanted (listed elements).events = .ok elements := by
  rw [Forest.events, tags_listed, List.map_map]
  induction elements with
  | nil => rfl
  | cons e elements ih =>
    rw [List.forall_mem_cons] at h
    obtain ⟨names, hfound, hnames⟩ := h.1.found
    have hunseen : ∀ a ∈ e.fields, glyphsOf a.1.toList ∉ [] := fun _ _ => List.not_mem_nil
    have hitems := attributeItems_eq h.1.names h.1.distinct hunseen
    rw [attributesText_eq] at hitems
    rw [List.map_cons, Function.comp_apply, Event.ofWritten, wantedElements,
      localName_eq h.1.name]
    simp only [Text.glyphsOf_beq, hfound]
    rw [hitems, wantedFields_eq hnames, ih h.2]
    rfl

/-- A listing of elements that are wanted is read back as it was written. -/
theorem readElements_listing {wanted : List (String × List String)} {root : String}
    (hroot : IsName root) (hunwanted : wanted.find? (·.1 == root) = none) (nameSpace : String)
    {elements : List Element} (h : ∀ e ∈ elements, e.IsWanted wanted) :
    readElements wanted (Text.encode (listing root nameSpace elements)) = .ok elements := by
  have hmark : glyphsWithoutMark (Text.encode (listing root nameSpace elements))
      = glyphsOf (listing root nameSpace elements) := by
    rw [glyphsWithoutMark, Text.glyphs_encode]
    rfl
  have hspace : ∀ a ∈ [("xmlns", nameSpace)], IsName a.1 :=
    List.forall_mem_singleton.2 (by decide : IsName "xmlns")
  have hplain : ∀ tag ∈ (Forest.element root (written [("xmlns", nameSpace)]) (listed elements)
      .nil).tags, IsPlainTag tag := by
    rw [Forest.tags, List.forall_mem_cons, tags_listed, Forest.tags, List.append_nil,
      List.forall_mem_map]
    exact ⟨⟨hroot.isPlainName, isPlain_written hspace⟩, fun e he =>
      ⟨(h e he).name.isPlainName, isPlain_written (h e he).names⟩⟩
  have hevents := Forest.events_text hplain [] []
  rw [List.append_nil, events, List.append_nil] at hevents
  rw [readElements, hmark, listing_eq, glyphsOf_append, events_declaration, hevents,
    Forest.events, Forest.tags, List.map_cons, Forest.tags, List.append_nil, Event.ofWritten,
    wantedElements, localName_eq hroot]
  simp only [Text.glyphsOf_beq, hunwanted]
  exact wantedElements_listed h

end Xml

/-! ### Listings of relationships -/

namespace Relationship

/-- The element for a relationship. -/
def element (r : Relationship) : Xml.Element where
  name := "Relationship"
  fields := [("Id", r.id), ("Type", r.type), ("Target", r.target)]
    ++ if r.isExternal then [("TargetMode", externalMode)] else []

theorem isWanted_element (r : Relationship) : r.element.IsWanted Relationships.wanted := by
  have hnames : r.element.fields.map Prod.fst <+: ["Id", "Type", "Target", "TargetMode"] := by
    rw [element]
    cases r.isExternal with
    | false => exact ⟨["TargetMode"], rfl⟩
    | true => exact ⟨[], rfl⟩
  have hname : ∀ a ∈ r.element.fields, a.1 ∈ ["Id", "Type", "Target", "TargetMode"] :=
    fun a ha => hnames.subset (List.mem_map_of_mem ha)
  constructor
  case name => exact (by decide : Xml.IsName "Relationship")
  case names =>
    exact fun a ha => (by decide : ∀ n ∈ ["Id", "Type", "Target", "TargetMode"], Xml.IsName n) _
      (hname a ha)
  case distinct => exact hnames.sublist.nodup (by decide)
  case found => exact ⟨["Id", "Type", "Target", "TargetMode"], rfl, hname⟩

theorem ofElement?_element (r : Relationship) : ofElement? r.element = some r := by
  obtain ⟨id, type, target, isExternal⟩ := r
  cases isExternal <;> rfl

end Relationship

namespace Relationships

theorem toXml_eq (rs : Relationships) :
    rs.toXml = Xml.listing "Relationships" Relationship.nameSpace
      (rs.entries.map Relationship.element) := by
  have hescape : Markup.escape Relationship.nameSpace.toList = Relationship.nameSpace.toList := by
    decide
  have helements : (rs.entries.map Relationship.element).flatMap Xml.Element.text
      = rs.entries.flatMap Relationship.text := by
    rw [List.flatMap_map]
    rfl
  rw [Xml.listing, helements]
  simp [toXml, Xml.attributesText, Xml.attributeText, hescape]

/-- A listing is read back as it was written. -/
theorem ofXml_toXml (folder : List Char) (rs : Relationships) :
    ofXml folder (Text.encode rs.toXml) = .ok ⟨folder, rs.entries⟩ := by
  have hwanted : ∀ e ∈ rs.entries.map Relationship.element, e.IsWanted wanted := by
    simpa using fun r _ => Relationship.isWanted_element r
  have hentries : (rs.entries.map Relationship.element).filterMap Relationship.ofElement?
      = rs.entries := by
    rw [List.filterMap_map, show Relationship.ofElement? ∘ _ = some from
      funext Relationship.ofElement?_element, List.filterMap_some]
  rw [ofXml, toXml_eq, Xml.readElements_listing (by decide) (by decide) _ hwanted]
  dsimp only
  rw [hentries]

end Relationships

end MailMerge
