import Mathlib.Data.List.Basic
import MailMerge.Proofs.Bytes
import MailMerge.Proofs.Listings

/-!
# Texts with entities

Five characters are **special** and are written as entities (`escapeChar_cases`). No entity holds
another special character behind its ampersand, and all five take one byte, so a written text can be
looked at character by character or byte by byte (`encode_escape`), and what comes of two texts is
put together (`escape_reads_back`). A search of the bytes finds out whether a text is its own
written form (`needsEscape_eq_true_iff`).
-/

namespace MailMerge.Markup

/-- The characters that have an entity. -/
def specials : List Char :=
  ['&', '<', '>', '"', '\'']

/-- The written forms of these characters. -/
def entities : List (List Char) :=
  ["&amp;".toList, "&lt;".toList, "&gt;".toList, "&quot;".toList, "&apos;".toList]

theorem entityName?_eq_none_iff {c : Char} : entityName? c = none ↔ c ∉ specials := by
  unfold entityName? specials
  repeat' split
  all_goals simp_all

/-- A special character is written as an entity, and another one as it is. -/
theorem escapeChar_cases (c : Char) :
    (c ∈ specials ∧ escapeChar c ∈ entities) ∨ (c ∉ specials ∧ escapeChar c = [c]) := by
  by_cases hc : c ∈ specials
  · refine .inl ⟨hc, ?_⟩
    exact (by decide : ∀ c ∈ specials, escapeChar c ∈ entities) c hc
  · refine .inr ⟨hc, ?_⟩
    rw [escapeChar, entityName?_eq_none_iff.2 hc]

theorem escape_append (s r : List Char) : escape (s ++ r) = escape s ++ escape r :=
  List.flatMap_append

theorem escape_cons (c : Char) (s : List Char) : escape (c :: s) = escapeChar c ++ escape s :=
  rfl

/-- Only ampersands are left of the special characters. -/
theorem eq_of_mem_escape {s : List Char} {c : Char} (h : c ∈ escape s) (hc : c ∈ specials) :
    c = '&' := by
  rcases mem_escape h with ⟨-, hnone⟩ | hc'
  · exact absurd hc (entityName?_eq_none_iff.1 hnone)
  · exact (by decide : ∀ c ∈ specials, c ∈ "&amplgtquos;".toList → c = '&') c hc hc'

/-- Every ampersand that is written starts an entity. -/
theorem exists_entity_of_ampersand {s before after : List Char}
    (h : escape s = before ++ '&' :: after) : ∃ e ∈ entities, e <+: '&' :: after := by
  induction s generalizing before with
  | nil => cases before <;> cases h
  | cons c s ih =>
    rw [escape_cons] at h
    rcases List.append_eq_append_iff.1 h with ⟨u, rfl, hs⟩ | ⟨u, hchar, hs⟩
    · exact ih hs
    cases u with
    | nil => exact @ih [] hs.symm
    | cons d u =>
      obtain ⟨rfl, rfl⟩ := List.cons.inj hs
      rcases escapeChar_cases c with ⟨-, hentity⟩ | ⟨hc, hplain⟩
      · -- the ampersand is the first character of its entity
        have hfirst : ∀ e ∈ entities, '&' ∉ e.tail := by decide
        cases before with
        | nil =>
          refine ⟨escapeChar c, hentity, escape s, ?_⟩
          rw [hchar]
          rfl
        | cons b before =>
          refine absurd ?_ (hfirst _ hentity)
          rw [hchar]
          simp
      · rw [hplain] at hchar
        refine absurd ?_ hc
        obtain rfl : c = '&' := List.mem_singleton.1 (hchar ▸ by simp : '&' ∈ [c]) |>.symm
        decide

/-! ### Bytes -/

/-- What is written in the place of a byte. -/
def escapeByte (b : UInt8) : List UInt8 :=
  if b = '&'.toUInt8 then Text.encode "&amp;".toList
  else if b = '<'.toUInt8 then Text.encode "&lt;".toList
  else if b = '>'.toUInt8 then Text.encode "&gt;".toList
  else if b = '"'.toUInt8 then Text.encode "&quot;".toList
  else if b = '\''.toUInt8 then Text.encode "&apos;".toList
  else [b]

theorem escapeByte_of_ne {b : UInt8} (h : ∀ c ∈ specials, b ≠ c.toUInt8) : escapeByte b = [b] := by
  simp only [specials, List.forall_mem_cons] at h
  obtain ⟨hamp, hlt, hgt, hquot, hapos, -⟩ := h
  rw [escapeByte, if_neg hamp, if_neg hlt, if_neg hgt, if_neg hquot, if_neg hapos]

theorem utf8Size_of_mem_specials {c : Char} (h : c ∈ specials) : c.utf8Size = 1 :=
  (by decide : ∀ c ∈ specials, c.utf8Size = 1) c h

theorem encode_escapeChar (c : Char) :
    Text.encode (escapeChar c) = (String.utf8EncodeChar c).flatMap escapeByte := by
  rcases escapeChar_cases c with ⟨hc, -⟩ | ⟨hc, hplain⟩
  · exact (by decide : ∀ c ∈ specials,
      Text.encode (escapeChar c) = (String.utf8EncodeChar c).flatMap escapeByte) c hc
  · have hbytes : ∀ b ∈ String.utf8EncodeChar c, escapeByte b = [b] := by
      refine fun b hb => escapeByte_of_ne fun d hd => ?_
      rintro rfl
      have hmem : d ∈ [c] := by
        rw [← Text.mem_encode_iff (utf8Size_of_mem_specials hd)]
        simpa [Text.encode] using hb
      exact hc (List.mem_singleton.1 hmem ▸ hd)
    rw [hplain, List.flatMap_congr hbytes]
    simp [Text.encode]

/-- Writing a text puts entities in the place of some of its bytes. -/
theorem encode_escape (s : List Char) :
    Text.encode (escape s) = (Text.encode s).flatMap escapeByte := by
  induction s with
  | nil => rfl
  | cons c s ih =>
    rw [escape_cons, Text.encode_append, Text.encode_cons, List.flatMap_append, encode_escapeChar,
      ih]

/-- The two searches find a special character if there is one. -/
theorem needsEscape_eq_true_iff {s : List Char} :
    needsEscape s = true ↔ ∃ c ∈ specials, c ∈ s := by
  have hamp : 0x26 ∈ Text.encode s ↔ '&' ∈ s := Text.mem_encode_iff (c := '&') rfl
  have hlt : 0x3C ∈ Text.encode s ↔ '<' ∈ s := Text.mem_encode_iff (c := '<') rfl
  have hgt : 0x3E ∈ Text.encode s ↔ '>' ∈ s := Text.mem_encode_iff (c := '>') rfl
  have hquot : 0x22 ∈ Text.encode s ↔ '"' ∈ s := Text.mem_encode_iff (c := '"') rfl
  have hapos : 0x27 ∈ Text.encode s ↔ '\'' ∈ s := Text.mem_encode_iff (c := '\'') rfl
  simp only [needsEscape, specials, Bool.or_eq_true, List.any_eq_true, beq_iff_eq, and_or_left,
    exists_or, exists_eq_right, hamp, hlt, hgt, hquot, hapos, List.mem_cons, List.not_mem_nil,
    or_false, exists_eq_or_imp, exists_eq_left, or_assoc]

/-- **A written text reads back**, also as the value of an attribute. It holds no special characters
but ampersands, each of which starts an entity. Adjoining texts are written one behind the other,
and a text is written byte by byte as it is character by character. Where the written form is only
made if it is needed, it is the same, and it is the text itself exactly when that has no special
character. -/
theorem escape_reads_back (s : List Char) :
    unescape? (escape s) = some s ∧
      (∀ name, (Xml.Attribute.mk name (Text.glyphsOf (escape s))).text? = some (String.ofList s)) ∧
      (∀ c ∈ specials, c ∈ escape s → c = '&') ∧
      (∀ before after, escape s = before ++ '&' :: after → ∃ e ∈ entities, e <+: '&' :: after) ∧
      (∀ r, escape (s ++ r) = escape s ++ escape r) ∧
      Text.encode (escape s) = (Text.encode s).flatMap escapeByte ∧
      (escapeIfNeeded s).text = escape s ∧
      ((escapeIfNeeded s).isSame = true ↔ ∀ c ∈ specials, c ∉ s) := by
  have hplain : needsEscape s ≠ true ↔ ∀ c ∈ specials, c ∉ s := by
    simp only [Ne, needsEscape_eq_true_iff, not_exists, not_and]
  refine ⟨unescape?_escape s, fun name => ?_, fun c hc hmem => eq_of_mem_escape hmem hc,
    fun before after => exists_entity_of_ampersand, escape_append s, encode_escape s,
    text_escapeIfNeeded s, ?_⟩
  · simpa using Xml.text?_of_escape name (String.ofList s)
  · rw [← hplain, escapeIfNeeded]
    cases needsEscape s <;> simp [Written.isSame]

/-- A text that looks as if it had been written already. -/
theorem escape_reads_back_written :
    let s := "&amp;lt;é".toList
    escape s = "&amp;amp;lt;é".toList ∧ unescape? (escape s) = some s ∧
      (∃ e ∈ entities, e <+: "&amp;amp;lt;é".toList) ∧
      (escapeIfNeeded s).isSame = false ∧ (escapeIfNeeded "lt;é".toList).isSame = true := by
  intro s
  obtain ⟨hread, -, -, hentity, -, -, -, hsame⟩ := escape_reads_back s
  obtain ⟨-, -, -, -, -, -, -, hsame'⟩ := escape_reads_back "lt;é".toList
  refine ⟨by decide, hread, hentity [] _ (by decide), ?_, hsame'.2 (by decide)⟩
  rw [Bool.eq_false_iff, Ne, hsame]
  decide

end MailMerge.Markup
