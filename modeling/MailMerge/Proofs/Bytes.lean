import MailMerge.Proofs.Tokens
import MailMerge.Template.Scanner
import MailMerge.Template.Sweep

/-!
# Brace spans in bytes

A character that takes one byte is found among the bytes of a text exactly where it stands in the
text, since all bytes of longer characters are larger (`getElem?_encode_iff`). So a brace span can
be told from the bytes alone: `IsSpan` says which bytes make one, and `isSpan_encode_iff` that it is
then one of the text. A span is determined by where it starts (`IsSpan.stop_eq`), and spans do not
overlap (`IsSpan.stop_le_start`).
-/

namespace MailMerge

namespace Text

theorem toNat_le_of_utf8Size {c : Char} (hc : c.utf8Size = 1) : c.toNat ≤ 127 :=
  UInt32.le_iff_toNat_le.1 (Char.utf8Size_eq_one_iff.1 hc)

/-- A character that takes one byte is that byte. -/
theorem utf8EncodeChar_of_utf8Size {c : Char} (hc : c.utf8Size = 1) :
    String.utf8EncodeChar c = [c.toUInt8] :=
  if_pos (toNat_le_of_utf8Size hc)

theorem toNat_toUInt8 {c : Char} (hc : c.utf8Size = 1) : c.toUInt8.toNat = c.toNat :=
  Nat.mod_eq_of_lt (Nat.lt_of_le_of_lt (toNat_le_of_utf8Size hc) (by decide))

theorem toUInt8_inj {c d : Char} (hc : c.utf8Size = 1) (hd : d.utf8Size = 1)
    (h : c.toUInt8 = d.toUInt8) : c = d := by
  rw [← Char.toNat_inj, ← toNat_toUInt8 hc, ← toNat_toUInt8 hd, h]

/-- All bytes of a longer character are larger than those of the characters that take one. -/
theorem utf8Size_of_mem_utf8EncodeChar {b : UInt8} {c : Char} (hb : b ∈ String.utf8EncodeChar c)
    (hsmall : b.toNat ≤ 127) : c.utf8Size = 1 := by
  rw [Char.utf8Size_eq_one_iff, UInt32.le_iff_toNat_le]
  by_contra hlong
  have hlarge : ∀ n, 128 ≤ n → n < 256 → b ≠ UInt8.ofNat n := by
    rintro n hn hlt rfl
    rw [UInt8.toNat_ofNat_of_lt' hlt] at hsmall
    omega
  have hnone : b ∉ String.utf8EncodeChar c := by
    rw [String.utf8EncodeChar, if_neg (show ¬c.val.toNat ≤ 127 from hlong)]
    split_ifs <;> simp only [List.mem_cons, List.not_mem_nil, or_false, not_or]
    all_goals
      repeat' apply And.intro
      all_goals exact hlarge _ (by omega) (by omega)
  exact hnone hb

/-- A character that takes one byte stands where its byte does. -/
theorem getElem?_encode_iff {c : Char} (hc : c.utf8Size = 1) {s : List Char} {place : Nat} :
    (encode s)[place]? = some c.toUInt8 ↔
      ∃ before after, s = before ++ c :: after ∧ place = byteSize before := by
  constructor
  · intro h
    induction s generalizing place with
    | nil => simp at h
    | cons d s ih =>
      rw [encode_cons, List.getElem?_append, String.length_utf8EncodeChar] at h
      split at h
      · next hlt =>
        have hd : d.utf8Size = 1 := utf8Size_of_mem_utf8EncodeChar (List.mem_of_getElem? h)
          (by rw [toNat_toUInt8 hc]; exact toNat_le_of_utf8Size hc)
        obtain rfl : place = 0 := by omega
        rw [utf8EncodeChar_of_utf8Size hd, List.getElem?_cons_zero, Option.some.injEq] at h
        obtain rfl := toUInt8_inj hd hc h
        exact ⟨[], s, rfl, rfl⟩
      · next hge =>
        obtain ⟨before, after, rfl, hplace⟩ := ih h
        refine ⟨d :: before, after, rfl, ?_⟩
        rw [byteSize_cons]
        omega
  · rintro ⟨before, after, rfl, rfl⟩
    rw [encode_append, encode_cons, utf8EncodeChar_of_utf8Size hc,
      List.getElem?_append_right (by simp), length_encode, Nat.sub_self]
    rfl

theorem mem_encode_iff {c : Char} (hc : c.utf8Size = 1) {s : List Char} :
    c.toUInt8 ∈ encode s ↔ c ∈ s := by
  simp only [List.mem_iff_getElem?, getElem?_encode_iff hc]
  constructor
  · rintro ⟨place, before, after, rfl, -⟩
    exact List.mem_iff_getElem?.1 (by simp)
  · intro h
    obtain ⟨before, after, rfl⟩ := List.append_of_mem (List.mem_iff_getElem?.2 h)
    exact ⟨_, before, after, rfl, rfl⟩

theorem byteSize_eq_zero_iff {s : List Char} : byteSize s = 0 ↔ s = [] := by
  cases s with
  | nil => simp
  | cons c s =>
    have := c.utf8Size_pos
    simp only [byteSize_cons, reduceCtorEq, iff_false]
    omega

/-- Of two texts that start another one, the shorter starts the longer. -/
theorem exists_append_of_byteSize_le {a b r r' : List Char} (h : a ++ r = b ++ r')
    (hle : byteSize a ≤ byteSize b) : ∃ s, b = a ++ s ∧ r = s ++ r' := by
  obtain ⟨s, hb, hr⟩ | ⟨s, ha, hr⟩ := List.append_eq_append_iff.1 h
  · exact ⟨s, hb, hr⟩
  · rw [ha, byteSize_append] at hle
    obtain rfl : s = [] := byteSize_eq_zero_iff.1 (by omega)
    exact ⟨[], by simp [ha], by simpa using hr.symm⟩

/-- A character that starts behind some text and before another one stands between the two. -/
theorem mem_of_byteSize {c : Char} {before s after front rest : List Char}
    (h : before ++ (s ++ after) = front ++ c :: rest) (hstart : byteSize before ≤ byteSize front)
    (hstop : byteSize front < byteSize before + byteSize s) : c ∈ s := by
  obtain ⟨u, rfl, hs⟩ := exists_append_of_byteSize_le h hstart
  rw [byteSize_append] at hstop
  obtain ⟨v, rfl, hv⟩ := exists_append_of_byteSize_le hs.symm (by omega)
  cases v with
  | nil => simp at hstop
  | cons d v =>
    obtain ⟨rfl, -⟩ := List.cons.inj hv
    simp

end Text

/-! ### Brace spans -/

/-- Whether some bytes hold a brace span from one place up to another: an opening brace, then at
least one byte and no more than the bound says, none of them a brace, then a closing brace. -/
structure IsSpan (bound : UInt64) (bytes : List UInt8) (start stop : Nat) : Prop where
  opening : bytes[start]? = some openByte
  closing : bytes[stop - 1]? = some closeByte
  between : ∀ k, start < k → k < stop - 1 → bytes[k]? ≠ some openByte ∧ bytes[k]? ≠ some closeByte
  nonempty : 1 ≤ stop - start - 2
  size : stop - start - 2 ≤ max bound.toNat 1

namespace IsSpan

variable {bound bound' : UInt64} {bytes : List UInt8} {start stop stop' k : Nat}

theorem start_lt (h : IsSpan bound bytes start stop) : start + 2 < stop := by
  have := h.nonempty
  omega

theorem stop_le (h : IsSpan bound bytes start stop) : stop ≤ bytes.length := by
  have := (List.getElem?_eq_some_iff.1 h.closing).1
  have := h.start_lt
  omega

/-- A brace behind the opening one is the closing one, or stands behind it. -/
theorem le_of_isBraceByte (h : IsSpan bound bytes start stop) (hlt : start < k) {b : UInt8}
    (hk : bytes[k]? = some b) (hb : isBraceByte b = true) : stop ≤ k + 1 := by
  by_contra hstop
  obtain ⟨hopen, hclose⟩ := h.between k hlt (by omega)
  rw [hk, Ne, Option.some.injEq] at hopen hclose
  simp [isBraceByte, hopen, hclose] at hb

/-- A span stops at the first brace behind the one that opens it. -/
theorem stop_eq (h : IsSpan bound bytes start stop) (h' : IsSpan bound' bytes start stop') :
    stop = stop' := by
  have hlt := h.start_lt
  have hlt' := h'.start_lt
  have hle := h.le_of_isBraceByte (by omega) h'.closing rfl
  have hle' := h'.le_of_isBraceByte (by omega) h.closing rfl
  omega

/-- Spans do not overlap. -/
theorem stop_le_start {start' : Nat} (h : IsSpan bound bytes start stop)
    (h' : IsSpan bound' bytes start' stop') (hlt : start < start') : stop ≤ start' := by
  have hle := h.le_of_isBraceByte hlt h'.opening rfl
  by_contra hstop
  obtain rfl : start' = stop - 1 := by omega
  exact absurd (h'.opening.symm.trans h.closing) (by decide)

/-- A span stops behind the brace that is found first in the window behind the opening one. -/
theorem stop_eq_of_placeOf? {limit brace : Nat} (h : IsSpan bound bytes start stop)
    (hbrace : placeOf? isBraceByte (start + 1) limit bytes = some brace) : stop = brace + 1 := by
  obtain ⟨hle, -, ⟨b, hb, hbraced⟩, hbefore⟩ := placeOf?_eq_some hbrace
  have hlt := h.start_lt
  have hstop := h.le_of_isBraceByte hle hb hbraced
  by_contra hne
  exact absurd (hbefore (stop - 1) (by omega) (by omega) _ h.closing) (by decide)

/-- A span does not stop in a window without a brace. -/
theorem le_stop_of_placeOf? {limit : Nat} (h : IsSpan bound bytes start stop)
    (hnone : placeOf? isBraceByte (start + 1) limit bytes = none) : limit < stop := by
  have hlt := h.start_lt
  by_contra hle
  exact absurd (placeOf?_eq_none hnone (by omega) (by omega) h.closing) (by decide)

/-- Whether there is a span is a matter of the bound only as far as its length goes. -/
theorem of_size (h : IsSpan bound bytes start stop)
    (hsize : stop - start - 2 ≤ max bound'.toNat 1) : IsSpan bound' bytes start stop :=
  { h with size := hsize }

end IsSpan

/-- A brace span that is found in a text: the text between the braces is not empty, holds no brace,
and lets the closing brace start in the window. -/
def Found.IsSpanIn (span : Found (List Char)) (window : Nat) (s : List Char) : Prop :=
  ∃ before after, s = before ++ '{' :: (span.value ++ '}' :: after) ∧
    span.start = Text.byteSize before ∧ span.stop = span.start + Text.byteSize span.value + 2 ∧
    span.value ≠ [] ∧ BraceFree span.value ∧ Text.byteSize span.value < window

section Encode

variable {bound : UInt64} {s : List Char} {start stop : Nat} {span : Found (List Char)}

theorem getElem?_opening_iff {place : Nat} :
    (Text.encode s)[place]? = some openByte ↔
      ∃ before after, s = before ++ '{' :: after ∧ place = Text.byteSize before :=
  Text.getElem?_encode_iff (show '{'.utf8Size = 1 from rfl)

theorem getElem?_closing_iff {place : Nat} :
    (Text.encode s)[place]? = some closeByte ↔
      ∃ before after, s = before ++ '}' :: after ∧ place = Text.byteSize before :=
  Text.getElem?_encode_iff (show '}'.utf8Size = 1 from rfl)

/-- A span in a text starts with the byte of its brace. -/
theorem Found.IsSpanIn.opening {window : Nat} (h : span.IsSpanIn window s) :
    (Text.encode s)[span.start]? = some openByte := by
  obtain ⟨before, after, rfl, hstart, -⟩ := h
  exact getElem?_opening_iff.2 ⟨before, _, rfl, hstart⟩

theorem byteSize_concat_opening (s : List Char) :
    Text.byteSize (s ++ ['{']) = Text.byteSize s + 1 :=
  Text.byteSize_append s ['{']

/-- The bytes of a span in a text. -/
theorem Found.IsSpanIn.isSpan (h : span.IsSpanIn (max bound.toNat 1 + 1) s) :
    IsSpan bound (Text.encode s) span.start span.stop := by
  obtain ⟨before, after, rfl, hstart, hstop, hne, hbody, hsize⟩ := h
  have hpos : Text.byteSize span.value ≠ 0 := fun h => hne (Text.byteSize_eq_zero_iff.1 h)
  have hbefore := byteSize_concat_opening before
  have hbetween : ∀ c : Char, isBrace c = true → c.utf8Size = 1 → ∀ k,
      span.start < k → k < span.stop - 1 →
      (Text.encode (before ++ '{' :: (span.value ++ '}' :: after)))[k]? ≠ some c.toUInt8 := by
    intro c hc hone k hlt hlt' hk
    obtain ⟨front, rest, hs, rfl⟩ := (Text.getElem?_encode_iff hone).1 hk
    have hcut : (before ++ ['{']) ++ (span.value ++ '}' :: after) = front ++ c :: rest := by
      rw [← hs, List.append_assoc]
      rfl
    have hmem : c ∈ span.value := Text.mem_of_byteSize hcut (by omega) (by omega)
    rw [hbody c hmem] at hc
    cases hc
  constructor
  · exact getElem?_opening_iff.2 ⟨before, _, rfl, hstart⟩
  · refine getElem?_closing_iff.2 ⟨before ++ ['{'] ++ span.value, after, by simp, ?_⟩
    rw [Text.byteSize_append, hbefore]
    omega
  · exact fun k hlt hlt' => ⟨hbetween '{' rfl rfl k hlt hlt', hbetween '}' rfl rfl k hlt hlt'⟩
  · omega
  · omega

/-- What stands in a text where its bytes have a span. -/
theorem IsSpan.exists_isSpanIn (h : IsSpan bound (Text.encode s) start stop) :
    ∃ body, (⟨start, stop, body⟩ : Found (List Char)).IsSpanIn (max bound.toNat 1 + 1) s := by
  obtain ⟨hopening, hclosing, hbetween, hnonempty, hsize⟩ := h
  obtain ⟨before, rest, rfl, rfl⟩ := getElem?_opening_iff.1 hopening
  obtain ⟨front, after, hs, hstop⟩ := getElem?_closing_iff.1 hclosing
  have hbefore := byteSize_concat_opening before
  have hcut : (before ++ ['{']) ++ rest = front ++ '}' :: after := by
    rw [← hs, List.append_assoc]
    rfl
  obtain ⟨body, rfl, rfl⟩ := Text.exists_append_of_byteSize_le hcut (by omega)
  rw [Text.byteSize_append, hbefore] at hstop
  refine ⟨body, before, after, rfl, rfl, by dsimp only; omega, ?_, ?_, by dsimp only; omega⟩
  · rintro rfl
    rw [Text.byteSize_nil] at hstop
    omega
  · -- a brace in the text between would be a byte between
    intro c hc
    obtain ⟨u, v, rfl⟩ := List.append_of_mem hc
    rw [Text.byteSize_append, Text.byteSize_cons] at hstop
    have := c.utf8Size_pos
    have hplace : ∀ d : Char, d.utf8Size = 1 → c = d →
        (Text.encode (before ++ '{' :: (u ++ c :: v ++ '}' :: after)))[
          Text.byteSize before + 1 + Text.byteSize u]? = some d.toUInt8 := by
      rintro d hd rfl
      refine (Text.getElem?_encode_iff hd).2 ⟨before ++ ['{'] ++ u, v ++ '}' :: after, by simp, ?_⟩
      rw [Text.byteSize_append, hbefore]
    obtain ⟨hopen, hclose⟩ := hbetween (Text.byteSize before + 1 + Text.byteSize u) (by omega)
      (by omega)
    rw [isBrace, Bool.or_eq_false_iff, beq_eq_false_iff_ne, beq_eq_false_iff_ne]
    exact ⟨fun h => hopen (hplace '{' rfl h), fun h => hclose (hplace '}' rfl h)⟩

/-- **The spans in the bytes of a text are those in the text.** -/
theorem isSpan_encode_iff : IsSpan bound (Text.encode s) start stop ↔
    ∃ body, (⟨start, stop, body⟩ : Found (List Char)).IsSpanIn (max bound.toNat 1 + 1) s :=
  ⟨IsSpan.exists_isSpanIn, fun ⟨_, h⟩ => h.isSpan⟩

end Encode

end MailMerge
