import MailMerge.Proofs.Elements
import MailMerge.Proofs.Finding
import MailMerge.Proofs.Rows
import MailMerge.Proofs.TextElements

/-!
# Markup found in memory

What is searched for in the bytes of a text is markup, and each of its characters takes one byte. So
a search of the bytes finds what a search of the characters finds, at a place between two of them
(`elementsFrom_eq`, `insideTextElement_eq`, `maxDrawingId_encode`). The byte in front of an angle
bracket is there, because the bracket is looked for behind the name of the tag
(`exists_byteBefore_angle`); if that byte is a slash it is a character, and no part of a longer one.
-/

namespace MailMerge

open Text

namespace Markup

section Chunks

variable {place : Nat} {s a r x t : List Char}

theorem isNarrow_textOpening : IsNarrow textOpening := by decide

theorem isNarrow_textClosing : IsNarrow textClosing := by decide

/-- Nothing starts before the first opening tag. -/
theorem chunks_of_breakAt? (h : breakAt? textOpening s = some (a, r)) :
    chunks s = a.map .char ++ chunks (textOpening ++ r) := by
  induction s generalizing a with
  | nil => cases h
  | cons c s ih =>
    rw [breakAt?] at h
    split at h
    · next r' hr =>
      cases h
      rw [eq_append_of_after? hr]
      rfl
    · next hnone =>
      obtain ⟨⟨a', r'⟩, hbreak, he⟩ := Option.map_eq_some_iff.1 h
      cases he
      have hplain : start (c :: s) = .plain := by rw [start, hnone]
      rw [chunks_of_plain hplain, ih hbreak]
      rfl

theorem chunks_of_breakAt?_eq_none (h : breakAt? textOpening s = none) :
    chunks s = s.map .char := by
  induction s with
  | nil =>
    rw [chunks]
    rfl
  | cons c s ih =>
    rw [breakAt?] at h
    split at h
    · cases h
    · next hnone =>
      have hplain : start (c :: s) = .plain := by rw [start, hnone]
      rw [chunks_of_plain hplain, ih (Option.map_eq_none_iff.1 h)]
      rfl

/-- A longer name is passed over. -/
theorem chunks_of_nameEnds (h : nameEnds r = false) :
    chunks (textOpening ++ r) = textOpening.map .char ++ chunks r := by
  have hplain : start (textOpening ++ r) = .plain :=
    start_eq_plain_iff.2 fun r' hr => List.append_cancel_left hr ▸ h
  have hname : '<' ∉ "w:t".toList := by decide
  rw [show textOpening ++ r = '<' :: ("w:t".toList ++ r) from rfl] at hplain ⊢
  rw [chunks_of_plain hplain, chunks_append_of_notMem hname]
  rfl

theorem chunks_of_unclosed {s : List Char} (h : start s = .unclosed) : chunks s = s.map .char := by
  cases s with
  | nil =>
    rw [chunks]
    rfl
  | cons c s =>
    rw [chunks]
    split <;> rename_i h' <;> rw [h] at h' <;> cases h'

theorem locateElements_of_unclosed {s : List Char} (h : start s = .unclosed) :
    locateElements place (chunks s) = [] := by
  rw [chunks_of_unclosed h, locateElements_map_char]

/-- The elements behind one that starts here are looked for behind its closing tag. -/
theorem locateElements_of_element {tag content after : List Char}
    (h : start s = .element tag content (textClosing ++ after)) :
    locateElements place (chunks s)
      = .at place tag content
        :: locateElements (place + byteSize tag + byteSize content + textClosing.length)
          (chunks after) := by
  rw [chunks_of_element h, locateElements, chunks_closing_append, locateElements_map_char_append,
    isNarrow_textClosing.byteSize_eq]
  rfl

theorem start_of_not_ended (hends : nameEnds r = true) (h : breakAt? ['>'] r = none) :
    start (textOpening ++ r) = .unclosed := by
  rw [start, after?_append]
  dsimp only
  rw [if_pos hends, h]

theorem isAttributes_of_breakAt? (hends : nameEnds r = true) (h : breakAt? ['>'] r = some (x, t)) :
    r = x ++ '>' :: t ∧ IsAttributes x := by
  obtain ⟨rfl, hended⟩ := breakAt?_singleton_eq_some_iff.1 h
  exact ⟨rfl, hended, by rwa [← nameEnds_append_cons]⟩

theorem getLast?_append_textOpening (u x : List Char) :
    (u ++ textOpening ++ x).getLast? = some '/' ↔ x.getLast? = some '/' := by
  have hname : textOpening.getLast? = some 't' := rfl
  rw [List.getLast?_append, List.getLast?_append, hname]
  cases x.getLast? with
  | none => exact iff_of_false (by simp) (by simp)
  | some c => rfl

end Chunks

end Markup

namespace Memory

open Markup

/-- The byte in front of the angle bracket that ends an opening tag. -/
theorem exists_byteBefore_angle {bytes : List UInt8} {angle : Nat} {u x t : List Char}
    (hcut : IsCut bytes angle (u ++ textOpening ++ x) (['>'] ++ t)) :
    ∃ b, byteBefore angle bytes = .ok b ∧ (b = slashByte ↔ x.getLast? = some '/') := by
  obtain ⟨b, hb, hbyte⟩ := exists_byteBefore_eq hcut (by simp [textOpening])
  exact ⟨b, hb, (hbyte '/' rfl).trans (getLast?_append_textOpening u x)⟩

/-- The stretches of a text element. -/
def Element.of (e : TextElement) : Element :=
  ⟨⟨e.opening.start, e.opening.stop⟩, ⟨e.content.start, e.content.stop⟩⟩

/-- The text elements from a place between two characters on are those of the text behind it. -/
theorem elementsFrom_eq {bytes : List UInt8} {place : Nat} {u v : List Char}
    (hcut : IsCut bytes place u v) :
    elementsFrom place bytes = .ok ((locateElements place (chunks v)).map Element.of) := by
  have hopening : textOpening ≠ [] := by decide
  have hlength : textOpening.length = 4 := rfl
  have hclosing : textClosing ≠ [] := by decide
  have hend : IsNarrow ['>'] := by decide
  have hend' : ['>'] ≠ [] := by decide
  induction hn : v.length using Nat.strong_induction_on generalizing place u v with
  | h n ih =>
    subst hn
    rw [elementsFrom]
    split
    · next fault h => exact absurd h (findFrom_ne_error isNarrow_textOpening hopening hcut fault)
    · next h =>
      have hnone := breakAt?_eq_none_of_findFrom isNarrow_textOpening hopening hcut h
      rw [chunks_of_breakAt?_eq_none hnone, locateElements_map_char]
      rfl
    · next start h =>
      obtain ⟨a, r, rfl, hbreak, hstart, hcut⟩ :=
        exists_of_findFrom isNarrow_textOpening hopening hcut h
      have hname := hcut.add_length isNarrow_textOpening
      rw [chunks_of_breakAt? hbreak, locateElements_map_char_append, ← hstart]
      dsimp only
      rw [nameEndsAt_eq hname]
      split
      · next hends =>
        split
        · next fault h => exact absurd h (findFrom_ne_error hend hend' hname fault)
        · next h =>
          have hnone := breakAt?_eq_none_of_findFrom hend hend' hname h
          rw [locateElements_of_unclosed (start_of_not_ended hends hnone)]
          rfl
        · next angle h =>
          obtain ⟨x, t, rfl, hbreak, hplace, hangle⟩ := exists_of_findFrom hend hend' hname h
          obtain ⟨-, hx⟩ := isAttributes_of_breakAt? hends hbreak
          obtain ⟨b, hb, hlast⟩ := exists_byteBefore_angle hangle
          have hinner : IsCut bytes (angle + 1) (u ++ a ++ textOpening ++ x ++ ['>']) t :=
            hangle.add_length hend
          have htag : start + byteSize (textOpening ++ x ++ ['>']) = angle + 1 := by
            rw [byteSize_append, byteSize_append, isNarrow_textOpening.byteSize_eq,
              hend.byteSize_eq, hplace, List.length_singleton]
            omega
          have hstarts := start_opening hx t
          rw [show textOpening ++ (x ++ (['>'] ++ t)) = textOpening ++ (x ++ '>' :: t) from rfl, hb]
          simp only [hlast]
          split
          · next hempty =>
            rw [if_pos hempty] at hstarts
            rw [ih t.length (by simp; omega) hinner rfl, chunks_of_empty hstarts,
              locateElements_map_char_append, htag]
          · next hfull =>
            rw [if_neg hfull] at hstarts
            split
            · next fault h =>
              exact absurd h (findFrom_ne_error isNarrow_textClosing hclosing hinner fault)
            · next h =>
              rw [breakAt?_eq_none_of_findFrom isNarrow_textClosing hclosing hinner h] at hstarts
              rw [locateElements_of_unclosed hstarts]
              rfl
            · next stop h =>
              obtain ⟨content, after, rfl, hbreak, hstop, hclose⟩ :=
                exists_of_findFrom isNarrow_textClosing hclosing hinner h
              rw [hbreak] at hstarts
              rw [ih after.length (by simp; omega) (hclose.add_length isNarrow_textClosing) rfl,
                locateElements_of_element hstarts, htag, ← hstop]
              simp only [List.map_cons, Element.of, TextElement.at, htag, ← hstop]
              rfl
      · next hends =>
        rw [ih r.length (by simp; omega) hname rfl, chunks_of_nameEnds (by simpa using hends),
          locateElements_map_char_append, isNarrow_textOpening.byteSize_eq]

/-! ### Inside text elements -/

theorem nameEnds_take (r s : List Char) : nameEnds (r.take 1 ++ s.take 1) = nameEnds (r ++ s) := by
  cases r with
  | nil => cases s <;> rfl
  | cons c r => rfl

/-- The last of the occurrences whose names are complete, by its place. -/
theorem find?_placesOf_textOpening (before after : List Char) :
    (placesOf (encode textOpening) 0 (encode before)).reverse.find?
        (fun start => nameEndsAt (start + textOpening.length) (encode (before ++ after)))
      = (openedIn after before).getLast?.map fun rest =>
        byteSize before - byteSize (textOpening ++ rest) := by
  rw [← List.getLast?_filter, placesOf_encode isNarrow_textOpening (by decide), List.filter_map,
    List.getLast?_map, openedIn]
  have hends : ∀ rest ∈ occurrences textOpening before,
      nameEndsAt (0 + (byteSize before - byteSize (textOpening ++ rest)) + textOpening.length)
          (encode (before ++ after))
        = nameEnds (rest.take 1 ++ after.take 1) := by
    intro rest hrest
    obtain ⟨a, rfl⟩ := exists_of_mem_occurrences hrest
    have hcut := isCut a (textOpening ++ (rest ++ after))
    have hplace : byteSize (a ++ (textOpening ++ rest)) - byteSize (textOpening ++ rest)
        = byteSize a := by
      rw [byteSize_append a, Nat.add_sub_cancel]
    rw [nameEnds_take, hplace, Nat.zero_add, ← nameEndsAt_eq (hcut.add_length isNarrow_textOpening)]
    simp
  rw [Function.comp_def, List.filter_congr hends]
  simp only [Nat.zero_add]

/-- An opening tag holds no start of a closing tag. -/
theorem occurrences_textClosing_append (rest : List Char) :
    occurrences textClosing (textOpening ++ rest) = occurrences textClosing rest := by
  have hname : '<' ∉ "w:t".toList := by decide
  have hnone : after? textClosing ('<' :: ("w:t".toList ++ rest)) = none := rfl
  rw [show textOpening ++ rest = '<' :: ("w:t".toList ++ rest) from rfl, occurrences, hnone]
  exact occurrences_append_of_notMem hname rest

theorem contains_eq_occurrences (s : List Char) :
    Text.contains textClosing s = !(occurrences textClosing s).isEmpty := by
  induction s with
  | nil => rfl
  | cons c s ih =>
    rw [contains_cons, occurrences, ih]
    cases after? textClosing (c :: s) <;> rfl

/-- The last closing tag stands behind an opening one if there is any behind it. -/
theorem getLast?_placesOf_textClosing (a rest : List Char) :
    ((placesOf (encode textClosing) 0 (encode (a ++ (textOpening ++ rest)))).getLast?.all
        fun closing => closing < byteSize a)
      = !Text.contains textClosing rest := by
  obtain ⟨l, hl, hbefore⟩ := exists_occurrences_append textClosing a (textOpening ++ rest)
  rw [placesOf_encode isNarrow_textClosing (by decide), hl, occurrences_textClosing_append,
    contains_eq_occurrences, List.getLast?_map, List.getLast?_append, Bool.not_not]
  cases hlast : (occurrences textClosing rest).getLast? with
  | none =>
    rw [List.getLast?_eq_none_iff.1 hlast]
    cases hlast : l.getLast? with
    | none => rfl
    | some r =>
      have hmem := List.mem_of_getLast? hlast
      have hlt := hbefore r hmem
      obtain ⟨b, hb⟩ := exists_of_mem_occurrences (hl ▸ List.mem_append_left _ hmem)
      have hsize := congrArg byteSize hb
      rw [byteSize_append a, byteSize_append b] at hsize
      refine decide_eq_true ?_
      dsimp only
      rw [byteSize_append a]
      omega
  | some r =>
    have hmem := List.mem_of_getLast? hlast
    obtain ⟨b, rfl⟩ := exists_of_mem_occurrences hmem
    rw [List.isEmpty_eq_false_iff_exists_mem.2 ⟨r, hmem⟩]
    refine decide_eq_false ?_
    simp only [byteSize_append]
    omega

/-- Whether a place between two characters is inside a text element. -/
theorem insideTextElement_eq {bytes : List UInt8} {place : Nat} {before after : List Char}
    (hcut : IsCut bytes place before after) :
    insideTextElement place bytes = .ok (Markup.insideTextElement before after) := by
  obtain ⟨rfl, rfl⟩ := hcut
  have hend : IsNarrow ['>'] := by decide
  have hfront : itemsUpTo (byteSize before) (encode (before ++ after)) = .ok (encode before) := by
    rw [encode_append, itemsUpTo_append (length_encode before).symm]
  rw [insideTextElement, hfront, ok_bind]
  dsimp only
  rw [find?_placesOf_textOpening, insideTextElement_eq_insideFrom, insideFrom]
  cases hlast : (openedIn after before).getLast? with
  | none => rfl
  | some rest =>
    have hmem : rest ∈ occurrences textOpening before :=
      List.mem_of_mem_filter (List.mem_of_getLast? hlast)
    obtain ⟨a, rfl⟩ := exists_of_mem_occurrences hmem
    have hplace : byteSize (a ++ (textOpening ++ rest)) - byteSize (textOpening ++ rest)
        = byteSize a := by
      rw [byteSize_append a, Nat.add_sub_cancel]
    have hname : '>' ∉ textOpening := by decide
    have hopening := isCut a (textOpening ++ rest)
    rw [Option.map_some, hplace]
    dsimp only
    rw [findFrom_eq hend (List.cons_ne_nil _ _) hopening, breakAt?_append_of_notMem_left hname,
      ok_bind]
    cases hbreak : breakAt? ['>'] rest with
    | none => rfl
    | some found =>
      obtain ⟨x, t⟩ := found
      obtain rfl := eq_append_of_breakAt? hbreak
      have hangle : IsCut (encode (a ++ (textOpening ++ (x ++ (['>'] ++ t)))))
          (byteSize a + byteSize (textOpening ++ x)) (a ++ textOpening ++ x) (['>'] ++ t) := by
        rw [← List.append_assoc textOpening] at hopening ⊢
        rw [List.append_assoc a]
        exact hopening.add
      obtain ⟨b, hb, hlast⟩ := exists_byteBefore_angle hangle
      dsimp only [Option.map_some]
      rw [hb, ok_bind]
      by_cases hempty : x.getLast? = some '/'
      · rw [if_pos (hlast.2 hempty), hempty]
        rfl
      · rw [if_neg (hempty ∘ hlast.1), bne_iff_ne.2 hempty, Bool.true_and,
          ← getLast?_placesOf_textClosing a]
        cases (placesOf (encode textClosing) 0
          (encode (a ++ (textOpening ++ (x ++ (['>'] ++ t)))))).getLast? <;> rfl

/-! ### Drawing ids -/

theorem isNarrow_drawingOpening : IsNarrow drawingOpening := by decide

theorem isNarrow_idName : IsNarrow idName := by decide

theorem charOf_toUInt8 {c : Char} (hc : c.utf8Size = 1) : charOf c.toUInt8 = c := by
  rw [charOf, toNat_toUInt8 hc, Char.ofNat_toNat]

theorem utf8Size_of_isDigit {c : Char} (h : c.isDigit = true) : c.utf8Size = 1 := by
  rw [Char.isDigit, Bool.and_eq_true, decide_eq_true_iff, decide_eq_true_iff] at h
  exact Char.utf8Size_eq_one_iff.2 (UInt32.le_trans h.2 (by decide))

/-- A byte that is a digit is no part of a longer character. -/
theorem toNat_le_of_isDigit {b : UInt8} (h : (charOf b).isDigit = true) : b.toNat ≤ 127 := by
  have hvalid : b.toNat.isValidChar := Or.inl (Nat.lt_of_lt_of_le b.toNat_lt (by decide))
  have hnat : (charOf b).toNat = b.toNat := by
    rw [charOf, Char.ofNat, dif_pos hvalid]
    rfl
  have hle := (Char.isDigit_iff_toNat.1 h).2
  rw [hnat] at hle
  exact Nat.le_trans hle (by decide)

/-- The digits at the start of a text are the digits at the start of its bytes. -/
theorem takeWhile_encode (s : List Char) :
    (encode s).takeWhile (fun b => (charOf b).isDigit) = encode (s.takeWhile Char.isDigit) := by
  induction s with
  | nil => rfl
  | cons c s ih =>
    cases hc : c.isDigit with
    | true =>
      have hsize := utf8Size_of_isDigit hc
      rw [List.takeWhile_cons_of_pos hc, encode_cons_of_utf8Size hsize,
        encode_cons_of_utf8Size hsize,
        List.takeWhile_cons_of_pos (by rwa [charOf_toUInt8 hsize]), ih]
    | false =>
      rw [List.takeWhile_cons_of_neg (by simp [hc]), encode_nil, encode_cons]
      cases hbytes : String.utf8EncodeChar c with
      | nil =>
        have hpos := c.utf8Size_pos
        rw [← String.length_utf8EncodeChar, hbytes] at hpos
        exact absurd hpos (Nat.lt_irrefl 0)
      | cons b bytes =>
        refine List.takeWhile_cons_of_neg fun hdigit => ?_
        have hsize := utf8Size_of_mem_utf8EncodeChar (hbytes ▸ List.mem_cons_self)
          (toNat_le_of_isDigit hdigit)
        rw [utf8EncodeChar_of_utf8Size hsize] at hbytes
        rw [← (List.cons.inj hbytes).1, charOf_toUInt8 hsize, hc] at hdigit
        cases hdigit

theorem map_charOf_encode {s : List Char} (hs : IsNarrow s) : (encode s).map charOf = s := by
  induction s with
  | nil => rfl
  | cons c s ih =>
    obtain ⟨hc, hs⟩ := isNarrow_cons.1 hs
    rw [encode_cons_of_utf8Size hc, List.map_cons, charOf_toUInt8 hc, ih hs]

/-- The id in the bytes of a tag. -/
theorem drawingId?_encode (tag : List Char) :
    drawingId? (encode tag) = .ok (Markup.drawingId? tag) := by
  rw [drawingId?, find?_encode isNarrow_idName (by decide), Markup.drawingId?,
    show " id=\"".toList = idName from rfl]
  cases hbreak : breakAt? idName tag with
  | none => rfl
  | some found =>
    obtain ⟨a, value⟩ := found
    obtain rfl := eq_append_of_breakAt? hbreak
    have hdigits : IsNarrow (value.takeWhile Char.isDigit) := fun c hc =>
      utf8Size_of_isDigit (List.all_eq_true.1 List.all_takeWhile c hc)
    have hvalue : itemsFrom (byteSize a + idName.length) (encode (a ++ (idName ++ value)))
        = .ok (encode value) := by
      rw [← List.append_assoc, encode_append, itemsFrom_append]
      rw [length_encode, byteSize_append, isNarrow_idName.byteSize_eq]
    have hcut : encode value = encode (value.takeWhile Char.isDigit)
        ++ encode (value.dropWhile Char.isDigit) := by
      rw [← encode_append, List.takeWhile_append_dropWhile]
    dsimp only [Option.map_some]
    rw [hvalue, ok_bind, takeWhile_encode]
    conv in itemsUpTo _ _ => rw [hcut, itemsUpTo_append rfl]
    rw [ok_bind, map_charOf_encode hdigits]
    rfl

/-- The ids of drawings from a place between two characters on. -/
theorem drawingIdsAt_eq {bytes : List UInt8} {place : Nat} {u v : List Char}
    (hcut : IsCut bytes place u v) :
    drawingIdsAt bytes (placesOf (encode drawingOpening) place (encode v))
      = .ok (Markup.drawingIds v) := by
  have hend : IsNarrow ['>'] := by decide
  induction v generalizing place u with
  | nil => rfl
  | cons c v ih =>
    have hnext := ih (hcut.add (a := [c]) (v := v))
    rw [byteSize_cons, byteSize_nil, Nat.add_zero] at hnext
    rw [placesOf_encode_cons isNarrow_drawingOpening (by decide), Markup.drawingIds]
    cases hstarts : startsWith drawingOpening (c :: v) with
    | false => exact hnext
    | true =>
      rw [if_pos rfl, if_pos rfl, List.singleton_append, drawingIdsAt,
        findFrom_eq hend (List.cons_ne_nil _ _) hcut, ok_bind]
      cases hbreak : breakAt? ['>'] (c :: v) with
      | none => rfl
      | some found =>
        obtain ⟨tag, rest⟩ := found
        have htag := eq_append_of_breakAt? hbreak
        have hbetween : itemsBetween place (place + byteSize tag) bytes = .ok (encode tag) := by
          rw [hcut.bytes_eq, htag, encode_append, encode_append]
          exact itemsBetween_append (by rw [hcut.place_eq, length_encode]) (by rw [length_encode]) _
        dsimp only [Option.map_some]
        rw [hbetween, ok_bind, drawingId?_encode, ok_bind, hnext]
        rfl

/-- The largest drawing id in the bytes of a text. -/
theorem maxDrawingId_encode (s : List Char) :
    maxDrawingId (encode s) = .ok (Markup.maxDrawingId s) := by
  have hids : drawingIdsAt (encode s) (placesOf (encode drawingOpening) 0 (encode s))
      = .ok (Markup.drawingIds s) := drawingIdsAt_eq (isCut [] s)
  rw [maxDrawingId, hids]
  rfl

end Memory

end MailMerge
