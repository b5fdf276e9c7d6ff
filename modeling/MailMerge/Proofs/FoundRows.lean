import Mathlib.Data.List.Forall2
import MailMerge.Proofs.Finding
import MailMerge.Proofs.Rows

/-!
# Rows found in bytes

The tags of rows are told from bytes in front of a name, behind it and in front of the angle bracket
that ends it. At a name that stands in a text, these bytes are there and tell the characters that
are asked for (`rowTag?_eq`); the places of a tag in bytes are those of its characters (`inBytes`).

Both ways to look for the bounds of a row go through the names before or behind a place in the same
order as the marks of the text do (`forall₂_rowTag?`), so both count alike and find the same bounds
(`rowStart_eq`, `rowStop_eq`). These bounds are places between characters, with what they are the
bounds of between them (`exists_of_rowStart_eq_some`, `exists_of_rowStop_eq_some`).
-/

namespace MailMerge

open Text

namespace Markup

theorem isNarrow_rowName : IsNarrow rowName := by decide

/-- A tag with other numbers for its places. -/
def RowTag.map (f : Nat → Nat) : RowTag → RowTag
  | .opens start => .opens (f start)
  | .closes stop => .closes (f stop)

theorem unmatchedOpening?_map (f : Nat → Nat) (depth : Nat) (tags : List RowTag) :
    unmatchedOpening? depth (tags.map (RowTag.map f)) = (unmatchedOpening? depth tags).map f := by
  fun_induction unmatchedOpening? depth tags with
  | case1 => rfl
  | case2 depth stop tags ih => exact ih
  | case3 start tags => rfl
  | case4 depth start tags ih => exact ih

theorem unmatchedClosing?_map (f : Nat → Nat) (depth : Nat) (tags : List RowTag) :
    unmatchedClosing? depth (tags.map (RowTag.map f)) = (unmatchedClosing? depth tags).map f := by
  fun_induction unmatchedClosing? depth tags with
  | case1 => rfl
  | case2 depth start tags ih => exact ih
  | case3 stop tags => rfl
  | case4 depth stop tags ih => exact ih

/-- The marks in `v` behind `u`. -/
def marksBehind (u v : List Char) : List RowMark :=
  rowMarksFrom u.length u.dropLast.getLast? u.getLast? v

theorem marksBehind_cons (u : List Char) (c : Char) (v : List Char) :
    marksBehind u (c :: v)
      = ((rowTag? u.length u.dropLast.getLast? u.getLast? (c :: v)).map
          (RowMark.mk u.length)).toList ++ marksBehind (u ++ [c]) v := by
  rw [marksBehind, rowMarksFrom, marksBehind, List.dropLast_concat, List.getLast?_concat,
    List.length_append, List.length_singleton]
  cases rowTag? u.length u.dropLast.getLast? u.getLast? (c :: v) <;> rfl

/-- A mark lies where its name does. -/
theorem place_of_mem_marksBehind {u v : List Char} {m : RowMark} (h : m ∈ marksBehind u v) :
    u.length ≤ m.place ∧ m.place + rowName.length ≤ (u ++ v).length := by
  induction v generalizing u with
  | nil => cases h
  | cons c v ih =>
    rw [marksBehind_cons, List.mem_append, Option.mem_toList, Option.map_eq_some_iff] at h
    rcases h with ⟨tag, htag, rfl⟩ | h
    · obtain ⟨x, r, hs, -, -⟩ := exists_of_rowTag? htag
      rw [hs]
      simp
    · have := ih h
      simp only [List.length_append, List.length_cons, List.length_nil] at this ⊢
      omega

/-- The marks of a text are those in its start and those behind. -/
theorem exists_marksBehind_append (u a v : List Char) :
    ∃ l, marksBehind u (a ++ v) = l ++ marksBehind (u ++ a) v ∧
      ∀ m ∈ l, m.place < (u ++ a).length := by
  induction a generalizing u with
  | nil => exact ⟨[], by rw [List.nil_append, List.append_nil]; rfl, nofun⟩
  | cons c a ih =>
    obtain ⟨l, hl, hbefore⟩ := ih (u ++ [c])
    rw [List.append_assoc, List.singleton_append] at hl hbefore
    rw [List.cons_append, marksBehind_cons, hl, ← List.append_assoc]
    refine ⟨_, rfl, fun m hm => ?_⟩
    rcases List.mem_append.1 hm with hm | hm
    · rw [Option.mem_toList, Option.map_eq_some_iff] at hm
      obtain ⟨tag, -, rfl⟩ := hm
      simp
    · exact hbefore m hm

/-- A closing tag stops in the text behind. -/
theorem exists_of_closes_mem {u v : List Char} {stop : Nat}
    (h : .closes stop ∈ (marksBehind u v).map RowMark.tag) :
    ∃ a r, v = a ++ '>' :: r ∧ stop = u.length + a.length + 1 := by
  induction v generalizing u with
  | nil => cases h
  | cons c v ih =>
    rw [marksBehind_cons, List.map_append, List.mem_append] at h
    rcases h with h | h
    · obtain ⟨m, hm, htag⟩ := List.mem_map.1 h
      rw [Option.mem_toList, Option.map_eq_some_iff] at hm
      obtain ⟨tag, hm, rfl⟩ := hm
      obtain ⟨x, r, hs, hx, hn⟩ := exists_of_rowTag? hm
      rw [hs, rowTag?_name_append hx hn] at hm
      refine ⟨rowName ++ x, r, by rw [hs, List.append_assoc], ?_⟩
      dsimp only at htag
      subst htag
      split at hm
      · exact (RowTag.closes.inj (Option.some.inj hm)).symm
      split at hm <;> cases hm
    · obtain ⟨a, r, rfl, rfl⟩ := ih h
      exact ⟨c :: a, r, rfl, by simp; omega⟩

theorem filter_rowMarks_behind (before after : List Char) :
    (rowMarks (before ++ after)).filter (fun m => before.length ≤ m.place)
      = marksBehind before after := by
  obtain ⟨l, hl, hbefore⟩ := exists_marksBehind_append [] before after
  rw [List.nil_append] at hl hbefore
  have hnone : l.filter (fun m => before.length ≤ m.place) = [] :=
    List.filter_eq_nil_iff.2 fun m hm => by simpa using hbefore m hm
  have hall : (marksBehind before after).filter (fun m => before.length ≤ m.place)
      = marksBehind before after :=
    List.filter_eq_self.2 fun m hm => decide_eq_true (place_of_mem_marksBehind hm).1
  rw [show rowMarks (before ++ after) = marksBehind [] (before ++ after) from rfl, hl,
    List.filter_append, hnone, hall, List.nil_append]

end Markup

namespace Memory

open Markup

/-- The number of bytes of so many characters at the start of a text. -/
def inBytes (s : List Char) (count : Nat) : Nat :=
  byteSize (s.take count)

theorem inBytes_of_append {s a b : List Char} {count : Nat} (hs : s = a ++ b)
    (hcount : count = a.length) : inBytes s count = byteSize a := by
  rw [inBytes, hs, hcount, List.take_left]

section Bytes

variable {bytes : List UInt8} {place : Nat} {u v : List Char}

theorem byteBack?_one (h : IsCut bytes place u v) :
    ∃ b?, byteBack? 1 place bytes = .ok b? ∧
      ∀ d : Char, d.utf8Size = 1 → (b? = some d.toUInt8 ↔ u.getLast? = some d) := by
  cases hu : u with
  | nil =>
    subst hu
    rw [byteBack?, h.place_eq, if_neg (by simp)]
    exact ⟨none, rfl, fun d _ => iff_of_false nofun nofun⟩
  | cons c u' =>
    obtain ⟨b, hpos, hb, hbyte⟩ := exists_byteBefore h (hu ▸ List.cons_ne_nil c u')
    rw [byteBack?, if_pos (Nat.succ_le_of_lt hpos), item, hb]
    refine ⟨some b, rfl, fun d hd => ?_⟩
    rw [Option.some.injEq, hbyte d hd, hu]

/-- Two bytes back is one byte back from a place where a narrow character starts. -/
theorem byteBack?_two (h : IsCut bytes place u v) :
    ∃ b?, byteBack? 2 place bytes = .ok b? ∧
      ∀ c : Char, c.utf8Size = 1 → u.getLast? = some c →
        ∀ d : Char, d.utf8Size = 1 → (b? = some d.toUInt8 ↔ u.dropLast.getLast? = some d) := by
  by_cases hnarrow : ∃ c : Char, c.utf8Size = 1 ∧ u.getLast? = some c
  · obtain ⟨c, hc, hlast⟩ := hnarrow
    obtain ⟨u, rfl⟩ := List.getLast?_eq_some_iff.1 hlast
    have hplace : place = byteSize u + 1 := by
      rw [h.place_eq, byteSize_append, byteSize_cons, hc, byteSize_nil]
    have hback : IsCut bytes (place - 1) u (c :: v) :=
      ⟨by simpa using h.bytes_eq, by omega⟩
    obtain ⟨b?, hb, hbyte⟩ := byteBack?_one hback
    have htwo : byteBack? 2 place bytes = byteBack? 1 (place - 1) bytes := by
      rw [byteBack?, byteBack?, Nat.sub_sub]
      exact if_congr (by omega) rfl rfl
    rw [htwo, List.dropLast_concat]
    exact ⟨b?, hb, fun _ _ _ => hbyte⟩
  · have hread : ∃ b?, byteBack? 2 place bytes = .ok b? := by
      rw [byteBack?]
      split
      · have hlt : place - 2 < bytes.length := by
          rw [h.bytes_eq, length_encode, byteSize_append, ← h.place_eq]
          omega
        rw [item, List.getElem?_eq_getElem hlt]
        exact ⟨_, rfl⟩
      · exact ⟨none, rfl⟩
    obtain ⟨b?, hb⟩ := hread
    exact ⟨b?, hb, fun c hc hlast => absurd ⟨c, hc, hlast⟩ hnarrow⟩

/-- The two bytes in front of a name tell a closing tag, and an opening one. -/
theorem exists_bytesBefore (h : IsCut bytes place u v) :
    ∃ second? first?, byteBack? 2 place bytes = .ok second? ∧ byteBack? 1 place bytes = .ok first? ∧
      (second? = some openingAngleByte ∧ first? = some slashByte
        ↔ u.getLast? = some '/' ∧ u.dropLast.getLast? = some '<') ∧
      (first? = some openingAngleByte ↔ u.getLast? = some '<') := by
  obtain ⟨second?, hsecond, hsecond'⟩ := byteBack?_two h
  obtain ⟨first?, hfirst, hfirst'⟩ := byteBack?_one h
  have hslash : first? = some slashByte ↔ u.getLast? = some '/' := hfirst' '/' rfl
  refine ⟨second?, first?, hsecond, hfirst, ?_, hfirst' '<' rfl⟩
  rw [hslash, and_comm]
  exact and_congr_right fun hq => hsecond' '/' rfl hq '<' rfl

/-- The tag of a row at its name. -/
theorem rowTag?_eq {rest : List Char} (h : IsCut bytes place u (rowName ++ rest)) :
    rowTag? place bytes
      = .ok ((Markup.rowTag? u.length u.dropLast.getLast? u.getLast? (rowName ++ rest)).map
          (RowTag.map (inBytes (u ++ (rowName ++ rest))))) := by
  have hend : IsNarrow ['>'] := by decide
  rw [rowTag?, Markup.rowTag?, nameEndsAt_eq (h.add_length isNarrow_rowName), after?_append]
  dsimp only
  split
  swap
  · rfl
  rw [findFrom_eq hend (List.cons_ne_nil _ _) h, ok_bind]
  cases hbreak : breakAt? ['>'] (rowName ++ rest) with
  | none => rfl
  | some found =>
    obtain ⟨inner, r⟩ := found
    have htext := eq_append_of_breakAt? hbreak
    have hinner : inner ≠ [] := fun hnil => by
      rw [hnil] at htext
      exact absurd (List.head_eq_of_cons_eq htext) (by decide)
    have hangle : IsCut bytes (place + byteSize inner) (u ++ inner) (['>'] ++ r) :=
      IsCut.add (htext ▸ h)
    have hstop : inBytes (u ++ (rowName ++ rest)) (u.length + inner.length + 1)
        = place + byteSize inner + 1 := by
      have hs : u ++ (rowName ++ rest) = (u ++ inner ++ ['>']) ++ r := by simp [htext]
      rw [inBytes_of_append hs (by simp [Nat.add_assoc]), byteSize_append, byteSize_append,
        h.place_eq]
      rfl
    obtain ⟨second?, first?, hsecond, hfirst, hcloses, hopening⟩ := exists_bytesBefore h
    obtain ⟨last, hlast, hlast'⟩ := exists_byteBefore_eq hangle (by simp [hinner])
    have hempty : last = slashByte ↔ inner.getLast? = some '/' := by
      rw [← List.getLast?_append_of_ne_nil u hinner]
      exact hlast' '/' rfl
    dsimp only [Option.map_some]
    rw [hsecond, ok_bind, hfirst, ok_bind, hlast, ok_bind]
    simp only [hcloses, hopening, hempty]
    split
    · rw [Option.map_some, RowTag.map, hstop]
      rfl
    · by_cases hq : u.getLast? = some '<'
      · rw [if_pos hq]
        by_cases hi : inner.getLast? = some '/'
        · rw [if_pos hi, if_neg fun hopens => hopens.2 hi]
          rfl
        · rw [if_neg hi, if_pos ⟨hq, hi⟩]
          obtain ⟨u, rfl⟩ := List.getLast?_eq_some_iff.1 hq
          have hplace : place = byteSize u + 1 := by
            rw [h.place_eq, byteSize_append]
            rfl
          have hstart : inBytes (u ++ ['<'] ++ (rowName ++ rest)) ((u ++ ['<']).length - 1)
              = byteSize u := inBytes_of_append (List.append_assoc u ['<'] _) (by simp)
          rw [sub_of_le (by omega), ok_bind, Option.map_some, RowTag.map, hstart, hplace]
          rfl
      · rw [if_neg hq, if_neg fun hopens => hq hopens.1]
        rfl

end Bytes

/-! ### The tags around a place -/

section Tags

variable {bytes : List UInt8} {place : Nat}

/-- The names in a part of a text, and the marks whose names are in it. -/
theorem forall₂_rowTag? {u v after : List Char} (h : IsCut bytes place u (v ++ after)) :
    ∃ tags?, List.Forall₂ (fun p tag? => rowTag? p bytes = .ok tag?)
        (placesOf (encode rowName) place (encode v)) tags? ∧
      tags?.filterMap id
        = ((marksBehind u (v ++ after)).filter
            fun m => m.place + rowName.length ≤ (u ++ v).length).map
          fun m => m.tag.map (inBytes (u ++ (v ++ after))) := by
  induction v generalizing place u with
  | nil =>
    refine ⟨[], .nil, ?_⟩
    rw [List.filter_eq_nil_iff.2 fun m hm => ?_]
    · rfl
    · have := (place_of_mem_marksBehind hm).1
      have hpos : 0 < rowName.length := by decide
      simp only [List.append_nil, decide_eq_true_eq]
      omega
  | cons c v ih =>
    have hnext : IsCut bytes (place + c.utf8Size) (u ++ [c]) (v ++ after) :=
      IsCut.add (a := [c]) h
    obtain ⟨tags?, htags, hmarks⟩ := ih hnext
    rw [List.append_assoc, List.append_assoc, List.singleton_append,
      List.singleton_append] at hmarks
    rw [placesOf_encode_cons isNarrow_rowName (by decide), List.cons_append, marksBehind_cons,
      List.filter_append, List.map_append, ← hmarks, startsWith]
    cases hname : after? rowName (c :: v) with
    | none =>
      refine ⟨tags?, htags, ?_⟩
      rw [List.filter_eq_nil_iff.2 fun m hm => ?_]
      · rfl
      -- a name that stops behind the part is not in it
      rw [Option.mem_toList, Option.map_eq_some_iff] at hm
      obtain ⟨tag, htag, rfl⟩ := hm
      obtain ⟨x, r, hs, -, -⟩ := exists_of_rowTag? htag
      simp only [decide_eq_true_eq, List.length_append, Nat.add_le_add_iff_left]
      intro hle
      have hprefix : rowName <+: c :: v ++ after := ⟨_, hs.symm⟩
      obtain ⟨w, hw⟩ :=
        List.prefix_of_prefix_length_le hprefix (List.prefix_append (c :: v) after) hle
      rw [← hw, after?_append] at hname
      cases hname
    | some rest =>
      obtain hs : c :: v = rowName ++ rest := eq_append_of_after? hname
      have htext : c :: v ++ after = rowName ++ (rest ++ after) := by
        rw [hs, List.append_assoc]
      have htag := rowTag?_eq (htext ▸ h)
      refine ⟨_, .cons htag htags, ?_⟩
      rw [← htext, List.cons_append]
      cases Markup.rowTag? u.length u.dropLast.getLast? u.getLast? (c :: (v ++ after)) with
      | none => rfl
      | some tag =>
        have hle : u.length + rowName.length ≤ (u ++ c :: v).length := by
          rw [hs]
          simp
        rw [Option.map_some, Option.map_some, Option.toList_some,
          List.filter_eq_self.2 (by simpa using hle)]
        rfl

theorem unmatchedOpening?_eq {places : List Nat} {tags? : List (Option RowTag)}
    (h : List.Forall₂ (fun p tag? => rowTag? p bytes = .ok tag?) places tags?) (depth : Nat) :
    unmatchedOpening? bytes depth places
      = .ok (Markup.unmatchedOpening? depth (tags?.filterMap id)) := by
  induction h generalizing depth with
  | nil => rfl
  | @cons p tag? places tags? htag _ ih =>
    rw [unmatchedOpening?, htag, ok_bind]
    match tag?, depth with
    | none, _ => exact ih _
    | some (.closes _), _ => exact ih _
    | some (.opens _), 0 => rfl
    | some (.opens _), depth + 1 => exact ih depth

theorem unmatchedClosing?_eq {places : List Nat} {tags? : List (Option RowTag)}
    (h : List.Forall₂ (fun p tag? => rowTag? p bytes = .ok tag?) places tags?) (depth : Nat) :
    unmatchedClosing? bytes depth places
      = .ok (Markup.unmatchedClosing? depth (tags?.filterMap id)) := by
  induction h generalizing depth with
  | nil => rfl
  | @cons p tag? places tags? htag _ ih =>
    rw [unmatchedClosing?, htag, ok_bind]
    match tag?, depth with
    | none, _ => exact ih _
    | some (.opens _), _ => exact ih _
    | some (.closes _), 0 => rfl
    | some (.closes _), depth + 1 => exact ih depth

variable {before after : List Char}

/-- Where the row around a place between two characters starts. -/
theorem rowStart_eq (h : IsCut bytes place before after) :
    rowStart place bytes
      = .ok ((Markup.rowStart before after).map (inBytes (before ++ after))) := by
  obtain ⟨tags?, htags, hmarks⟩ := forall₂_rowTag? (isCut [] (before ++ after))
  rw [List.nil_append, byteSize_nil, ← h.bytes_eq] at htags
  rw [List.nil_append, List.nil_append] at hmarks
  have hfront : itemsUpTo place bytes = .ok (encode before) := by
    rw [h.bytes_eq, encode_append, itemsUpTo_append (h.place_eq.trans (length_encode before).symm)]
  rw [rowStart, hfront, ok_bind, unmatchedOpening?_eq (List.forall₂_reverse_iff.2 htags),
    List.filterMap_reverse, hmarks, Markup.rowStart, ← unmatchedOpening?_map, ← List.map_reverse,
    List.map_map]
  rfl

/-- Where the row around a place between two characters stops. -/
theorem rowStop_eq (h : IsCut bytes place before after) :
    rowStop place bytes
      = .ok ((Markup.rowStop before after).map (inBytes (before ++ after))) := by
  have hcut : IsCut bytes place before (after ++ []) := by rwa [List.append_nil]
  obtain ⟨tags?, htags, hmarks⟩ := forall₂_rowTag? hcut
  have hall : (marksBehind before after).filter
      (fun m => m.place + rowName.length ≤ (before ++ after).length) = marksBehind before after :=
    List.filter_eq_self.2 fun m hm => decide_eq_true (place_of_mem_marksBehind hm).2
  rw [List.append_nil, hall] at hmarks
  have hrest : itemsFrom place bytes = .ok (encode after) := by
    rw [h.bytes_eq, encode_append, itemsFrom_append (h.place_eq.trans (length_encode before).symm)]
  rw [rowStop, hrest, ok_bind, unmatchedClosing?_eq htags, hmarks, Markup.rowStop,
    filter_rowMarks_behind, ← unmatchedClosing?_map, List.map_map]
  rfl

/-- A row starts at a place between two characters, not behind the place it is around. -/
theorem exists_of_rowStart_eq_some {start : Nat} (h : IsCut bytes place before after)
    (hstart : rowStart place bytes = .ok (some start)) :
    ∃ u v, before = u ++ v ∧ IsCut bytes start u (v ++ after) := by
  rw [rowStart_eq h, Except.ok.injEq, Option.map_eq_some_iff] at hstart
  obtain ⟨count, hcount, rfl⟩ := hstart
  obtain ⟨u, v, rfl, rfl⟩ := exists_of_rowStart hcount
  refine ⟨u, '<' :: v, rfl, by rw [h.bytes_eq, List.append_assoc], ?_⟩
  exact inBytes_of_append (List.append_assoc u _ _) rfl

/-- A row stops at a place between two characters, not before the place it is around. -/
theorem exists_of_rowStop_eq_some {stop : Nat} (h : IsCut bytes place before after)
    (hstop : rowStop place bytes = .ok (some stop)) :
    ∃ v r, after = v ++ r ∧ IsCut bytes stop (before ++ v) r := by
  rw [rowStop_eq h, Except.ok.injEq, Option.map_eq_some_iff] at hstop
  obtain ⟨count, hcount, rfl⟩ := hstop
  rw [Markup.rowStop, filter_rowMarks_behind] at hcount
  obtain ⟨v, r, rfl, rfl⟩ := exists_of_closes_mem (mem_of_unmatchedClosing? hcount)
  refine ⟨v ++ ['>'], r, (List.append_assoc v ['>'] r).symm, by rw [h.bytes_eq]; simp, ?_⟩
  exact inBytes_of_append (b := r) (by simp) (by simp [Nat.add_assoc])

end Tags

end Memory

end MailMerge
