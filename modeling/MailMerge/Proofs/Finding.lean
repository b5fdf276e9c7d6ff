import MailMerge.Memory.Markup
import MailMerge.Proofs.Bytes

/-!
# What is found in bytes

A text whose characters take one byte each stands in the bytes of another text exactly where it
stands in that text, for no such byte is part of a longer character. So a search in the bytes from a
place between two characters on finds a place of that kind, and the same one as a search in the text
(`findFrom_eq`); what stands before such a place, or at it, is told from one byte.
-/

namespace MailMerge

namespace Text

/-- Whether each character of a text takes one byte. -/
def IsNarrow (s : List Char) : Prop :=
  ∀ c ∈ s, c.utf8Size = 1

instance : DecidablePred IsNarrow :=
  fun _ => inferInstanceAs (Decidable (∀ _ ∈ _, _))

section Narrow

variable {p s : List Char} {c d : Char}

theorem isNarrow_cons : IsNarrow (c :: p) ↔ c.utf8Size = 1 ∧ IsNarrow p :=
  List.forall_mem_cons

theorem encode_cons_of_utf8Size (hc : c.utf8Size = 1) (s : List Char) :
    encode (c :: s) = c.toUInt8 :: encode s := by
  rw [encode_cons, utf8EncodeChar_of_utf8Size hc]
  rfl

/-- The byte of a character that takes no more is in no other character. -/
theorem notMem_utf8EncodeChar (hc : c.utf8Size = 1) (hne : c ≠ d) :
    c.toUInt8 ∉ String.utf8EncodeChar d := by
  intro hmem
  have hsmall : c.toUInt8.toNat ≤ 127 := by
    rw [toNat_toUInt8 hc]
    exact toNat_le_of_utf8Size hc
  have hd := utf8Size_of_mem_utf8EncodeChar hmem hsmall
  rw [utf8EncodeChar_of_utf8Size hd, List.mem_singleton] at hmem
  exact hne (toUInt8_inj hc hd hmem)

theorem after?_eq_none_of_ne {α : Type} [DecidableEq α] {a b : α} (h : a ≠ b) (p s : List α) :
    after? (a :: p) (b :: s) = none :=
  if_neg h

/-- What follows a narrow text in the bytes is what follows it in the text. -/
theorem after?_encode (hp : IsNarrow p) (s : List Char) :
    after? (encode p) (encode s) = (after? p s).map encode := by
  induction p generalizing s with
  | nil => rfl
  | cons c p ih =>
    obtain ⟨hc, hp⟩ := isNarrow_cons.1 hp
    rw [encode_cons_of_utf8Size hc]
    cases s with
    | nil => rfl
    | cons d s =>
      by_cases hcd : c = d
      · subst hcd
        rw [encode_cons_of_utf8Size hc, after?, if_pos rfl, after?, if_pos rfl, ih hp]
      · have hnone : after? (c :: p) (d :: s) = none := after?_eq_none_of_ne hcd p s
        rw [hnone, encode_cons]
        cases hd : String.utf8EncodeChar d with
        | nil =>
          have hpos := d.utf8Size_pos
          rw [← String.length_utf8EncodeChar, hd] at hpos
          exact absurd hpos (Nat.lt_irrefl 0)
        | cons b bytes =>
          refine after?_eq_none_of_ne ?_ _ _
          rintro rfl
          exact notMem_utf8EncodeChar hc hcd (hd ▸ List.mem_cons_self)

theorem startsWith_encode (hp : IsNarrow p) (s : List Char) :
    startsWith (encode p) (encode s) = startsWith p s := by
  rw [startsWith, after?_encode hp, Option.isSome_map, startsWith]

/-- Nothing starts at items that are not the first of what is searched for. -/
theorem breakAt?_append_of_notMem_left {α : Type} [DecidableEq α] {a : α} {front : List α}
    (h : a ∉ front) (p s : List α) :
    breakAt? (a :: p) (front ++ s)
      = (breakAt? (a :: p) s).map fun (before, r) => (front ++ before, r) := by
  induction front with
  | nil => simp
  | cons b front ih =>
    rw [List.mem_cons, not_or] at h
    rw [List.cons_append, breakAt?, after?_eq_none_of_ne h.1, ih h.2, Option.map_map]
    rfl

/-- Where bytes are cut at a narrow text, the text is cut. -/
theorem breakAt?_encode (hp : IsNarrow (c :: p)) (s : List Char) :
    breakAt? (encode (c :: p)) (encode s)
      = (breakAt? (c :: p) s).map fun (before, r) => (encode before, encode r) := by
  have hc := (isNarrow_cons.1 hp).1
  induction s with
  | nil =>
    rw [encode_nil, breakAt?, encode_cons_of_utf8Size hc]
    rfl
  | cons d s ih =>
    by_cases hcd : c = d
    · subst hcd
      have hafter := after?_encode hp (c :: s)
      rw [encode_cons_of_utf8Size hc s] at hafter ⊢
      rw [breakAt?, breakAt?, hafter]
      cases after? (c :: p) (c :: s) with
      | some r => rfl
      | none =>
        rw [Option.map_none]
        dsimp only
        rw [ih, Option.map_map, Option.map_map]
        refine congrArg (Option.map · _) (funext fun found => ?_)
        simp [encode_cons_of_utf8Size hc]
    · have hnone : after? (c :: p) (d :: s) = none := after?_eq_none_of_ne hcd p s
      rw [encode_cons d, encode_cons_of_utf8Size hc,
        breakAt?_append_of_notMem_left (notMem_utf8EncodeChar hc hcd),
        ← encode_cons_of_utf8Size hc, ih, breakAt?, hnone, Option.map_map, Option.map_map]
      rfl

end Narrow

theorem IsNarrow.byteSize_eq {p : List Char} (hp : IsNarrow p) : byteSize p = p.length := by
  induction p with
  | nil => rfl
  | cons c p ih =>
    obtain ⟨hc, hp⟩ := isNarrow_cons.1 hp
    rw [byteSize_cons, hc, ih hp, List.length_cons, Nat.add_comm]

/-- Two texts that start another one are the same when they take the same number of bytes. -/
theorem append_inj_of_byteSize {a b r r' : List Char} (h : a ++ r = b ++ r')
    (hsize : byteSize a = byteSize b) : a = b ∧ r = r' := by
  obtain ⟨s, rfl, rfl⟩ := exists_append_of_byteSize_le h (Nat.le_of_eq hsize)
  rw [byteSize_append] at hsize
  obtain rfl : s = [] := byteSize_eq_zero_iff.1 (by omega)
  exact ⟨(List.append_nil a).symm, rfl⟩

/-- Some bytes are those of a text, and a place in them lies between two parts of that text. -/
structure IsCut (bytes : List UInt8) (place : Nat) (before after : List Char) : Prop where
  bytes_eq : bytes = encode (before ++ after)
  place_eq : place = byteSize before

/-- Each text is cut between its parts. -/
theorem isCut (before after : List Char) :
    IsCut (encode (before ++ after)) (byteSize before) before after :=
  ⟨rfl, rfl⟩

namespace IsCut

variable {bytes : List UInt8} {place : Nat} {u v a p : List Char}

theorem add (h : IsCut bytes place u (a ++ v)) : IsCut bytes (place + byteSize a) (u ++ a) v :=
  ⟨by rw [h.bytes_eq, List.append_assoc], by rw [h.place_eq, byteSize_append]⟩

theorem add_length (h : IsCut bytes place u (p ++ v)) (hp : IsNarrow p) :
    IsCut bytes (place + p.length) (u ++ p) v :=
  hp.byteSize_eq ▸ h.add

end IsCut

end Text

namespace Memory

open Text

section Found

variable {p : List Char} (hp : IsNarrow p) (hne : p ≠ [])

include hp hne

theorem find?_encode (s : List Char) :
    find? (encode p) (encode s) = (breakAt? p s).map fun (before, _) => byteSize before := by
  cases p with
  | nil => exact absurd rfl hne
  | cons c p =>
    rw [find?, breakAt?_encode hp, Option.map_map]
    refine congrArg (Option.map · _) (funext fun found => ?_)
    exact length_encode found.1

variable {bytes : List UInt8} {place : Nat} {u v : List Char} (hcut : IsCut bytes place u v)

include hcut

/-- A search from a place between two characters on is a search in the text behind that place. -/
theorem findFrom_eq :
    findFrom p place bytes
      = .ok ((breakAt? p v).map fun (before, _) => place + byteSize before) := by
  rw [findFrom, hcut.bytes_eq, encode_append,
    itemsFrom_append (by rw [hcut.place_eq, length_encode]), ok_bind, find?_encode hp hne,
    Option.map_map]
  rfl

/-- What is found stands in the text, first behind the place. -/
theorem exists_of_findFrom {found : Nat} (h : findFrom p place bytes = .ok (some found)) :
    ∃ a r, v = a ++ (p ++ r) ∧ breakAt? p v = some (a, r) ∧ found = place + byteSize a ∧
      IsCut bytes found (u ++ a) (p ++ r) := by
  rw [findFrom_eq hp hne hcut] at h
  obtain ⟨⟨a, r⟩, hbreak, rfl⟩ := Option.map_eq_some_iff.1 (Except.ok.inj h)
  obtain rfl := eq_append_of_breakAt? hbreak
  exact ⟨a, r, rfl, hbreak, rfl, hcut.add⟩

theorem breakAt?_eq_none_of_findFrom (h : findFrom p place bytes = .ok none) :
    breakAt? p v = none := by
  rw [findFrom_eq hp hne hcut] at h
  exact Option.map_eq_none_iff.1 (Except.ok.inj h)

theorem findFrom_ne_error (fault : Fault) : findFrom p place bytes ≠ .error fault := by
  rw [findFrom_eq hp hne hcut]
  exact nofun

end Found

section Places

variable {p : List Char}

/-- Occurrences of a narrow text from character to character. -/
theorem placesOf_encode_cons (hp : IsNarrow p) (hne : p ≠ []) (start : Nat) (d : Char)
    (s : List Char) :
    placesOf (encode p) start (encode (d :: s))
      = (if startsWith p (d :: s) then [start] else [])
        ++ placesOf (encode p) (start + d.utf8Size) (encode s) := by
  cases p with
  | nil => exact absurd rfl hne
  | cons c p =>
    have hc := (isNarrow_cons.1 hp).1
    by_cases hcd : c = d
    · subst hcd
      have hstarts := startsWith_encode hp (c :: s)
      rw [encode_cons_of_utf8Size hc s] at hstarts ⊢
      rw [placesOf, hstarts, hc]
      split <;> rfl
    · have hnone : startsWith (c :: p) (d :: s) = false := by
        rw [startsWith, after?_eq_none_of_ne hcd]
        rfl
      have hskip (front : List UInt8) (hfront : c.toUInt8 ∉ front) (start : Nat) :
          placesOf (encode (c :: p)) start (front ++ encode s)
            = placesOf (encode (c :: p)) (start + front.length) (encode s) := by
        induction front generalizing start with
        | nil => rfl
        | cons b front ih =>
          rw [List.mem_cons, not_or] at hfront
          have hb : startsWith (encode (c :: p)) (b :: (front ++ encode s)) = false := by
            rw [startsWith, encode_cons_of_utf8Size hc, after?_eq_none_of_ne hfront.1]
            rfl
          rw [List.cons_append, placesOf, hb, if_neg Bool.false_ne_true, ih hfront.2,
            List.length_cons, Nat.add_assoc, Nat.add_comm 1]
      rw [hnone, encode_cons d, hskip _ (notMem_utf8EncodeChar hc hcd),
        String.length_utf8EncodeChar]
      rfl

/-- What is left behind an occurrence is the end of the text. -/
theorem exists_of_mem_occurrences {rest s : List Char} (h : rest ∈ Markup.occurrences p s) :
    ∃ a, s = a ++ (p ++ rest) := by
  induction s with
  | nil => cases h
  | cons c s ih =>
    have later (h : rest ∈ Markup.occurrences p s) : ∃ a, c :: s = a ++ (p ++ rest) := by
      obtain ⟨a, rfl⟩ := ih h
      exact ⟨c :: a, rfl⟩
    rw [Markup.occurrences] at h
    split at h
    · next r hr =>
      rcases List.mem_cons.1 h with rfl | h
      · exact ⟨[], (eq_append_of_after? hr : c :: s = p ++ rest)⟩
      · exact later h
    · exact later h

/-- Behind a place, the occurrences are those of what stands there. -/
theorem exists_occurrences_append (p a s : List Char) :
    ∃ l, Markup.occurrences p (a ++ s) = l ++ Markup.occurrences p s ∧
      ∀ r ∈ l, byteSize s < byteSize (p ++ r) := by
  induction a with
  | nil => exact ⟨[], rfl, nofun⟩
  | cons c a ih =>
    obtain ⟨l, hl, hbefore⟩ := ih
    rw [List.cons_append, Markup.occurrences, hl]
    cases hafter : after? p (c :: (a ++ s)) with
    | none => exact ⟨l, rfl, hbefore⟩
    | some r =>
      refine ⟨r :: l, rfl, List.forall_mem_cons.2 ⟨?_, hbefore⟩⟩
      have := c.utf8Size_pos
      rw [← eq_append_of_after? hafter, byteSize_cons, byteSize_append]
      omega

/-- An occurrence in bytes has the place that is told from what is left behind it in the text. -/
theorem placesOf_encode (hp : IsNarrow p) (hne : p ≠ []) (start : Nat) (s : List Char) :
    placesOf (encode p) start (encode s)
      = (Markup.occurrences p s).map fun rest => start + (byteSize s - byteSize (p ++ rest)) := by
  induction s generalizing start with
  | nil => rfl
  | cons c s ih =>
    have hlater : placesOf (encode p) (start + c.utf8Size) (encode s)
        = (Markup.occurrences p s).map fun rest =>
          start + (byteSize (c :: s) - byteSize (p ++ rest)) := by
      rw [ih]
      refine List.map_congr_left fun rest hrest => ?_
      obtain ⟨a, rfl⟩ := exists_of_mem_occurrences hrest
      simp only [byteSize_cons, byteSize_append]
      omega
    rw [placesOf_encode_cons hp hne, hlater, startsWith, Markup.occurrences]
    cases hafter : after? p (c :: s) with
    | none => rfl
    | some r =>
      have hs : byteSize (c :: s) = byteSize (p ++ r) := by rw [eq_append_of_after? hafter]
      rw [Option.isSome_some, if_pos rfl, List.map_cons, hs, Nat.sub_self, Nat.add_zero]
      rfl

end Places

section Bytes

variable {bytes : List UInt8} {place : Nat} {u v : List Char} {c : Char}

/-- The byte behind a place tells which narrow character stands there. -/
theorem exists_byteAt (h : IsCut bytes place u (c :: v)) :
    ∃ b, bytes[place]? = some b ∧ ∀ d : Char, d.utf8Size = 1 → (b = d.toUInt8 ↔ c = d) := by
  obtain ⟨rfl, rfl⟩ := h
  have hlt : byteSize u < (encode (u ++ c :: v)).length := by
    have := c.utf8Size_pos
    rw [length_encode, byteSize_append, byteSize_cons]
    omega
  refine ⟨_, List.getElem?_eq_getElem hlt, fun d hd => ?_⟩
  rw [← Option.some.injEq, ← List.getElem?_eq_getElem hlt, getElem?_encode_iff hd]
  constructor
  · rintro ⟨before, after, hs, hplace⟩
    obtain ⟨-, he⟩ := append_inj_of_byteSize hs hplace
    exact (List.cons.inj he).1
  · rintro rfl
    exact ⟨u, v, rfl, rfl⟩

/-- Whether a name is complete is told from the byte behind it. -/
theorem nameEndsAt_eq (h : IsCut bytes place u v) : nameEndsAt place bytes = Markup.nameEnds v := by
  cases v with
  | nil =>
    obtain ⟨rfl, rfl⟩ := h
    rw [List.append_nil, nameEndsAt, List.getElem?_eq_none (Nat.le_of_eq (length_encode u))]
    rfl
  | cons c v =>
    obtain ⟨b, hb, hbyte⟩ := exists_byteAt h
    have hnarrow : ∀ d ∈ ">/ \t\r\n".toList, d.utf8Size = 1 := by decide
    have hends : encode ">/ \t\r\n".toList = ">/ \t\r\n".toList.map Char.toUInt8 := rfl
    have hmem : b ∈ encode ">/ \t\r\n".toList ↔ c ∈ ">/ \t\r\n".toList := by
      rw [hends, List.mem_map]
      constructor
      · rintro ⟨d, hd, rfl⟩
        rwa [(hbyte d (hnarrow d hd)).1 rfl]
      · exact fun hc => ⟨c, hc, ((hbyte c (hnarrow c hc)).2 rfl).symm⟩
    rw [nameEndsAt, hb, Option.any_some, Bool.eq_iff_iff, List.contains_iff_mem, hmem]
    simp [Markup.nameEnds, or_assoc]

/-- The byte in front of a place that is not the first tells which narrow character stands there. -/
theorem exists_byteBefore (h : IsCut bytes place u v) (hu : u ≠ []) :
    ∃ b, 0 < place ∧ bytes[place - 1]? = some b ∧
      ∀ d : Char, d.utf8Size = 1 → (b = d.toUInt8 ↔ u.getLast? = some d) := by
  obtain ⟨rfl, rfl⟩ := h
  have hpos : 0 < byteSize u := Nat.pos_of_ne_zero fun h => hu (byteSize_eq_zero_iff.1 h)
  have hlt : byteSize u - 1 < (encode (u ++ v)).length := by
    rw [length_encode, byteSize_append]
    omega
  have hbyte := List.getElem?_eq_getElem hlt
  refine ⟨_, hpos, hbyte, fun d hd => ?_⟩
  rw [← Option.some.injEq, ← hbyte, getElem?_encode_iff hd]
  constructor
  · rintro ⟨before, after, hs, hplace⟩
    have hs' : u ++ v = (before ++ [d]) ++ after := by simpa using hs
    have hsize : byteSize u = byteSize (before ++ [d]) := by
      rw [byteSize_append, byteSize_cons, hd, byteSize_nil]
      omega
    rw [(append_inj_of_byteSize hs' hsize).1, List.getLast?_concat]
  · intro hlast
    obtain ⟨before, rfl⟩ := List.getLast?_eq_some_iff.1 hlast
    refine ⟨before, v, by simp, ?_⟩
    rw [byteSize_append, byteSize_cons, hd, byteSize_nil]
    omega

/-- Reading the byte in front of a place that is not the first. -/
theorem exists_byteBefore_eq (h : IsCut bytes place u v) (hu : u ≠ []) :
    ∃ b, byteBefore place bytes = .ok b ∧
      ∀ d : Char, d.utf8Size = 1 → (b = d.toUInt8 ↔ u.getLast? = some d) := by
  obtain ⟨b, hpos, hb, hbyte⟩ := exists_byteBefore h hu
  refine ⟨b, ?_, hbyte⟩
  rw [byteBefore, sub_of_le hpos, ok_bind, item, hb]

end Bytes

end Memory

end MailMerge
