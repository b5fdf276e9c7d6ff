import Mathlib.Data.List.Nodup
import MailMerge.Proofs.Relating

/-!
# Ids of new drawings

The ids that are handed out for drawings count on from the largest that is found in a text, up to
the largest word, where the count stays. The ids that are in use stand in the attributes `id` of
`<wp:docPr>` elements (`usedIds`), but they are found by a search for characters: a tag is taken to
end at the first `>`, and the id to stand behind the first `id=` with a blank before it and a double
quotation mark behind it. So an id in single quotation marks is not found, and may be handed out
again. Ids that are written plainly are found (`mem_drawingIds`).

`DrawingIds.distinct_take` says which ids are handed out, and when they are fresh.
-/

namespace MailMerge.Markup

open MailMerge.Text (Glyph glyphsOf)

/-! ### Counting on -/

namespace DrawingIds

theorem fst_take_mk (m n : Nat) :
    ((DrawingIds.mk (min m maxWord)).take n).1
      = (List.range n).map fun i => min (m + i) maxWord := by
  induction n generalizing m with
  | zero => rfl
  | succ n ih =>
    have hsucc : succ (min m maxWord) = min (m + 1) maxWord := by
      rw [succ]
      omega
    have hcons : ((DrawingIds.mk (min m maxWord)).take (n + 1)).1
        = min m maxWord :: ((DrawingIds.mk (succ (min m maxWord))).take n).1 := rfl
    rw [hcons, hsucc, ih, List.range_succ_eq_map, List.map_cons, List.map_map, Nat.add_zero]
    congr 1
    refine List.map_congr_left fun i _ => ?_
    rw [Function.comp_apply, Nat.succ_eq_add_one, Nat.add_assoc, Nat.add_comm 1 i]

variable {s : List Char} {n : Nat}

/-- The ids that are handed out count on from the largest, up to the largest word. -/
theorem fst_take_above (s : List Char) (n : Nat) :
    ((above s).take n).1 = (List.range n).map fun i => min (maxDrawingId s + 1 + i) maxWord :=
  fst_take_mk (maxDrawingId s + 1) n

theorem mem_take_above {k : Nat} : k ∈ ((above s).take n).1 ↔
    0 < n ∧ min (maxDrawingId s + 1) maxWord ≤ k ∧ k ≤ min (maxDrawingId s + n) maxWord := by
  rw [fst_take_above, List.mem_map]
  simp only [List.mem_range]
  constructor
  · rintro ⟨i, hi, rfl⟩
    omega
  · rintro ⟨hn, hlow, hhigh⟩
    exact ⟨k - min (maxDrawingId s + 1) maxWord, by omega, by omega⟩

/-- They are distinct until the count arrives at the largest word. -/
theorem nodup_take_above_iff :
    ((above s).take n).1.Nodup ↔ n ≤ 1 ∨ maxDrawingId s + n ≤ maxWord := by
  rw [fst_take_above]
  constructor
  · intro h
    by_contra hcon
    -- the last two would be the largest word
    have hlast := List.inj_on_of_nodup_map h (List.mem_range.2 (show n - 2 < n by omega))
      (List.mem_range.2 (show n - 1 < n by omega)) (by omega)
    omega
  · intro h
    refine List.Nodup.map_on (fun i hi j hj hij => ?_) List.nodup_range
    rw [List.mem_range] at hi hj
    omega

end DrawingIds

/-! ### Ids in use -/

/-- The id of a drawing, given what follows the name of its element: the number in the attribute
`id` of the tag, in quotation marks of either style. The tag ends at the first `>` outside of
quotation marks. -/
def usedId? (s : List Char) : Option Nat :=
  match Xml.tagEnd? (glyphsOf s) with
  | none => none
  | some (tag, _) =>
    let attributes := if tag.getLast? = some (.char '/') then tag.dropLast else tag
    if attributes.head?.any Xml.isSpace then
      (Xml.attributeItems [] attributes).findSome? fun
        | .sound a =>
          if a.name = glyphsOf "id".toList then
            a.text?.bind fun value => numeral? 10 value.toList
          else none
        | .malformed => none
    else none

/-- The ids of the drawings of a text. -/
def usedIds : List Char → List Nat
  | [] => []
  | c :: s =>
    match Text.after? drawingOpening (c :: s) with
    | some rest => (usedId? rest).toList ++ usedIds s
    | none => usedIds s

/-- An id in use stands in the tag of a drawing. -/
theorem exists_of_mem_usedIds {s : List Char} {k : Nat} (h : k ∈ usedIds s) :
    ∃ before rest, s = before ++ (drawingOpening ++ rest) ∧ usedId? rest = some k := by
  induction s with
  | nil => cases h
  | cons c s ih =>
    have hlater : k ∈ usedIds s →
        ∃ before rest, c :: s = before ++ (drawingOpening ++ rest) ∧ usedId? rest = some k := by
      intro hk
      obtain ⟨before, rest, rfl, hid⟩ := ih hk
      exact ⟨c :: before, rest, rfl, hid⟩
    rw [usedIds] at h
    split at h
    · next rest hrest =>
      rcases List.mem_append.1 h with hk | hk
      · refine ⟨[], rest, ?_, Option.mem_toList.1 hk⟩
        rw [List.nil_append]
        exact Text.eq_append_of_after? hrest
      · exact hlater hk
    · exact hlater h

/-- The id that is found in a tag is found in a text with that tag. -/
theorem mem_drawingIds_of_tag {tag : List Char} (htag : '>' ∉ tag) {k : Nat}
    (hid : drawingId? (drawingOpening ++ tag) = some k) (before rest : List Char) :
    k ∈ drawingIds (before ++ (drawingOpening ++ (tag ++ '>' :: rest))) := by
  induction before with
  | nil =>
    have hopening : '>' ∉ drawingOpening ++ tag := by
      rw [List.mem_append, not_or]
      exact ⟨by decide, htag⟩
    have hcut : Text.breakAt? ['>'] (drawingOpening ++ (tag ++ '>' :: rest))
        = some (drawingOpening ++ tag, rest) :=
      Text.breakAt?_singleton_eq_some_iff.2 ⟨by rw [List.append_assoc], hopening⟩
    have hstart :
        Text.startsWith drawingOpening (drawingOpening ++ (tag ++ '>' :: rest)) = true := by
      rw [Text.startsWith, Text.after?_append]
      rfl
    have hcons : drawingOpening ++ (tag ++ '>' :: rest)
        = '<' :: ("wp:docPr".toList ++ (tag ++ '>' :: rest)) := rfl
    rw [hcons] at hcut hstart
    rw [List.nil_append, hcons, drawingIds, if_pos hstart, hcut]
    dsimp only
    rw [hid]
    exact List.mem_append_left _ (List.mem_singleton.2 rfl)
  | cons c before ih =>
    rw [List.cons_append, drawingIds]
    split
    · split
      · next hnone =>
        -- a tag that is ended later ends this one as well
        have hend : '>' ∈ c :: (before ++ (drawingOpening ++ (tag ++ '>' :: rest))) := by simp
        obtain ⟨a, b, hab, ha⟩ := List.eq_append_cons_of_mem hend
        rw [Text.breakAt?_singleton_eq_some_iff.2 ⟨hab, ha⟩] at hnone
        cases hnone
      · exact List.mem_append_right _ ih
    · exact ih

/-! ### Searching for an id -/

section Search

variable {w chunk : List Char}

/-- What ends in a quotation mark starts a text when it ends at the first one there. -/
theorem after?_quote (hw : '"' ∉ w) (hchunk : '"' ∉ chunk) (rest : List Char) :
    Text.after? (w ++ ['"']) (chunk ++ '"' :: rest) = if w = chunk then some rest else none := by
  split
  · next h =>
    rw [h, List.append_cons chunk '"' rest]
    exact Text.after?_append (chunk ++ ['"']) rest
  · next h =>
    rw [Option.eq_none_iff_forall_ne_some]
    intro r hr
    have hcut := Text.eq_append_of_after? hr
    rw [List.append_assoc, List.singleton_append] at hcut
    exact h (Text.eq_of_append_cons_eq hchunk hw hcut).1.symm

/-- What ends in a quotation mark stands at the first one of a text, or behind it. -/
theorem breakAt?_quote (hw : '"' ∉ w) (hchunk : '"' ∉ chunk) (rest : List Char) :
    (w <:+ chunk → ∃ before,
        Text.breakAt? (w ++ ['"']) (chunk ++ '"' :: rest) = some (before, rest)) ∧
      (¬w <:+ chunk → Text.breakAt? (w ++ ['"']) (chunk ++ '"' :: rest)
        = (Text.breakAt? (w ++ ['"']) rest).map fun (before, r) =>
            (chunk ++ '"' :: before, r)) := by
  induction chunk with
  | nil =>
    have hfirst := after?_quote hw hchunk rest
    rw [List.nil_append] at hfirst
    rw [List.suffix_nil, List.nil_append, Text.breakAt?, hfirst]
    by_cases hnil : w = []
    · exact ⟨fun _ => ⟨[], by rw [if_pos hnil]⟩, fun h => absurd hnil h⟩
    · exact ⟨fun h => absurd h hnil, fun _ => by rw [if_neg hnil]; rfl⟩
  | cons c chunk ih =>
    have hfirst := after?_quote hw hchunk rest
    obtain ⟨ihfound, ihlater⟩ := ih fun hm => hchunk (List.mem_cons_of_mem _ hm)
    rw [List.cons_append] at hfirst
    rw [List.suffix_cons_iff, List.cons_append, Text.breakAt?, hfirst]
    by_cases hwhole : w = c :: chunk
    · exact ⟨fun _ => ⟨[], by rw [if_pos hwhole]⟩, fun h => absurd (Or.inl hwhole) h⟩
    · rw [if_neg hwhole, or_iff_right hwhole]
      constructor
      · intro h
        obtain ⟨before, hbefore⟩ := ihfound h
        exact ⟨c :: before, by rw [hbefore]; rfl⟩
      · intro h
        rw [ihlater h, Option.map_map]
        rfl

end Search

/-! ### Plain attributes -/

/-- The start of an attribute `id`, up to the quotation mark. -/
def idSign : List Char := " id=".toList

/-- Attributes in which the search finds the id: the names are of letters and distinct, the id is a
run of digits, and no value looks like the start of an attribute `id` before its end. -/
structure ArePlain (attributes : List (String × String)) : Prop where
  names : ∀ a ∈ attributes, Xml.IsName a.1
  distinct : (attributes.map Prod.fst).Nodup
  id : ∀ v, ("id", v) ∈ attributes → ∀ c ∈ v.toList, c.isDigit = true
  values : ∀ a ∈ attributes, ¬idSign <:+ escape a.2.toList

theorem ArePlain.of_cons {a : String × String} {attributes : List (String × String)}
    (h : ArePlain (a :: attributes)) : ArePlain attributes where
  names b hb := h.names b (List.mem_cons_of_mem _ hb)
  distinct := (List.nodup_cons.1 h.distinct).2
  id v hv := h.id v (List.mem_cons_of_mem _ hv)
  values b hb := h.values b (List.mem_cons_of_mem _ hb)

theorem ArePlain.angleFree {attributes : List (String × String)} (h : ArePlain attributes) :
    AngleFree (Xml.attributesText attributes) := by
  intro c hm
  obtain ⟨⟨name, value⟩, ha, hc⟩ := List.mem_flatMap.1 hm
  simp only [Xml.attributeText, List.mem_cons, List.mem_append, List.not_mem_nil, or_false] at hc
  rcases hc with rfl | ((hc | hc) | hc) | rfl
  · decide
  · have hletter := (h.names _ ha).2 c hc
    constructor <;> rintro rfl <;> revert hletter <;> decide
  · exact (by decide : ∀ c ∈ "=\"".toList, c ≠ '<' ∧ c ≠ '>') c hc
  · exact angleFree_escape _ c hc
  · decide

/-- The start of an attribute is that of an id only for the name `id`. -/
theorem idSign_suffix_iff {name : String} (h : Xml.IsName name) (x : List Char) :
    idSign <:+ x ++ ' ' :: (name.toList ++ ['=']) ↔ name = "id" := by
  have hblank : ' ' ∉ name.toList ++ ['='] := by
    rw [List.mem_append, not_or]
    exact ⟨fun hm => absurd (h.2 _ hm) (by decide), by decide⟩
  constructor
  · rintro ⟨z, hz⟩
    -- both are cut at the last blank
    have hcut := PartName.breakAtLast?_append hblank x
    have hcut' : PartName.breakAtLast? ' ' (z ++ idSign) = some (z, "id=".toList) :=
      PartName.breakAtLast?_append (by decide) z
    rw [hz, hcut, Option.some.injEq, Prod.mk.injEq] at hcut'
    have hname : name.toList ++ ['='] = "id".toList ++ ['='] := hcut'.2
    exact String.toList_injective (List.append_cancel_right hname)
  · rintro rfl
    exact ⟨x, rfl⟩

/-- The search finds the value of the id. -/
theorem ArePlain.breakAt?_id {attributes : List (String × String)} (h : ArePlain attributes)
    {v : String} (hv : ("id", v) ∈ attributes) {x : List Char} (hx : '"' ∉ x) (t : List Char) :
    ∃ before after, Text.breakAt? (idSign ++ ['"']) (x ++ Xml.attributesText attributes ++ t)
      = some (before, escape v.toList ++ '"' :: after) := by
  have hsign : '"' ∉ idSign := by decide
  induction attributes generalizing x with
  | nil => cases hv
  | cons a attributes ih =>
    have hname := h.names a List.mem_cons_self
    have hchunk : '"' ∉ x ++ ' ' :: (a.1.toList ++ ['=']) := by
      simp only [List.mem_append, List.mem_cons, not_or, List.not_mem_nil, not_false_eq_true,
        and_true]
      exact ⟨hx, by decide, fun hm => absurd (hname.2 _ hm) (by decide), by decide⟩
    have htext : x ++ Xml.attributesText (a :: attributes) ++ t
        = x ++ ' ' :: (a.1.toList ++ ['=']) ++ '"' :: (escape a.2.toList ++ '"' ::
            (Xml.attributesText attributes ++ t)) := by
      rw [Xml.attributesText_cons]
      simp
    have hsearch := breakAt?_quote hsign hchunk
      (escape a.2.toList ++ '"' :: (Xml.attributesText attributes ++ t))
    rw [idSign_suffix_iff hname] at hsearch
    rw [htext]
    by_cases hid : a.1 = "id"
    · -- no later attribute has the name
      have hvalue : a.2 = v := by
        rcases List.mem_cons.1 hv with rfl | hlater
        · rfl
        · have hmem : a.1 ∈ attributes.map Prod.fst :=
            hid ▸ List.mem_map_of_mem (f := Prod.fst) hlater
          exact absurd hmem (List.nodup_cons.1 h.distinct).1
      obtain ⟨before, hbefore⟩ := hsearch.1 hid
      rw [hvalue] at hbefore ⊢
      exact ⟨before, _, hbefore⟩
    · have hlater : ("id", v) ∈ attributes :=
        (List.mem_cons.1 hv).resolve_left fun he => hid (by rw [← he])
      obtain ⟨before, after, hfound⟩ := ih h.of_cons hlater (x := []) List.not_mem_nil
      have hvalue := (breakAt?_quote hsign (Xml.quote_notMem_escape a.2.toList)
        (Xml.attributesText attributes ++ t)).2 (h.values a List.mem_cons_self)
      rw [List.nil_append] at hfound
      rw [hsearch.2 hid, hvalue, hfound]
      exact ⟨_, _, rfl⟩

theorem escape_of_isDigit {s : List Char} (h : ∀ c ∈ s, c.isDigit = true) : escape s = s := by
  have hplain : ∀ c, c.isDigit = true → escapeChar c = [c] := by
    intro c hc
    have hnone : entityName? c = none := by
      unfold entityName?
      repeat' split
      all_goals first | rfl | (subst_vars; revert hc; decide)
    rw [escapeChar, hnone]
  rw [escape, List.flatMap_congr fun c hc => hplain c (h c hc)]
  exact List.flatMap_singleton' s

/-- The id of a tag with plain attributes is found. -/
theorem ArePlain.drawingId?_eq {attributes : List (String × String)} (h : ArePlain attributes)
    {v : String} (hv : ("id", v) ∈ attributes) (t : List Char) :
    drawingId? (drawingOpening ++ Xml.attributesText attributes ++ t) = word? v.toList := by
  have hdigits := h.id v hv
  obtain ⟨before, after, hfound⟩ := h.breakAt?_id hv (x := drawingOpening) (by decide) t
  have hquote : " id=\"".toList = idSign ++ ['"'] := rfl
  rw [drawingId?, hquote, hfound]
  dsimp only
  rw [escape_of_isDigit hdigits, List.takeWhile_append_of_pos hdigits,
    List.takeWhile_cons_of_neg (by decide), List.append_nil]

/-- The id of a tag with plain attributes is read from one of them. -/
theorem ArePlain.exists_of_usedId? {attributes : List (String × String)} (h : ArePlain attributes)
    {t : List Char} (ht : t = [] ∨ t = ['/']) {rest : List Char} {k : Nat}
    (hk : usedId? (Xml.attributesText attributes ++ (t ++ '>' :: rest)) = some k) :
    ∃ v, ("id", v) ∈ attributes ∧ numeral? 10 v.toList = some k := by
  have hend : Xml.Endless (glyphsOf (Xml.attributesText attributes ++ t)) := by
    rw [Text.glyphsOf_append]
    refine (Xml.endless_attributesText h.names).append (Xml.endless_of_forall ?_)
    rcases ht with rfl | rfl <;> simp [glyphsOf]
  have htext : glyphsOf (Xml.attributesText attributes ++ (t ++ '>' :: rest))
      = glyphsOf (Xml.attributesText attributes ++ t) ++ .char '>' :: glyphsOf rest := by
    simp [glyphsOf]
  have hslash : (if (glyphsOf (Xml.attributesText attributes ++ t)).getLast? = some (.char '/')
      then (glyphsOf (Xml.attributesText attributes ++ t)).dropLast
      else glyphsOf (Xml.attributesText attributes ++ t))
        = glyphsOf (Xml.attributesText attributes) := by
    rcases ht with rfl | rfl
    · rw [List.append_nil, if_neg]
      rcases Xml.attributesText_ends attributes with hnil | ⟨s, hs⟩
      · simp [hnil, glyphsOf]
      · simp [hs, glyphsOf]
    · have hconcat : glyphsOf (Xml.attributesText attributes ++ ['/'])
          = glyphsOf (Xml.attributesText attributes) ++ [.char '/'] := Text.glyphsOf_append _ _
      rw [hconcat, List.getLast?_concat, if_pos rfl, List.dropLast_concat]
  rw [usedId?, htext, hend.tagEnd?_eq] at hk
  dsimp only at hk
  rw [hslash] at hk
  split at hk
  · rw [Xml.attributeItems_eq h.names h.distinct (by simp)] at hk
    obtain ⟨item, hitem, hvalue⟩ := List.exists_of_findSome?_eq_some hk
    obtain ⟨⟨name, v⟩, ha, rfl⟩ := List.mem_map.1 hitem
    dsimp only at hvalue
    split at hvalue
    · next hname =>
      obtain rfl : name = "id" := String.toList_injective (Text.glyphsOf_inj.1 hname)
      rw [Xml.text?_of_escape, Option.bind_some] at hvalue
      exact ⟨v, ha, hvalue⟩
    · cases hvalue
  · cases hk

/-! ### Plain drawings -/

/-- Wherever the tag of a drawing starts in a text, its attributes are plain. -/
def HasPlainDrawings (s : List Char) : Prop :=
  ∀ before rest, s = before ++ (drawingOpening ++ rest) →
    ∃ attributes t after, rest = Xml.attributesText attributes ++ (t ++ '>' :: after) ∧
      (t = [] ∨ t = ['/']) ∧ ArePlain attributes

/-- A text may start with the tag of a drawing, and hold no other. -/
theorem hasPlainDrawings_of_tag {attributes : List (String × String)} (h : ArePlain attributes)
    {t after : List Char} (ht : t = [] ∨ t = ['/']) (hafter : '<' ∉ after) :
    HasPlainDrawings
      (drawingOpening ++ (Xml.attributesText attributes ++ (t ++ '>' :: after))) := by
  have hrest :
      '<' ∉ "wp:docPr".toList ++ (Xml.attributesText attributes ++ (t ++ '>' :: after)) := by
    simp only [List.mem_append, List.mem_cons, not_or]
    exact ⟨by decide, fun hm => (h.angleFree _ hm).1 rfl, by rcases ht with rfl | rfl <;> decide,
      by decide, hafter⟩
  intro before rest hs
  -- the tag starts at the only opening angle bracket
  cases before with
  | nil => exact ⟨attributes, t, after, (List.append_cancel_left hs).symm, ht, h⟩
  | cons c before =>
    have htail : "wp:docPr".toList ++ (Xml.attributesText attributes ++ (t ++ '>' :: after))
        = before ++ (drawingOpening ++ rest) := congrArg List.tail hs
    have hmem : '<' ∈ before ++ (drawingOpening ++ rest) :=
      List.mem_append_right _ (List.mem_append_left _ (by decide))
    rw [← htail] at hmem
    exact absurd hmem hrest

/-- Ids that are written plainly are found, if they are words. -/
theorem mem_drawingIds {s : List Char} (h : HasPlainDrawings s) {k : Nat} (hk : k ∈ usedIds s)
    (hword : k ≤ maxWord) : k ∈ drawingIds s := by
  obtain ⟨before, rest, rfl, hused⟩ := exists_of_mem_usedIds hk
  obtain ⟨attributes, t, after, rfl, ht, hplain⟩ := h before rest rfl
  obtain ⟨v, hv, hnumeral⟩ := hplain.exists_of_usedId? ht hused
  have htag : '>' ∉ Xml.attributesText attributes ++ t := by
    rw [List.mem_append, not_or]
    refine ⟨fun hm => (hplain.angleFree _ hm).2 rfl, ?_⟩
    rcases ht with rfl | rfl <;> decide
  have hid := hplain.drawingId?_eq hv t
  rw [word?, hnumeral, Option.filter_some, if_pos (by simpa using hword), List.append_assoc] at hid
  have hmem := mem_drawingIds_of_tag htag hid before after
  rwa [List.append_assoc] at hmem

/-- **Ids of new drawings.** They count on from the largest that is found, up to the largest word;
they are distinct until the count arrives there. -/
theorem DrawingIds.distinct_take (s : List Char) (n : Nat) :
    (((above s).take n).1 = (List.range n).map fun i => min (maxDrawingId s + 1 + i) maxWord) ∧
      (((above s).take n).1.Nodup ↔ n ≤ 1 ∨ maxDrawingId s + n ≤ maxWord) ∧
      ((∀ k ∈ usedIds s, k ∉ ((above s).take n).1) ↔ ∀ k ∈ usedIds s,
        n = 0 ∨ k < min (maxDrawingId s + 1) maxWord ∨ min (maxDrawingId s + n) maxWord < k) ∧
      (HasPlainDrawings s → maxDrawingId s + n ≤ maxWord →
        ((above s).take n).1.Nodup ∧ ∀ k ∈ usedIds s, k ∉ ((above s).take n).1) := by
  refine ⟨fst_take_above s n, nodup_take_above_iff, ?_, fun hplain hfits => ?_⟩
  · refine forall₂_congr fun k _ => ?_
    rw [mem_take_above]
    omega
  · refine ⟨nodup_take_above_iff.2 (Or.inr hfits), fun k hk hmem => ?_⟩
    obtain ⟨hn, hlow, hhigh⟩ := mem_take_above.1 hmem
    have hfound := mem_drawingIds hplain hk (by omega)
    have hle := (le_foldl_max (drawingIds s) 0).2 k hfound
    have hmax : k ≤ maxDrawingId s := hle
    omega

theorem DrawingIds.distinct_take_picture :
    let s := "<wp:docPr id=\"3\" name=\"a\"/>".toList
    (HasPlainDrawings s ∧ maxDrawingId s + 2 ≤ maxWord) ∧
      ((above s).take 2).1.Nodup ∧ ∀ k ∈ usedIds s, k ∉ ((above s).take 2).1 := by
  intro s
  have hattributes : ArePlain [("id", "3"), ("name", "a")] :=
    ⟨by decide, by decide, by simp, by decide⟩
  have hplain : HasPlainDrawings s :=
    hasPlainDrawings_of_tag hattributes (Or.inr rfl) (List.not_mem_nil (a := '<'))
  have hfits : maxDrawingId s + 2 ≤ maxWord := by decide +kernel
  exact ⟨⟨hplain, hfits⟩, (distinct_take s 2).2.2.2 hplain hfits⟩

/-- An id in single quotation marks is handed out again, and so is the largest word. -/
theorem DrawingIds.taken_unseen :
    (usedIds "<wp:docPr id='1'/>".toList = [1] ∧
        ((above "<wp:docPr id='1'/>".toList).take 1).1 = [1]) ∧
      usedIds "<wp:docPr id=\"4294967295\"/>".toList = [4294967295] ∧
        ((above "<wp:docPr id=\"4294967295\"/>".toList).take 2).1 = [4294967295, 4294967295] := by
  decide +kernel

end MailMerge.Markup
