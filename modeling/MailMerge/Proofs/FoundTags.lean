import MailMerge.Memory.Scanner
import MailMerge.Proofs.Finding
import MailMerge.Proofs.Sweeps
import MailMerge.Proofs.Table

/-!
# Tags found in memory

A scan finds the tags of a text from a place on (`nextTag_eq`): what a sweep finds are spans, and
the text between the braces of a span can be cut out and read. From a place between two characters
on, these are the tags among the tokens of the text behind it, and the scan goes on behind the first
of them (`nextTag_plain`, `nextTag_tag`). So each search for a tag does what the recursion over the
tokens says, with the places of what it finds.
-/

namespace MailMerge

open Text

/-! ### Texts by their first tag -/

/-- A text is plain, or has a first tag. -/
theorem plain_or_tag (window : Nat) (s : List Char) :
    tokens window s = s.map .char ∨ ∃ u t r, s = u ++ (t.text ++ r) ∧ t.Fits window ∧
      tokens window s = u.map .char ++ .tag t :: tokens window r := by
  induction s using placewise window with
  | nil => exact .inl (tokens_nil window)
  | tag t r hfits _ => exact .inr ⟨[], t, r, rfl, hfits, tokens_text_append hfits r⟩
  | char c s hnone ih =>
    rcases ih with hplain | ⟨u, t, r, rfl, hfits, htokens⟩
    · exact .inl (by rw [tokens_cons hnone, hplain]; rfl)
    · exact .inr ⟨c :: u, t, r, rfl, hfits, by rw [tokens_cons hnone, htokens]; rfl⟩

theorem length_lt_of_tag (u : List Char) (t : Tag) (r : List Char) :
    r.length < (u ++ (t.text ++ r)).length := by
  simp only [Tag.text, List.length_append, List.length_cons]
  omega

/-- Induction from tag to tag. -/
theorem tagwise (window : Nat) {motive : List Char → Prop}
    (plain : ∀ s, tokens window s = s.map .char → motive s)
    (tag : ∀ (u : List Char) (t : Tag) (r : List Char),
      tokens window (u ++ (t.text ++ r)) = u.map .char ++ .tag t :: tokens window r →
        motive r → motive (u ++ (t.text ++ r)))
    (s : List Char) : motive s := by
  induction hn : s.length using Nat.strong_induction_on generalizing s with
  | h n ih =>
    subst hn
    rcases plain_or_tag window s with hplain | ⟨u, t, r, rfl, -, htokens⟩
    · exact plain s hplain
    · exact tag u t r htokens (ih r.length (length_lt_of_tag u t r) r rfl)

theorem closedBy?_map_char (name : String) (s : List Char) :
    closedBy? name (s.map .char) = none := by
  induction s with
  | nil => rfl
  | cons c s ih =>
    rw [List.map_cons, closedBy?_cons_of_ne (nofun : Token.char c ≠ .tag (.close name)), ih]
    rfl

theorem dropTo_append (start : Nat) (front rest : List Char) :
    dropTo (start + byteSize front) start (front ++ rest) = (start + byteSize front, rest) := by
  induction front generalizing start with
  | nil => cases rest <;> simp [dropTo]
  | cons c front ih =>
    have hpos := c.utf8Size_pos
    rw [List.cons_append, dropTo, byteSize_cons, if_neg (by omega), ← Nat.add_assoc, ih]

/-- Behind a place between two characters, the tags are those of the text behind it. -/
theorem tagsFrom_append (window : Nat) (front rest : List Char) :
    tagsFrom window (byteSize front) (front ++ rest)
      = locateTags (byteSize front) (tokens window rest) := by
  have hdrop := dropTo_append 0 front rest
  rw [Nat.zero_add] at hdrop
  rw [tagsFrom, spansFrom, hdrop]
  exact filterMap_tag?_locate _ _

namespace Memory

/-! ### Tags as they are read -/

/-- What stands between the braces is read as it is. -/
theorem readTag_eq (inner : List Char) : readTag inner = .ok (Tag.ofInner? inner) := by
  cases inner with
  | nil => rfl
  | cons c s =>
    obtain ⟨b, hb, hbyte⟩ := exists_byteAt (isCut [] (c :: s))
    have hhead : (encode (c :: s)).head? = some b := by
      rw [List.head?_eq_getElem?]
      exact hb
    have hsize {d : Char} (hd : d.utf8Size = 1) : sliceFrom 1 (d :: s) = .ok s :=
      sliceFrom_append (a := [d]) (by rw [byteSize_cons, hd, byteSize_nil]) s
    rw [readTag, hhead, Tag.ofInner?]
    simp only [hbyte '#' rfl, hbyte '?' rfl, hbyte '/' rfl, hbyte ':' rfl]
    split
    · next hc =>
      rw [hc, hsize rfl]
      rfl
    split
    · next hc =>
      rw [hc, hsize rfl]
      rfl
    split
    · next hc =>
      rw [hc, hsize rfl]
      rfl
    split
    · next hc =>
      subst hc
      exact congrArg Except.ok (if_congr (List.cons_eq_cons.trans (and_iff_right rfl)) rfl rfl)
    · cases after? Tag.tableWord (c :: s) <;> rfl

/-- The text between the braces of a span is cut out. -/
theorem slice_of_isSpanIn {window : Nat} {s : List Char} {span : Found (List Char)}
    (h : span.IsSpanIn window s) :
    sub span.stop 1 = .ok (span.stop - 1) ∧
      slice (span.start + 1) (span.stop - 1) s = .ok span.value := by
  obtain ⟨start, stop, body⟩ := span
  obtain ⟨before, after, rfl, hstart, hstop, -, -, -⟩ := h
  dsimp only at hstart hstop ⊢
  subst hstop hstart
  refine ⟨sub_of_le (by omega), ?_⟩
  have hs : before ++ '{' :: (body ++ '}' :: after)
      = (before ++ ['{']) ++ (body ++ '}' :: after) := by simp
  rw [hs]
  refine slice_append ?_ (by omega) _
  rw [byteSize_append]
  rfl

/-- A tag behind a text, by its places. -/
def foundBehind (front : List Char) (t : Tag) : Found Tag :=
  ⟨byteSize front, byteSize (front ++ t.text), t⟩

@[simp]
theorem foundBehind_value (front : List Char) (t : Tag) : (foundBehind front t).value = t := rfl

/-- The tag that parts a conditional stands behind the tokens of its first branch. -/
def partingBehind (front : List Char) (opened : List String) (body : List Token) :
    Option (Found Tag) :=
  (branches opened body).2.map fun _ =>
    foundBehind (front ++ (branches opened body).1.flatMap Token.text) .otherwise

theorem partingBehind_map_char_append (front u : List Char) (opened : List String)
    (body : List Token) :
    partingBehind front opened (u.map .char ++ body) = partingBehind (front ++ u) opened body := by
  rw [partingBehind, branches_map_char_append, flatMap_text_map_char_append, ← List.append_assoc]
  rfl

theorem partingBehind_cons (front : List Char) (opened : List String) (t : Token)
    (body : List Token) :
    partingBehind front opened (t :: body)
      = if opened = [] ∧ t = .tag .otherwise then some (foundBehind front .otherwise)
        else partingBehind (front ++ t.text) (nest opened t) body := by
  rw [partingBehind, branches]
  split
  · simp
  · simp [partingBehind]

/-- What parts a conditional is found once. -/
theorem or_partingBehind (parting : Option (Found Tag)) (front u : List Char)
    (opened : List String) (t : Tag) (body : List Token) :
    parting.or (partingBehind front opened (u.map .char ++ .tag t :: body))
      = if t = .otherwise ∧ opened = [] ∧ parting = none then some (foundBehind (front ++ u) t)
        else parting.or (partingBehind (front ++ u ++ t.text) (nest opened (.tag t)) body) := by
  cases parting with
  | some p =>
    rw [if_neg fun h => nomatch h.2.2]
    rfl
  | none =>
    rw [partingBehind_map_char_append, partingBehind_cons, Option.none_or, Option.none_or]
    by_cases h : t = .otherwise ∧ opened = []
    · obtain ⟨rfl, rfl⟩ := h
      rw [if_pos ⟨rfl, rfl⟩, if_pos ⟨rfl, rfl, rfl⟩]
    · rw [if_neg fun h' => h ⟨Token.tag.inj h'.2, h'.1⟩, if_neg fun h' => h ⟨h'.1, h'.2.1⟩]
      rfl

/-! ### Searches by what the scan finds -/

section Found

variable {name : String} {s : List Char} {opened : List String} {parting : Option (Found Tag)}
  {sweep after : Sweep} {tag : Found Tag}

theorem findClose_of_none (h : nextTag s sweep = .ok (none, after)) :
    findClose name s sweep = .ok none := by
  rw [findClose]
  split <;> rename_i h' <;> rw [h] at h' <;> cases h'

theorem findClose_of_some (h : nextTag s sweep = .ok (some tag, after)) :
    findClose name s sweep
      = if tag.value = .close name then .ok (some tag) else findClose name s after := by
  rw [findClose]
  split <;> rename_i h' <;> rw [h] at h' <;> cases h'
  rfl

theorem findBranches_of_none (h : nextTag s sweep = .ok (none, after)) :
    findBranches name s opened parting sweep = .ok none := by
  rw [findBranches]
  split <;> rename_i h' <;> rw [h] at h' <;> cases h'

theorem findBranches_of_some (h : nextTag s sweep = .ok (some tag, after)) :
    findBranches name s opened parting sweep
      = if tag.value = .close name then .ok (some (parting, tag))
        else if tag.value = .otherwise ∧ opened = [] ∧ parting = none then
          findBranches name s opened (some tag) after
        else findBranches name s (nest opened (.tag tag.value)) parting after := by
  rw [findBranches]
  split <;> rename_i h' <;> rw [h] at h' <;> cases h'
  rfl

theorem findMark_of_none (h : nextTag s sweep = .ok (none, after)) :
    findMark s sweep = .ok none := by
  rw [findMark]
  split <;> rename_i h' <;> rw [h] at h' <;> cases h'

theorem findMark_of_table (h : nextTag s sweep = .ok (some tag, after))
    (htag : tag.value = .table name) :
    findMark s sweep = .ok (some ⟨tag.start, tag.stop, name⟩) := by
  rw [findMark]
  split <;> rename_i h' <;> rw [h] at h' <;> cases h'
  dsimp only
  rw [htag]

theorem findMark_of_some (h : nextTag s sweep = .ok (some tag, after))
    (htag : (Token.tag tag.value).isMark = false) : findMark s sweep = findMark s after := by
  rw [findMark]
  split <;> rename_i h' <;> rw [h] at h' <;> cases h'
  dsimp only
  split
  · next hvalue =>
    rw [hvalue] at htag
    cases htag
  · rfl

end Found

section Scans

variable {bound : UInt64} (hbound : bound.toNat < 2 ^ 63) {s : List Char}
  (hsize : byteSize s < 2 ^ 63)

include hbound hsize

/-- A scan finds the first tag that starts at a place or behind. -/
theorem nextTag_eq (place : Nat) :
    ∃ after, nextTag s (Sweep.ofText s bound place)
      = .ok ((tagsFrom (windowSize bound) place s).head?, after) := by
  induction hspans : spansFrom (windowSize bound) place s generalizing place with
  | nil =>
    have hrange := Sweep.inRange_of_lt hbound hsize place
    obtain ⟨place', -, hnext, -⟩ := Sweep.next_of_finds
      (by rw [Sweep.length_bytes_ofText]; omega) hrange hrange.finds_places
    rw [hspans] at hnext
    rw [nextTag, tagsFrom, hspans]
    split <;> rename_i h <;> rw [hnext] at h <;> cases h
    exact ⟨_, rfl⟩
  | cons span spans ih =>
    have hrange := Sweep.inRange_of_lt hbound hsize place
    obtain ⟨place', -, hnext, -⟩ := Sweep.next_of_finds
      (by rw [Sweep.length_bytes_ofText]; omega) hrange hrange.finds_places
    obtain ⟨hspan, -⟩ := mem_spansFrom_iff.1 (hspans ▸ List.mem_cons_self)
    obtain ⟨hsub, hslice⟩ := slice_of_isSpanIn hspan
    have hcons : spansFrom (windowSize bound) place s = [] ++ span :: spans := hspans
    have hlater : spansFrom (windowSize bound) span.stop s = spans := spansFrom_stop hcons
    rw [hspans] at hnext
    rw [nextTag, tagsFrom, hspans, List.filterMap_cons]
    split <;> rename_i h <;> rw [hnext] at h <;> cases h
    obtain ⟨-, -, -, hseek⟩ := Sweep.of_next hnext
    rw [hsub, ok_bind, hslice, ok_bind, readTag_eq, ok_bind, Found.tag?, hseek]
    cases Tag.ofInner? span.value with
    | some t => exact ⟨_, rfl⟩
    | none =>
      obtain ⟨after, hafter⟩ := ih span.stop hlater
      rw [tagsFrom, hlater] at hafter
      exact ⟨after, hafter⟩

/-- Nothing is found in a plain text. -/
theorem nextTag_plain {front rest : List Char} (hs : s = front ++ rest)
    (hplain : tokens (windowSize bound) rest = rest.map .char) :
    ∃ after, nextTag s (Sweep.ofText s bound (byteSize front)) = .ok (none, after) := by
  obtain ⟨after, hnext⟩ := nextTag_eq hbound hsize (byteSize front)
  have hnone := locateTags_map_char_append (byteSize front) rest []
  rw [List.append_nil] at hnone
  rw [hs, tagsFrom_append, hplain, hnone, ← hs] at hnext
  exact ⟨after, hnext⟩

/-- The first tag is found, and the scan goes on behind it. -/
theorem nextTag_tag {front u : List Char} {t : Tag} {r : List Char}
    (hs : s = front ++ (u ++ (t.text ++ r)))
    (htokens : tokens (windowSize bound) (u ++ (t.text ++ r))
      = u.map .char ++ .tag t :: tokens (windowSize bound) r) :
    nextTag s (Sweep.ofText s bound (byteSize front))
      = .ok (some (foundBehind (front ++ u) t),
        Sweep.ofText s bound (byteSize (front ++ u ++ t.text))) := by
  obtain ⟨after, hnext⟩ := nextTag_eq hbound hsize (byteSize front)
  rw [hs, tagsFrom_append, htokens, locateTags_map_char_append, locateTags, List.head?_cons,
    ← byteSize_append, ← byteSize_append, ← hs] at hnext
  obtain ⟨-, -, -, rfl⟩ := of_nextTag hnext
  exact hnext

/-! ### Searches by tokens -/

/-- The nearest closing tag of a name stands behind the tokens it closes. -/
theorem findClose_eq (name : String) {front rest : List Char} (hs : s = front ++ rest) :
    findClose name s (Sweep.ofText s bound (byteSize front))
      = .ok ((closedBy? name (tokens (windowSize bound) rest)).map fun (body, _) =>
          foundBehind (front ++ body.flatMap Token.text) (.close name)) := by
  induction rest using tagwise (windowSize bound) generalizing front with
  | plain rest hplain =>
    obtain ⟨after, hnext⟩ := nextTag_plain hbound hsize hs hplain
    rw [findClose_of_none hnext, hplain, closedBy?_map_char]
    rfl
  | tag u t r htokens ih =>
    have hs' : s = front ++ u ++ t.text ++ r := by simp [hs]
    rw [findClose_of_some (nextTag_tag hbound hsize hs htokens), foundBehind_value, htokens,
      closedBy?_append (by simp)]
    by_cases hclose : t = .close name
    · rw [if_pos hclose, closedBy?, if_pos (congrArg Token.tag hclose), hclose]
      simp [flatMap_text_map_tokenChar]
    · rw [if_neg hclose, closedBy?_cons_of_ne fun h => hclose (Token.tag.inj h),
        ih hs', Option.map_map, Option.map_map]
      refine congrArg (fun f => Except.ok (Option.map f _)) (funext fun found => ?_)
      simp [flatMap_text_map_tokenChar, Token.text]

/-- The branches of a conditional are told apart as by its tokens. -/
theorem findBranches_eq (name : String) {front rest : List Char} (hs : s = front ++ rest)
    (opened : List String) (parting : Option (Found Tag)) :
    findBranches name s opened parting (Sweep.ofText s bound (byteSize front))
      = .ok ((closedBy? name (tokens (windowSize bound) rest)).map fun (body, _) =>
          (parting.or (partingBehind front opened body),
            foundBehind (front ++ body.flatMap Token.text) (.close name))) := by
  induction rest using tagwise (windowSize bound) generalizing front opened parting with
  | plain rest hplain =>
    obtain ⟨after, hnext⟩ := nextTag_plain hbound hsize hs hplain
    rw [findBranches_of_none hnext, hplain, closedBy?_map_char]
    rfl
  | tag u t r htokens ih =>
    have hs' : s = front ++ u ++ t.text ++ r := by simp [hs]
    rw [findBranches_of_some (nextTag_tag hbound hsize hs htokens), foundBehind_value, htokens,
      closedBy?_append (by simp)]
    by_cases hclose : t = .close name
    · have hparting : partingBehind front opened (u.map .char) = none := by
        have := partingBehind_map_char_append front u opened []
        rwa [List.append_nil] at this
      rw [if_pos hclose, closedBy?, if_pos (congrArg Token.tag hclose), hclose]
      simp [flatMap_text_map_tokenChar, hparting]
    · have hclosing (body : List Token) : front ++ u ++ t.text ++ body.flatMap Token.text
          = front ++ (u.map Token.char ++ Token.tag t :: body).flatMap Token.text := by
        simp [flatMap_text_map_tokenChar, Token.text]
      rw [if_neg hclose, closedBy?_cons_of_ne fun h => hclose (Token.tag.inj h), Option.map_map,
        Option.map_map]
      split
      · next hfirst =>
        rw [ih hs' opened (some _)]
        refine congrArg (fun f => Except.ok (Option.map f _)) (funext fun found => ?_)
        rw [Function.comp_apply, Function.comp_apply]
        dsimp only
        rw [or_partingBehind, if_pos hfirst, hclosing, Option.some_or]
      · next hother =>
        rw [ih hs' _ parting]
        refine congrArg (fun f => Except.ok (Option.map f _)) (funext fun found => ?_)
        rw [Function.comp_apply, Function.comp_apply]
        dsimp only
        rw [or_partingBehind, if_neg hother, hclosing]

/-- The first mark of a row. -/
theorem findMark_eq {front rest : List Char} (hs : s = front ++ rest) :
    findMark s (Sweep.ofText s bound (byteSize front))
      = .ok ((firstMark? (tokens (windowSize bound) rest)).map fun (between, name) =>
          ⟨byteSize (front ++ between), byteSize (front ++ between ++ (Tag.table name).text),
            name⟩) := by
  induction rest using tagwise (windowSize bound) generalizing front with
  | plain rest hplain =>
    obtain ⟨after, hnext⟩ := nextTag_plain hbound hsize hs hplain
    have hnone := firstMark?_map_char_append rest []
    rw [List.append_nil] at hnone
    rw [findMark_of_none hnext, hplain, hnone]
    rfl
  | tag u t r htokens ih =>
    have hs' : s = front ++ u ++ t.text ++ r := by simp [hs]
    have hnext := nextTag_tag hbound hsize hs htokens
    rw [htokens, firstMark?_map_char_append]
    cases ht : (Token.tag t).isMark with
    | true =>
      obtain ⟨name, hname⟩ := Token.exists_of_isMark ht
      obtain rfl := Token.tag.inj hname
      rw [findMark_of_table hnext rfl, firstMark?]
      simp [foundBehind]
    | false =>
      rw [findMark_of_some hnext ht, firstMark?_cons ht,
        ih hs', Option.map_map, Option.map_map]
      refine congrArg (fun f => Except.ok (Option.map f _)) (funext fun found => ?_)
      simp [Token.text, Nat.add_assoc]

end Scans

end Memory

end MailMerge
