import Mathlib.Data.List.Sort
import MailMerge.Proofs.RowAlignment

/-!
# The row around a place

The two searches for the ends of a row go in opposite directions from a place, and each counts the
row tags that it passes on its own. When the row tags of a text match (`RowsMatch`), they find the
two ends of one row, the innermost one around the place, or nothing where there is none
(`rowBounds_innermost`).

A place cuts matching tags in two lists. Either both match, or there is an innermost pair around the
cut, with matching tags between it and the cut (`Matched.cut`). Counting passes over matching tags
in both directions (`Matched.unmatchedOpening?_append`, `Matched.unmatchedClosing?_append`), so it
stops at that pair on both sides.
-/

namespace MailMerge.Markup

/-! ### The row tags of a text -/

/-- A row tag that is written in a text, with the place of its name. -/
inductive RowTagIn (s : List Char) : RowMark → Prop
  | opening {u x r : List Char} (hx : IsOpeningTail x) (hs : s = u ++ (openingTag x ++ r)) :
    RowTagIn s ⟨u.length + 1, .opens u.length⟩
  | closing {u x r : List Char} (hx : IsClosingTail x) (hs : s = u ++ (closingTag x ++ r)) :
    RowTagIn s ⟨u.length + 2, .closes (u.length + (closingTag x).length)⟩

/-- The row tags of a text, from left to right. -/
structure ListsRowTags (s : List Char) (marks : List RowMark) : Prop where
  sorted : marks.Pairwise fun m m' => m.place < m'.place
  mem_iff : ∀ m, m ∈ marks ↔ RowTagIn s m

/-- There is one list of the row tags of a text. -/
theorem ListsRowTags.unique {s : List Char} {marks marks' : List RowMark}
    (h : ListsRowTags s marks) (h' : ListsRowTags s marks') : marks = marks' := by
  have hirrefl : Std.Irrefl fun m m' : RowMark => m.place < m'.place := ⟨fun _ => Nat.lt_irrefl _⟩
  have hantisymm : Std.Antisymm fun m m' : RowMark => m.place < m'.place :=
    ⟨fun _ _ hlt hgt => absurd hgt (Nat.lt_asymm hlt)⟩
  exact h.sorted.eq_of_mem_iff h'.sorted fun m => (h.mem_iff m).trans (h'.mem_iff m).symm

/-- A row tag comes from an opening angle bracket. -/
theorem exists_angleMark?_of_mem {place : Nat} {s : List Char} {m : RowMark}
    (h : m ∈ angleMarks place s) :
    ∃ u v, s = u ++ '<' :: v ∧ angleMark? (place + u.length) v = some m := by
  induction s generalizing place with
  | nil => cases h
  | cons c s ih =>
    rw [angleMarks, List.mem_append] at h
    rcases h with h | h
    · split at h
      · next hc => exact ⟨[], s, by rw [hc]; rfl, Option.mem_toList.1 h⟩
      · cases h
    · obtain ⟨u, v, rfl, hm⟩ := ih h
      refine ⟨c :: u, v, rfl, ?_⟩
      rwa [List.length_cons, Nat.add_comm u.length, ← Nat.add_assoc]

theorem mem_angleMarks_append (u v : List Char) {m : RowMark}
    (h : angleMark? u.length v = some m) : m ∈ angleMarks 0 (u ++ '<' :: v) := by
  obtain ⟨l, hl, -⟩ := exists_angleMarks_append 0 u ('<' :: v)
  rw [hl, angleMarks, if_pos rfl, Nat.zero_add, h]
  simp

theorem length_closingTag (x : List Char) :
    (closingTag x).length = 2 + (rowName ++ x).length + 1 := by
  simp only [closingTag, List.length_cons, List.length_append, List.length_nil]
  omega

theorem openingTag_append (x r : List Char) :
    openingTag x ++ r = '<' :: (rowName ++ (x ++ '>' :: r)) := by
  simp [openingTag]

theorem closingTag_append (x r : List Char) :
    closingTag x ++ r = '<' :: '/' :: (rowName ++ (x ++ '>' :: r)) := by
  simp [closingTag]

theorem mem_rowMarks_iff {s : List Char} {m : RowMark} : m ∈ rowMarks s ↔ RowTagIn s m := by
  rw [rowMarks_eq]
  constructor
  · intro h
    obtain ⟨u, v, rfl, hm⟩ := exists_angleMark?_of_mem h
    rw [Nat.zero_add] at hm
    by_cases hstarts : StartsRowTag v
    · rcases hstarts with ⟨x, r, rfl, hx⟩ | ⟨x, r, rfl, hx⟩
      · rw [angleMark?_opening hx] at hm
        obtain rfl := Option.some.inj hm
        rw [← openingTag_append]
        exact .opening hx rfl
      · rw [angleMark?_closing hx, Nat.add_assoc, Nat.add_assoc, ← Nat.add_assoc 2,
          ← length_closingTag] at hm
        obtain rfl := Option.some.inj hm
        rw [← closingTag_append]
        exact .closing hx rfl
    · rw [angleMark?_eq_none hstarts] at hm
      cases hm
  · rintro (⟨hx, rfl⟩ | ⟨hx, rfl⟩)
    · rw [openingTag_append]
      exact mem_angleMarks_append _ _ (angleMark?_opening hx _ _)
    · rw [closingTag_append, length_closingTag, ← Nat.add_assoc, ← Nat.add_assoc]
      exact mem_angleMarks_append _ _ (angleMark?_closing hx _ _)

/-- The first closing angle bracket of a text comes before any other. -/
theorem length_le_of_notMem {u v w r : List Char} (h : w ++ '>' :: r = u ++ '>' :: v)
    (hw : '>' ∉ w) : w.length ≤ u.length := by
  rcases List.append_eq_append_iff.1 h with ⟨a, rfl, -⟩ | ⟨a, rfl, ha⟩
  · rw [List.length_append]
    exact Nat.le_add_right _ _
  · cases a with
    | nil => rw [List.append_nil]
    | cons c a =>
      obtain ⟨rfl, -⟩ := List.cons.inj ha
      exact absurd (List.mem_append_right u List.mem_cons_self) hw

/-- Of two tags of one kind, the first one does not start or stop behind the second one. -/
def RowTag.Precedes : RowTag → RowTag → Prop
  | .opens a, .opens b => a ≤ b
  | .closes a, .closes b => a ≤ b
  | _, _ => True

/-- Row tags stand from left to right. The next row tag may start in a closing one and end with it,
but not before it. -/
theorem pairwise_angleMarks (place : Nat) (s : List Char) :
    (angleMarks place s).Pairwise fun m m' => m.place < m'.place ∧ m.tag.Precedes m'.tag := by
  induction s generalizing place with
  | nil => exact .nil
  | cons c s ih =>
    rw [angleMarks]
    split
    · by_cases hstarts : StartsRowTag s
      · rcases hstarts with ⟨x, r, rfl, hx⟩ | ⟨x, r, rfl, hx⟩
        · rw [angleMark?_opening hx, Option.toList_some, List.singleton_append, List.pairwise_cons]
          refine ⟨fun m hm => ⟨lt_place_of_mem_angleMarks hm, ?_⟩, ih _⟩
          rcases exists_of_mem_angleMarks hm with ⟨u, v, -, rfl⟩ | ⟨u, v, -, htag⟩
          · simp only [RowTag.Precedes]
            omega
          · rw [htag]
            trivial
        · rw [angleMark?_closing hx, Option.toList_some, List.singleton_append, List.pairwise_cons]
          refine ⟨fun m hm => ⟨?_, ?_⟩, ih _⟩
          · have hname : '/' :: (rowName ++ (x ++ '>' :: r))
                = ['/', 'w'] ++ (":tr".toList ++ (x ++ '>' :: r)) := rfl
            rw [hname, angleMarks_append_of_notMem (by decide)] at hm
            exact Nat.lt_of_succ_lt (lt_place_of_mem_angleMarks hm)
          · rcases exists_of_mem_angleMarks hm with ⟨u, v, -, rfl⟩ | ⟨u, v, hs, htag⟩
            · trivial
            · -- the first closing bracket is the one that ends the first tag
              have hle := length_le_of_notMem (w := '/' :: (rowName ++ x)) (by simpa using hs) ?_
              · rw [htag]
                simp only [RowTag.Precedes, List.length_cons] at hle ⊢
                omega
              · rw [List.mem_cons, List.mem_append, not_or, not_or]
                exact ⟨by decide, by decide, hx.ended⟩
      · rw [angleMark?_eq_none hstarts]
        exact ih _
    · exact ih _

theorem listsRowTags_rowMarks (s : List Char) : ListsRowTags s (rowMarks s) where
  sorted := by
    rw [rowMarks_eq]
    exact (pairwise_angleMarks 0 s).imp And.left
  mem_iff _ := mem_rowMarks_iff

/-! ### Matching tags -/

/-- Tags that match: each opening tag has its closing tag, and what stands between them matches. -/
inductive Matched : List RowTag → Prop
  | nil : Matched []
  | pair {start stop : Nat} {body rest : List RowTag} (hbody : Matched body)
    (hrest : Matched rest) : Matched (.opens start :: (body ++ .closes stop :: rest))

namespace Matched

variable {tags left right : List RowTag}

theorem append (h : Matched left) (h' : Matched right) : Matched (left ++ right) := by
  induction h with
  | nil => exact h'
  | pair hbody _ _ ih =>
    rw [List.cons_append, List.append_assoc, List.cons_append]
    exact .pair hbody ih

/-- Counting backwards passes over tags that match. -/
theorem unmatchedOpening?_append (h : Matched tags) (depth : Nat) (before : List RowTag) :
    unmatchedOpening? depth (tags.reverse ++ before) = unmatchedOpening? depth before := by
  induction h generalizing depth before with
  | nil => rfl
  | pair _ _ ihbody ihrest =>
    simp only [List.reverse_cons, List.reverse_append, List.append_assoc, List.cons_append,
      List.nil_append]
    rw [ihrest, unmatchedOpening?, ihbody, unmatchedOpening?]

/-- Counting forwards passes over tags that match. -/
theorem unmatchedClosing?_append (h : Matched tags) (depth : Nat) (after : List RowTag) :
    unmatchedClosing? depth (tags ++ after) = unmatchedClosing? depth after := by
  induction h generalizing depth after with
  | nil => rfl
  | pair _ _ ihbody ihrest =>
    simp only [List.cons_append, List.append_assoc]
    rw [unmatchedClosing?, ihbody, unmatchedClosing?, ihrest]

/-- Where tags that match are cut in two, both parts match, or there is an innermost pair around the
cut. -/
theorem cut (h : Matched (left ++ right)) :
    (Matched left ∧ Matched right) ∨
      ∃ front start body body' stop back, left = front ++ .opens start :: body ∧
        right = body' ++ .closes stop :: back ∧ Matched body ∧ Matched body' := by
  generalize htags : left ++ right = tags at h
  induction h generalizing left right with
  | nil =>
    obtain ⟨rfl, rfl⟩ := List.append_eq_nil_iff.1 htags
    exact .inl ⟨.nil, .nil⟩
  | @pair start stop body rest hbody hrest ihbody ihrest =>
    cases left with
    | nil =>
      rw [List.nil_append] at htags
      subst htags
      exact .inl ⟨.nil, .pair hbody hrest⟩
    | cons t left =>
      rw [List.cons_append, List.cons.injEq] at htags
      obtain ⟨rfl, htags⟩ := htags
      rcases List.append_eq_append_iff.1 htags with ⟨body', rfl, rfl⟩ | ⟨inner, rfl, hinner⟩
      · -- the cut lies in the body
        right
        rcases ihbody rfl with ⟨hl, hr⟩ | ⟨front, start', m, m', stop', back, rfl, rfl, hm, hm'⟩
        · exact ⟨[], start, left, body', stop, rest, rfl, rfl, hl, hr⟩
        · exact ⟨.opens start :: front, start', m, m', stop', back ++ .closes stop :: rest, rfl,
            by simp, hm, hm'⟩
      · cases inner with
        | nil =>
          rw [List.nil_append] at hinner
          subst hinner
          exact .inr ⟨[], start, body, [], stop, rest, by simp, rfl, hbody, .nil⟩
        | cons c inner =>
          rw [List.cons_append, List.cons.injEq] at hinner
          obtain ⟨rfl, hinner⟩ := hinner
          rcases ihrest hinner.symm with
            ⟨hl, hr⟩ | ⟨front, start', m, m', stop', back, rfl, rfl, hm, hm'⟩
          · exact .inl ⟨.pair hbody hl, hr⟩
          · exact .inr ⟨.opens start :: (body ++ .closes stop :: front), start', m, m', stop', back,
              by simp, rfl, hm, hm'⟩

/-- Counting from a cut stops at the pair that has matching tags between it and the cut. -/
theorem counts_to_pair {body body' : List RowTag} (h : Matched body) (h' : Matched body')
    (front back : List RowTag) (start stop : Nat) :
    unmatchedOpening? 0 (front ++ .opens start :: body).reverse = some start ∧
      unmatchedClosing? 0 (body' ++ .closes stop :: back) = some stop := by
  constructor
  · rw [List.reverse_append, List.reverse_cons, List.append_assoc, h.unmatchedOpening?_append]
    rfl
  · rw [h'.unmatchedClosing?_append]
    rfl

/-- Counting from a cut finds nothing when the tags on both sides match. -/
theorem counts_to_end (h : Matched left) (h' : Matched right) :
    unmatchedOpening? 0 left.reverse = none ∧ unmatchedClosing? 0 right = none := by
  constructor
  · rw [← List.append_nil left.reverse, h.unmatchedOpening?_append]
    rfl
  · rw [← List.append_nil right, h'.unmatchedClosing?_append]
    rfl

/-- Counting from a cut inside of a pair stops at the pair, or at one between it and the cut. -/
theorem exists_inner (h : Matched (left ++ right)) (front back : List RowTag) (start stop : Nat) :
    ∃ start' stop', unmatchedOpening? 0 (front ++ .opens start :: left).reverse = some start' ∧
      unmatchedClosing? 0 (right ++ .closes stop :: back) = some stop' ∧
      (start' = start ∨ .opens start' ∈ left) ∧ (stop' = stop ∨ .closes stop' ∈ right) := by
  rcases h.cut with ⟨hl, hr⟩ | ⟨front', start', m, m', stop', back', rfl, rfl, hm, hm'⟩
  · obtain ⟨hopening, hclosing⟩ := counts_to_pair hl hr front back start stop
    exact ⟨start, stop, hopening, hclosing, .inl rfl, .inl rfl⟩
  · obtain ⟨hopening, hclosing⟩ := counts_to_pair hm hm' (front ++ .opens start :: front')
      (back' ++ .closes stop :: back) start' stop'
    refine ⟨start', stop', ?_, ?_, .inr (by simp), .inr (by simp)⟩
    · rwa [List.append_assoc] at hopening
    · rwa [List.append_assoc]

end Matched

/-! ### Rows around a place -/

/-- The row tags of a text match. -/
def RowsMatch (s : List Char) : Prop :=
  ∃ marks, ListsRowTags s marks ∧ Matched (marks.map RowMark.tag)

/-- A row of a text: where its opening tag starts, and where the closing tag that belongs to it
stops. -/
def IsRow (s : List Char) (start stop : Nat) : Prop :=
  ∃ marks front body back, ListsRowTags s marks ∧ Matched body ∧
    marks.map RowMark.tag = front ++ .opens start :: (body ++ .closes stop :: back)

/-- A text ends in character data: each opening angle bracket has a closing one behind it. -/
def EndsInData (s : List Char) : Prop :=
  ∀ u v, s = u ++ '<' :: v → '>' ∈ v

theorem endsInData_cons {c : Char} {s : List Char} :
    EndsInData (c :: s) ↔ (c = '<' → '>' ∈ s) ∧ EndsInData s := by
  constructor
  · intro h
    exact ⟨fun hc => h [] s (by rw [hc]; rfl), fun u v hs => h (c :: u) v (by rw [hs]; rfl)⟩
  · rintro ⟨hc, hs⟩ u v h
    cases u with
    | nil =>
      obtain ⟨rfl, rfl⟩ := List.cons.inj h
      exact hc rfl
    | cons d u =>
      obtain ⟨rfl, rfl⟩ := List.cons.inj h
      exact hs u v rfl

theorem inMarkup_eq_false_iff {inside : Bool} {s : List Char} :
    inMarkup inside s = false ↔ EndsInData s ∧ (inside = true → '>' ∈ s) := by
  induction s generalizing inside with
  | nil => simp [inMarkup, EndsInData]
  | cons c s ih =>
    rw [inMarkup, ih, endsInData_cons]
    cases inside with
    | false => simp [and_comm]
    | true =>
      by_cases hc : c = '>'
      · simp [hc]
      · simp [hc, Ne.symm hc]
        tauto

theorem EndsInData.inMarkup_eq {s : List Char} (h : EndsInData s) : inMarkup false s = false :=
  inMarkup_eq_false_iff.2 ⟨h, by simp⟩

section Bounds

variable {s : List Char} {left right : List RowTag} {place start stop : Nat}

theorem opens_mem_angleMarks (h : .opens start ∈ (angleMarks place s).map RowMark.tag) :
    place ≤ start ∧ start < place + s.length := by
  obtain ⟨m, hm, htag⟩ := List.mem_map.1 h
  rcases exists_of_mem_angleMarks hm with ⟨u, v, rfl, rfl⟩ | ⟨u, v, -, hclose⟩
  · obtain rfl := RowTag.opens.inj htag
    simp only [List.length_append, List.length_cons]
    omega
  · rw [hclose] at htag
    cases htag

theorem closes_mem_angleMarks (h : .closes stop ∈ (angleMarks place s).map RowMark.tag) :
    place < stop ∧ stop ≤ place + s.length := by
  obtain ⟨m, hm, htag⟩ := List.mem_map.1 h
  rcases exists_of_mem_angleMarks hm with ⟨u, v, rfl, rfl⟩ | ⟨u, v, rfl, hclose⟩
  · cases htag
  · rw [hclose] at htag
    obtain rfl := RowTag.closes.inj htag
    simp only [List.length_append, List.length_cons]
    omega

/-- The pair of a row around a place stands on both sides of it. -/
theorem exists_append_of_row {front body back : List RowTag}
    (htags : left ++ right = front ++ .opens start :: (body ++ .closes stop :: back))
    (hstart : .opens start ∉ right) (hstop : .closes stop ∉ left) :
    ∃ body₁ body₂, body = body₁ ++ body₂ ∧ left = front ++ .opens start :: body₁ ∧
      right = body₂ ++ .closes stop :: back := by
  rcases List.append_eq_append_iff.1 htags with ⟨inner, -, rfl⟩ | ⟨inner, rfl, hinner⟩
  · exact absurd (by simp) hstart
  · cases inner with
    | nil =>
      rw [List.nil_append] at hinner
      exact absurd (by simp [← hinner]) hstart
    | cons t inner =>
      rw [List.cons_append, List.cons.injEq] at hinner
      obtain ⟨rfl, hinner⟩ := hinner
      rcases List.append_eq_append_iff.1 hinner with ⟨rest, hrest, hright⟩ | ⟨body₂, rfl, rfl⟩
      · cases rest with
        | nil => exact ⟨body, [], by simp, by simp [hrest], by simpa using hright.symm⟩
        | cons t rest =>
          rw [List.cons_append, List.cons.injEq] at hright
          exact absurd (by simp [hrest, hright.1]) hstop
      · exact ⟨inner, body₂, rfl, rfl, rfl⟩

end Bounds

/-! ### The two searches -/

section Searches

variable {before after : List Char} {start stop : Nat}

/-- The row tags in front of a place. -/
def tagsBefore (before : List Char) : List RowTag :=
  (angleMarks 0 before).map RowMark.tag

/-- The row tags behind a place. -/
def tagsBehind (before after : List Char) : List RowTag :=
  (angleMarks before.length after).map RowMark.tag

theorem map_tag_rowMarks (hdata : EndsInData before) :
    (rowMarks (before ++ after)).map RowMark.tag
      = tagsBefore before ++ tagsBehind before after := by
  rw [rowMarks_eq, (angleMarks_append_of_inMarkup hdata.inMarkup_eq 0 after).1, List.map_append,
    Nat.zero_add]
  rfl

theorem rowStart_eq_of_endsInData (hdata : EndsInData before) :
    rowStart before after = unmatchedOpening? 0 (tagsBefore before).reverse := by
  rw [rowStart_eq_unmatchedOpening? hdata.inMarkup_eq, List.map_reverse]
  rfl

theorem rowStop_eq_of_endsInData (hdata : EndsInData before) :
    rowStop before after = unmatchedClosing? 0 (tagsBehind before after) :=
  rowStop_eq_unmatchedClosing? hdata.inMarkup_eq after

theorem pairwise_tags (hdata : EndsInData before) :
    (tagsBefore before ++ tagsBehind before after).Pairwise RowTag.Precedes := by
  rw [← map_tag_rowMarks hdata, List.pairwise_map, rowMarks_eq]
  exact (pairwise_angleMarks 0 (before ++ after)).imp And.right

theorem isRow_iff (hdata : EndsInData before) :
    IsRow (before ++ after) start stop ↔ ∃ front body back, Matched body ∧
      tagsBefore before ++ tagsBehind before after
        = front ++ .opens start :: (body ++ .closes stop :: back) := by
  rw [← map_tag_rowMarks hdata]
  constructor
  · rintro ⟨marks, front, body, back, hmarks, hbody, htags⟩
    rw [hmarks.unique (listsRowTags_rowMarks _)] at htags
    exact ⟨front, body, back, hbody, htags⟩
  · rintro ⟨front, body, back, hbody, htags⟩
    exact ⟨_, front, body, back, listsRowTags_rowMarks _, hbody, htags⟩

/-- **At a place inside of a row** both searches find something, and nothing outside of the row. -/
theorem exists_of_isRow (hdata : EndsInData before) (h : IsRow (before ++ after) start stop)
    (hlt : start < before.length) (hgt : before.length < stop) :
    ∃ start' stop', rowStart before after = some start' ∧ rowStop before after = some stop' ∧
      start ≤ start' ∧ stop' ≤ stop := by
  obtain ⟨front, body, back, hbody, htags⟩ := (isRow_iff hdata).1 h
  have hopens : .opens start ∉ tagsBehind before after := fun hmem =>
    Nat.not_lt.2 (opens_mem_angleMarks hmem).1 hlt
  have hcloses : .closes stop ∉ tagsBefore before := fun hmem =>
    Nat.not_lt.2 (by simpa using (closes_mem_angleMarks hmem).2) hgt
  obtain ⟨body₁, body₂, rfl, hleft, hright⟩ := exists_append_of_row htags hopens hcloses
  obtain ⟨start', stop', hstart, hstop, hinner, houter⟩ := hbody.exists_inner front back start stop
  have hsorted : (tagsBefore before ++ tagsBehind before after).Pairwise RowTag.Precedes :=
    pairwise_tags hdata
  obtain ⟨hbefore, hbehind, -⟩ := List.pairwise_append.1 hsorted
  refine ⟨start', stop', ?_, ?_, ?_, ?_⟩
  · rw [rowStart_eq_of_endsInData hdata, hleft, hstart]
  · rw [rowStop_eq_of_endsInData hdata, hright, hstop]
  · rcases hinner with rfl | hinner
    · exact Nat.le_refl _
    · rw [hleft] at hbefore
      exact (List.pairwise_cons.1 (List.pairwise_append.1 hbefore).2.1).1 _ hinner
  · rcases houter with rfl | houter
    · exact Nat.le_refl _
    · rw [hright] at hbehind
      exact (List.pairwise_append.1 hbehind).2.2 _ houter _ List.mem_cons_self

end Searches

/-- **The searches for the ends of a row agree.** In a text whose row tags match, and at a place in
character data, either both searches find nothing, and no row is around the place; or they find the
start and the stop of one row around the place, and that is the innermost one. -/
theorem rowBounds_innermost {before after : List Char} (hdata : EndsInData before)
    (hmatch : RowsMatch (before ++ after)) :
    (rowStart before after = none ∧ rowStop before after = none ∧
        ∀ start stop, IsRow (before ++ after) start stop →
          ¬(start < before.length ∧ before.length < stop)) ∨
      ∃ start stop, rowStart before after = some start ∧ rowStop before after = some stop ∧
        IsRow (before ++ after) start stop ∧ start < before.length ∧ before.length < stop ∧
        ∀ start' stop', IsRow (before ++ after) start' stop' →
          start' < before.length → before.length < stop' → start' ≤ start ∧ stop ≤ stop' := by
  have hmatched : Matched (tagsBefore before ++ tagsBehind before after) := by
    obtain ⟨marks, hmarks, h⟩ := hmatch
    rwa [← map_tag_rowMarks hdata, ← hmarks.unique (listsRowTags_rowMarks _)]
  rcases hmatched.cut with ⟨hl, hr⟩ | ⟨front, start, body, body', stop, back, hl, hr, hm, hm'⟩
  · obtain ⟨hs, hs'⟩ := Matched.counts_to_end hl hr
    rw [← rowStart_eq_of_endsInData hdata] at hs
    rw [← rowStop_eq_of_endsInData hdata] at hs'
    refine .inl ⟨hs, hs', fun start stop h ⟨hlt, hgt⟩ => ?_⟩
    obtain ⟨start', stop', hstart', -⟩ := exists_of_isRow hdata h hlt hgt
    rw [hs] at hstart'
    cases hstart'
  · obtain ⟨hs, hs'⟩ := Matched.counts_to_pair hm hm' front back start stop
    rw [← hl, ← rowStart_eq_of_endsInData hdata] at hs
    rw [← hr, ← rowStop_eq_of_endsInData hdata] at hs'
    have hfound : IsRow (before ++ after) start stop := by
      refine (isRow_iff hdata).2 ⟨front, body ++ body', back, hm.append hm', ?_⟩
      rw [hl, hr]
      simp only [List.append_assoc, List.cons_append]
    refine .inr ⟨start, stop, hs, hs', hfound, ?_, ?_, fun start' stop' h hlt hgt => ?_⟩
    · have hmem : .opens start ∈ tagsBefore before := by simp [hl]
      simpa using (opens_mem_angleMarks hmem).2
    · have hmem : .closes stop ∈ tagsBehind before after := by simp [hr]
      exact (closes_mem_angleMarks hmem).1
    · obtain ⟨_, _, hstart', hstop', hle, hle'⟩ := exists_of_isRow hdata h hlt hgt
      rw [hs] at hstart'
      rw [hs'] at hstop'
      cases hstart'
      cases hstop'
      exact ⟨hle, hle'⟩

/-- A row with rows in it on both sides of the place, among tags that only look like those of rows,
an empty row, and the bare name. -/
theorem rowBounds_innermost_nested :
    let before := "<w:tr a><w:trPr/><w:tr>1</w:tr ><w:tr/>".toList
    let after := "w:tr<w:tr>2</w:tr></w:tr></w:trPr>".toList
    EndsInData before ∧ RowsMatch (before ++ after) ∧ IsRow (before ++ after) 0 64 ∧
      rowStart before after = some 0 ∧ rowStop before after = some 64 ∧
      ∀ start stop, IsRow (before ++ after) start stop → start < before.length →
        before.length < stop → start ≤ 0 ∧ 64 ≤ stop := by
  intro before after
  have hin : inMarkup false before = false := by decide
  have hdata : EndsInData before := (inMarkup_eq_false_iff.1 hin).1
  have hmatch : RowsMatch (before ++ after) := by
    have htags : (rowMarks (before ++ after)).map RowMark.tag = .opens 0 :: (.opens 17 :: ([]
        ++ .closes 32 :: .opens 43 :: ([] ++ .closes 57 :: [])) ++ .closes 64 :: []) := by
      decide +kernel
    have hmatched : Matched ((rowMarks (before ++ after)).map RowMark.tag) := by
      rw [htags]
      exact .pair (.pair .nil (.pair .nil .nil)) .nil
    exact ⟨rowMarks (before ++ after), listsRowTags_rowMarks _, hmatched⟩
  have hstart : rowStart before after = some 0 := by decide +kernel
  have hstop : rowStop before after = some 64 := by decide +kernel
  rcases rowBounds_innermost hdata hmatch with
    ⟨hnone, -⟩ | ⟨start, stop, hstart', hstop', hrow, -, -, hinnermost⟩
  · rw [hstart] at hnone
    cases hnone
  · rw [hstart] at hstart'
    rw [hstop] at hstop'
    cases hstart'
    cases hstop'
    exact ⟨hdata, hmatch, hrow, hstart, hstop, hinnermost⟩

end MailMerge.Markup
