import MailMerge.Proofs.Passes

/-!
# Texts as rows

A text whose row tags match is a list of tokens and **rows**, and the body of a row is such a list
again: `Rows`. The condition `Rows.Tagged` says that these are all the row tags there are: those of
the rows are row tags, and no other opening angle bracket starts one.

Row tags are looked for by their names, with two characters before; `rowMarks_eq` looks for them by
their opening angle brackets instead, where they can be read off a list of rows
(`angleMarks_append`). As the tags of a list of rows match, counting passes over them
(`unmatchedOpening?_append`, `unmatchedClosing?_append`), so the row around a mark is the one in
whose body it stands (`rowStart_eq`, `rowStop_eq`), and a mark outside of all rows has none
(`rowStop_eq_none`).
-/

namespace MailMerge.Markup

/-! ### Row tags by their names -/

/-- What may follow the name in an opening row tag, up to its end. -/
structure IsOpeningTail (x : List Char) : Prop where
  ended : '>' ∉ x
  named : nameEnds (x ++ ['>']) = true
  nonempty : x.getLast? ≠ some '/'

/-- What may follow the name in a closing row tag, up to its end. -/
structure IsClosingTail (x : List Char) : Prop where
  ended : '>' ∉ x
  named : nameEnds (x ++ ['>']) = true

instance : DecidablePred IsOpeningTail :=
  fun x => decidable_of_iff ('>' ∉ x ∧ nameEnds (x ++ ['>']) = true ∧ x.getLast? ≠ some '/')
    ⟨fun h => ⟨h.1, h.2.1, h.2.2⟩, fun h => ⟨h.ended, h.named, h.nonempty⟩⟩

instance : DecidablePred IsClosingTail :=
  fun x => decidable_of_iff ('>' ∉ x ∧ nameEnds (x ++ ['>']) = true)
    ⟨fun h => ⟨h.1, h.2⟩, fun h => ⟨h.ended, h.named⟩⟩

/-- Whether an angle bracket before `s` starts a row tag. -/
def StartsRowTag (s : List Char) : Prop :=
  (∃ x r, s = rowName ++ (x ++ '>' :: r) ∧ IsOpeningTail x)
    ∨ ∃ x r, s = '/' :: (rowName ++ (x ++ '>' :: r)) ∧ IsClosingTail x

theorem nameEnds_append_cons (x r : List Char) :
    nameEnds (x ++ '>' :: r) = nameEnds (x ++ ['>']) := by
  cases x <;> rfl

theorem getLast?_rowName_append (x : List Char) :
    (rowName ++ x).getLast? = some '/' ↔ x.getLast? = some '/' := by
  cases x with
  | nil => decide
  | cons c x => simp [List.getLast?_append]

/-- A row tag is read from its name, its rest and the characters before. -/
theorem rowTag?_name_append {place : Nat} {p q : Option Char} {x : List Char} (hx : '>' ∉ x)
    (hn : nameEnds (x ++ ['>']) = true) (r : List Char) :
    rowTag? place p q (rowName ++ (x ++ '>' :: r)) =
      if q = some '/' ∧ p = some '<' then some (.closes (place + (rowName ++ x).length + 1))
      else if q = some '<' ∧ x.getLast? ≠ some '/' then some (.opens (place - 1))
      else none := by
  have hname : '>' ∉ rowName ++ x := by
    rw [List.mem_append, not_or]
    exact ⟨by decide, hx⟩
  have hbreak : Text.breakAt? ['>'] (rowName ++ (x ++ '>' :: r)) = some (rowName ++ x, r) :=
    Text.breakAt?_singleton_eq_some_iff.2 ⟨by simp, hname⟩
  rw [rowTag?, Text.after?_append]
  simp only [nameEnds_append_cons, hn, if_true, hbreak, ne_eq, getLast?_rowName_append]

theorem exists_of_rowTag? {place : Nat} {p q : Option Char} {s : List Char} {tag : RowTag}
    (h : rowTag? place p q s = some tag) :
    ∃ x r, s = rowName ++ (x ++ '>' :: r) ∧ '>' ∉ x ∧ nameEnds (x ++ ['>']) = true := by
  unfold rowTag? at h
  split at h
  · cases h
  · next rest hrest =>
    split at h
    · next hn =>
      split at h
      · cases h
      · next inner r hbreak =>
        obtain ⟨hs, hinner⟩ := Text.breakAt?_singleton_eq_some_iff.1 hbreak
        rw [Text.after?_eq_some_iff] at hrest
        -- the cut at the closing angle bracket comes after the name, which holds none
        rcases List.append_eq_append_iff.1 (hrest.symm.trans hs) with ⟨x, hx, hrest'⟩ | ⟨x, hx, hc⟩
        · subst hrest'
          rw [hx, List.mem_append, not_or] at hinner
          exact ⟨x, r, hrest, hinner.2, nameEnds_append_cons x r ▸ hn⟩
        · cases x with
          | nil =>
            obtain rfl : rest = '>' :: r := by simpa using hc.symm
            exact ⟨[], r, hrest, by simp, rfl⟩
          | cons c x =>
            obtain ⟨rfl, -⟩ := List.cons.inj hc
            exact absurd (show '>' ∈ rowName by simp [hx]) (by decide)
    · cases h

/-- Without an angle bracket before the name there is no row tag. -/
theorem rowTag?_eq_none {place : Nat} {p q : Option Char} {s : List Char}
    (hq : q ≠ some '<') (hp : ¬(q = some '/' ∧ p = some '<')) : rowTag? place p q s = none := by
  rw [Option.eq_none_iff_forall_not_mem]
  intro tag h
  obtain ⟨x, r, rfl, hx, hn⟩ := exists_of_rowTag? h
  rw [Option.mem_def, rowTag?_name_append hx hn, if_neg hp, if_neg fun h => hq h.1] at h
  cases h

theorem rowTag?_cons_eq_none {place : Nat} {p q : Option Char} {c : Char} (hc : c ≠ 'w')
    (s : List Char) : rowTag? place p q (c :: s) = none := by
  rw [Option.eq_none_iff_forall_not_mem]
  intro tag h
  obtain ⟨x, r, hs, -, -⟩ := exists_of_rowTag? h
  exact hc (List.cons.inj hs).1

theorem rowTag?_open {place : Nat} {p p' : Option Char} {s : List Char} :
    rowTag? place p (some '<') s = rowTag? place p' (some '<') s := by
  simp [rowTag?]

/-! ### Row tags by their angle brackets -/

/-- The tag of a row that starts with an angle bracket at `place`, before `s`. -/
def angleMark? (place : Nat) : List Char → Option RowMark
  | '/' :: s => (rowTag? (place + 2) (some '<') (some '/') s).map (RowMark.mk (place + 2))
  | s => (rowTag? (place + 1) none (some '<') s).map (RowMark.mk (place + 1))

/-- The tags of rows in `s`, which starts at `place`. -/
def angleMarks (place : Nat) : List Char → List RowMark
  | [] => []
  | c :: s =>
    (if c = '<' then (angleMark? place s).toList else []) ++ angleMarks (place + 1) s

theorem angleMark?_of_ne {c : Char} (hc : c ≠ '/') (place : Nat) (s : List Char) :
    angleMark? place (c :: s)
      = (rowTag? (place + 1) none (some '<') (c :: s)).map (RowMark.mk (place + 1)) := by
  rw [angleMark?]
  intro r hr
  exact hc (List.cons.inj hr).1

/-- Looking for row tags by their names and by their angle brackets is the same: the two characters
before are nothing of interest, or an angle bracket, or one and a slash. -/
theorem rowMarksFrom_eq (s : List Char) :
    (∀ place p q, q ≠ some '<' → ¬(q = some '/' ∧ p = some '<') →
        rowMarksFrom place p q s = angleMarks place s) ∧
      (∀ place p, rowMarksFrom (place + 1) p (some '<') s
        = (angleMark? place s).toList ++ angleMarks (place + 1) s) ∧
      ∀ place, rowMarksFrom place (some '<') (some '/') s
        = ((rowTag? place (some '<') (some '/') s).map (RowMark.mk place)).toList
          ++ angleMarks place s := by
  induction s with
  | nil => simp [rowMarksFrom, angleMarks, angleMark?, rowTag?, Text.after?, rowName]
  | cons c s ih =>
    obtain ⟨hcalm, hopen, hslash⟩ := ih
    -- what follows the first character, when its row tag is dealt with
    have hnext : ∀ place q, ¬(c = '/' ∧ q = some '<') →
        rowMarksFrom (place + 1) q (some c) s
          = (if c = '<' then (angleMark? place s).toList else []) ++ angleMarks (place + 1) s := by
      intro place q hq
      by_cases hc : c = '<'
      · subst hc
        rw [hopen, if_pos rfl]
      · rw [if_neg hc, hcalm _ _ _ (by simpa using hc) (by simpa using hq), List.nil_append]
    refine ⟨fun place p q hq hp => ?_, fun place p => ?_, fun place => ?_⟩
    · rw [rowMarksFrom, rowTag?_eq_none hq hp]
      exact hnext place q (fun h => hq h.2)
    · by_cases hc : c = '/'
      · subst hc
        rw [rowMarksFrom, rowTag?_cons_eq_none (by decide)]
        simp only [angleMark?, angleMarks, hslash, show ¬('/' = '<') by decide, if_false,
          List.nil_append]
      · rw [rowMarksFrom, angleMark?_of_ne hc, @rowTag?_open _ p none]
        cases htag : rowTag? (place + 1) none (some '<') (c :: s) with
        | none => exact hnext (place + 1) _ fun h => hc h.1
        | some tag =>
          simp only [Option.map_some, Option.toList_some, List.singleton_append, List.cons.injEq,
            true_and]
          exact hnext (place + 1) _ fun h => hc h.1
    · rw [rowMarksFrom]
      cases htag : rowTag? place (some '<') (some '/') (c :: s) with
      | none => exact hnext place _ (by simp)
      | some tag =>
        simp only [Option.map_some, Option.toList_some, List.singleton_append, List.cons.injEq,
          true_and]
        exact hnext place _ (by simp)

theorem rowMarks_eq (s : List Char) : rowMarks s = angleMarks 0 s :=
  (rowMarksFrom_eq s).1 0 none none (by simp) (by simp)

theorem angleMark?_opening {x : List Char} (hx : IsOpeningTail x) (place : Nat) (r : List Char) :
    angleMark? place (rowName ++ (x ++ '>' :: r)) = some ⟨place + 1, .opens place⟩ := by
  have hname : rowName ++ (x ++ '>' :: r) = 'w' :: (":tr".toList ++ (x ++ '>' :: r)) := rfl
  rw [hname, angleMark?_of_ne (by decide), ← hname, rowTag?_name_append hx.ended hx.named,
    if_neg (by simp), if_pos ⟨rfl, hx.nonempty⟩]
  rfl

theorem angleMark?_closing {x : List Char} (hx : IsClosingTail x) (place : Nat) (r : List Char) :
    angleMark? place ('/' :: (rowName ++ (x ++ '>' :: r)))
      = some ⟨place + 2, .closes (place + 2 + (rowName ++ x).length + 1)⟩ := by
  rw [angleMark?, rowTag?_name_append hx.ended hx.named, if_pos ⟨rfl, rfl⟩]
  rfl

theorem angleMark?_eq_none {s : List Char} (h : ¬StartsRowTag s) (place : Nat) :
    angleMark? place s = none := by
  rw [StartsRowTag, not_or] at h
  unfold angleMark?
  split
  · rw [Option.map_eq_none_iff, Option.eq_none_iff_forall_not_mem]
    intro tag htag
    obtain ⟨x, r, rfl, hx, hn⟩ := exists_of_rowTag? htag
    exact h.2 ⟨x, r, rfl, hx, hn⟩
  · rw [Option.map_eq_none_iff, Option.eq_none_iff_forall_not_mem]
    intro tag htag
    obtain ⟨x, r, rfl, hx, hn⟩ := exists_of_rowTag? htag
    rw [Option.mem_def, rowTag?_name_append hx hn, if_neg (by simp)] at htag
    split at htag
    · next hlast => exact h.1 ⟨x, r, rfl, hx, hn, hlast.2⟩
    · cases htag

theorem startsRowTag_iff {s : List Char} : StartsRowTag s ↔ (angleMark? 0 s).isSome = true := by
  constructor
  · rintro (⟨x, r, rfl, hx⟩ | ⟨x, r, rfl, hx⟩)
    · rw [angleMark?_opening hx]
      rfl
    · rw [angleMark?_closing hx]
      rfl
  · intro h
    refine Classical.byContradiction fun hnot => ?_
    rw [angleMark?_eq_none hnot] at h
    cases h

instance : DecidablePred StartsRowTag :=
  fun _ => decidable_of_iff _ startsRowTag_iff.symm

theorem lt_place_of_angleMark? {place : Nat} {s : List Char} {m : RowMark}
    (h : angleMark? place s = some m) : place < m.place ∧ m.place ≤ place + 2 := by
  unfold angleMark? at h
  split at h
  all_goals
    obtain ⟨tag, -, rfl⟩ := Option.map_eq_some_iff.1 h
    exact ⟨by simp, by simp⟩

theorem lt_place_of_mem_angleMarks {place : Nat} {s : List Char} {m : RowMark}
    (h : m ∈ angleMarks place s) : place < m.place := by
  induction s generalizing place with
  | nil => cases h
  | cons c s ih =>
    rw [angleMarks, List.mem_append] at h
    rcases h with h | h
    · split at h
      · exact (lt_place_of_angleMark? (Option.mem_toList.1 h)).1
      · cases h
    · have := ih h
      omega

/-- The row tags behind a text, after those that start in it. -/
theorem exists_angleMarks_append (place : Nat) (u v : List Char) :
    ∃ l, angleMarks place (u ++ v) = l ++ angleMarks (place + u.length) v ∧
      ∀ m ∈ l, m.place ≤ place + u.length + 1 := by
  induction u generalizing place with
  | nil => exact ⟨[], by simp, by simp⟩
  | cons c u ih =>
    obtain ⟨l, hl, hplace⟩ := ih (place + 1)
    refine ⟨(if c = '<' then (angleMark? place (u ++ v)).toList else []) ++ l, ?_, fun m hm => ?_⟩
    · rw [List.cons_append, angleMarks, hl, List.append_assoc, List.length_cons,
        Nat.add_right_comm, Nat.add_assoc]
    · rw [List.length_cons]
      rcases List.mem_append.1 hm with hm | hm
      · split at hm
        · have := (lt_place_of_angleMark? (Option.mem_toList.1 hm)).2
          omega
        · cases hm
      · have := hplace m hm
        omega

theorem angleMarks_append_of_notMem {u : List Char} (hu : '<' ∉ u) (place : Nat) (v : List Char) :
    angleMarks place (u ++ v) = angleMarks (place + u.length) v := by
  induction u generalizing place with
  | nil => rfl
  | cons c u ih =>
    rw [List.mem_cons, not_or] at hu
    rw [List.cons_append, angleMarks, if_neg (Ne.symm hu.1), ih hu.2, List.nil_append,
      List.length_cons, Nat.add_right_comm, Nat.add_assoc]

theorem angleMarks_of_notMem {s : List Char} (hs : '<' ∉ s) (place : Nat) :
    angleMarks place s = [] := by
  simpa [angleMarks] using angleMarks_append_of_notMem hs place []

/-- The row around a place stops at the closing tag that is left over behind it. -/
theorem rowStop_append {mark : List Char} (hmark : '<' ∉ mark) (hlength : 2 ≤ mark.length)
    (u after : List Char) :
    rowStop (u ++ mark) after
      = unmatchedClosing? 0 ((angleMarks (u ++ mark).length after).map RowMark.tag) := by
  obtain ⟨l, hl, hplace⟩ := exists_angleMarks_append 0 u (mark ++ after)
  have hbefore : l.filter (fun m => (u ++ mark).length ≤ m.place) = [] := by
    rw [List.filter_eq_nil_iff]
    intro m hm
    have := hplace m hm
    simp only [List.length_append, decide_eq_true_eq]
    omega
  have hafter : (angleMarks (u ++ mark).length after).filter
      (fun m => (u ++ mark).length ≤ m.place) = angleMarks (u ++ mark).length after := by
    rw [List.filter_eq_self]
    intro m hm
    have := lt_place_of_mem_angleMarks hm
    simp only [decide_eq_true_eq]
    omega
  have hmarks : rowMarks (u ++ mark ++ after) = l ++ angleMarks (u ++ mark).length after := by
    rw [rowMarks_eq, List.append_assoc, hl, angleMarks_append_of_notMem hmark, List.length_append,
      Nat.zero_add]
  rw [rowStop, hmarks, List.filter_append, hbefore, hafter, List.nil_append]

/-- A row tag starts with an opening angle bracket, and stops behind a closing one. -/
theorem exists_of_mem_angleMarks {place : Nat} {s : List Char} {m : RowMark}
    (h : m ∈ angleMarks place s) :
    (∃ u v, s = u ++ '<' :: v ∧ m = ⟨place + u.length + 1, .opens (place + u.length)⟩) ∨
      ∃ u v, s = u ++ '>' :: v ∧ m.tag = .closes (place + u.length + 1) := by
  induction s generalizing place with
  | nil => cases h
  | cons c s ih =>
    rw [angleMarks, List.mem_append] at h
    rcases h with h | h
    · split at h
      · next hc =>
        subst hc
        have hm := Option.mem_toList.1 h
        by_cases hstarts : StartsRowTag s
        · rcases hstarts with ⟨x, r, rfl, hx⟩ | ⟨x, r, rfl, hx⟩
          · rw [angleMark?_opening hx] at hm
            exact .inl ⟨[], _, rfl, (Option.some.inj hm).symm⟩
          · rw [angleMark?_closing hx] at hm
            refine .inr ⟨'<' :: '/' :: (rowName ++ x), r, by simp, ?_⟩
            rw [← Option.some.inj hm]
            simp only [List.length_cons, RowTag.closes.injEq]
            omega
        · rw [angleMark?_eq_none hstarts] at hm
          cases hm
      · cases h
    · have hplace : ∀ u : List Char, place + 1 + u.length = place + (c :: u).length := fun u => by
        rw [List.length_cons]
        omega
      rcases ih h with ⟨u, v, rfl, hm⟩ | ⟨u, v, rfl, hm⟩
      · exact .inl ⟨c :: u, v, rfl, by rw [← hplace, hm]⟩
      · exact .inr ⟨c :: u, v, rfl, by rw [← hplace, hm]⟩

theorem mem_of_unmatchedOpening? {depth start : Nat} {tags : List RowTag}
    (h : unmatchedOpening? depth tags = some start) : .opens start ∈ tags := by
  fun_induction unmatchedOpening? depth tags with
  | case1 => cases h
  | case2 depth stop tags ih => exact List.mem_cons_of_mem _ (ih h)
  | case3 first tags =>
    obtain rfl := Option.some.inj h
    exact List.mem_cons_self
  | case4 depth first tags ih => exact List.mem_cons_of_mem _ (ih h)

theorem mem_of_unmatchedClosing? {depth stop : Nat} {tags : List RowTag}
    (h : unmatchedClosing? depth tags = some stop) : .closes stop ∈ tags := by
  fun_induction unmatchedClosing? depth tags with
  | case1 => cases h
  | case2 depth start tags ih => exact List.mem_cons_of_mem _ (ih h)
  | case3 first tags =>
    obtain rfl := Option.some.inj h
    exact List.mem_cons_self
  | case4 depth first tags ih => exact List.mem_cons_of_mem _ (ih h)

/-- The row around a place starts at an opening angle bracket before it. -/
theorem exists_of_rowStart {before after : List Char} {start : Nat}
    (h : rowStart before after = some start) :
    ∃ u v, before = u ++ '<' :: v ∧ u.length = start := by
  rw [rowStart, rowMarks_eq] at h
  obtain ⟨m, hm, htag⟩ := List.mem_map.1 (mem_of_unmatchedOpening? h)
  obtain ⟨hm, hplace⟩ := List.mem_filter.1 (List.mem_reverse.1 hm)
  obtain ⟨u, v, hsplit, rfl⟩ | ⟨u, v, -, hclose⟩ := exists_of_mem_angleMarks hm
  · obtain rfl := RowTag.opens.inj htag
    -- the name of the tag stands before the place, so its bracket does
    have hlt : u.length < before.length := by
      simp only [decide_eq_true_eq] at hplace
      omega
    rw [Nat.zero_add]
    obtain ⟨w, rfl, -⟩ | ⟨w, rfl, hw⟩ := List.append_eq_append_iff.1 hsplit
    · rw [List.length_append] at hlt
      omega
    · obtain _ | ⟨c, w⟩ := w
      · rw [List.append_nil] at hlt
        omega
      · obtain ⟨rfl, -⟩ := List.cons.inj hw
        exact ⟨u, w, rfl, rfl⟩
  · rw [hclose] at htag
    cases htag

/-- The row around a place stops behind a closing angle bracket that follows it. -/
theorem exists_of_rowStop {mark : List Char} (hmark : '<' ∉ mark) (hlength : 2 ≤ mark.length)
    {u after : List Char} {stop : Nat} (h : rowStop (u ++ mark) after = some stop) :
    ∃ v r, after = v ++ '>' :: r ∧ stop = (u ++ mark).length + v.length + 1 := by
  rw [rowStop_append hmark hlength] at h
  obtain ⟨m, hm, htag⟩ := List.mem_map.1 (mem_of_unmatchedClosing? h)
  obtain ⟨v, r, -, rfl⟩ | ⟨v, r, rfl, hclose⟩ := exists_of_mem_angleMarks hm
  · cases htag
  · rw [hclose] at htag
    exact ⟨v, r, rfl, (RowTag.closes.inj htag).symm⟩

/-- An opening row tag. -/
def openingTag (x : List Char) : List Char :=
  '<' :: (rowName ++ (x ++ ['>']))

/-- A closing row tag. -/
def closingTag (x : List Char) : List Char :=
  '<' :: '/' :: (rowName ++ (x ++ ['>']))

theorem angleMarks_openingTag_append {x : List Char} (hx : IsOpeningTail x) (ha : '<' ∉ x)
    (place : Nat) (s : List Char) :
    angleMarks place (openingTag x ++ s)
      = ⟨place + 1, .opens place⟩ :: angleMarks (place + (openingTag x).length) s := by
  have hrest : '<' ∉ rowName ++ (x ++ ['>']) := by
    simp only [List.mem_append, not_or]
    exact ⟨by decide, ha, by decide⟩
  have hs : rowName ++ (x ++ ['>']) ++ s = rowName ++ (x ++ '>' :: s) := by simp
  rw [openingTag, List.cons_append, angleMarks, if_pos rfl, hs, angleMark?_opening hx, ← hs,
    angleMarks_append_of_notMem hrest, List.length_cons, Nat.add_right_comm, Nat.add_assoc]
  rfl

theorem angleMarks_closingTag_append {x : List Char} (hx : IsClosingTail x) (ha : '<' ∉ x)
    (place : Nat) (s : List Char) :
    angleMarks place (closingTag x ++ s)
      = ⟨place + 2, .closes (place + (closingTag x).length)⟩
        :: angleMarks (place + (closingTag x).length) s := by
  have hrest : '<' ∉ '/' :: (rowName ++ (x ++ ['>'])) := by
    simp only [List.mem_cons, List.mem_append, not_or]
    exact ⟨by decide, by decide, ha, by decide⟩
  have hs : '/' :: (rowName ++ (x ++ ['>'])) ++ s = '/' :: (rowName ++ (x ++ '>' :: s)) := by simp
  have hlength : place + 2 + (rowName ++ x).length + 1 = place + (closingTag x).length := by
    simp only [closingTag, List.length_cons, List.length_append, List.length_nil]
    omega
  rw [closingTag, List.cons_append, angleMarks, if_pos rfl, hs, angleMark?_closing hx, ← hs,
    angleMarks_append_of_notMem hrest, hlength, closingTag, List.length_cons,
    Nat.add_right_comm, Nat.add_assoc]
  rfl

end MailMerge.Markup

namespace MailMerge

open Markup

/-! ### Texts as rows -/

/-- A list of tokens and rows. -/
inductive Rows where
  | nil
  /-- A token outside of row tags. -/
  | token (t : Token) (rest : Rows)
  /-- A row, `<w:tr…>…</w:tr…>`, with what follows the names in its tags. -/
  | row (opening closing : List Char) (body rest : Rows)
  deriving DecidableEq, Repr

namespace Rows

/-- The tokens of a list of rows. -/
def print : Rows → List Token
  | nil => []
  | token t rest => t :: rest.print
  | row opening closing body rest =>
    (openingTag opening).map .char ++
      (body.print ++ ((closingTag closing).map .char ++ rest.print))

/-- The text of a list of rows. -/
def text (rows : Rows) : List Char :=
  rows.print.flatMap Token.text

@[simp]
theorem text_nil : nil.text = [] := rfl

@[simp]
theorem text_token (t : Token) (rest : Rows) : (token t rest).text = t.text ++ rest.text := rfl

@[simp]
theorem text_row (opening closing : List Char) (body rest : Rows) :
    (row opening closing body rest).text
      = openingTag opening ++ (body.text ++ (closingTag closing ++ rest.text)) := by
  simp only [text, print, List.flatMap_append, flatMap_text_map_tokenChar]

/-- Two lists of rows, one after the other. -/
def append : Rows → Rows → Rows
  | nil, s => s
  | token t rest, s => token t (rest.append s)
  | row opening closing body rest, s => row opening closing body (rest.append s)

theorem print_append (r s : Rows) : (r.append s).print = r.print ++ s.print := by
  induction r with
  | nil => rfl
  | token t rest ih => simp [append, print, ih]
  | row opening closing body rest _ ih => simp [append, print, ih]

theorem text_append (r s : Rows) : (r.append s).text = r.text ++ s.text := by
  rw [text, print_append, List.flatMap_append]
  rfl

/-- The row tags of a list of rows, when `after` follows, are those of its rows. -/
def Tagged (after : List Char) : Rows → Prop
  | nil => True
  | token t rest =>
    (t = .char '<' → ¬StartsRowTag (rest.text ++ after)) ∧ rest.Tagged after
  | row opening closing body rest =>
    (IsOpeningTail opening ∧ '<' ∉ opening) ∧ (IsClosingTail closing ∧ '<' ∉ closing) ∧
      body.Tagged (closingTag closing ++ (rest.text ++ after)) ∧ rest.Tagged after

instance instDecidableTagged (after : List Char) : (rows : Rows) → Decidable (rows.Tagged after)
  | nil => isTrue trivial
  | token _ rest =>
    have := instDecidableTagged after rest
    inferInstanceAs (Decidable (_ ∧ _))
  | row _ closing body rest =>
    have := instDecidableTagged (closingTag closing ++ (rest.text ++ after)) body
    have := instDecidableTagged after rest
    inferInstanceAs (Decidable (_ ∧ _ ∧ _ ∧ _))

theorem tagged_append {r s : Rows} {after : List Char} :
    (r.append s).Tagged after ↔ r.Tagged (s.text ++ after) ∧ s.Tagged after := by
  induction r with
  | nil => simp [append, Tagged]
  | token t rest ih => simp [append, Tagged, ih, text_append, and_assoc]
  | row opening closing body rest _ ih => simp [append, Tagged, ih, text_append, and_assoc]

/-- The row tags of a list of rows, which starts at `place`. -/
def marks (place : Nat) : Rows → List RowMark
  | nil => []
  | token t rest => rest.marks (place + t.text.length)
  | row opening closing body rest =>
    let inside := place + (openingTag opening).length
    let behind := inside + body.text.length
    let stop := behind + (closingTag closing).length
    ⟨place + 1, .opens place⟩ ::
      (body.marks inside ++ ⟨behind + 2, .closes stop⟩ :: rest.marks stop)

/-- The row tags of a text are those of the list of rows that it is. -/
theorem angleMarks_append {rows : Rows} {after : List Char} (h : rows.Tagged after)
    (hn : ∀ t, .tag t ∈ rows.print → t.IsNamed) (place : Nat) :
    angleMarks place (rows.text ++ after)
      = rows.marks place ++ angleMarks (place + rows.text.length) after := by
  induction rows generalizing after place with
  | nil => simp [marks]
  | token t rest ih =>
    obtain ⟨ht, hrest⟩ := h
    have ih := ih hrest (fun u hu => hn u (List.mem_cons_of_mem _ hu)) (place + t.text.length)
    rw [text_token, List.append_assoc, marks, List.length_append, ← Nat.add_assoc, ← ih]
    cases t with
    | tag t =>
      exact angleMarks_append_of_notMem (Tag.notMem_text (hn t List.mem_cons_self) (by decide)) _ _
    | char c =>
      by_cases hc : c = '<'
      · subst hc
        simp only [Token.text, List.singleton_append, angleMarks, if_true,
          angleMark?_eq_none (ht rfl), Option.toList_none, List.nil_append, List.length_singleton]
      · exact angleMarks_append_of_notMem (by simpa [Token.text] using Ne.symm hc) _ _
  | row opening closing body rest ihb ihr =>
    obtain ⟨⟨ho, hoa⟩, ⟨hc, hca⟩, hbody, hrest⟩ := h
    have hnb : ∀ t, .tag t ∈ body.print → t.IsNamed := fun t ht => hn t (by simp [print, ht])
    have hnr : ∀ t, .tag t ∈ rest.print → t.IsNamed := fun t ht => hn t (by simp [print, ht])
    rw [text_row]
    simp only [List.append_assoc]
    rw [angleMarks_openingTag_append ho hoa, ihb hbody hnb, angleMarks_closingTag_append hc hca,
      ihr hrest hnr]
    simp [marks, Nat.add_assoc]

/-- The places of row tags: each name stands inside the text. -/
theorem place_of_mem_marks {rows : Rows} {place : Nat} {m : RowMark} (h : m ∈ rows.marks place) :
    place < m.place ∧ m.place + rowName.length < place + rows.text.length := by
  have hname : rowName.length = 4 := rfl
  induction rows generalizing place with
  | nil => cases h
  | token t rest ih =>
    have := ih h
    simp only [text_token, List.length_append]
    omega
  | row opening closing body rest ihb ihr =>
    simp only [marks, List.mem_cons, List.mem_append] at h
    simp only [text_row, List.length_append, openingTag, closingTag, List.length_cons,
      List.length_nil] at h ⊢
    rcases h with rfl | h | rfl | h
    · simp only
      omega
    · have := ihb h
      omega
    · simp only
      omega
    · have := ihr h
      omega

/-- Counting backwards passes over a list of rows. -/
theorem unmatchedOpening?_append (rows : Rows) (place depth : Nat) (tags : List RowTag) :
    unmatchedOpening? depth ((rows.marks place).reverse.map RowMark.tag ++ tags)
      = unmatchedOpening? depth tags := by
  induction rows generalizing place depth tags with
  | nil => rfl
  | token t rest ih => exact ih _ _ _
  | row opening closing body rest ihb ihr =>
    simp only [marks, List.reverse_cons, List.reverse_append, List.map_append, List.map_cons,
      List.map_nil, List.append_assoc, List.cons_append, List.nil_append]
    rw [ihr, unmatchedOpening?, ihb, unmatchedOpening?]

/-- Counting forwards passes over a list of rows. -/
theorem unmatchedClosing?_append (rows : Rows) (place depth : Nat) (tags : List RowTag) :
    unmatchedClosing? depth ((rows.marks place).map RowMark.tag ++ tags)
      = unmatchedClosing? depth tags := by
  induction rows generalizing place depth tags with
  | nil => rfl
  | token t rest ih => exact ih _ _ _
  | row opening closing body rest ihb ihr =>
    simp only [marks, List.map_append, List.map_cons, List.append_assoc, List.cons_append]
    rw [unmatchedClosing?, ihb, unmatchedClosing?, ihr]

/-- The row around a mark starts at the opening tag in front of the rows before the mark. -/
theorem rowStart_eq {opening : List Char} (ho : IsOpeningTail opening) (ha : '<' ∉ opening)
    {before : Rows} {mark after : List Char} (h : before.Tagged (mark ++ after))
    (hn : ∀ t, .tag t ∈ before.print → t.IsNamed) (done : List Char) :
    rowStart (done ++ (openingTag opening ++ before.text)) (mark ++ after) = some done.length := by
  obtain ⟨l, hl, -⟩ := exists_angleMarks_append 0 done
    (openingTag opening ++ (before.text ++ (mark ++ after)))
  have hlength : (openingTag opening).length = opening.length + 6 := by
    simp [openingTag, rowName]
  have hname : rowName.length = 4 := rfl
  rw [Nat.zero_add, angleMarks_openingTag_append ho ha, angleMarks_append h hn] at hl
  rw [rowStart, rowMarks_eq]
  simp only [List.append_assoc, List.length_append, hl]
  -- of these tags, those before the mark count
  rw [List.filter_append, List.filter_cons_of_pos (by simp only [decide_eq_true_eq]; omega),
    List.filter_append]
  have hin : (before.marks (done.length + (openingTag opening).length)).filter
      (fun m => m.place + rowName.length
        ≤ done.length + ((openingTag opening).length + before.text.length))
      = before.marks (done.length + (openingTag opening).length) := by
    rw [List.filter_eq_self]
    intro m hm
    have := (place_of_mem_marks hm).2
    simp only [decide_eq_true_eq]
    omega
  have hout : (angleMarks (done.length + (openingTag opening).length + before.text.length)
      (mark ++ after)).filter (fun m => m.place + rowName.length
        ≤ done.length + ((openingTag opening).length + before.text.length)) = [] := by
    rw [List.filter_eq_nil_iff]
    intro m hm
    have := lt_place_of_mem_angleMarks hm
    simp only [decide_eq_true_eq]
    omega
  rw [hin, hout, List.append_nil]
  simp only [List.reverse_append, List.reverse_cons, List.map_append, List.append_assoc,
    List.map_cons, List.map_nil]
  rw [unmatchedOpening?_append]
  rfl

/-- The row around a mark stops at the closing tag behind the rows after the mark. -/
theorem rowStop_eq {closing : List Char} (hc : IsClosingTail closing) (ha : '<' ∉ closing)
    {mark : List Char} (hmark : '<' ∉ mark) (hlength : 2 ≤ mark.length) {rows : Rows}
    {after : List Char} (h : rows.Tagged (closingTag closing ++ after))
    (hn : ∀ t, .tag t ∈ rows.print → t.IsNamed) (before : List Char) :
    rowStop (before ++ mark) (rows.text ++ (closingTag closing ++ after))
      = some ((before ++ mark).length + rows.text.length + (closingTag closing).length) := by
  rw [rowStop_append hmark hlength, angleMarks_append h hn, List.map_append,
    unmatchedClosing?_append, angleMarks_closingTag_append hc ha]
  rfl

/-- A mark outside of all rows has no row that stops behind it. -/
theorem rowStop_eq_none {mark : List Char} (hmark : '<' ∉ mark) (hlength : 2 ≤ mark.length)
    {rows : Rows} (h : rows.Tagged []) (hn : ∀ t, .tag t ∈ rows.print → t.IsNamed)
    (before : List Char) : rowStop (before ++ mark) rows.text = none := by
  rw [rowStop_append hmark hlength, ← List.append_nil rows.text, angleMarks_append h hn,
    List.map_append, unmatchedClosing?_append]
  rfl

end Rows

end MailMerge
