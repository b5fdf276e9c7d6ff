import MailMerge.Proofs.Nesting

/-!
# Nesting and table rows

The table pass looks for rows by their markup alone. In a well nested text the row tags are the tags
of the elements named `w:tr`, so the rows that are open at a place are those of its path (`rowsIn`).
Counting row tags forwards from a place, or backwards, passes the elements in between and finds the
end and the start of the row meant (`Leads.unmatchedClosing?`, `Leads.openRows`). Both lie in the
elements around the row. So the row around a mark leads from a path to itself, like the body
of a loop, and a text stays well nested when copies of the row take its place
(`LaidBetween.expandTables`).

With this, every pass keeps a text well nested, with its tags laid out as before
(`laidOut_passes`).
-/

namespace MailMerge

open Markup

/-! ### Row tags and elements -/

namespace Markup

theorem nameEnds_cons (c : Char) (s : List Char) :
    nameEnds (c :: s) = (c == '>' || c == '/' || isTagSpace c) := by
  simp [nameEnds, isTagSpace, Bool.or_assoc]

/-- A tag has a name when it starts with the name, which ends there. -/
theorem nameOf_eq_iff {name : List Char} (hsolid : ∀ c ∈ name, (!isTagSpace c) = true)
    {tag : List Char} (hnamed : isNamed tag = true) (hangle : '>' ∉ tag) :
    nameOf tag = name ↔ ∃ x, tag = name ++ x ∧ nameEnds (x ++ ['>']) = true := by
  constructor
  · intro hname
    refine ⟨tag.dropWhile (!isTagSpace ·), ?_, ?_⟩
    · rw [← hname, nameOf, List.takeWhile_append_dropWhile]
    · have hspace := List.head?_dropWhile_not (!isTagSpace ·) tag
      cases hx : tag.dropWhile (!isTagSpace ·) with
      | nil => rfl
      | cons c x =>
        simp only [hx, List.head?_cons, Bool.not_eq_false'] at hspace
        rw [List.cons_append, nameEnds_cons, hspace, Bool.or_true]
  · rintro ⟨x, rfl, hends⟩
    rw [nameOf, List.takeWhile_append_of_pos hsolid]
    cases x with
    | nil => simp
    | cons c x =>
      cases hc : isTagSpace c with
      | true => simp [hc]
      | false =>
        -- no slash and no angle bracket stands in a name
        have hmem : c ∈ nameOf (name ++ c :: x) := by
          rw [nameOf, List.takeWhile_append_of_pos hsolid]
          simp [hc]
        simp only [isNamed, Bool.and_eq_true, List.all_eq_true] at hnamed
        have hsymbol := hnamed.1.2 c hmem
        rw [List.cons_append, nameEnds_cons, hc, Bool.or_false, Bool.or_eq_true, beq_iff_eq,
          beq_iff_eq] at hends
        rcases hends with rfl | rfl <;> exact absurd hsymbol (by decide)

/-- What the tag of an element at `place`, which takes `length` characters, says about rows. -/
def ElementTag.rowMark? (place length : Nat) : ElementTag → Option RowMark
  | opens name => if name = rowName then some ⟨place + 1, .opens place⟩ else none
  | closes name => if name = rowName then some ⟨place + 2, .closes (place + length)⟩ else none
  | empty _ => none

theorem nameOf_eq_rowName_iff {tag : List Char} (hnamed : isNamed tag = true) (hangle : '>' ∉ tag) :
    nameOf tag = rowName ↔ ∃ x, tag = rowName ++ x ∧ nameEnds (x ++ ['>']) = true :=
  nameOf_eq_iff (by decide) hnamed hangle

theorem angleMark?_elementTag {body : List Char} {tag : ElementTag}
    (htag : elementTag? body = some tag) (hangle : '>' ∉ body) (place : Nat) (r : List Char) :
    angleMark? place (body ++ '>' :: r) = tag.rowMark? place (body.length + 2) := by
  unfold elementTag? at htag
  split at htag
  · next tag' =>
    -- a closing tag
    split at htag
    · next hread =>
      cases htag
      rw [List.mem_cons, not_or] at hangle
      have hrow := nameOf_eq_rowName_iff hread.1 hangle.2
      by_cases hname : nameOf tag' = rowName
      · obtain ⟨x, rfl, hends⟩ := hrow.1 hname
        have hx : IsClosingTail x := ⟨fun hm => hangle.2 (List.mem_append_right _ hm), hends⟩
        rw [List.cons_append, List.append_assoc, angleMark?_closing hx, ElementTag.rowMark?,
          if_pos hname, List.length_cons]
        simp only [Option.some.injEq, RowMark.mk.injEq, RowTag.closes.injEq, true_and]
        omega
      · rw [ElementTag.rowMark?, if_neg hname]
        refine angleMark?_eq_none (fun hstarts => ?_) place
        rcases (startsRowTag_append_iff (List.not_mem_cons_of_ne_of_not_mem hangle.1 hangle.2)
          r).1 hstarts with ⟨x, hx, -⟩ | ⟨x, hx, hclosing⟩
        · exact absurd (List.cons.inj hx).1 (by decide)
        · exact hname (hrow.2 ⟨x, (List.cons.inj hx).2, hclosing.named⟩)
    · cases htag
  · next hslash =>
    have hnotClosing : ∀ x, body ≠ '/' :: (rowName ++ x) := fun x hx => hslash _ hx
    split at htag
    · next hlast =>
      -- an element of its own
      split at htag
      · cases htag
        refine angleMark?_eq_none (fun hstarts => ?_) place
        rcases (startsRowTag_append_iff hangle r).1 hstarts with ⟨x, rfl, hopening⟩ | ⟨x, hx, -⟩
        · exact hopening.nonempty ((getLast?_rowName_append x).1 hlast)
        · exact hnotClosing x hx
      · cases htag
    · next hlast =>
      -- an opening tag
      split at htag
      · next hnamed =>
        cases htag
        have hrow := nameOf_eq_rowName_iff hnamed hangle
        by_cases hname : nameOf body = rowName
        · obtain ⟨x, rfl, hends⟩ := hrow.1 hname
          have hx : IsOpeningTail x := ⟨fun hm => hangle (List.mem_append_right _ hm), hends,
            fun hx => hlast ((getLast?_rowName_append x).2 hx)⟩
          rw [List.append_assoc, angleMark?_opening hx, ElementTag.rowMark?, if_pos hname]
        · rw [ElementTag.rowMark?, if_neg hname]
          refine angleMark?_eq_none (fun hstarts => ?_) place
          rcases (startsRowTag_append_iff hangle r).1 hstarts with ⟨x, hx, hopening⟩ | ⟨x, hx, -⟩
          · exact hname (hrow.2 ⟨x, hx, hopening.named⟩)
          · exact hnotClosing x hx
      · cases htag

/-- The row tags behind the tag of an element, and its own. -/
theorem angleMarks_elementTag {body : List Char} {tag : ElementTag}
    (htag : elementTag? body = some tag) (hopen : '<' ∉ body) (hangle : '>' ∉ body) (place : Nat)
    (r : List Char) :
    angleMarks place ('<' :: (body ++ ['>']) ++ r)
      = (tag.rowMark? place (body.length + 2)).toList
        ++ angleMarks (place + (body.length + 2)) r := by
  have hrest : '<' ∉ body ++ ['>'] := by
    rw [List.mem_append, not_or]
    exact ⟨hopen, by decide⟩
  have hbody : body ++ ['>'] ++ r = body ++ '>' :: r := by simp
  rw [List.cons_append, angleMarks, if_pos rfl, hbody, angleMark?_elementTag htag hangle, ← hbody,
    angleMarks_append_of_notMem hrest, List.length_append, List.length_singleton,
    Nat.add_assoc place, Nat.add_comm 1]

end Markup

/-! ### Walks from tag to tag -/

section Walks

variable {window : Nat} {path inner outer : Path} {ts : List Token}

/-- The characters of the tag of an element. -/
def elementTokens (body : List Char) : List Token :=
  ('<' :: (body ++ ['>'])).map .char

theorem text_elementTokens (body : List Char) :
    (elementTokens body).flatMap Token.text = '<' :: (body ++ ['>']) :=
  flatMap_text_map_tokenChar _

theorem text_elementTokens_append (body : List Char) (ts : List Token) :
    (elementTokens body ++ ts).flatMap Token.text
      = '<' :: (body ++ ['>']) ++ ts.flatMap Token.text :=
  flatMap_text_map_char_append _ _

/-- A tag that is open is read to its end. -/
theorem Leads.exists_tag {read : List Char} (h : Leads path ⟨inner, some read⟩ (.at outer) ts) :
    ∃ body us tag next, ts = (body ++ ['>']).map .char ++ us ∧ '<' ∉ body ∧ '>' ∉ body ∧
      elementTag? (read ++ body) = some tag ∧ tag.follow? inner = some next ∧
      Leads path (.at next) (.at outer) us := by
  induction ts generalizing read with
  | nil => cases nil_iff.1 h
  | cons t ts ih =>
    cases t with
    | tag t => cases (tag_iff.1 h).1.1
    | char c =>
      obtain ⟨r, hr, hts⟩ := cons_iff.1 h
      simp only [Token.placeAfter?, Place.next] at hr
      split at hr
      · cases hr
      · next hopen =>
        split at hr
        · next hclose =>
          subst hclose
          obtain ⟨next, hnext, rfl⟩ := Option.map_eq_some_iff.1 hr
          obtain ⟨tag, htag, hfollow⟩ := Option.bind_eq_some_iff.1 hnext
          exact ⟨[], ts, tag, next, rfl, List.not_mem_nil, List.not_mem_nil, by simpa using htag,
            hfollow, hts⟩
        · next hclose =>
          cases hr
          obtain ⟨body, us, tag, next, rfl, hbody, hbody', htag, hfollow, hus⟩ := ih hts
          refine ⟨c :: body, us, tag, next, rfl, ?_, ?_, by simpa using htag, hfollow, hus⟩
          · exact List.not_mem_cons_of_ne_of_not_mem (Ne.symm hopen) hbody
          · exact List.not_mem_cons_of_ne_of_not_mem (Ne.symm hclose) hbody'

theorem Leads.elementTokens {body : List Char} {tag : ElementTag} (hopen : '<' ∉ body)
    (hclose : '>' ∉ body) (htag : elementTag? body = some tag)
    (hfollow : tag.follow? inner = some outer) :
    Leads path (.at inner) (.at outer) (elementTokens body) := by
  have hread : ∀ (read body : List Char), '<' ∉ body → '>' ∉ body →
      elementTag? (read ++ body) = some tag →
      Leads path ⟨inner, some read⟩ (.at outer) ((body ++ ['>']).map .char) := by
    intro read body
    induction body generalizing read with
    | nil =>
      intro _ _ htag
      rw [List.append_nil] at htag
      refine cons_iff.2 ⟨.at outer, ?_, nil_iff.2 rfl⟩
      simp [Token.placeAfter?, Place.next, htag, hfollow]
    | cons c body ih =>
      intro hopen hclose htag
      rw [List.mem_cons, not_or] at hopen hclose
      refine cons_iff.2 ⟨⟨inner, some (read ++ [c])⟩, ?_, ?_⟩
      · simp [Token.placeAfter?, Place.next, Ne.symm hopen.1, Ne.symm hclose.1]
      · exact ih _ hopen.2 hclose.2 (by simpa using htag)
  exact cons_iff.2 ⟨⟨inner, some []⟩, rfl, hread [] body hopen hclose htag⟩

/-- Induction from tag to tag: behind a place in character data comes a token without an opening
angle bracket, or the tag of an element. -/
theorem Leads.tagwise {motive : Path → List Token → Prop} (nil : motive outer [])
    (token : ∀ inner t ts, '<' ∉ t.text → Leads path (.at inner) (.at inner) [t] →
      Leads path (.at inner) (.at outer) ts → motive inner ts → motive inner (t :: ts))
    (tag : ∀ inner next body tag ts, '<' ∉ body → '>' ∉ body → elementTag? body = some tag →
      tag.follow? inner = some next → Leads path (.at next) (.at outer) ts → motive next ts →
      motive inner (MailMerge.elementTokens body ++ ts))
    (hproper : ∀ t ∈ ts, t.Proper window) (h : Leads path (.at inner) (.at outer) ts) :
    motive inner ts := by
  induction hn : ts.length using Nat.strongRecOn generalizing ts inner with
  | ind n ihn =>
    subst hn
    cases ts with
    | nil =>
      cases nil_iff.1 h
      exact nil
    | cons t ts =>
      rw [List.forall_mem_cons] at hproper
      by_cases hangle : t = .char '<'
      · subst hangle
        obtain ⟨r, hr, hts⟩ := cons_iff.1 h
        obtain rfl : r = ⟨inner, some []⟩ := by simpa [Token.placeAfter?, Place.next, Place.at]
          using hr.symm
        obtain ⟨body, us, tag', next, rfl, hbody, hbody', htag, hfollow, hus⟩ := hts.exists_tag
        refine tag inner next body tag' us hbody hbody' htag hfollow hus (ihn us.length ?_
          (fun t ht => hproper.2 t (List.mem_append_right _ ht)) hus rfl)
        simp only [List.length_cons, List.length_append]
        omega
      · have hstays : t.placeAfter? path (.at inner) = some (.at inner) ∧ '<' ∉ t.text := by
          cases t with
          | char c =>
            have hc : c ≠ '<' := fun hc => hangle (congrArg Token.char hc)
            exact ⟨by simp [Token.placeAfter?, Place.next, Place.at, hc],
              by simpa [Token.text] using Ne.symm hc⟩
          | tag t => exact ⟨if_pos (tag_iff.1 h).1, notMem_tagText hproper.1⟩
        obtain ⟨r, hr, hts⟩ := cons_iff.1 h
        rw [hstays.1] at hr
        cases hr
        exact token inner t ts hstays.2 (cons_iff.2 ⟨_, hstays.1, nil_iff.2 rfl⟩) hts
          (ihn ts.length (by simp) hproper.2 hts rfl)

/-! ### The row around a place -/

/-- The paths outside of the rows that are open, the innermost row first. -/
def rowsIn : Path → List Path
  | [] => []
  | name :: path => if name = rowName then path :: rowsIn path else rowsIn path

/-- What the tag of an element says about rows is what it does to the rows that are open. -/
theorem rowsIn_follow? {tag : ElementTag} {next : Path} (h : tag.follow? inner = some next)
    (place length : Nat) :
    (tag.rowMark? place length = none ∧ rowsIn next = rowsIn inner) ∨
      (tag.rowMark? place length = some ⟨place + 1, .opens place⟩ ∧
        rowsIn next = inner :: rowsIn inner) ∨
      (tag.rowMark? place length = some ⟨place + 2, .closes (place + length)⟩ ∧
        rowsIn inner = next :: rowsIn next) := by
  cases tag with
  | empty name =>
    cases h
    exact Or.inl ⟨rfl, rfl⟩
  | opens name =>
    cases h
    by_cases hname : name = rowName
    · exact Or.inr (Or.inl ⟨if_pos hname, if_pos hname⟩)
    · exact Or.inl ⟨if_neg hname, if_neg hname⟩
  | closes name =>
    simp only [ElementTag.follow?] at h
    split at h
    · next hhead =>
      cases h
      obtain ⟨rest, rfl⟩ : ∃ rest, inner = name :: rest := by
        cases inner with
        | nil => cases hhead
        | cons n rest => exact ⟨rest, by rw [Option.some.inj hhead]⟩
      by_cases hname : name = rowName
      · exact Or.inr (Or.inr ⟨if_pos hname, if_pos hname⟩)
      · exact Or.inl ⟨if_neg hname, (if_neg hname).symm⟩
    · cases h

/-- Tokens that lead from one place to another pass through character data in the elements `mid` at
the place `stop`, when they start at the place `start`. -/
def PassesAt (path : Path) (p q : Place) (ts : List Token) (start : Nat) (mid : Path)
    (stop : Nat) : Prop :=
  ∃ us vs, ts = us ++ vs ∧ Leads path p (.at mid) us ∧ Leads path (.at mid) q vs ∧
    stop = start + (us.flatMap Token.text).length

section Passing

variable {p q r : Place} {us : List Token} {start stop : Nat} {mid : Path}

theorem PassesAt.append_left (hu : Leads path p q us) {n : Nat}
    (hn : (us.flatMap Token.text).length = n) (h : PassesAt path q r ts (start + n) mid stop) :
    PassesAt path p r (us ++ ts) start mid stop := by
  obtain ⟨us', vs, rfl, hus', hvs, rfl⟩ := h
  refine ⟨us ++ us', vs, (List.append_assoc ..).symm, hu.append hus', hvs, ?_⟩
  rw [List.flatMap_append, List.length_append, hn, Nat.add_assoc]

theorem PassesAt.append_right (h : PassesAt path p q ts start mid stop)
    (hu : Leads path q r us) : PassesAt path p r (ts ++ us) start mid stop := by
  obtain ⟨us', vs, rfl, hus', hvs, rfl⟩ := h
  exact ⟨us', vs ++ us, List.append_assoc .., hus', hvs.append hu, rfl⟩

end Passing

theorem rel_cases {α β : Type} {R : α → β → Prop} {a : Option α} {b : Option β}
    (h : Option.Rel R a b) : (a = none ∧ b = none) ∨ ∃ x y, a = some x ∧ b = some y ∧ R x y := by
  cases h with
  | some hr => exact Or.inr ⟨_, _, rfl, rfl, hr⟩
  | none => exact Or.inl ⟨rfl, rfl⟩

theorem rel_mono {α β : Type} {R S : α → β → Prop} (h : ∀ a b, R a b → S a b) {a : Option α}
    {b : Option β} (hrel : Option.Rel R a b) : Option.Rel S a b := by
  cases hrel with
  | some hr => exact .some (h _ _ hr)
  | none => exact .none

/-- Counting forwards from a place to the end of the text finds the ends of the rows that are open
there. -/
theorem Leads.unmatchedClosing? (hproper : ∀ t ∈ ts, t.Proper window)
    (h : Leads path (.at inner) (.at []) ts) (place depth : Nat) :
    Option.Rel (PassesAt path (.at inner) (.at []) ts place) (rowsIn inner)[depth]?
      (Markup.unmatchedClosing? depth
        ((angleMarks place (ts.flatMap Token.text)).map RowMark.tag)) := by
  refine h.tagwise (motive := fun inner ts => ∀ place depth,
    Option.Rel (PassesAt path (.at inner) (.at []) ts place) (rowsIn inner)[depth]?
      (Markup.unmatchedClosing? depth
        ((angleMarks place (ts.flatMap Token.text)).map RowMark.tag))) ?_ ?_ ?_ hproper place depth
  · exact fun _ _ => .none
  · intro inner t ts hangle ht _ ih place depth
    rw [List.flatMap_cons, angleMarks_append_of_notMem hangle]
    exact rel_mono (fun _ _ hpass => hpass.append_left ht (by simp)) (ih _ depth)
  · intro inner next body tag ts hopen hclose htag hfollow hts ih place depth
    have helement : Leads path (.at inner) (.at next) (MailMerge.elementTokens body) :=
      .elementTokens hopen hclose htag hfollow
    rw [text_elementTokens_append, angleMarks_elementTag htag hopen hclose, List.map_append]
    have hlength :
        ((MailMerge.elementTokens body).flatMap Token.text).length = body.length + 2 := by
      simp [text_elementTokens]
    have hlater := fun k => rel_mono
      (fun _ _ hpass => hpass.append_left helement hlength) (ih (place + (body.length + 2)) k)
    rcases rowsIn_follow? hfollow place (body.length + 2) with
      ⟨hmark, hrows⟩ | ⟨hmark, hrows⟩ | ⟨hmark, hrows⟩
    · rw [hmark, ← hrows]
      exact hlater depth
    · -- the end of a row that is opened here is passed
      have hpassed := hlater (depth + 1)
      rw [hrows, List.getElem?_cons_succ] at hpassed
      rw [hmark]
      exact hpassed
    · rw [hmark, hrows]
      cases depth with
      | zero =>
        exact .some ⟨MailMerge.elementTokens body, ts, rfl, helement, hts, by rw [hlength]⟩
      | succ depth => exact hlater depth

/-- Counting backwards from the end of tokens, which stands in character data, finds the starts of
the rows that are open there. -/
structure OpenRows (path inner : Path) (ds : List Token) : Prop where
  leads : Leads path {} (.at inner) ds
  closed : inMarkup false (ds.flatMap Token.text) = false
  found : ∀ depth, Option.Rel (PassesAt path {} (.at inner) ds 0) (rowsIn inner)[depth]?
    (Markup.unmatchedOpening? depth
      ((angleMarks 0 (ds.flatMap Token.text)).reverse.map RowMark.tag))

section OpenRows

variable {ds : List Token}

theorem OpenRows.token {t : Token} (h : OpenRows path inner ds) (hangle : '<' ∉ t.text)
    (ht : Leads path (.at inner) (.at inner) [t]) : OpenRows path inner (ds ++ [t]) := by
  have htext : (ds ++ [t]).flatMap Token.text = ds.flatMap Token.text ++ t.text := by simp
  have hmarks : angleMarks 0 (ds.flatMap Token.text ++ t.text)
      = angleMarks 0 (ds.flatMap Token.text) := by
    rw [(angleMarks_append_of_inMarkup h.closed 0 t.text).1, angleMarks_of_notMem hangle,
      List.append_nil]
  refine ⟨h.leads.append ht, ?_, fun depth => ?_⟩
  · rw [htext, inMarkup_append, h.closed]
    exact inMarkup_of_notMem hangle
  · rw [htext, hmarks]
    exact rel_mono (fun _ _ hpass => hpass.append_right ht) (h.found depth)

theorem OpenRows.element {body : List Char} {tag : ElementTag} {next : Path}
    (h : OpenRows path inner ds) (hopen : '<' ∉ body) (hclose : '>' ∉ body)
    (htag : elementTag? body = some tag) (hfollow : tag.follow? inner = some next) :
    OpenRows path next (ds ++ elementTokens body) := by
  have helement : Leads path (.at inner) (.at next) (elementTokens body) :=
    .elementTokens hopen hclose htag hfollow
  have hmarks : angleMarks 0 (ds.flatMap Token.text ++ '<' :: (body ++ ['>']))
      = angleMarks 0 (ds.flatMap Token.text)
        ++ (tag.rowMark? (ds.flatMap Token.text).length (body.length + 2)).toList := by
    have hmark := angleMarks_elementTag htag hopen hclose (0 + (ds.flatMap Token.text).length) []
    rw [List.append_nil] at hmark
    rw [(angleMarks_append_of_inMarkup h.closed 0 _).1, hmark, Nat.zero_add]
    simp [angleMarks]
  refine ⟨h.leads.append helement, ?_, fun depth => ?_⟩
  · rw [List.flatMap_append, text_elementTokens, inMarkup_append, h.closed, ← List.cons_append,
      inMarkup_append]
    generalize inMarkup false ('<' :: body) = inside
    cases inside <;> rfl
  · rw [List.flatMap_append, text_elementTokens, hmarks, List.reverse_append, List.map_append]
    have hearlier := fun k => rel_mono (fun _ _ hpass => hpass.append_right helement) (h.found k)
    rcases rowsIn_follow? hfollow (ds.flatMap Token.text).length (body.length + 2) with
      ⟨hmark, hrows⟩ | ⟨hmark, hrows⟩ | ⟨hmark, hrows⟩
    · rw [hmark, hrows]
      exact hearlier depth
    · rw [hmark, hrows]
      cases depth with
      | zero => exact .some ⟨ds, elementTokens body, rfl, h.leads, helement, (Nat.zero_add _).symm⟩
      | succ depth => exact hearlier depth
    · -- the start of a row that is closed here is passed
      have hpassed := hearlier (depth + 1)
      rw [hrows, List.getElem?_cons_succ] at hpassed
      rw [hmark]
      exact hpassed

end OpenRows

/-- Counting backwards finds the starts of the rows that are open. -/
theorem Leads.openRows (hproper : ∀ t ∈ ts, t.Proper window)
    (h : Leads path {} (.at inner) ts) : OpenRows path inner ts := by
  have hgrows : ∀ ds, OpenRows path [] ds → OpenRows path inner (ds ++ ts) := by
    refine h.tagwise (motive := fun start ts => ∀ ds, OpenRows path start ds →
      OpenRows path inner (ds ++ ts)) ?_ ?_ ?_ hproper
    · intro ds hds
      rwa [List.append_nil]
    · intro start t ts hangle ht _ ih ds hds
      rw [List.append_cons]
      exact ih _ (hds.token hangle ht)
    · intro start next body tag ts hopen hclose htag hfollow _ ih ds hds
      rw [← List.append_assoc]
      exact ih _ (hds.element hopen hclose htag hfollow)
  exact hgrows [] ⟨nil_iff.2 rfl, rfl, fun _ => .none⟩

end Walks

/-! ### The table pass -/

section Tables

variable {data : DataTree} {options : Options} {path : Path} {p : Place}

/-- What comes of a row leads where the row does. -/
theorem LaidBetween.expandRow (hescape : options.escapeValues = true) (hdata : data.BraceFree)
    (name : String) {row : List Char} (h : LaidBetween options.window path p p row) :
    LaidBetween options.window path p p (expandRow data options name row).text := by
  obtain ⟨ts, hproper, hleads, rfl⟩ := h
  rw [expandRow_eq, tokens_flatMap_text hproper]
  cases tableProblem? data name with
  | some w => exact .nil p
  | none => exact hleads.items hescape hdata .table hproper name

/-- A round leads where the text does. -/
theorem LaidBetween.tableRound (hescape : options.escapeValues = true) (hdata : data.BraceFree)
    {done rest done' rest' : List Char} {note : Expansion}
    (hdone : LaidBetween options.window path {} p done)
    (hrest : LaidBetween options.window path p {} rest)
    (h : tableRound data options done rest = some (note, done', rest')) :
    note.text = [] ∧ ∃ r, LaidBetween options.window path {} r done' ∧
      LaidBetween options.window path r {} rest' := by
  obtain ⟨ds, hds, hdone, rfl⟩ := hdone
  obtain ⟨ts, hts, hrest, rfl⟩ := hrest
  cases hfirst : firstMark? (tokens options.window (ts.flatMap Token.text)) with
  | none => simp [MailMerge.tableRound, hfirst] at h
  | some found =>
    obtain ⟨between, name⟩ := found
    have hread := hfirst
    rw [tokens_flatMap_text hts] at hread
    obtain ⟨before, after, rfl, rfl, -⟩ := eq_append_of_firstMark? hread
    have hmark := hts (.tag (.table name)) (by simp)
    have htext : (before ++ .tag (.table name) :: after).flatMap Token.text
        = before.flatMap Token.text ++ ((Tag.table name).text ++ after.flatMap Token.text) := by
      rw [List.flatMap_append, List.flatMap_cons, Token.text]
    rw [tableRound_eq data hfirst htext, ← List.flatMap_append] at h
    -- the mark stands in character data
    obtain ⟨q, hbefore, hafter⟩ := Leads.append_iff.1 hrest
    obtain ⟨⟨hdata', -⟩, hafter⟩ := Leads.tag_iff.1 hafter
    obtain ⟨inner, rfl⟩ : ∃ inner, q = .at inner := ⟨q.path, by rw [Place.at, ← hdata']⟩
    have hall := hdone.append hbefore
    have hproper : (∀ t ∈ ds ++ before, t.Proper options.window) ∧
        ∀ t ∈ after, t.Proper options.window := by
      simp only [List.forall_mem_append, List.forall_mem_cons] at hts ⊢
      exact ⟨⟨hds, hts.1⟩, hts.2.2⟩
    -- the row around it starts and stops in the elements around the row
    have hrows := hall.openRows hproper.1
    have hstart := hrows.found 0
    have hstop := hafter.unmatchedClosing? hproper.2
      ((ds ++ before).flatMap Token.text ++ (Tag.table name).text).length 0
    rw [rowStart_eq_unmatchedOpening? hrows.closed,
      rowStop_append (notMem_tagText hmark) (length_text_table name)] at h
    rcases rel_cases hstart with ⟨hnone, hs⟩ | ⟨outer, start, hsome, hs, row₁⟩
    · rw [hs] at h
      cases h
      exact ⟨rfl, .at inner, ⟨_, hproper.1, hall, rfl⟩, ⟨_, hproper.2, hafter, rfl⟩⟩
    rcases rel_cases hstop with ⟨hnone, ht⟩ | ⟨outer', stop, hsome', ht, row₂⟩
    · rw [hnone] at hsome
      cases hsome
    obtain rfl : outer = outer' := Option.some.inj (hsome.symm.trans hsome')
    obtain ⟨ds', row₁, hall_eq, hds', hrow₁, rfl⟩ := row₁
    obtain ⟨row₂, ts', rfl, hrow₂, hts', rfl⟩ := row₂
    rw [hs, ht, hall_eq] at h
    simp only [Nat.zero_add, Nat.add_sub_cancel_left, List.flatMap_append, List.drop_left,
      List.take_left, List.append_assoc, Option.some.injEq, Prod.mk.injEq] at h
    obtain ⟨rfl, rfl, rfl⟩ := h
    rw [hall_eq, List.forall_mem_append, List.forall_mem_append] at hproper
    obtain ⟨⟨hds'', hrow₁'⟩, hrow₂', hts''⟩ := hproper
    have hrow : LaidBetween options.window path (.at outer) (.at outer)
        (row₁.flatMap Token.text ++ ((Tag.table name).text ++ row₂.flatMap Token.text)) :=
      .append ⟨row₁, hrow₁', hrow₁, rfl⟩ (.append
        (.of_token hmark (Leads.tag_iff.2 ⟨⟨rfl, fun h => h.elim⟩, Leads.nil_iff.2 rfl⟩))
        ⟨row₂, hrow₂', hrow₂, rfl⟩)
    exact ⟨rfl, .at outer, .append ⟨ds', hds'', hds', rfl⟩ (hrow.expandRow hescape hdata name),
      ⟨ts', hts'', hts', rfl⟩⟩

/-- **The table pass keeps a text laid out.** -/
theorem LaidBetween.expandTables (hescape : options.escapeValues = true) (hdata : data.BraceFree)
    {s : List Char} (h : LaidBetween options.window path {} {} s) :
    LaidBetween options.window path {} {} (expandTables data options s).text := by
  have hfrom : ∀ {done rest p}, LaidBetween options.window path {} p done →
      LaidBetween options.window path p {} rest →
      LaidBetween options.window path {} {} (expandTablesFrom data options done rest).text := by
    intro done rest
    fun_induction expandTablesFrom data options done rest with
    | case1 done rest _ =>
      intro p hdone hrest
      exact hdone.append hrest
    | case2 done rest note done' rest' hround _ ih =>
      intro p hdone hrest
      obtain ⟨hnote, r, hdone', hrest'⟩ := hdone.tableRound hescape hdata hrest hround
      rw [Expansion.text_append, hnote, List.nil_append]
      exact ih hdone' hrest'
  exact hfrom (.nil {}) h

end Tables

/-! ### Every pass -/

section Passes

variable {data : DataTree} {options : Options} {path : Path} {s : List Char}

theorem LaidOut.expandLoops (hescape : options.escapeValues = true) (hdata : data.BraceFree)
    (h : LaidOut options.window path s) :
    LaidOut options.window path (expandLoops data options (tokens options.window s)).text := by
  obtain ⟨ts, hproper, hleads, rfl⟩ := laidOut_iff.1 h
  rw [tokens_flatMap_text hproper]
  exact laidOut_iff.2 (hleads.expandLoops hescape hdata hproper)

theorem LaidOut.expandConditionals (data : DataTree) (h : LaidOut options.window path s) :
    LaidOut options.window path (expandConditionals data (tokens options.window s)).text := by
  obtain ⟨ts, hproper, hleads, rfl⟩ := laidOut_iff.1 h
  rw [tokens_flatMap_text hproper]
  exact laidOut_iff.2 (hleads.expandConditionals hproper)

theorem LaidOut.expandTables (hescape : options.escapeValues = true) (hdata : data.BraceFree)
    (h : LaidOut options.window path s) :
    LaidOut options.window path (expandTables data options s).text :=
  laidOut_iff.2 ((laidOut_iff.1 h).expandTables hescape hdata)

theorem LaidOut.expandPlaceholders (hescape : options.escapeValues = true) (hdata : data.BraceFree)
    (placed : Nat) (h : LaidOut options.window path s) :
    LaidOut options.window path
      (expandPlaceholders data options placed (tokens options.window s)).text := by
  obtain ⟨ts, hproper, hleads, rfl⟩ := laidOut_iff.1 h
  rw [tokens_flatMap_text hproper]
  exact laidOut_iff.2 (hleads.expandPlaceholders hescape hdata hproper placed)

end Passes

/-- **Expanding keeps a text laid out**, pass by pass; so what comes of a well nested template is
well nested again. -/
theorem laidOut_passes {data : DataTree} {options : Options} {path : Path} {s : List Char}
    (hescape : options.escapeValues = true) (hdata : data.BraceFree)
    (h : LaidOut options.window path s) :
    let looped := (expandLoops data options (tokens options.window s)).text
    let decided := (expandConditionals data (tokens options.window looped)).text
    let tabled := (expandTables data options decided).text
    let filled := (expandPlaceholders data options 0 (tokens options.window tabled)).text
    (LaidOut options.window path looped ∧ LaidOut options.window path decided ∧
        LaidOut options.window path tabled ∧ LaidOut options.window path filled) ∧
      (expand data options s).text = filled ∧ WellNested (expand data options s).text := by
  intro looped decided tabled filled
  have hlooped : LaidOut options.window path looped := h.expandLoops hescape hdata
  have hdecided : LaidOut options.window path decided := hlooped.expandConditionals data
  have htabled : LaidOut options.window path tabled := hdecided.expandTables hescape hdata
  have hfilled : LaidOut options.window path filled := htabled.expandPlaceholders hescape hdata 0
  have htext : (expand data options s).text = filled := by
    simp [expand, Expansion.withoutText, looped, decided, tabled, filled]
  refine ⟨⟨hlooped, hdecided, htabled, hfilled⟩, htext, ?_⟩
  rw [htext]
  exact hfilled.wellNested

/-- A loop, a conditional and a row, which reach over several paragraphs. -/
theorem laidOut_passes_paragraphs :
    let s := "<p><t>\x7b#k\x7d\x7bn\x7d</t></p><p><t>\x7b/k\x7d\x7b?c\x7dyes</t></p>".toList
      ++ "<p><t>\x7b:else\x7dno\x7b/c\x7d</t></p>".toList
      ++ "<w:tr><t>\x7btable:k\x7d\x7bn\x7d</t></w:tr>".toList
    let path := ["t".toList, "p".toList]
    let data : DataTree := ⟨[("k", .list [.map ⟨[("n", .string "<A>")]⟩, .null, .map ⟨[]⟩])]⟩
    let options : Options := {}
    (options.escapeValues = true ∧ data.BraceFree ∧ LaidOut options.window path s) ∧
      LaidOut options.window path (expandLoops data options (tokens options.window s)).text ∧
      WellNested (expand data options s).text := by
  intro s path data options
  let chars : String → List Token := fun s => s.toList.map .char
  let ts : List Token :=
    chars "<p><t>" ++ [.tag (.loopOpen "k"), .tag (.simple "n")] ++ chars "</t></p><p><t>"
      ++ [.tag (.close "k"), .tag (.condOpen "c")] ++ chars "yes</t></p><p><t>"
      ++ [.tag .otherwise] ++ chars "no" ++ [.tag (.close "c")] ++ chars "</t></p><w:tr><t>"
      ++ [.tag (.table "k"), .tag (.simple "n")] ++ chars "</t></w:tr>"
  have hdata : data.BraceFree := by
    simp only [data, DataTree.BraceFree, Value.braceFree_map, List.forall_mem_cons,
      Value.braceFree_list, Value.braceFree_string, Value.braceFree_null,
      List.not_mem_nil, false_implies, implies_true]
    decide
  have hs : LaidOut options.window path s :=
    laidOut_iff.2 ⟨ts, by decide, by decide, by decide⟩
  obtain ⟨⟨hlooped, -⟩, -, hnested⟩ := @laidOut_passes data options path s rfl hdata hs
  exact ⟨⟨rfl, hdata, hs⟩, hlooped, hnested⟩

end MailMerge
