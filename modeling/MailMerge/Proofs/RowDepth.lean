import MailMerge.Proofs.Rounds

/-!
# How many rows are open

Row tags that stand in character data are read from left to right, by what they do to the number of
open rows: a text **leads** from one number to another (`LeadsRows`) when it is made of character
data and pieces of markup, each of which opens a row, closes one, or does neither. Texts can be put
together, and cut before braces (`LeadsRows.append`, `LeadsRows.cut`).

The searches for the row around a mark count these tags. Behind a text that leads from no open rows,
they find the start of each row that is open there, and no others (`LeadsRows.openings`). In front
of a text that closes rows, they find where each of them stops, whatever follows the text
(`LeadsRows.closing`). So a text that closes all its rows is passed over by later searches
(`LeadsRows.rowStart_append_left`), and its own rows do not depend on what follows.

When both tags and row tags stand in character data, a text leads where its row tags do
(`leadsRows_of_openAfter`).
-/

namespace MailMerge

open Markup

namespace Markup

/-! ### Tags of rows, one after the other -/

/-- The number of open rows behind some tags, if no tag closes a row where none is open. -/
def openAfter : Nat → List RowTag → Option Nat
  | depth, [] => some depth
  | depth, .opens _ :: tags => openAfter (depth + 1) tags
  | 0, .closes _ :: _ => none
  | depth + 1, .closes _ :: tags => openAfter depth tags

/-- A row tag in a text that starts `n` characters further on. -/
def RowTag.shift (n : Nat) : RowTag → RowTag
  | opens start => opens (n + start)
  | closes stop => closes (n + stop)

/-- The same for a row tag and the place of its name. -/
def RowMark.shift (n : Nat) (m : RowMark) : RowMark :=
  ⟨n + m.place, m.tag.shift n⟩

theorem angleMarks_add (n place : Nat) (s : List Char) :
    angleMarks (n + place) s = (angleMarks place s).map (RowMark.shift n) := by
  induction s generalizing place with
  | nil => rfl
  | cons c s ih =>
    have hmark : angleMark? (n + place) s = (angleMark? place s).map (RowMark.shift n) := by
      by_cases hstarts : StartsRowTag s
      · rcases hstarts with ⟨x, r, rfl, hx⟩ | ⟨x, r, rfl, hx⟩
        · rw [angleMark?_opening hx, angleMark?_opening hx]
          rfl
        · rw [angleMark?_closing hx, angleMark?_closing hx]
          simp only [Option.map_some, RowMark.shift, RowTag.shift, Option.some.injEq,
            RowMark.mk.injEq, RowTag.closes.injEq]
          omega
      · rw [angleMark?_eq_none hstarts, angleMark?_eq_none hstarts]
        rfl
    rw [angleMarks, angleMarks, Nat.add_assoc, ih, hmark, List.map_append]
    congr 1
    split
    · cases angleMark? place s <;> rfl
    · rfl

theorem unmatchedOpening?_shift (n depth : Nat) (tags : List RowTag) :
    unmatchedOpening? depth (tags.map (RowTag.shift n))
      = (unmatchedOpening? depth tags).map (n + ·) := by
  fun_induction unmatchedOpening? depth tags with
  | case1 => rfl
  | case2 _ _ _ ih => exact ih
  | case3 => rfl
  | case4 _ _ _ ih => exact ih

theorem unmatchedClosing?_shift (n depth : Nat) (tags : List RowTag) :
    unmatchedClosing? depth (tags.map (RowTag.shift n))
      = (unmatchedClosing? depth tags).map (n + ·) := by
  fun_induction unmatchedClosing? depth tags with
  | case1 => rfl
  | case2 _ _ _ ih => exact ih
  | case3 => rfl
  | case4 _ _ _ ih => exact ih

/-- Where nothing is found in what comes later, the search is over before. -/
theorem unmatchedOpening?_append_of_none {tags : List RowTag}
    (h : ∀ k, unmatchedOpening? k tags = none) (depth : Nat) (first : List RowTag) :
    unmatchedOpening? depth (first ++ tags) = unmatchedOpening? depth first := by
  fun_induction unmatchedOpening? depth first with
  | case1 depth => exact h depth
  | case2 _ _ _ ih => exact ih
  | case3 => rfl
  | case4 _ _ _ ih => exact ih

end Markup

/-! ### Texts that open and close rows -/

/-- What stands between angle brackets, if it is markup: no braces, and no row tags that start
inside. -/
structure IsPiece (body : List Char) : Prop where
  ended : '>' ∉ body
  braceFree : BraceFree body
  single : ∀ x y, body = x ++ '<' :: y → ¬StartsRowTag (y ++ ['>'])

/-- What a piece of markup does to the number of open rows. -/
inductive RowStep (body : List Char) : Nat → Nat → Prop
  | stays {d : Nat} (h : ∀ place r, angleMark? place (body ++ '>' :: r) = none) : RowStep body d d
  | opens {d : Nat}
    (h : ∀ place r, angleMark? place (body ++ '>' :: r) = some ⟨place + 1, .opens place⟩) :
    RowStep body d (d + 1)
  | closes {d : Nat} (h : ∀ place r, angleMark? place (body ++ '>' :: r)
      = some ⟨place + 2, .closes (place + (body.length + 2))⟩) : RowStep body (d + 1) d

/-- A text, which starts and ends in character data, leads from one number of open rows to
another. -/
inductive LeadsRows : Nat → Nat → List Char → Prop
  | data {d : Nat} {s : List Char} (hs : '<' ∉ s) : LeadsRows d d s
  | piece {d e f : Nat} {s body r : List Char} (hs : '<' ∉ s) (hbody : IsPiece body)
    (hstep : RowStep body d e) (hr : LeadsRows e f r) :
    LeadsRows d f (s ++ '<' :: (body ++ '>' :: r))

/-- The only row tag in a piece of markup is the piece itself. -/
theorem IsPiece.angleMarks {body : List Char} (h : IsPiece body) (place : Nat) (r : List Char) :
    Markup.angleMarks place ('<' :: (body ++ '>' :: r))
      = (angleMark? place (body ++ '>' :: r)).toList
        ++ Markup.angleMarks (place + (body.length + 2)) r := by
  have hinside : ∀ {y} place, (∃ x, body = x ++ y) →
      Markup.angleMarks place (y ++ '>' :: r) = Markup.angleMarks (place + (y.length + 1)) r := by
    intro y
    induction y with
    | nil => exact fun place _ => rfl
    | cons c y ih =>
      rintro place ⟨x, hx⟩
      have hnone : (if c = '<' then (angleMark? place (y ++ '>' :: r)).toList else []) = [] := by
        split
        · next hc =>
          subst hc
          have hy : '>' ∉ y := fun hm => h.ended (by simp [hx, hm])
          have hno := h.single x y hx
          rw [startsRowTag_append_iff hy, ← startsRowTag_append_iff hy r] at hno
          rw [angleMark?_eq_none hno]
          rfl
        · rfl
      rw [List.cons_append, Markup.angleMarks, hnone, List.nil_append,
        ih (place + 1) ⟨x ++ [c], by simp [hx]⟩, List.length_cons]
      congr 1
      omega
  rw [Markup.angleMarks, if_pos rfl, hinside (place + 1) ⟨[], rfl⟩]
  congr 2
  omega

namespace LeadsRows

variable {d e f : Nat} {s r : List Char}

theorem inMarkup_eq (h : LeadsRows d e s) : inMarkup false s = false := by
  induction h with
  | data hs => exact inMarkup_of_notMem hs
  | @piece d e f s body r hs hbody hstep hr ih =>
    have hclosed : inMarkup (inMarkup false (s ++ '<' :: body)) ['>'] = false := by
      generalize inMarkup false (s ++ '<' :: body) = inside
      cases inside <;> rfl
    have hsplit : s ++ '<' :: (body ++ '>' :: r) = (s ++ '<' :: body) ++ (['>'] ++ r) := by simp
    rw [hsplit, inMarkup_append, inMarkup_append, hclosed]
    exact ih

/-- The row tags of a text are those of its parts. -/
theorem angleMarks_append (h : LeadsRows d e s) (place : Nat) (r : List Char) :
    angleMarks place (s ++ r) = angleMarks place s ++ angleMarks (place + s.length) r :=
  (angleMarks_append_of_inMarkup h.inMarkup_eq place r).1

theorem nil (d : Nat) : LeadsRows d d [] :=
  .data List.not_mem_nil

/-- Character data in front lead nowhere. -/
theorem data_append (hs : '<' ∉ s) (hr : LeadsRows d e r) : LeadsRows d e (s ++ r) := by
  have hmem : ∀ {r}, '<' ∉ r → '<' ∉ s ++ r := fun hr hm => (List.mem_append.1 hm).elim hs hr
  cases hr with
  | data hr => exact .data (hmem hr)
  | piece hr hbody hstep hr' =>
    rw [← List.append_assoc]
    exact .piece (hmem hr) hbody hstep hr'

theorem append (hs : LeadsRows d e s) (hr : LeadsRows e f r) : LeadsRows d f (s ++ r) := by
  induction hs with
  | data hs => exact data_append hs hr
  | piece hs hbody hstep _ ih =>
    have := LeadsRows.piece hs hbody hstep (ih hr)
    simpa using this

theorem flatMap {α : Type} {l : List α} {g : α → List Char} (h : ∀ a ∈ l, LeadsRows d d (g a)) :
    LeadsRows d d (l.flatMap g) := by
  induction l with
  | nil => exact .nil d
  | cons a l ih =>
    rw [List.forall_mem_cons] at h
    exact h.1.append (ih h.2)

/-- Behind character data a text leads where it did. -/
theorem of_data_append (hs : '<' ∉ s) (h : LeadsRows d e (s ++ r)) : LeadsRows d e r := by
  generalize hx : s ++ r = x at h
  cases h with
  | data hdata =>
    subst hx
    exact .data fun hm => hdata (List.mem_append_right _ hm)
  | piece ht hbody hstep hr =>
    obtain ⟨y, rfl, rfl⟩ | ⟨y, rfl, hy⟩ := List.append_eq_append_iff.1 hx
    · exact .piece (fun hm => ht (List.mem_append_right _ hm)) hbody hstep hr
    · obtain _ | ⟨c, y⟩ := y
      · rw [List.nil_append] at hy
        subst hy
        exact .piece List.not_mem_nil hbody hstep hr
      · obtain ⟨rfl, -⟩ := List.cons.inj hy
        exact absurd (List.mem_append_right _ List.mem_cons_self) hs

/-- A text can be cut before a brace. -/
theorem cut {c : Char} (hc : isBrace c = true) (h : LeadsRows d f (s ++ c :: r)) :
    ∃ e, LeadsRows d e s ∧ LeadsRows e f (c :: r) := by
  have hangle : c ≠ '<' ∧ c ≠ '>' := by
    constructor <;> rintro rfl <;> cases hc
  generalize hx : s ++ c :: r = x at h
  induction h generalizing s with
  | data hs =>
    subst hx
    rw [List.mem_append, not_or] at hs
    exact ⟨_, .data hs.1, .data hs.2⟩
  | @piece d e f t body rest ht hbody hstep hrest ih =>
    obtain ⟨y, rfl, hy⟩ | ⟨y, rfl, hy⟩ := List.append_eq_append_iff.1 hx
    · obtain _ | ⟨c', y⟩ := y
      · exact absurd (List.cons.inj hy).1 hangle.1
      · obtain ⟨rfl, rfl⟩ := List.cons.inj hy
        rw [List.mem_append, not_or] at ht
        exact ⟨d, .data ht.1, .piece ht.2 hbody hstep hrest⟩
    · -- the brace stands behind the piece, which has none
      obtain _ | ⟨c', y⟩ := y
      · exact absurd (List.cons.inj hy).1.symm hangle.1
      · obtain ⟨rfl, htail⟩ := List.cons.inj hy
        obtain ⟨z, rfl, hz⟩ | ⟨z, rfl, hz⟩ := List.append_eq_append_iff.1 htail
        · obtain _ | ⟨c', z⟩ := z
          · exact absurd (List.cons.inj hz).1.symm hangle.2
          · obtain ⟨rfl, rfl⟩ := List.cons.inj hz
            obtain ⟨e, hz, hr⟩ := ih rfl
            exact ⟨e, .piece ht hbody hstep hz, hr⟩
        · obtain _ | ⟨c', z⟩ := z
          · exact absurd (List.cons.inj hz).1 hangle.2
          · obtain ⟨rfl, -⟩ := List.cons.inj hz
            exact absurd (hbody.braceFree c (by simp)) (by simp [hc])

/-- The row tags of a text that starts with character data and a piece of markup. -/
theorem angleMarks_piece {body : List Char} (hs : '<' ∉ s) (hbody : IsPiece body) (place : Nat)
    (r : List Char) :
    angleMarks place (s ++ '<' :: (body ++ '>' :: r))
      = (angleMark? (place + s.length) (body ++ '>' :: r)).toList
        ++ angleMarks (place + s.length + (body.length + 2)) r := by
  rw [angleMarks_append_of_notMem hs, hbody.angleMarks]

/-! ### Searches -/

/-- Rows that are open in front of a text and closed in it: counting forwards finds where the one
around `k` others stops, whatever follows the text. -/
theorem closing {k m : Nat} (h : LeadsRows d f s) (hd : d = m + (k + 1)) (hf : f ≤ m) :
    ∃ v r, s = v ++ '>' :: r ∧ LeadsRows d m (v ++ ['>']) ∧ LeadsRows m f r ∧
      ∀ place l, unmatchedClosing? k ((angleMarks place s).map RowMark.tag ++ l)
        = some (place + (v ++ ['>']).length) := by
  induction h generalizing k with
  | data => omega
  | @piece d e f s body r hs hbody hstep hr ih =>
    -- a row that is not closed by the piece is closed behind it
    have hlater : ∀ k', e = m + (k' + 1) →
        (∀ place l, unmatchedClosing? k
            (((angleMark? place (body ++ '>' :: r)).toList).map RowMark.tag ++ l)
          = unmatchedClosing? k' l) →
        ∃ v r', s ++ '<' :: (body ++ '>' :: r) = v ++ '>' :: r' ∧ LeadsRows d m (v ++ ['>']) ∧
          LeadsRows m f r' ∧ ∀ place l, unmatchedClosing? k
              ((angleMarks place (s ++ '<' :: (body ++ '>' :: r))).map RowMark.tag ++ l)
            = some (place + (v ++ ['>']).length) := by
      intro k' he hpass
      obtain ⟨v, r', rfl, hv, hr', hfound⟩ := ih he hf
      have hfront : s ++ '<' :: (body ++ '>' :: v) ++ ['>']
          = s ++ '<' :: (body ++ '>' :: (v ++ ['>'])) := by simp
      refine ⟨s ++ '<' :: (body ++ '>' :: v), r', by simp, ?_, hr', fun place l => ?_⟩
      · rw [hfront]
        exact .piece hs hbody hstep hv
      · rw [angleMarks_piece hs hbody, List.map_append, List.append_assoc, hpass, hfound, hfront]
        simp only [List.length_append, List.length_cons, Option.some.injEq]
        omega
    cases hstep with
    | stays hmark => exact hlater k hd fun place l => by rw [hmark]; rfl
    | opens hmark => exact hlater (k + 1) (by omega) fun place l => by rw [hmark]; rfl
    | closes hmark =>
      cases k with
      | succ k => exact hlater k (by omega) fun place l => by rw [hmark]; rfl
      | zero =>
        obtain rfl : e = m := by omega
        have hpiece : s ++ '<' :: body ++ ['>'] = s ++ '<' :: (body ++ '>' :: []) := by simp
        refine ⟨s ++ '<' :: body, r, by simp, ?_, hr, fun place l => ?_⟩
        · rw [hpiece]
          exact .piece hs hbody (.closes hmark) (.nil _)
        · rw [angleMarks_piece hs hbody, hmark, hpiece]
          simp only [Option.toList_some, List.map_append, List.map_cons, List.cons_append,
            unmatchedClosing?, List.length_append, List.length_cons, List.length_nil,
            Option.some.injEq]
          omega

end LeadsRows

/-- A text that starts with no rows open: counting backwards from its end finds the starts of the
rows that are open there, and no others. -/
structure OpensRows (d : Nat) (s : List Char) : Prop where
  leads : LeadsRows 0 d s
  found : ∀ k,
    (d ≤ k ∧ unmatchedOpening? k ((angleMarks 0 s).reverse.map RowMark.tag) = none) ∨
      ∃ m u v, d = m + (k + 1) ∧ s = u ++ v ∧ LeadsRows 0 m u ∧ LeadsRows m d v ∧
        unmatchedOpening? k ((angleMarks 0 s).reverse.map RowMark.tag) = some u.length

namespace OpensRows

variable {d e : Nat} {s r : List Char}

theorem nil : OpensRows 0 [] :=
  ⟨.nil 0, fun k => .inl ⟨Nat.zero_le k, rfl⟩⟩

theorem data (h : OpensRows d s) (hr : '<' ∉ r) : OpensRows d (s ++ r) := by
  have hmarks : angleMarks 0 (s ++ r) = angleMarks 0 s := by
    rw [h.leads.angleMarks_append, angleMarks_of_notMem hr, List.append_nil]
  refine ⟨h.leads.append (.data hr), fun k => ?_⟩
  rw [hmarks]
  obtain hnone | ⟨m, u, v, hd, rfl, hu, hv, hfound⟩ := h.found k
  · exact .inl hnone
  · exact .inr ⟨m, u, v ++ r, hd, List.append_assoc .., hu, hv.append (.data hr), hfound⟩

theorem piece {body : List Char} (h : OpensRows d s) (hbody : IsPiece body)
    (hstep : RowStep body d e) : OpensRows e (s ++ '<' :: (body ++ ['>'])) := by
  have hleads : LeadsRows d e ('<' :: (body ++ ['>'])) :=
    .piece (s := []) List.not_mem_nil hbody hstep (.nil e)
  have hmarks : (angleMarks 0 (s ++ '<' :: (body ++ ['>']))).reverse.map RowMark.tag
      = ((angleMark? s.length (body ++ ['>'])).toList).map RowMark.tag
        ++ (angleMarks 0 s).reverse.map RowMark.tag := by
    rw [h.leads.angleMarks_append, hbody.angleMarks, Nat.zero_add]
    cases angleMark? s.length (body ++ ['>']) <;> simp [angleMarks]
  -- a row that is not opened by the piece is opened in front of it
  have hearlier : ∀ k k', (∀ l, unmatchedOpening? k
        (((angleMark? s.length (body ++ ['>'])).toList).map RowMark.tag ++ l)
          = unmatchedOpening? k' l) → (∀ m, d = m + (k' + 1) ↔ e = m + (k + 1)) →
      (d ≤ k' → e ≤ k) →
      (e ≤ k ∧ unmatchedOpening? k
          ((angleMarks 0 (s ++ '<' :: (body ++ ['>']))).reverse.map RowMark.tag) = none) ∨
        ∃ m u v, e = m + (k + 1) ∧ s ++ '<' :: (body ++ ['>']) = u ++ v ∧ LeadsRows 0 m u ∧
          LeadsRows m e v ∧ unmatchedOpening? k
            ((angleMarks 0 (s ++ '<' :: (body ++ ['>']))).reverse.map RowMark.tag)
              = some u.length := by
    intro k k' hpass hsome hnone
    rw [hmarks, hpass]
    obtain ⟨hle, hfound⟩ | ⟨m, u, v, hd, hs, hu, hv, hfound⟩ := h.found k'
    · exact .inl ⟨hnone hle, hfound⟩
    · refine .inr ⟨m, u, v ++ '<' :: (body ++ ['>']), (hsome m).1 hd, ?_, hu, hv.append hleads,
        hfound⟩
      rw [hs, List.append_assoc]
  refine ⟨h.leads.append hleads, fun k => ?_⟩
  cases hstep with
  | stays hmark =>
    exact hearlier k k (fun l => by rw [hmark]; rfl) (fun m => Iff.rfl) id
  | closes hmark =>
    exact hearlier k (k + 1) (fun l => by rw [hmark]; rfl) (fun m => by omega) (by omega)
  | opens hmark =>
    cases k with
    | succ k =>
      exact hearlier (k + 1) k (fun l => by rw [hmark]; rfl) (fun m => by omega) (by omega)
    | zero =>
      refine .inr ⟨d, s, '<' :: (body ++ ['>']), rfl, rfl, h.leads, hleads, ?_⟩
      rw [hmarks, hmark]
      rfl

theorem append (h : OpensRows d s) (hr : LeadsRows d e r) : OpensRows e (s ++ r) := by
  induction hr generalizing s with
  | data hr => exact h.data hr
  | @piece d e f t body r ht hbody hstep _ ih =>
    have hgrown := ih ((h.data ht).piece hbody hstep)
    simpa using hgrown

end OpensRows

/-- Counting backwards finds the starts of the rows that are open. -/
theorem LeadsRows.openings {d : Nat} {s : List Char} (h : LeadsRows 0 d s) : OpensRows d s :=
  OpensRows.nil.append h

/-! ### Passing over texts that close their rows -/

namespace LeadsRows

variable {a : List Char}

/-- A text that closes its rows is passed over by the search for the start of a row behind it. -/
theorem rowStart_append_left (ha : LeadsRows 0 0 a) (before after : List Char) :
    rowStart (a ++ before) after = (rowStart before after).map (a.length + ·) := by
  have hnone : ∀ k, unmatchedOpening? k ((angleMarks 0 a).reverse.map RowMark.tag) = none := by
    intro k
    obtain ⟨-, hnone⟩ | ⟨m, u, v, hd, -⟩ := ha.openings.found k
    · exact hnone
    · omega
  have hplaces := (angleMarks_append_of_inMarkup ha.inMarkup_eq 0 (before ++ after)).2
  have hall : (angleMarks 0 a).filter
      (fun m => m.place + rowName.length ≤ (a ++ before).length) = angleMarks 0 a := by
    rw [List.filter_eq_self]
    intro m hm
    have := hplaces m hm
    simp only [List.length_append, decide_eq_true_eq]
    omega
  have hlater : (fun m : RowMark => decide (m.place + rowName.length ≤ (a ++ before).length))
      ∘ RowMark.shift a.length = fun m => decide (m.place + rowName.length ≤ before.length) := by
    funext m
    rw [Function.comp_apply, Bool.eq_iff_iff, decide_eq_true_eq, decide_eq_true_eq,
      List.length_append]
    simp only [RowMark.shift]
    omega
  rw [rowStart, rowStart, rowMarks_eq, rowMarks_eq, List.append_assoc, ha.angleMarks_append,
    Nat.zero_add]
  rw [List.filter_append, hall, ← Nat.add_zero a.length, angleMarks_add, List.filter_map,
    Nat.add_zero, hlater, List.reverse_append, List.map_append,
    unmatchedOpening?_append_of_none hnone, ← unmatchedOpening?_shift, ← List.map_reverse,
    List.map_map, List.map_map]
  rfl

/-- The search for the end of a row is the same behind any text. -/
theorem rowStop_append_left (a : List Char) {mark : List Char} (hmark : '<' ∉ mark)
    (hlength : 2 ≤ mark.length) (before after : List Char) :
    rowStop (a ++ before ++ mark) after
      = (rowStop (before ++ mark) after).map (a.length + ·) := by
  rw [rowStop_append hmark hlength, rowStop_append hmark hlength, List.append_assoc,
    List.length_append, angleMarks_add, List.map_map, ← unmatchedClosing?_shift, List.map_map]
  rfl

end LeadsRows

/-! ### Texts that are read -/

/-- Wherever the rest of a text has a property, no markup is open; `inside` says whether it is open
at the start. -/
def OutsideMarkup (p : List Char → Prop) (inside : Bool) : List Char → Prop
  | [] => True
  | c :: s => (p (c :: s) → inside = false) ∧ OutsideMarkup p (inMarkup inside [c]) s

instance instDecidableOutsideMarkup (p : List Char → Prop) [DecidablePred p] (inside : Bool) :
    (s : List Char) → Decidable (OutsideMarkup p inside s)
  | [] => isTrue trivial
  | c :: s =>
    have := instDecidableOutsideMarkup p (inMarkup inside [c]) s
    inferInstanceAs (Decidable (_ ∧ _))

/-- A row tag starts the text. -/
def StartsRow : List Char → Prop
  | '<' :: s => StartsRowTag s
  | _ => False

instance : DecidablePred StartsRow := fun s => by
  unfold StartsRow
  split <;> infer_instance

/-- A tag starts the text. -/
def StartsTag (window : Nat) (s : List Char) : Prop :=
  (tagAt? window s).isSome = true

instance (window : Nat) : DecidablePred (StartsTag window) :=
  fun _ => inferInstanceAs (Decidable (_ = _))

/-- A text ends in complete markup, its tags stand in character data, and its row tags match. -/
structure HasWholeRows (window : Nat) (s : List Char) : Prop where
  complete : inMarkup false s = false
  tags : OutsideMarkup (StartsTag window) false s
  matched : openAfter 0 ((rowMarks s).map RowMark.tag) = some 0

theorem OutsideMarkup.inMarkup_eq {p : List Char → Prop} {inside : Bool} {x y : List Char}
    (h : OutsideMarkup p inside (x ++ y)) (hne : y ≠ []) (hy : p y) :
    inMarkup inside x = false := by
  induction x generalizing inside with
  | nil =>
    cases y with
    | nil => exact absurd rfl hne
    | cons c y => exact h.1 hy
  | cons c x ih => exact ih h.2

theorem OutsideMarkup.of_append {p : List Char → Prop} {inside : Bool} {x y : List Char}
    (h : OutsideMarkup p inside (x ++ y)) : OutsideMarkup p (inMarkup inside x) y := by
  induction x generalizing inside with
  | nil => exact h
  | cons c x ih => exact ih h.2

theorem inMarkup_true_of_notMem {s : List Char} (h : '>' ∉ s) : inMarkup true s = true := by
  induction s with
  | nil => rfl
  | cons c s ih =>
    rw [List.mem_cons, not_or] at h
    have hc : (c != '>') = true := by simpa using Ne.symm h.1
    simp only [inMarkup, if_true, hc]
    exact ih h.2

/-- What stands between angle brackets is a piece, if no tags and row tags start inside. -/
theorem isPiece_of_outsideMarkup {window : Nat} {body r : List Char} (hended : '>' ∉ body)
    (hbraces : BracesInTags window body)
    (htags : OutsideMarkup (StartsTag window) true (body ++ '>' :: r))
    (hrows : OutsideMarkup StartsRow true (body ++ '>' :: r)) : IsPiece body := by
  have hopen : ∀ {x y : List Char}, body = x ++ y → inMarkup true x = true := by
    rintro x y rfl
    exact inMarkup_true_of_notMem fun hm => hended (List.mem_append_left _ hm)
  refine ⟨hended, ?_, fun x y hsplit hstarts => ?_⟩
  · have hno : ∀ t, .tag t ∉ tokens window body := by
      intro t ht
      obtain ⟨x, y, hsplit⟩ := exists_append_of_mem_tokens ht
      have hbody : body ++ '>' :: r = x ++ (t.text ++ (y ++ '>' :: r)) := by simp [hsplit]
      rw [hbody] at htags
      have hstarts : StartsTag window (t.text ++ (y ++ '>' :: r)) := by
        rw [StartsTag, tagAt?_eq_some_iff.2 ⟨fits_of_mem_tokens ht, rfl⟩]
        rfl
      have hclosed := htags.inMarkup_eq (by simp [Tag.text]) hstarts
      rw [hopen hsplit] at hclosed
      cases hclosed
    intro c hc
    rw [← text_tokens window body] at hc
    obtain ⟨t, ht, hct⟩ := List.mem_flatMap.1 hc
    cases t with
    | tag t => exact absurd ht (hno t)
    | char d =>
      obtain rfl := List.mem_singleton.1 hct
      exact hbraces c ht
  · have hended' : '>' ∉ y := fun hm => hended (by simp [hsplit, hm])
    have hbody : body ++ '>' :: r = x ++ '<' :: (y ++ '>' :: r) := by simp [hsplit]
    rw [hbody] at hrows
    rw [startsRowTag_append_iff hended', ← startsRowTag_append_iff hended' r] at hstarts
    have hclosed := hrows.inMarkup_eq (List.cons_ne_nil _ _) hstarts
    rw [hopen hsplit] at hclosed
    cases hclosed

/-- A text leads from one number of open rows to another when its row tags do, and both tags and row
tags stand in character data. -/
theorem leadsRows_of_openAfter {window : Nat} {d e : Nat} {s : List Char}
    (hbraces : BracesInTags window s) (hcomplete : inMarkup false s = false)
    (htags : OutsideMarkup (StartsTag window) false s) (hrows : OutsideMarkup StartsRow false s)
    (place : Nat) (h : openAfter d ((angleMarks place s).map RowMark.tag) = some e) :
    LeadsRows d e s := by
  induction hn : s.length using Nat.strongRecOn generalizing s d place with
  | ind n ih =>
    subst hn
    by_cases hangle : '<' ∈ s
    · -- what stands before the first angle bracket, up to where it is closed, and behind
      obtain ⟨u, r, rfl, hu⟩ := List.eq_append_cons_of_mem hangle
      have hopen : inMarkup false u = false := inMarkup_of_notMem hu
      rw [inMarkup_append, hopen] at hcomplete
      obtain ⟨body, r, rfl, hended⟩ := exists_append_of_inMarkup hcomplete
      have hinside : ∀ {p}, OutsideMarkup p false (u ++ '<' :: (body ++ '>' :: r)) →
          OutsideMarkup p true (body ++ '>' :: r) := by
        intro p hp
        have hp := hp.of_append
        rw [hopen] at hp
        exact hp.2
      have hbehind : ∀ {p}, OutsideMarkup p true (body ++ '>' :: r) → OutsideMarkup p false r := by
        intro p hp
        have hp := hp.of_append
        rw [inMarkup_true_of_notMem hended] at hp
        exact hp.2
      have hbraces' : BracesInTags window body ∧ BracesInTags window r := by
        rw [BracesInTags, tokens_append_separator (by decide),
          tokens_append_separator (by decide)] at hbraces
        exact ⟨fun c hc => hbraces c (by simp [hc]), fun c hc => hbraces c (by simp [hc])⟩
      have hbody : IsPiece body :=
        isPiece_of_outsideMarkup hended hbraces'.1 (hinside htags) (hinside hrows)
      have hcomplete' : inMarkup false r = false := by
        have hclose : inMarkup true (body ++ '>' :: r) = false := hcomplete
        rw [inMarkup_append, inMarkup_true_of_notMem hended] at hclose
        exact hclose
      rw [LeadsRows.angleMarks_piece hu hbody] at h
      have hrest := fun d' => ih r.length (by simp; omega) hbraces'.2 hcomplete'
        (hbehind (hinside htags)) (hbehind (hinside hrows)) (place + u.length + (body.length + 2))
        (d := d')
      rcases angleMark?_append hended with hmark | ⟨-, hmark⟩ | ⟨-, hmark⟩
      · rw [hmark] at h
        exact .piece hu hbody (.stays hmark) (hrest d h rfl)
      · rw [hmark] at h
        exact .piece hu hbody (.opens hmark) (hrest (d + 1) h rfl)
      · rw [hmark] at h
        cases d with
        | zero => cases h
        | succ d => exact .piece hu hbody (.closes hmark) (hrest d h rfl)
    · rw [angleMarks_of_notMem hangle] at h
      obtain rfl := Option.some.inj h
      exact .data hangle

end MailMerge
