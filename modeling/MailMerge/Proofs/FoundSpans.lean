import Mathlib.Data.List.Forall2
import MailMerge.Memory.Gather
import MailMerge.Proofs.FoundTags
import MailMerge.Proofs.Gathering

/-!
# Spans gathered in memory

In memory, gathering goes by numbers. A span has a fragment where it starts and one where it stops,
and it is split when these differ (`splitIn`); a fragment is built anew from the split spans whose
numbers are around its own. Gathering by characters deals pieces out, each to the fragment in which
it starts (`Dealt`). Both come to the same fragments (`gather_eq`).

The invariant is about the **border** in front of a fragment: the pieces that have been dealt out to
the fragments before it reach the border, and pass it at most with the last of them, which is a span
then (`Dealt.border`). So the spans that cross a fragment (`crossing`) are at most two: one from
before, which leaves nothing in the fragment (`rebuild_skip`), and one that goes on behind
(`rebuild_last`). Whatever stands between, the fragment keeps (`rebuild_group`).
-/

namespace MailMerge

open Text

/-! ### Borders of fragments -/

theorem byteSize_pos {s : List Char} (hs : s ≠ []) : 0 < byteSize s :=
  Nat.pos_of_ne_zero fun h => hs (byteSize_eq_zero_iff.1 h)

theorem flatten_take_succ {α : Type} {l : List (List α)} {i : Nat} {a : List α}
    (h : l[i]? = some a) : (l.take (i + 1)).flatten = (l.take i).flatten ++ a := by
  rw [List.take_add_one, h, Option.toList_some, List.flatten_append, List.flatten_singleton]

/-- Pieces that gathering deals out, one group to each fragment. -/
structure Dealt (window : Nat) (fragments : List (List Char)) (groups : List (List Piece)) :
    Prop where
  flatten_eq : groups.flatten = pieces window fragments.flatten
  length_eq : groups.length = fragments.length
  startIn : StartIn groups (fragments.map List.length)

namespace Dealt

variable {window : Nat} {fragments : List (List Char)} {groups : List (List Piece)}
  (h : Dealt window fragments groups)

theorem sum_take_eq (fragments : List (List Char)) (i : Nat) :
    ((fragments.map List.length).take i).sum = (fragments.take i).flatten.length := by
  rw [← List.map_take, List.length_flatten]

theorem length_take_le (fragments : List (List Char)) (i : Nat) :
    (fragments.take i).flatten.length ≤ (fragments.take (i + 1)).flatten.length := by
  rw [List.take_add_one, List.flatten_append, List.length_append]
  exact Nat.le_add_right _ _

include h

/-- The pieces up to a border reach it. -/
theorem le_border {i : Nat} (hi : i ≤ fragments.length) :
    (fragments.take i).flatten.length
      ≤ ((groups.take i).flatten.flatMap Piece.text).length := by
  induction hi using Nat.decreasingInduction with
  | self =>
    rw [List.take_length, ← h.length_eq, List.take_length, h.flatten_eq, text_pieces]
  | of_succ i hi ih =>
    have hlt : i < groups.length := h.length_eq ▸ hi
    have hgroup := List.getElem?_eq_getElem hlt
    rw [flatten_take_succ hgroup] at ih
    cases hg : groups[i] with
    | nil =>
      rw [hg, List.append_nil] at ih
      exact Nat.le_trans (length_take_le fragments i) ih
    | cons p after =>
      rw [hg] at hgroup
      obtain ⟨hstart, -⟩ := @h.startIn i [] p after hgroup
      rwa [List.append_nil, sum_take_eq] at hstart

/-- Each of these pieces starts before the border. -/
theorem lt_border {i : Nat} {before : List Piece} {p : Piece}
    (hlast : (groups.take i).flatten = before ++ [p]) :
    (before.flatMap Piece.text).length < (fragments.take i).flatten.length := by
  induction i with
  | zero => simp at hlast
  | succ i ih =>
    cases hgroup : groups[i]? with
    | none =>
      rw [List.take_add_one, hgroup, Option.toList_none, List.append_nil] at hlast
      exact Nat.lt_of_lt_of_le (ih hlast) (length_take_le fragments i)
    | some group =>
      rw [flatten_take_succ hgroup] at hlast
      rcases List.eq_nil_or_concat group with rfl | ⟨group, q, rfl⟩
      · rw [List.append_nil] at hlast
        exact Nat.lt_of_lt_of_le (ih hlast) (length_take_le fragments i)
      · rw [List.concat_eq_append, ← List.append_assoc] at hlast
        obtain ⟨rfl, hq⟩ := List.append_inj' hlast rfl
        obtain rfl := (List.cons.inj hq).1
        rw [List.concat_eq_append] at hgroup
        obtain ⟨-, hstart⟩ := @h.startIn i group q [] hgroup
        rwa [sum_take_eq] at hstart

/-- **The border in front of a fragment** falls between two pieces or inside of a span. -/
theorem border {i : Nat} (hi : i ≤ fragments.length) :
    (groups.take i).flatten.flatMap Piece.text = (fragments.take i).flatten ∨
      ∃ before body y x, (groups.take i).flatten = before ++ [.span body] ∧
        (fragments.take i).flatten = before.flatMap Piece.text ++ y ∧ y ≠ [] ∧
        (groups.take i).flatten.flatMap Piece.text = (fragments.take i).flatten ++ x ∧ x ≠ [] := by
  have hle := h.le_border hi
  have hgroups : (groups.take i).flatten.flatMap Piece.text <+: fragments.flatten := by
    refine ⟨(groups.drop i).flatten.flatMap Piece.text, ?_⟩
    rw [← List.flatMap_append, ← List.flatten_append, List.take_append_drop, h.flatten_eq,
      text_pieces]
  have hfragments : (fragments.take i).flatten <+: fragments.flatten := by
    refine ⟨(fragments.drop i).flatten, ?_⟩
    rw [← List.flatten_append, List.take_append_drop]
  obtain ⟨x, hx⟩ := List.prefix_of_prefix_length_le hfragments hgroups hle
  rcases List.eq_nil_or_concat (groups.take i).flatten with hnil | ⟨before, p, hlast⟩
  · left
    rw [hnil] at hle ⊢
    exact (List.length_eq_zero_iff.1 (Nat.le_zero.1 hle)).symm
  · rw [List.concat_eq_append] at hlast
    have hlt := h.lt_border hlast
    by_cases hxs : x = []
    · left
      rw [← hx, hxs, List.append_nil]
    · right
      have hbefore : before.flatMap Piece.text <+: (fragments.take i).flatten := by
        refine List.prefix_of_prefix_length_le ?_ hfragments (Nat.le_of_lt hlt)
        rw [hlast, List.flatMap_append] at hgroups
        exact (List.prefix_append _ _).trans hgroups
      obtain ⟨y, hy⟩ := hbefore
      have hys : y ≠ [] := by
        rintro rfl
        rw [← hy, List.append_nil] at hlt
        exact Nat.lt_irrefl _ hlt
      cases p with
      | span body => exact ⟨before, body, y, x, hlast, hy.symm, hys, hx.symm, hxs⟩
      | char c =>
        -- a character is not cut by a border
        have hlength := congrArg List.length hx
        rw [hlast, List.flatMap_append, List.length_append, List.length_append] at hlength
        have hc : ([Piece.char c].flatMap Piece.text).length = 1 := rfl
        have := List.length_pos_iff.2 hxs
        omega

theorem byteSize_le_border {i : Nat} (hi : i ≤ fragments.length) :
    byteSize (fragments.take i).flatten
      ≤ byteSize ((groups.take i).flatten.flatMap Piece.text) := by
  rcases h.border hi with hborder | ⟨-, -, -, x, -, -, -, hx, -⟩
  · rw [hborder]
  · rw [hx, byteSize_append]
    exact Nat.le_add_right _ _

end Dealt

/-! ### Spans of adjoining pieces -/

theorem locate_append (start : Nat) (us vs : List Piece) :
    locate start (us ++ vs)
      = locate start us ++ locate (start + byteSize (us.flatMap Piece.text)) vs := by
  induction us generalizing start with
  | nil => rfl
  | cons p us ih =>
    have hstart : start + byteSize p.text + byteSize (us.flatMap Piece.text)
        = start + byteSize ((p :: us).flatMap Piece.text) := by
      rw [List.flatMap_cons, byteSize_append, Nat.add_assoc]
    cases p <;> rw [List.cons_append, locate, locate, ih, hstart]
    rfl

theorem of_mem_locate {start : Nat} {ps : List Piece} {span : Found (List Char)}
    (h : span ∈ locate start ps) :
    start ≤ span.start ∧ span.start < span.stop ∧
      span.stop ≤ start + byteSize (ps.flatMap Piece.text) := by
  induction ps generalizing start with
  | nil => cases h
  | cons p ps ih =>
    rw [List.flatMap_cons, byteSize_append, ← Nat.add_assoc]
    cases p with
    | char c =>
      obtain ⟨hstart, hlt, hstop⟩ := ih h
      exact ⟨Nat.le_trans (Nat.le_add_right _ _) hstart, hlt, hstop⟩
    | span body =>
      rw [locate] at h
      rcases List.mem_cons.1 h with rfl | h
      · have := byteSize_text_span body
        exact ⟨Nat.le_refl _, by dsimp only; omega, Nat.le_add_right _ _⟩
      · obtain ⟨hstart, hlt, hstop⟩ := ih h
        exact ⟨Nat.le_trans (Nat.le_add_right _ _) hstart, hlt, hstop⟩

namespace Memory

/-! ### Places in fragments -/

section Fragments

variable {fragments : List (List Char)}

theorem getElem?_startsFrom (start : Nat) {i : Nat} (hi : i < fragments.length) :
    (startsFrom start fragments)[i]? = some (start + byteSize (fragments.take i).flatten) := by
  induction fragments generalizing start i with
  | nil => cases hi
  | cons fragment fragments ih =>
    cases i with
    | zero => rfl
    | succ i =>
      rw [startsFrom, List.getElem?_cons_succ, ih _ (Nat.lt_of_succ_lt_succ hi),
        List.take_succ_cons, List.flatten_cons, byteSize_append, Nat.add_assoc]

variable (fragments) in
theorem lt_length_takeWhile_startsFrom (start place i : Nat) :
    i < ((startsFrom start fragments).takeWhile fun start => start ≤ place).length ↔
      i < fragments.length ∧ start + byteSize (fragments.take i).flatten ≤ place := by
  induction fragments generalizing start i with
  | nil => exact ⟨nofun, nofun⟩
  | cons fragment fragments ih =>
    rw [startsFrom, List.takeWhile_cons]
    by_cases hstart : start ≤ place
    · rw [if_pos (decide_eq_true hstart), List.length_cons, List.length_cons]
      cases i with
      | zero => simpa using hstart
      | succ i =>
        rw [Nat.add_lt_add_iff_right, Nat.add_lt_add_iff_right, ih, List.take_succ_cons,
          List.flatten_cons, byteSize_append, Nat.add_assoc]
    · rw [if_neg (by simpa using hstart)]
      refine iff_of_false (Nat.not_lt_zero _) fun h => hstart ?_
      omega

/-- A place lies in a fragment or behind it when the fragment starts there or before. -/
theorem le_fragmentAt_iff {i : Nat} (hi : i < fragments.length) (place : Nat) :
    i ≤ fragmentAt (startsFrom 0 fragments) place ↔
      byteSize (fragments.take i).flatten ≤ place := by
  have hlt := lt_length_takeWhile_startsFrom fragments 0 place i
  rw [Nat.zero_add] at hlt
  rw [fragmentAt]
  cases i with
  | zero => simp
  | succ i =>
    rw [and_iff_right hi] at hlt
    omega

/-- A place in the text lies in a fragment or before it when it is before the end of that one. -/
theorem fragmentAt_le_iff {i : Nat} (hi : i < fragments.length) {place : Nat}
    (hplace : place < byteSize fragments.flatten) :
    fragmentAt (startsFrom 0 fragments) place ≤ i ↔
      place < byteSize (fragments.take (i + 1)).flatten := by
  by_cases hnext : i + 1 < fragments.length
  · have := le_fragmentAt_iff hnext place
    omega
  · rw [List.take_of_length_le (by omega)]
    have hlt := lt_length_takeWhile_startsFrom fragments 0 place (i + 1)
    refine iff_of_true ?_ hplace
    rw [fragmentAt]
    omega

end Fragments

/-! ### Split spans -/

/-- A span with the numbers of the fragments where it starts and where it stops. -/
def spanIn (fragments : List (List Char)) (span : Nat × Nat) : SplitSpan :=
  ⟨span.1, span.2, fragmentAt (startsFrom 0 fragments) span.1,
    fragmentAt (startsFrom 0 fragments) (span.2 - 1)⟩

/-- The spans that start in one fragment and stop in another. -/
def splitIn (fragments : List (List Char)) (found : List (Nat × Nat)) : List SplitSpan :=
  (found.map (spanIn fragments)).filter fun span => span.first ≠ span.last

theorem splitIn_cons (fragments : List (List Char)) (span : Nat × Nat) (found : List (Nat × Nat)) :
    splitIn fragments (span :: found)
      = if (spanIn fragments span).first = (spanIn fragments span).last then splitIn fragments found
        else spanIn fragments span :: splitIn fragments found := by
  rw [splitIn, List.map_cons, List.filter_cons]
  by_cases h : (spanIn fragments span).first = (spanIn fragments span).last
  · rw [if_neg (by simpa using h), if_pos h]
    rfl
  · rw [if_pos (by simpa using h), if_neg h]
    rfl

theorem splitSpans_eq (fragments : List (List Char)) {found : List (Nat × Nat)}
    (h : ∀ span ∈ found, span.1 < span.2) :
    splitSpans (startsFrom 0 fragments) found = .ok (splitIn fragments found) := by
  induction found with
  | nil => rfl
  | cons span found ih =>
    obtain ⟨start, stop⟩ := span
    obtain ⟨hspan, hfound⟩ := List.forall_mem_cons.1 h
    dsimp only at hspan
    rw [splitSpans, sub_of_le (by omega), ok_bind, ih hfound, splitIn_cons]
    rfl

/-- A span touches the stretch from one place up to another, and is not inside of it. -/
def Crosses (lo hi : Nat) (span : Nat × Nat) : Prop :=
  span.1 < hi ∧ lo < span.2 ∧ (span.1 < lo ∨ hi < span.2)

instance (lo hi : Nat) : DecidablePred (Crosses lo hi) := fun span =>
  inferInstanceAs (Decidable (span.1 < hi ∧ lo < span.2 ∧ (span.1 < lo ∨ hi < span.2)))

/-- The spans that cross a fragment. -/
def crossing (fragments : List (List Char)) (i : Nat) (found : List (Nat × Nat)) :
    List (Nat × Nat) :=
  found.filter fun span => Crosses (byteSize (fragments.take i).flatten)
    (byteSize (fragments.take (i + 1)).flatten) span

section Touching

variable {fragments : List (List Char)} {found : List (Nat × Nat)}
  (hfound : ∀ span ∈ found, span.1 < span.2 ∧ span.2 ≤ byteSize fragments.flatten)
  {i : Nat} (hi : i < fragments.length)

include hfound hi

theorem filter_splitIn :
    (splitIn fragments found).filter (fun span => span.first ≤ i ∧ i ≤ span.last)
      = (crossing fragments i found).map (spanIn fragments) := by
  rw [crossing, splitIn, List.filter_filter, List.filter_map]
  refine congrArg (List.map _) (List.filter_congr fun span hspan => ?_)
  obtain ⟨hlt, hle⟩ := hfound span hspan
  have hfirst := le_fragmentAt_iff hi span.1
  have hfirst' := fragmentAt_le_iff hi (Nat.lt_of_lt_of_le hlt hle)
  have hlast := le_fragmentAt_iff hi (span.2 - 1)
  have hlast' := fragmentAt_le_iff hi (show span.2 - 1 < byteSize fragments.flatten by omega)
  rw [Function.comp_apply, spanIn, Bool.eq_iff_iff]
  simp only [Bool.and_eq_true, decide_eq_true_eq]
  unfold Crosses
  omega

/-- The numbers of the split spans that touch a fragment are those of the spans that cross it. -/
theorem forall₂_touching :
    List.Forall₂
      (fun index span => item index (splitIn fragments found) = .ok (spanIn fragments span))
      (touching (splitIn fragments found) i) (crossing fragments i found) := by
  have hitems (spans : List SplitSpan) (p : SplitSpan → Bool) :
      List.Forall₂ (fun index span => item index spans = .ok span)
        ((spans.zipIdx.filter fun span => p span.1).map Prod.snd) (spans.filter p) := by
    have hfst : spans.filter p = (spans.zipIdx.filter fun span => p span.1).map Prod.fst := by
      conv_lhs => rw [← List.zipIdx_map_fst 0 spans, List.filter_map]
      rfl
    rw [hfst, List.forall₂_map_left_iff, List.forall₂_map_right_iff, List.forall₂_same]
    intro span hspan
    have hget := List.mem_zipIdx_iff_getElem?.1 (List.mem_of_mem_filter hspan)
    rw [item, hget]
  have h := hitems (splitIn fragments found) fun span => span.first ≤ i ∧ i ≤ span.last
  rw [filter_splitIn hfound hi, List.forall₂_map_right_iff] at h
  exact h

end Touching

/-! ### Spans that cross a fragment -/

section Crossing

variable {lo hi start : Nat} {ps : List Piece}

/-- No span crosses a stretch that lies behind all of them, around them or before them. -/
theorem filter_crosses_eq_nil
    (h : start + byteSize (ps.flatMap Piece.text) ≤ lo ∨
      (lo ≤ start ∧ start + byteSize (ps.flatMap Piece.text) ≤ hi) ∨ hi ≤ start) :
    (Sweep.places (locate start ps)).filter (fun span => Crosses lo hi span) = [] := by
  refine List.filter_eq_nil_iff.2 fun places hplaces => ?_
  obtain ⟨span, hspan, rfl⟩ := List.mem_map.1 hplaces
  obtain ⟨hstart, hlt, hstop⟩ := of_mem_locate hspan
  rw [decide_eq_true_iff]
  unfold Crosses
  dsimp only
  omega

/-- The last one of some spans crosses a stretch alone when the others do not. -/
theorem filter_crosses_concat {body : List Char} {place stop : Nat}
    (hplace : place = start + byteSize (ps.flatMap Piece.text))
    (hstop : stop = place + byteSize (Piece.span body).text)
    (h : place ≤ lo ∨ lo ≤ start ∧ place ≤ hi) (hcrosses : Crosses lo hi (place, stop)) :
    (Sweep.places (locate start (ps ++ [.span body]))).filter (fun span => Crosses lo hi span)
      = [(place, stop)] := by
  rw [locate_append, ← hplace, Sweep.places, List.map_append, List.filter_append, ← Sweep.places,
    filter_crosses_eq_nil (by omega), List.nil_append, locate, ← hstop]
  exact List.filter_eq_self.2 (by simpa [locate] using hcrosses)

end Crossing

/-! ### Fragments built anew -/

theorem slice_or_nil {a b : List Char} {start stop : Nat} (hstart : start = byteSize a)
    (hstop : stop = start + byteSize b) (c : List Char) :
    (if start < stop then slice start stop (a ++ (b ++ c)) else .ok []) = .ok b := by
  split
  · exact slice_append hstart hstop c
  · have hb : byteSize b = 0 := by omega
    rw [byteSize_eq_zero_iff.1 hb]

section Places

variable {fragments : List (List Char)} {joined : List Char} {spans : List SplitSpan}
  {i stop cursor index : Nat} {indices : List Nat} {span : Nat × Nat}
  (hitem : item index spans = .ok (spanIn fragments span))

include hitem

theorem rebuild_cons : rebuild joined spans i stop cursor (index :: indices)
    = (if cursor < span.1 then slice cursor (min span.1 stop) joined else .ok []) >>= fun front =>
      (if fragmentAt (startsFrom 0 fragments) span.1 = i then slice span.1 span.2 joined
        else .ok []) >>= fun own =>
      rebuild joined spans i stop (max cursor span.2) indices >>= fun rest =>
      pure (front ++ (own ++ rest)) := by
  rw [rebuild, hitem, ok_bind]
  by_cases hcursor : cursor < span.1
  all_goals
    by_cases howner : fragmentAt (startsFrom 0 fragments) span.1 = i
    all_goals
      simp only [spanIn, hcursor, howner, if_true, if_false]

/-- A span from before leaves nothing in a fragment. -/
theorem rebuild_skip (hcursor : span.1 ≤ cursor)
    (howner : fragmentAt (startsFrom 0 fragments) span.1 ≠ i) :
    rebuild joined spans i stop cursor (index :: indices)
      = rebuild joined spans i stop (max cursor span.2) indices := by
  rw [rebuild_cons hitem, if_neg (Nat.not_lt.2 hcursor), ok_bind, if_neg howner, ok_bind]
  cases rebuild joined spans i stop (max cursor span.2) indices <;> rfl

/-- A span that starts in a fragment and stops behind it is there as a whole. -/
theorem rebuild_last {a b t r : List Char} (hjoined : joined = a ++ (b ++ (t ++ r)))
    (hstart : span.1 = byteSize a + byteSize b) (hspan : span.2 = span.1 + byteSize t)
    (howner : fragmentAt (startsFrom 0 fragments) span.1 = i) (hle : span.1 ≤ stop)
    (hbehind : stop ≤ span.2) :
    rebuild joined spans i stop (byteSize a) [index] = .ok (b ++ t) := by
  have hfront : (if byteSize a < span.1 then slice (byteSize a) span.1 joined else .ok [])
      = .ok b := by
    rw [hjoined]
    exact slice_or_nil rfl hstart _
  have hown : slice span.1 span.2 joined = .ok t := by
    rw [hjoined, ← List.append_assoc]
    exact slice_append (hstart.trans (byteSize_append a b).symm) hspan _
  rw [rebuild_cons hitem, Nat.min_eq_left hle, hfront, ok_bind, if_pos howner, hown, ok_bind,
    rebuild, if_neg (by omega), ok_bind, List.append_nil]
  rfl

end Places

section Rebuild

variable {window : Nat} {fragments : List (List Char)} {groups : List (List Piece)}
  (h : Dealt window fragments groups) {i : Nat} {fragment : List Char} {group : List Piece}
  (hfragment : fragments[i]? = some fragment) (hgroup : groups[i]? = some group)

include h hfragment hgroup

omit hfragment in
theorem exists_joined_eq : ∃ rest : List Piece,
    pieces window fragments.flatten = (groups.take i).flatten ++ (group ++ rest) ∧
      fragments.flatten = (groups.take i).flatten.flatMap Piece.text
        ++ (group.flatMap Piece.text ++ rest.flatMap Piece.text) := by
  have hpieces : pieces window fragments.flatten
      = (groups.take i).flatten ++ (group ++ (groups.drop (i + 1)).flatten) := by
    rw [← h.flatten_eq, ← List.append_assoc, ← flatten_take_succ hgroup, ← List.flatten_append,
      List.take_append_drop]
  refine ⟨_, hpieces, ?_⟩
  rw [← List.flatMap_append, ← List.flatMap_append, ← hpieces, text_pieces]

/-- A fragment without room gets nothing. -/
theorem eq_nil_of_fragment_eq_nil (hnil : fragment = []) : group = [] := by
  subst hnil
  have hi := (List.getElem?_eq_some_iff.1 hfragment).1
  rcases List.eq_nil_or_concat group with hgroup' | ⟨front, p, rfl⟩
  · exact hgroup'
  · rw [List.concat_eq_append] at hgroup
    have hlast : (groups.take (i + 1)).flatten = (groups.take i).flatten ++ front ++ [p] := by
      rw [flatten_take_succ hgroup, List.append_assoc]
    have hlt := h.lt_border hlast
    have hle := h.le_border (Nat.le_of_lt hi)
    rw [flatten_take_succ hfragment, List.append_nil, List.flatMap_append,
      List.length_append] at hlt
    omega

variable {found : List (Nat × Nat)} {indices : List Nat}

/-- Behind what spans from before have left, a fragment gets its own pieces. -/
theorem rebuild_group
    (hindices : List.Forall₂
      (fun index span => item index (splitIn fragments found) = .ok (spanIn fragments span)) indices
      (crossing fragments i
        (Sweep.places (locate (byteSize ((groups.take i).flatten.flatMap Piece.text)) group)))) :
    rebuild fragments.flatten (splitIn fragments found) i
        (byteSize (fragments.take (i + 1)).flatten)
        (byteSize ((groups.take i).flatten.flatMap Piece.text)) indices
      = .ok (group.flatMap Piece.text) := by
  rw [crossing] at hindices
  have hi := (List.getElem?_eq_some_iff.1 hfragment).1
  have hle := h.byteSize_le_border (Nat.le_of_lt hi)
  obtain ⟨rest, -, hjoined⟩ := exists_joined_eq h hgroup
  have hborder := h.border (Nat.succ_le_of_lt hi)
  rw [flatten_take_succ hgroup] at hborder
  generalize (groups.take i).flatten = before at *
  rcases hborder with hborder | ⟨front, body, y, x, hlast, hy, hys, hx, hxs⟩
  · have hsize : byteSize (fragments.take (i + 1)).flatten
        = byteSize (before.flatMap Piece.text) + byteSize (group.flatMap Piece.text) := by
      rw [← hborder, List.flatMap_append, byteSize_append]
    rw [filter_crosses_eq_nil (.inr (.inl ⟨hle, Nat.le_of_eq hsize.symm⟩)),
      List.forall₂_nil_right_iff] at hindices
    rw [hindices, rebuild, hjoined]
    exact slice_or_nil rfl hsize _
  have hstop : byteSize (fragments.take (i + 1)).flatten + byteSize x
      = byteSize (before.flatMap Piece.text) + byteSize (group.flatMap Piece.text) := by
    rw [← byteSize_append, ← hx, List.flatMap_append, byteSize_append]
  have hxs := byteSize_pos hxs
  have hys := byteSize_pos hys
  rcases List.eq_nil_or_concat group with rfl | ⟨group, p, rfl⟩
  · rw [locate, Sweep.places, List.map_nil, List.filter_nil, List.forall₂_nil_right_iff] at hindices
    rw [List.flatMap_nil, byteSize_nil] at hstop
    rw [hindices, rebuild, if_neg (by omega)]
    rfl
  · rw [List.concat_eq_append] at *
    rw [← List.append_assoc] at hlast
    obtain ⟨rfl, hp⟩ := List.append_inj' hlast rfl
    obtain rfl := (List.cons.inj hp).1
    rw [List.flatMap_append, byteSize_append] at hstop
    have hplace : byteSize (fragments.take (i + 1)).flatten
        = byteSize (before.flatMap Piece.text) + byteSize (group.flatMap Piece.text)
          + byteSize y := by
      rw [hy, List.flatMap_append, byteSize_append, byteSize_append]
    have hspan : [Piece.span body].flatMap Piece.text = (Piece.span body).text :=
      List.flatMap_singleton ..
    rw [hspan] at hstop
    rw [filter_crosses_concat rfl rfl (.inr ⟨hle, by omega⟩)
      (by unfold Crosses; dsimp only; omega)] at hindices
    obtain ⟨index, indices, hitem, hnil, rfl⟩ := List.forall₂_cons_right_iff.1 hindices
    rw [List.forall₂_nil_right_iff] at hnil
    subst hnil
    rw [List.flatMap_append, hspan, List.append_assoc] at hjoined
    have htotal := congrArg byteSize hjoined
    simp only [byteSize_append] at htotal
    rw [List.flatMap_append, hspan]
    refine rebuild_last hitem hjoined rfl rfl (Nat.le_antisymm ?_ ?_) (by dsimp only; omega)
      (by dsimp only; omega)
    · exact (fragmentAt_le_iff hi (by dsimp only; omega)).2 (by dsimp only; omega)
    · exact (le_fragmentAt_iff hi _).2 (by dsimp only; omega)

/-- **A fragment is built anew** from the spans that cross it: it gets its own pieces. -/
theorem rebuild_fragment
    (hindices : List.Forall₂
      (fun index span => item index (splitIn fragments found) = .ok (spanIn fragments span)) indices
      (crossing fragments i (Sweep.places (locate 0 (pieces window fragments.flatten))))) :
    rebuild fragments.flatten (splitIn fragments found) i
        (byteSize (fragments.take (i + 1)).flatten) (byteSize (fragments.take i).flatten) indices
      = .ok (group.flatMap Piece.text) := by
  have hi := (List.getElem?_eq_some_iff.1 hfragment).1
  obtain ⟨rest, hpieces, -⟩ := exists_joined_eq h hgroup
  have hbehind := h.byteSize_le_border (Nat.succ_le_of_lt hi)
  rw [flatten_take_succ hgroup, List.flatMap_append, byteSize_append] at hbehind
  rw [crossing, hpieces, locate_append, locate_append, Nat.zero_add, Sweep.places, List.map_append,
    List.map_append, List.filter_append, List.filter_append, ← Sweep.places, ← Sweep.places,
    ← Sweep.places, filter_crosses_eq_nil (.inr (.inr hbehind)), List.append_nil] at hindices
  rcases h.border (Nat.le_of_lt hi) with hborder | ⟨front, body, y, x, hlast, hy, hys, hx, hxs⟩
  · rw [filter_crosses_eq_nil (.inl (by rw [hborder, Nat.zero_add])), List.nil_append] at hindices
    have hgroup := rebuild_group h hfragment hgroup hindices
    rwa [hborder] at hgroup
  · have hfront := byteSize_append (front.flatMap Piece.text) y
    have hbefore := byteSize_append (fragments.take i).flatten x
    have hspan : byteSize ((groups.take i).flatten.flatMap Piece.text)
        = byteSize (front.flatMap Piece.text) + byteSize (Piece.span body).text := by
      rw [hlast, List.flatMap_append, byteSize_append, List.flatMap_singleton]
    have hnext := byteSize_append (fragments.take i).flatten fragment
    have hxs := byteSize_pos hxs
    have hys := byteSize_pos hys
    rw [← hy] at hfront
    rw [← hx] at hbefore
    rw [← flatten_take_succ hfragment] at hnext
    have hfirst : (Sweep.places (locate 0 (groups.take i).flatten)).filter
        (fun span => Crosses (byteSize (fragments.take i).flatten)
          (byteSize (fragments.take (i + 1)).flatten) span)
        = [(byteSize (front.flatMap Piece.text),
          byteSize ((groups.take i).flatten.flatMap Piece.text))] := by
      conv in locate _ _ => rw [hlast]
      exact filter_crosses_concat (Nat.zero_add _).symm hspan (.inl (by omega))
        (by unfold Crosses; dsimp only; omega)
    rw [hfirst, List.singleton_append] at hindices
    obtain ⟨index, others, hitem, hothers, rfl⟩ := List.forall₂_cons_right_iff.1 hindices
    rw [rebuild_skip hitem (by dsimp only; omega), Nat.max_eq_right (by dsimp only; omega)]
    · exact rebuild_group h hfragment hgroup hothers
    · have := le_fragmentAt_iff hi (byteSize (front.flatMap Piece.text))
      dsimp only
      omega

end Rebuild

/-! ### All fragments -/

section Gather

variable {bound : UInt64} {fragments : List (List Char)}

theorem spansFrom_zero (window : Nat) (s : List Char) :
    spansFrom window 0 s = locate 0 (pieces window s) := by
  have hdrop := dropTo_append 0 [] s
  rw [spansFrom]
  exact congrArg (fun rest : Nat × List Char => locate rest.1 (pieces window rest.2)) hdrop

theorem gatherFragment_eq {window : Nat} {groups : List (List Piece)}
    (h : Dealt window fragments groups) {i : Nat} {group : List Piece}
    (hgroup : groups[i]? = some group) :
    gatherFragment fragments
        (splitIn fragments (Sweep.places (locate 0 (pieces window fragments.flatten)))) i
      = .ok (group.flatMap Piece.text) := by
  have hi : i < fragments.length := h.length_eq ▸ (List.getElem?_eq_some_iff.1 hgroup).1
  have hfragment := List.getElem?_eq_getElem hi
  generalize fragments[i] = fragment at hfragment
  have hfound : ∀ span ∈ Sweep.places (locate 0 (pieces window fragments.flatten)),
      span.1 < span.2 ∧ span.2 ≤ byteSize fragments.flatten := by
    intro places hplaces
    obtain ⟨span, hspan, rfl⟩ := List.mem_map.1 hplaces
    obtain ⟨-, hlt, hstop⟩ := of_mem_locate hspan
    rw [text_pieces, Nat.zero_add] at hstop
    exact ⟨hlt, hstop⟩
  have hrebuild := rebuild_fragment h hfragment hgroup (forall₂_touching hfound hi)
  have hitem : item i fragments = .ok fragment := by rw [item, hfragment]
  have hstart : item i (startsFrom 0 fragments)
      = .ok (byteSize (fragments.take i).flatten) := by
    rw [item, getElem?_startsFrom 0 hi, Nat.zero_add]
  have hstop : byteSize (fragments.take (i + 1)).flatten
      = byteSize (fragments.take i).flatten + byteSize fragment := by
    rw [flatten_take_succ hfragment, byteSize_append]
  rw [gatherFragment, hitem, ok_bind]
  dsimp only
  split
  · next hnone =>
    rcases hnone with hnone | hnil
    · have hjoined : fragments.flatten = (fragments.take i).flatten
          ++ (fragment ++ (fragments.drop (i + 1)).flatten) := by
        rw [← List.append_assoc, ← flatten_take_succ hfragment, ← List.flatten_append,
          List.take_append_drop]
      have hslice : (if byteSize (fragments.take i).flatten
          < byteSize (fragments.take (i + 1)).flatten then
            slice (byteSize (fragments.take i).flatten)
              (byteSize (fragments.take (i + 1)).flatten) fragments.flatten
          else .ok []) = .ok fragment := by
        rw [hjoined]
        exact slice_or_nil rfl hstop _
      rw [hnone, rebuild, hslice] at hrebuild
      exact hrebuild
    · rw [eq_nil_of_fragment_eq_nil h hfragment hgroup hnil, hnil]
      rfl
  · rw [hstart, ok_bind, ← hstop]
    exact hrebuild

/-- A step is taken for the number of each item of a list. -/
theorem mapM_range_eq_ok {α β : Type} {n : Nat} {l : List α} (hn : l.length = n)
    {f : Nat → Except Fault β} {g : α → β} (h : ∀ i a, l[i]? = some a → f i = .ok (g a)) :
    (List.range n).mapM f = .ok (l.map g) := by
  subst hn
  induction l generalizing f with
  | nil => rfl
  | cons a l ih =>
    have hlater : (List.range l.length).mapM (f ∘ Nat.succ) = .ok (l.map g) :=
      ih fun i b hb => h (i + 1) b hb
    rw [List.length_cons, List.range_succ_eq_map, List.mapM_cons, h 0 a rfl, ok_bind, List.mapM_map,
      hlater]
    rfl

/-- **Gathering in memory is gathering**, and no step of it fails. -/
theorem gather_eq (hbound : bound.toNat < 2 ^ 63) (hsize : byteSize fragments.flatten < 2 ^ 63) :
    gather bound fragments = .ok (MailMerge.gather (windowSize bound) fragments) := by
  obtain ⟨groups, hflatten, hlength, hgather, hstart⟩ :=
    exists_startIn_gather (windowSize bound) fragments
  have h : Dealt (windowSize bound) fragments groups := ⟨hflatten, hlength, hstart⟩
  have hspans : (Sweep.ofText fragments.flatten bound 0).spans
      = .ok (Sweep.places (locate 0 (pieces (windowSize bound) fragments.flatten))) := by
    rw [← spansFrom_zero]
    exact Sweep.spans_ofText (by omega) (Sweep.inRange_of_lt hbound hsize 0)
  have hlt : ∀ span ∈ Sweep.places (locate 0 (pieces (windowSize bound) fragments.flatten)),
      span.1 < span.2 := by
    intro places hplaces
    obtain ⟨span, hspan, rfl⟩ := List.mem_map.1 hplaces
    exact (of_mem_locate hspan).2.1
  have hfragments := mapM_range_eq_ok hlength fun i group hgroup => gatherFragment_eq h hgroup
  rw [gather, hspans, ofSweep, ok_bind, splitSpans_eq fragments hlt, ok_bind, hgather]
  split
  · next hnone =>
    -- without split spans, each fragment keeps its pieces
    have hkept : ∀ i fragment, fragments[i]? = some fragment →
        gatherFragment fragments [] i = .ok (id fragment) := by
      intro i fragment hfragment
      rw [gatherFragment, item, hfragment]
      rfl
    rw [hnone, mapM_range_eq_ok rfl hkept, List.map_id] at hfragments
    exact hfragments
  · exact hfragments

end Gather

end Memory

end MailMerge
