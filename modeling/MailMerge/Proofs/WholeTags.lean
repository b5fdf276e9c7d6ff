import Mathlib.Data.List.Sort
import MailMerge.Proofs.Places
import MailMerge.Proofs.Placing

/-!
# Tags are made whole

A tag may be split over text elements, and is not found in the part then. In the part that is
gathered, the tags that overlap the contents of text elements are the tags of the visible text, one
by one, and each of them lies in one content, that of the element that held its opening brace
(`gatherPart_wholeTags`).

Two texts are read here: the contents one behind the other, and the part with the markup between
them. The first is cut in whole pieces, so what is read in it is what is read in the gathered
contents (`tokens_flatten`). In the second, an angle bracket stands on both sides of a content, and
no tag reaches over one (`filter_overlaps`).
-/

namespace MailMerge

open Markup

variable {window : Nat}

/-! ### Contents by their places -/

namespace Markup

/-- The contents of the text elements among some chunks, the first of which starts at `place`. -/
def locateContents (place : Nat) : List Chunk → List (Found (List Char))
  | [] => []
  | .char c :: cs => locateContents (place + c.utf8Size) cs
  | .element opening content :: cs =>
    let start := place + Text.byteSize opening
    let stop := start + Text.byteSize content
    ⟨start, stop, content⟩ :: locateContents stop cs

/-- The contents of the text elements of a text. -/
def contentsIn (s : List Char) : List (Found (List Char)) :=
  locateContents 0 (chunks s)

theorem map_value_locateContents (place : Nat) (cs : List Chunk) :
    (locateContents place cs).map Found.value = cs.filterMap Chunk.content? := by
  induction cs generalizing place with
  | nil => rfl
  | cons c cs ih =>
    cases c with
    | char c => exact ih _
    | element opening content => exact congrArg (content :: ·) (ih _)

theorem map_value_contentsIn (s : List Char) :
    (contentsIn s).map Found.value = textContents s :=
  map_value_locateContents 0 (chunks s)

theorem locateContents_map_char_append (place : Nat) (u : List Char) (cs : List Chunk) :
    locateContents place (u.map .char ++ cs) = locateContents (place + Text.byteSize u) cs := by
  induction u generalizing place with
  | nil => rfl
  | cons c u ih =>
    rw [Text.byteSize_cons, ← Nat.add_assoc]
    exact ih _

theorem le_start_of_mem_locateContents {place : Nat} {cs : List Chunk} {f : Found (List Char)}
    (h : f ∈ locateContents place cs) :
    place ≤ f.start ∧ f.stop = f.start + Text.byteSize f.value := by
  induction cs generalizing place with
  | nil => cases h
  | cons c cs ih =>
    cases c with
    | char c =>
      obtain ⟨hstart, hstop⟩ := ih h
      exact ⟨Nat.le_of_add_right_le hstart, hstop⟩
    | element opening content =>
      rcases List.mem_cons.1 h with rfl | h
      · exact ⟨Nat.le_add_right _ _, rfl⟩
      · obtain ⟨hstart, hstop⟩ := ih h
        exact ⟨by omega, hstop⟩

/-- Contents stand apart, from left to right. -/
theorem pairwise_locateContents (place : Nat) (cs : List Chunk) :
    (locateContents place cs).Pairwise fun f g => f.stop ≤ g.start := by
  induction cs generalizing place with
  | nil => exact .nil
  | cons c cs ih =>
    cases c with
    | char c => exact ih _
    | element opening content =>
      exact .cons (fun g hg => (le_start_of_mem_locateContents hg).1) (ih _)

/-- A content stands between the ends of an opening tag and the start of a closing one. -/
theorem exists_of_mem_locateContents {place : Nat} {s : List Char} {f : Found (List Char)}
    (h : f ∈ locateContents place (chunks s)) :
    ∃ u v, s = u ++ '>' :: (f.value ++ '<' :: v) ∧ f.start = place + Text.byteSize u + 1 := by
  fun_induction chunks s generalizing place with
  | case1 => cases h
  | case2 c rest _ ih =>
    obtain ⟨u, v, rfl, hstart⟩ := ih h
    refine ⟨c :: u, v, rfl, ?_⟩
    rw [hstart, Text.byteSize_cons]
    omega
  | case3 c rest tag after hstart _ ih =>
    rw [locateContents_map_char_append] at h
    obtain ⟨u, v, hafter, hplace⟩ := ih h
    refine ⟨tag ++ u, v, by rw [eq_append_of_start_empty hstart, hafter, List.append_assoc], ?_⟩
    rw [hplace, Text.byteSize_append]
    omega
  | case4 c rest opening content after hstart _ ih =>
    rw [eq_append_of_start_element hstart]
    rcases List.mem_cons.1 h with rfl | h
    · obtain ⟨x, after', rfl, -, -, rfl⟩ := opening_of_start hstart
      have hclosing : textClosing ++ after' = '<' :: ("/w:t>".toList ++ after') := rfl
      refine ⟨textOpening ++ x, "/w:t>".toList ++ after', ?_, ?_⟩
      · rw [hclosing, List.append_assoc _ ['>'], List.singleton_append]
      simp only [Text.byteSize_append, Text.byteSize_cons, Text.byteSize_nil]
      have hclose : '>'.utf8Size = 1 := rfl
      omega
    · obtain ⟨u, v, hafter, hplace⟩ := ih h
      refine ⟨opening ++ (content ++ u), v, by rw [hafter]; simp, ?_⟩
      rw [hplace, Text.byteSize_append, Text.byteSize_append]
      omega
  | case5 c rest _ =>
    have hnone := locateContents_map_char_append place (c :: rest) []
    rw [List.append_nil] at hnone
    rw [hnone] at h
    cases h

end Markup

/-! ### Tags in contents -/

theorem pairwise_locateTags (place : Nat) (ts : List Token) :
    (locateTags place ts).Pairwise fun a b => a.start < b.start := by
  induction ts generalizing place with
  | nil => exact .nil
  | cons t ts ih =>
    cases t with
    | char c => exact ih _
    | tag t =>
      refine .cons (fun tag htag => ?_) (ih _)
      have := (of_mem_locateTags htag).2.1
      have := Tag.byteSize_text t
      dsimp only
      omega

/-- The tags that overlap a content are those of the content. -/
theorem filter_overlap {s : List Char} {f : Found (List Char)} (hf : f ∈ contentsIn s) :
    (tagsFrom window 0 s).filter (fun tag => tag.start < f.stop ∧ f.start < tag.stop)
      = locateTags f.start (tokens window f.value) := by
  obtain ⟨u, v, hs, hstart⟩ := exists_of_mem_locateContents hf
  obtain ⟨-, hstop⟩ := le_start_of_mem_locateContents hf
  have hangle : '>'.utf8Size = 1 ∧ '<'.utf8Size = 1 := ⟨rfl, rfl⟩
  rw [Nat.zero_add] at hstart
  have htags : tagsFrom window 0 s = locateTags 0 (tokens window u)
      ++ (locateTags f.start (tokens window f.value)
        ++ locateTags (f.stop + 1) (tokens window v)) := by
    rw [tagsFrom_zero, hs, tokens_append_separator (by decide),
      tokens_append_separator (by decide), locateTags_append, locateTags, locateTags_append,
      locateTags, text_tokens, text_tokens, Nat.zero_add, hangle.1, hangle.2, hstart, hstop, hstart]
  rw [htags]
  refine filter_append_middle (fun tag htag => ?_) (fun tag htag => ?_) fun tag htag => ?_
  · obtain ⟨-, -, hlt, hle⟩ := of_mem_locateTags htag
    rw [text_tokens] at hle
    omega
  · obtain ⟨-, hle, hlt, hle'⟩ := of_mem_locateTags htag
    rw [text_tokens] at hle'
    omega
  · obtain ⟨-, hle, -⟩ := of_mem_locateTags htag
    omega

/-- Whether a tag overlaps a content. -/
def OverlapsContent (s : List Char) (tag : Found Tag) : Prop :=
  ∃ f ∈ contentsIn s, tag.start < f.stop ∧ f.start < tag.stop

instance (s : List Char) : DecidablePred (OverlapsContent s) :=
  fun _ => inferInstanceAs (Decidable (∃ f ∈ contentsIn s, _))

/-- **The tags that overlap contents** are those of one content after the other. -/
theorem filter_overlaps (s : List Char) :
    (tagsFrom window 0 s).filter (fun tag => OverlapsContent s tag)
      = (contentsIn s).flatMap fun f => locateTags f.start (tokens window f.value) := by
  have hirrefl : Std.Irrefl fun a b : Found Tag => a.start < b.start := ⟨fun _ => Nat.lt_irrefl _⟩
  have hantisymm : Std.Antisymm fun a b : Found Tag => a.start < b.start :=
    ⟨fun _ _ hlt hgt => absurd hgt (Nat.lt_asymm hlt)⟩
  have hleft : ((tagsFrom window 0 s).filter fun tag => OverlapsContent s tag).Pairwise
      fun a b => a.start < b.start := by
    rw [tagsFrom_zero]
    exact (pairwise_locateTags 0 _).filter _
  have hright : ((contentsIn s).flatMap fun f =>
      locateTags f.start (tokens window f.value)).Pairwise fun a b => a.start < b.start := by
    refine List.pairwise_flatMap.2 ⟨fun f _ => pairwise_locateTags _ _, ?_⟩
    refine (pairwise_locateContents 0 (chunks s)).imp_of_mem fun {f g} hf _ hle a ha b hb => ?_
    obtain ⟨-, -, hlt, hstop⟩ := of_mem_locateTags ha
    obtain ⟨-, hstart, -⟩ := of_mem_locateTags hb
    rw [text_tokens, ← (le_start_of_mem_locateContents hf).2] at hstop
    omega
  refine hleft.eq_of_mem_iff hright fun tag => ?_
  rw [List.mem_filter, List.mem_flatMap, decide_eq_true_iff]
  constructor
  · rintro ⟨htag, f, hf, hoverlap⟩
    refine ⟨f, hf, ?_⟩
    rw [← filter_overlap hf]
    exact List.mem_filter.2 ⟨htag, decide_eq_true hoverlap⟩
  · rintro ⟨f, hf, htag⟩
    rw [← filter_overlap hf, List.mem_filter, decide_eq_true_iff] at htag
    exact ⟨htag.1, f, hf, htag.2⟩

/-! ### Fragments by their places -/

/-- Fragments by their places in the text that they make up. -/
def locateFragments (place : Nat) : List (List Char) → List (Found (List Char))
  | [] => []
  | fragment :: fragments =>
    let stop := place + Text.byteSize fragment
    ⟨place, stop, fragment⟩ :: locateFragments stop fragments

theorem getElem?_locateFragments (place : Nat) (fragments : List (List Char)) (i : Nat) :
    (locateFragments place fragments)[i]? = fragments[i]?.map fun fragment =>
      let start := place + Text.byteSize (fragments.take i).flatten
      ⟨start, start + Text.byteSize fragment, fragment⟩ := by
  induction fragments generalizing place i with
  | nil => rfl
  | cons fragment fragments ih =>
    cases i with
    | zero => rfl
    | succ i =>
      rw [locateFragments, List.getElem?_cons_succ, ih, List.getElem?_cons_succ,
        List.take_succ_cons, List.flatten_cons, Text.byteSize_append, Nat.add_assoc]

theorem length_locateFragments (place : Nat) (fragments : List (List Char)) :
    (locateFragments place fragments).length = fragments.length := by
  induction fragments generalizing place with
  | nil => rfl
  | cons fragment fragments ih => exact congrArg (· + 1) (ih _)

/-- Fragments by their places stand beside the same texts in other places. -/
theorem forall₂_locateFragments {fragments : List (List Char)} {fs : List (Found (List Char))}
    (h : fs.map Found.value = fragments) :
    List.Forall₂ (fun f f' => f'.value = f.value ∧ ∃ i, fragments[i]? = some f.value ∧
        fs[i]? = some f' ∧ f.start = Text.byteSize (fragments.take i).flatten)
      (locateFragments 0 fragments) fs := by
  subst h
  refine List.forall₂_iff_get.2 ⟨?_, fun i h₁ h₂ => ?_⟩
  · rw [length_locateFragments, List.length_map]
  · have hf := getElem?_locateFragments 0 (fs.map Found.value) i
    rw [List.getElem?_eq_getElem h₁, List.getElem?_map, List.getElem?_eq_getElem h₂,
      Option.map_some, Option.map_some, Option.some.injEq, Nat.zero_add] at hf
    rw [List.get_eq_getElem, List.get_eq_getElem, hf]
    refine ⟨rfl, i, ?_, List.getElem?_eq_getElem h₂, rfl⟩
    rw [List.getElem?_map, List.getElem?_eq_getElem h₂]
    rfl

/-- The tags of some fragments are those of one fragment after the other. -/
theorem locateTags_flatMap_tokens (place : Nat) (fragments : List (List Char)) :
    locateTags place (fragments.flatMap (tokens window))
      = (locateFragments place fragments).flatMap fun f =>
          locateTags f.start (tokens window f.value) := by
  induction fragments generalizing place with
  | nil => rfl
  | cons fragment fragments ih =>
    rw [List.flatMap_cons, locateTags_append, text_tokens, ih]
    rfl

/-- A span that is read first is one whatever follows it. -/
theorem of_pieces_eq_cons_span {body r : List Char} {ps : List Piece}
    (h : pieces window ((Piece.span body).text ++ r) = .span body :: ps) :
    (∀ r', pieces window ((Piece.span body).text ++ r') = .span body :: pieces window r') ∧
      pieces window r = ps := by
  have hcut (r : List Char) : (Piece.span body).text ++ r = '{' :: (body ++ '}' :: r) := by
    simp [Piece.text]
  rw [hcut] at h
  cases hspan : span? window ('{' :: (body ++ '}' :: r)) with
  | none =>
    rw [pieces_of_span?_eq_none hspan] at h
    cases h
  | some found =>
    obtain ⟨body', r'⟩ := found
    rw [pieces_of_span? hspan] at h
    obtain ⟨hbody, hps⟩ := List.cons.inj h
    obtain rfl := Piece.span.inj hbody
    obtain ⟨hs, hlegal⟩ := span?_eq_some_iff.1 hspan
    simp only [List.cons.injEq, List.append_cancel_left_eq, true_and] at hs
    subst hs
    exact ⟨fun r' => by rw [hcut, pieces_of_span? (span?_eq_some_iff.2 ⟨rfl, hlegal⟩)], hps⟩

/-- A character that is read first, in no span, is read so with less text behind it. -/
theorem of_pieces_eq_cons_char {c : Char} (r r' : List Char) {ps : List Piece}
    (h : pieces window (c :: (r ++ r')) = .char c :: ps) :
    pieces window (c :: r) = .char c :: pieces window r ∧ pieces window (r ++ r') = ps := by
  have hnone : span? window (c :: (r ++ r')) = none := by
    cases hspan : span? window (c :: (r ++ r')) with
    | none => rfl
    | some found =>
      rw [pieces_of_span? hspan] at h
      cases h
  have hnone' : span? window (c :: r) = none := by
    cases hspan : span? window (c :: r) with
    | none => rfl
    | some found =>
      obtain ⟨body, after⟩ := found
      obtain ⟨hs, hlegal⟩ := span?_eq_some_iff.1 hspan
      have hspan' : span? window (c :: (r ++ r')) = some (body, after ++ r') := by
        rw [← List.cons_append, hs]
        exact span?_eq_some_iff.2 ⟨by simp, hlegal⟩
      rw [hnone] at hspan'
      cases hspan'
  rw [pieces_of_span?_eq_none hnone] at h
  exact ⟨pieces_of_span?_eq_none hnone', (List.cons.inj h).2⟩

/-- Pieces that are read one after the other are read apart. -/
theorem pieces_of_append {us vs : List Piece}
    (h : pieces window ((us ++ vs).flatMap Piece.text) = us ++ vs) :
    pieces window (us.flatMap Piece.text) = us ∧ pieces window (vs.flatMap Piece.text) = vs := by
  induction us with
  | nil => exact ⟨by simp [pieces], h⟩
  | cons p us ih =>
    rw [List.cons_append, List.flatMap_cons] at h
    rw [List.flatMap_cons]
    cases p with
    | char c =>
      rw [List.flatMap_append] at h
      obtain ⟨hfirst, hrest⟩ := of_pieces_eq_cons_char (us.flatMap Piece.text) _ h
      rw [← List.flatMap_append] at hrest
      obtain ⟨hus, hvs⟩ := ih hrest
      exact ⟨by rw [Piece.text, List.singleton_append, hfirst, hus], hvs⟩
    | span body =>
      obtain ⟨hfirst, hrest⟩ := of_pieces_eq_cons_span h
      obtain ⟨hus, hvs⟩ := ih hrest
      exact ⟨by rw [hfirst, hus], hvs⟩

theorem pieces_of_mem {groups : List (List Piece)}
    (h : pieces window (groups.flatten.flatMap Piece.text) = groups.flatten) :
    ∀ group ∈ groups, pieces window (group.flatMap Piece.text) = group := by
  induction groups with
  | nil => simp
  | cons group groups ih =>
    obtain ⟨hgroup, hrest⟩ := pieces_of_append h
    exact List.forall_mem_cons.2 ⟨hgroup, ih hrest⟩

/-! ### Tags in gathered fragments -/

/-- Whether the fragment with an index holds a place of the text, counted in bytes. -/
def HoldsByte (fragments : List (List Char)) (i place : Nat) : Prop :=
  Text.byteSize (fragments.take i).flatten ≤ place ∧
    place < Text.byteSize (fragments.take (i + 1)).flatten

theorem exists_of_mem_locate {start : Nat} {ps : List Piece} {span : Found (List Char)}
    (h : span ∈ locate start ps) : ∃ before after, ps = before ++ .span span.value :: after ∧
      span.start = start + Text.byteSize (before.flatMap Piece.text) := by
  induction ps generalizing start with
  | nil => cases h
  | cons p ps ih =>
    have hlater (h : span ∈ locate (start + Text.byteSize p.text) ps) :
        ∃ before after, p :: ps = before ++ .span span.value :: after ∧
          span.start = start + Text.byteSize (before.flatMap Piece.text) := by
      obtain ⟨before, after, rfl, hstart⟩ := ih h
      refine ⟨p :: before, after, rfl, ?_⟩
      rw [hstart, List.flatMap_cons, Text.byteSize_append, Nat.add_assoc]
    cases p with
    | char c => exact hlater h
    | span body =>
      rcases List.mem_cons.1 h with rfl | h
      · exact ⟨[], ps, rfl, rfl⟩
      · exact hlater h

/-- Of two texts with which a text starts, the longer one has more bytes. -/
theorem byteSize_le_of_append {a b c d : List Char} (h : a ++ c = b ++ d) :
    (a.length ≤ b.length → Text.byteSize a ≤ Text.byteSize b) ∧
      (a.length < b.length → Text.byteSize a < Text.byteSize b) := by
  rcases List.append_eq_append_iff.1 h with ⟨u, rfl, -⟩ | ⟨u, rfl, -⟩
  · refine ⟨fun _ => by rw [Text.byteSize_append]; exact Nat.le_add_right _ _, fun hlt => ?_⟩
    cases u with
    | nil => simp at hlt
    | cons e u =>
      have := e.utf8Size_pos
      rw [Text.byteSize_append, Text.byteSize_cons]
      omega
  · rw [List.length_append]
    refine ⟨fun hle => ?_, fun hlt => by omega⟩
    obtain rfl : u = [] := List.eq_nil_of_length_eq_zero (by omega)
    rw [List.append_nil]

variable (window) in
/-- What is read in a text is read in its fragments, when these are gathered. -/
theorem tokens_flatten (fragments : List (List Char)) :
    tokens window fragments.flatten = (gather window fragments).flatMap (tokens window) := by
  obtain ⟨groups, hflat, -, hgather⟩ := exists_pieces_gather_eq window fragments
  have hread : pieces window (groups.flatten.flatMap Piece.text) = groups.flatten := by
    rw [hflat, text_pieces]
  rw [tokens, ← hflat, hgather, List.flatMap_map, flatMap_flatten]
  refine List.flatMap_congr fun group hgroup => ?_
  rw [tokens, pieces_of_mem hread group hgroup]

/-- The tags of a gathered fragment start where the fragment was. -/
theorem holdsByte_of_mem {fragments : List (List Char)} {i : Nat} {content : List Char}
    (hcontent : (gather window fragments)[i]? = some content) {tag : Found Tag}
    (htag : tag ∈ locateTags (Text.byteSize ((gather window fragments).take i).flatten)
      (tokens window content)) : HoldsByte fragments i tag.start := by
  obtain ⟨groups, hflat, -, hgather, hstartIn⟩ := exists_startIn_gather window fragments
  have hread : pieces window (groups.flatten.flatMap Piece.text) = groups.flatten := by
    rw [hflat, text_pieces]
  rw [hgather, List.getElem?_map] at hcontent
  obtain ⟨group, hgroup, rfl⟩ := Option.map_eq_some_iff.1 hcontent
  -- the tag is a span of the group
  rw [hgather, ← List.map_take, ← List.flatMap_def, ← flatMap_flatten, tokens,
    pieces_of_mem hread group (List.mem_of_getElem? hgroup), ← filterMap_tag?_locate,
    List.mem_filterMap] at htag
  obtain ⟨span, hspan, htag⟩ := htag
  obtain ⟨before, after, rfl, hstart⟩ := exists_of_mem_locate hspan
  rw [(Found.tag?_eq_some_iff.1 htag).2.1, ← Text.byteSize_append, ← List.flatMap_append] at hstart
  -- the text up to the tag, and the text of the first fragments
  obtain ⟨hlower, hupper⟩ := hstartIn hgroup
  have hcut (k : Nat) : (fragments.take k).flatten ++ (fragments.drop k).flatten
      = ((groups.take i).flatten ++ before).flatMap Piece.text
        ++ ((.span span.value :: after) ++ (groups.drop (i + 1)).flatten).flatMap Piece.text := by
    have hgroups : groups.flatten = (groups.take i).flatten
        ++ (before ++ .span span.value :: after ++ (groups.drop (i + 1)).flatten) := by
      obtain ⟨hi, hget⟩ := List.getElem?_eq_some_iff.1 hgroup
      rw [← List.flatten_cons, ← hget, ← List.drop_eq_getElem_cons hi, ← List.flatten_append,
        List.take_append_drop]
    rw [← List.flatten_append, List.take_append_drop, ← text_pieces window fragments.flatten,
      ← hflat, hgroups]
    simp
  have hlength (k : Nat) : ((fragments.map List.length).take k).sum
      = (fragments.take k).flatten.length := by
    rw [← List.map_take, List.length_flatten]
  rw [hlength] at hlower hupper
  rw [HoldsByte, hstart]
  exact ⟨(byteSize_le_of_append (hcut i)).1 hlower,
    (byteSize_le_of_append (hcut (i + 1)).symm).2 hupper⟩

/-- The same tags are found from two places on. -/
theorem forall₂_locateTags (place place' : Nat) (ts : List Token) :
    List.Forall₂ (fun tag tag' => tag'.value = tag.value ∧ tag ∈ locateTags place ts ∧
      tag' ∈ locateTags place' ts) (locateTags place ts) (locateTags place' ts) := by
  induction ts generalizing place place' with
  | nil => exact .nil
  | cons t ts ih =>
    cases t with
    | char c => exact ih _ _
    | tag t =>
      refine .cons ⟨rfl, List.mem_cons_self, List.mem_cons_self⟩ ((ih _ _).imp ?_)
      rintro tag tag' ⟨hsame, htag, htag'⟩
      exact ⟨hsame, List.mem_cons_of_mem _ htag, List.mem_cons_of_mem _ htag'⟩

/-! ### The law -/

/-- **Gathering makes tags whole.** The tags that overlap contents in the gathered part are the tags
of the visible text, one by one. Each of them lies in one content, that of the element whose content
held its opening brace before. -/
theorem gatherPart_wholeTags (window : Nat) {s : List Char}
    (hangle : ∀ content ∈ textContents s, '<' ∉ content) :
    let after := gatherPart window s
    List.Forall₂ (fun tag tag' => tag'.value = tag.value ∧
        ∃ i content, HoldsByte (textContents s) i tag.start ∧
          (contentsIn after)[i]? = some content ∧
          content.start ≤ tag'.start ∧ tag'.stop ≤ content.stop)
      (tagsFrom window 0 (visibleText s))
      ((tagsFrom window 0 after).filter fun tag => OverlapsContent after tag) := by
  intro after
  have hcontents : (contentsIn after).map Found.value = gather window (textContents s) := by
    rw [map_value_contentsIn, textContents_gatherPart window hangle]
  have hvisible : tagsFrom window 0 (visibleText s)
      = (locateFragments 0 (gather window (textContents s))).flatMap fun f =>
          locateTags f.start (tokens window f.value) := by
    rw [tagsFrom_zero, visibleText, tokens_flatten, locateTags_flatMap_tokens]
  rw [hvisible, filter_overlaps]
  refine List.rel_flatMap (forall₂_locateFragments hcontents) ?_
  rintro f f' ⟨hvalue, i, hf, hf', hstart⟩
  show List.Forall₂ _ (locateTags f.start (tokens window f.value))
    (locateTags f'.start (tokens window f'.value))
  rw [hvalue]
  have hmem : f' ∈ contentsIn after := List.mem_of_getElem? hf'
  refine (forall₂_locateTags f.start f'.start (tokens window f.value)).imp ?_
  rintro tag tag' ⟨hsame, htag, htag'⟩
  obtain ⟨-, hle, -, hle'⟩ := of_mem_locateTags htag'
  rw [text_tokens, ← hvalue, ← (le_start_of_mem_locateContents hmem).2] at hle'
  rw [hstart] at htag
  exact ⟨hsame, i, f', holdsByte_of_mem hf htag, hf', hle, hle'⟩

/-- Split tags, beside braces in an attribute, a tag outside of all elements, a brace that is left
over, and a span that is no tag. -/
theorem gatherPart_wholeTags_split :
    let s := "<w:p a=\"\x7bx\x7d\"><w:t>\x7b\x7bna</w:t><w:t>me\x7d \x7bb </w:t>\x7bout\x7d".toList
      ++ "<w:t/><w:t>c\x7d\x7b#k</w:t><w:t></w:t><w:t>\x7d</w:t></w:p>".toList
    let after := gatherPart (windowSize 256) s
    let visible : List (Found Tag) := [⟨1, 7, .simple "name"⟩, ⟨13, 17, .loopOpen "k"⟩]
    let inside : List (Found Tag) := [⟨40, 46, .simple "name"⟩, ⟨127, 131, .loopOpen "k"⟩]
    (∀ content ∈ textContents s, '<' ∉ content) ∧
      tagsFrom (windowSize 256) 0 (visibleText s) = visible ∧
      ((tagsFrom (windowSize 256) 0 after).filter fun tag => OverlapsContent after tag) = inside ∧
      List.Forall₂ (fun tag tag' => tag'.value = tag.value ∧
        ∃ i content, HoldsByte (textContents s) i tag.start ∧
          (contentsIn after)[i]? = some content ∧
          content.start ≤ tag'.start ∧ tag'.stop ≤ content.stop) visible inside := by
  intro s after visible inside
  have hangle : ∀ content ∈ textContents s, '<' ∉ content := by decide +kernel
  have hvisible : tagsFrom (windowSize 256) 0 (visibleText s) = visible := by decide +kernel
  have hinside : ((tagsFrom (windowSize 256) 0 after).filter fun tag => OverlapsContent after tag)
      = inside := by decide +kernel
  have htags := gatherPart_wholeTags (windowSize 256) hangle
  dsimp only at htags
  rw [hvisible, hinside] at htags
  exact ⟨hangle, hvisible, hinside, htags⟩

end MailMerge
