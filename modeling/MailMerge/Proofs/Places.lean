import MailMerge.Proofs.Bytes

/-!
# Spans and tags by their places

The spans of a text are the same from wherever it is read: one starts at a place or does not
(`mem_spansFrom_iff`). So the spans from a place on are some of all spans, and behind a span that
has been found the others are found (`spansFrom_stop`).

A scanner therefore finds, one after the other, all spans from the place on that it was sent to
last, whatever has been asked of it before (`Scanner.answer_eq`, `Scanner.seek_after`). It finds all
tags in the same way, and these are the written tags that are short enough
(`Scanner.nextTag_finds`).
-/

namespace MailMerge

/-! ### From character to character -/

section Locate

variable {window : Nat} {s : List Char} {span : Found (List Char)}

/-- The span that starts with a text, when the text starts at a place. -/
def spanAt? (window start : Nat) (s : List Char) : Option (Found (List Char)) :=
  (span? window s).map fun (body, _) => ⟨start, start + Text.byteSize body + 2, body⟩

theorem pieces_of_span?_eq_none {c : Char} (h : span? window (c :: s) = none) :
    pieces window (c :: s) = .char c :: pieces window s := by
  rw [pieces]
  split
  · next h' => simp [h] at h'
  · rfl

theorem pieces_of_span? {c : Char} {body rest : List Char}
    (h : span? window (c :: s) = some (body, rest)) :
    pieces window (c :: s) = .span body :: pieces window rest := by
  rw [pieces]
  split
  · next h' =>
    rw [h] at h'
    cases h'
    rfl
  · next h' => simp [h] at h'

theorem locate_pieces_braceFree_append {b : List Char} (hb : BraceFree b) (start : Nat)
    (r : List Char) : locate start (pieces window (b ++ r))
      = locate (start + Text.byteSize b) (pieces window r) := by
  induction b generalizing start with
  | nil => rfl
  | cons c b ih =>
    obtain ⟨hc, hb⟩ := braceFree_cons.1 hb
    rw [List.cons_append, pieces_of_span?_eq_none (span?_eq_none_of_ne (ne_brace hc).1 _), locate,
      Text.byteSize_cons, ← Nat.add_assoc]
    exact ih hb _

theorem byteSize_text_span (body : List Char) :
    Text.byteSize (Piece.span body).text = Text.byteSize body + 2 := by
  have hopen : '{'.utf8Size = 1 := rfl
  have hclose : '}'.utf8Size = 1 := rfl
  rw [Piece.text, Text.byteSize_cons, Text.byteSize_append, Text.byteSize_cons, Text.byteSize_nil]
  omega

/-- No span starts inside of a span, so the spans behind a character do not depend on it. -/
theorem locate_pieces_cons (start : Nat) (c : Char) (s : List Char) :
    locate start (pieces window (c :: s))
      = (spanAt? window start (c :: s)).toList
        ++ locate (start + c.utf8Size) (pieces window s) := by
  cases h : span? window (c :: s) with
  | none =>
    rw [pieces_of_span?_eq_none h, spanAt?, h]
    rfl
  | some found =>
    obtain ⟨body, rest⟩ := found
    obtain ⟨hs, -, hbody, -⟩ := span?_eq_some_iff.1 h
    obtain ⟨rfl, rfl⟩ := List.cons.inj hs
    have hclose : locate (start + 1 + Text.byteSize body) (pieces window ('}' :: rest))
        = locate (start + 1 + Text.byteSize body + 1) (pieces window rest) := by
      rw [pieces_of_span?_eq_none (span?_eq_none_of_ne (by decide) _)]
      rfl
    have hstop : start + 1 + Text.byteSize body + 1 = start + (Text.byteSize body + 2) := by omega
    have hinside : locate (start + '{'.utf8Size) (pieces window (body ++ '}' :: rest))
        = locate (start + (Text.byteSize body + 2)) (pieces window rest) := by
      rw [locate_pieces_braceFree_append hbody, ← hstop, ← hclose]
      rfl
    rw [hinside, pieces_of_span? h, spanAt?, h, locate, byteSize_text_span]
    rfl

theorem le_start_of_mem_locate {start : Nat} {ps : List Piece} (h : span ∈ locate start ps) :
    start ≤ span.start := by
  induction ps generalizing start with
  | nil => cases h
  | cons p ps ih =>
    cases p with
    | char c => exact Nat.le_trans (Nat.le_add_right _ _) (ih h)
    | span body =>
      rcases List.mem_cons.1 h with rfl | h
      · exact Nat.le_refl _
      · exact Nat.le_trans (Nat.le_add_right _ _) (ih h)

theorem pairwise_locate (start : Nat) (ps : List Piece) :
    (locate start ps).Pairwise fun a b => a.stop ≤ b.start := by
  induction ps generalizing start with
  | nil => exact .nil
  | cons p ps ih =>
    cases p with
    | char c => exact ih _
    | span body => exact .cons (fun b hb => le_start_of_mem_locate hb) (ih _)

theorem start_of_spanAt? {start : Nat} (h : spanAt? window start s = some span) :
    span.start = start := by
  obtain ⟨_, -, rfl⟩ := Option.map_eq_some_iff.1 h
  rfl

/-- A span stands in a text where it starts what is left of the text. -/
theorem isSpanIn_iff : span.IsSpanIn window s ↔
    ∃ before rest, s = before ++ rest ∧ spanAt? window (Text.byteSize before) rest = some span := by
  constructor
  · obtain ⟨start, stop, body⟩ := span
    rintro ⟨before, after, rfl, hstart, hstop, hne, hbody, hsize⟩
    dsimp only at hstart hstop hne hbody hsize ⊢
    subst hstop hstart
    refine ⟨before, _, rfl, ?_⟩
    rw [spanAt?, span?_eq_some_iff.2 ⟨rfl, hne, hbody, hsize⟩]
    rfl
  · rintro ⟨before, rest, rfl, h⟩
    obtain ⟨⟨body, after⟩, hspan, rfl⟩ := Option.map_eq_some_iff.1 h
    obtain ⟨rfl, hne, hbody, hsize⟩ := span?_eq_some_iff.1 hspan
    exact ⟨before, after, rfl, rfl, rfl, hne, hbody, hsize⟩

/-- The spans that are found are those that stand in the text. -/
theorem mem_locate_pieces_iff (front : List Char) :
    span ∈ locate (Text.byteSize front) (pieces window s) ↔
      span.IsSpanIn window (front ++ s) ∧ Text.byteSize front ≤ span.start := by
  induction s generalizing front with
  | nil =>
    rw [pieces, isSpanIn_iff]
    refine ⟨fun h => absurd h List.not_mem_nil, ?_⟩
    rintro ⟨⟨before, rest, hs, h⟩, hle⟩
    rw [start_of_spanAt? h] at hle
    obtain ⟨u, -, hu⟩ := Text.exists_append_of_byteSize_le hs hle
    obtain ⟨-, rfl⟩ := List.append_eq_nil_iff.1 hu.symm
    cases h
  | cons c s ih =>
    have hnext : Text.byteSize front + c.utf8Size = Text.byteSize (front ++ [c]) := by simp
    rw [locate_pieces_cons, List.mem_append, Option.mem_toList, hnext, ih (front ++ [c]),
      List.append_assoc, List.singleton_append, isSpanIn_iff, ← hnext]
    constructor
    · rintro (h | ⟨h, hle⟩)
      · exact ⟨⟨front, _, rfl, h⟩, Nat.le_of_eq (start_of_spanAt? h).symm⟩
      · exact ⟨h, Nat.le_trans (Nat.le_add_right _ _) hle⟩
    · rintro ⟨⟨before, rest, hs, h⟩, hle⟩
      rw [start_of_spanAt? h] at hle ⊢
      obtain ⟨u, rfl, hu⟩ := Text.exists_append_of_byteSize_le hs hle
      cases u with
      | nil =>
        rw [List.nil_append] at hu
        rw [List.append_nil, ← hu] at h
        exact Or.inl h
      | cons d u =>
        obtain ⟨rfl, -⟩ := List.cons.inj hu
        refine Or.inr ⟨⟨_, rest, hs, h⟩, ?_⟩
        rw [Text.byteSize_append, Text.byteSize_cons]
        omega

/-! ### From a place on -/

/-- From a place on, the spans that start there or behind are found. -/
theorem locate_dropTo (place start : Nat) (s : List Char) :
    locate (dropTo place start s).1 (pieces window (dropTo place start s).2)
      = (locate start (pieces window s)).filter fun span => place ≤ span.start := by
  induction s generalizing start with
  | nil =>
    rw [dropTo, pieces]
    rfl
  | cons c s ih =>
    rw [dropTo]
    split
    · next hle =>
      refine (List.filter_eq_self.2 fun span hspan => ?_).symm
      exact decide_eq_true (Nat.le_trans hle (le_start_of_mem_locate hspan))
    · next hlt =>
      have hfirst : (spanAt? window start (c :: s)).toList.filter (fun span => place ≤ span.start)
          = [] := by
        rw [List.filter_eq_nil_iff]
        intro span hspan
        rw [start_of_spanAt? (Option.mem_toList.1 hspan)]
        simpa using hlt
      rw [ih, locate_pieces_cons, List.filter_append, hfirst, List.nil_append]

theorem spansFrom_eq (place : Nat) (s : List Char) :
    spansFrom window place s
      = (locate 0 (pieces window s)).filter fun span => place ≤ span.start :=
  locate_dropTo place 0 s

/-- **The spans from a place on** are those of the text that start there or behind. -/
theorem mem_spansFrom_iff {place : Nat} :
    span ∈ spansFrom window place s ↔ span.IsSpanIn window s ∧ place ≤ span.start := by
  have hall : span ∈ locate 0 (pieces window s) ↔ span.IsSpanIn window s ∧ 0 ≤ span.start :=
    mem_locate_pieces_iff []
  rw [spansFrom_eq, List.mem_filter, hall, and_iff_left (Nat.zero_le _), decide_eq_true_iff]

variable (window) in
theorem pairwise_spansFrom (place : Nat) (s : List Char) :
    (spansFrom window place s).Pairwise fun a b => a.stop ≤ b.start := by
  rw [spansFrom_eq]
  exact (pairwise_locate 0 _).filter _

theorem Found.IsSpanIn.start_lt_stop (h : span.IsSpanIn window s) : span.start < span.stop := by
  obtain ⟨before, after, -, -, hstop, -⟩ := h
  omega

/-- Behind a span that is found, the spans that follow it are found. -/
theorem spansFrom_stop {place : Nat} {before after : List (Found (List Char))}
    (h : spansFrom window place s = before ++ span :: after) :
    spansFrom window span.stop s = after := by
  have hspan : span ∈ spansFrom window place s := by
    rw [h]
    exact List.mem_append_right _ List.mem_cons_self
  have hplace := (mem_spansFrom_iff.1 hspan).2
  have hlt := (mem_spansFrom_iff.1 hspan).1.start_lt_stop
  have hall : spansFrom window span.stop s
      = (spansFrom window place s).filter fun other => span.stop ≤ other.start := by
    rw [spansFrom_eq, spansFrom_eq, List.filter_filter]
    refine List.filter_congr fun other _ => ?_
    rw [← Bool.decide_and, decide_eq_decide]
    omega
  have hpair := pairwise_spansFrom window place s
  rw [h, List.pairwise_append, List.pairwise_cons] at hpair
  obtain ⟨-, ⟨hafter, -⟩, hbefore⟩ := hpair
  have hdropped : before.filter (fun other => span.stop ≤ other.start) = [] := by
    rw [List.filter_eq_nil_iff]
    intro other hother
    have hmem := (mem_spansFrom_iff.1 (h ▸ List.mem_append_left _ hother :
      other ∈ spansFrom window place s)).1.start_lt_stop
    have := hbefore other hother span List.mem_cons_self
    simp only [decide_eq_true_eq, Nat.not_le]
    omega
  have hkept : after.filter (fun other => span.stop ≤ other.start) = after :=
    List.filter_eq_self.2 fun other hother => decide_eq_true (hafter other hother)
  rw [hall, h, List.filter_append, hdropped, List.nil_append,
    List.filter_cons_of_neg (by simpa using hlt), hkept]

/-! ### Tags -/

/-- A tag that is found in a text: it is written there, and its closing brace starts in the
window. -/
def Found.IsTagIn (tag : Found Tag) (window : Nat) (s : List Char) : Prop :=
  tag.value.Fits window ∧ ∃ before after, s = before ++ (tag.value.text ++ after) ∧
    tag.start = Text.byteSize before ∧ tag.stop = tag.start + Text.byteSize tag.value.text

theorem Tag.byteSize_text (t : Tag) : Text.byteSize t.text = Text.byteSize t.inner + 2 :=
  byteSize_text_span t.inner

theorem Found.tag?_eq_some_iff {tag : Found Tag} :
    span.tag? = some tag ↔
      Tag.ofInner? span.value = some tag.value ∧ span.start = tag.start ∧ span.stop = tag.stop := by
  obtain ⟨start, stop, t⟩ := tag
  rw [Found.tag?, Option.map_eq_some_iff]
  constructor
  · rintro ⟨t, ht, he⟩
    cases he
    exact ⟨ht, rfl, rfl⟩
  · rintro ⟨ht, rfl, rfl⟩
    exact ⟨t, ht, rfl⟩

/-- The spans that are tags are the written tags. -/
theorem Found.isTagIn_iff {tag : Found Tag} :
    tag.IsTagIn window s ↔ ∃ span : Found (List Char), span.IsSpanIn window s ∧
      span.tag? = some tag := by
  constructor
  · rintro ⟨hfits, before, after, rfl, hstart, hstop⟩
    refine ⟨⟨tag.start, tag.stop, tag.value.inner⟩, ⟨before, after, ?_, hstart, ?_,
      Tag.inner_ne_nil hfits.named, Tag.braceFree_inner hfits.named, hfits.size⟩,
      Found.tag?_eq_some_iff.2 ⟨Tag.ofInner?_inner hfits.named, rfl, rfl⟩⟩
    · simp [Tag.text]
    · rw [hstop, Tag.byteSize_text]
      rfl
  · rintro ⟨span, ⟨before, after, rfl, hstart, hstop, -, -, hsize⟩, htag⟩
    obtain ⟨ht, hstart', hstop'⟩ := Found.tag?_eq_some_iff.1 htag
    have hinner := Tag.inner_of_ofInner? ht
    refine ⟨⟨Tag.named_of_ofInner? ht, hinner ▸ hsize⟩, before, after, ?_, ?_, ?_⟩
    · simp [Tag.text, hinner]
    · rw [← hstart', hstart]
    · rw [Tag.byteSize_text, hinner, ← hstart', ← hstop', hstop, Nat.add_assoc]

/-- **The tags from a place on** are the written tags that fit and start there or behind. -/
theorem mem_tagsFrom_iff {place : Nat} {tag : Found Tag} :
    tag ∈ tagsFrom window place s ↔ tag.IsTagIn window s ∧ place ≤ tag.start := by
  rw [tagsFrom, List.mem_filterMap, Found.isTagIn_iff]
  constructor
  · rintro ⟨span, hspan, htag⟩
    obtain ⟨hin, hplace⟩ := mem_spansFrom_iff.1 hspan
    rw [(Found.tag?_eq_some_iff.1 htag).2.1] at hplace
    exact ⟨⟨span, hin, htag⟩, hplace⟩
  · rintro ⟨⟨span, hin, htag⟩, hplace⟩
    rw [← (Found.tag?_eq_some_iff.1 htag).2.1] at hplace
    exact ⟨span, mem_spansFrom_iff.2 ⟨hin, hplace⟩, htag⟩

variable (window) in
theorem pairwise_tagsFrom (place : Nat) (s : List Char) :
    (tagsFrom window place s).Pairwise fun a b => a.stop ≤ b.start := by
  rw [tagsFrom, List.pairwise_filterMap]
  refine (pairwise_spansFrom window place s).imp fun h tag htag tag' htag' => ?_
  rw [← (Found.tag?_eq_some_iff.1 htag).2.2, ← (Found.tag?_eq_some_iff.1 htag').2.1]
  exact h

/-- Behind a tag that is found, the tags that follow it are found. -/
theorem tagsFrom_stop {place : Nat} {tag : Found Tag} {after : List (Found Tag)}
    (h : tagsFrom window place s = tag :: after) : tagsFrom window tag.stop s = after := by
  obtain ⟨before, span, others, hspans, -, htag, rfl⟩ := List.filterMap_eq_cons_iff.1 h
  rw [tagsFrom, ← (Found.tag?_eq_some_iff.1 htag).2.2, spansFrom_stop hspans]

/-! ### Tags among tokens -/

/-- What is sought stands in the middle of a list, and nowhere else. -/
theorem filter_append_middle {α : Type} {p : α → Prop} [DecidablePred p]
    {front middle back : List α} (hfront : ∀ x ∈ front, ¬p x) (hmiddle : ∀ x ∈ middle, p x)
    (hback : ∀ x ∈ back, ¬p x) : (front ++ (middle ++ back)).filter p = middle := by
  have hnone {l : List α} (hl : ∀ x ∈ l, ¬p x) : l.filter p = [] :=
    List.filter_eq_nil_iff.2 fun x hx => by simpa using hl x hx
  have hall : middle.filter p = middle :=
    List.filter_eq_self.2 fun x hx => decide_eq_true (hmiddle x hx)
  rw [List.filter_append, List.filter_append, hnone hfront, hall, hnone hback, List.nil_append,
    List.append_nil]

/-- The tags among tokens, the first of which starts at `start`. -/
def locateTags (start : Nat) : List Token → List (Found Tag)
  | [] => []
  | .char c :: ts => locateTags (start + c.utf8Size) ts
  | .tag t :: ts =>
    let stop := start + Text.byteSize t.text
    ⟨start, stop, t⟩ :: locateTags stop ts

theorem locateTags_append (start : Nat) (us vs : List Token) :
    locateTags start (us ++ vs) = locateTags start us
      ++ locateTags (start + Text.byteSize (us.flatMap Token.text)) vs := by
  induction us generalizing start with
  | nil => rfl
  | cons u us ih =>
    rw [List.flatMap_cons, Text.byteSize_append, ← Nat.add_assoc]
    cases u with
    | char c => exact ih _
    | tag t => exact congrArg (_ :: ·) (ih _)

theorem locateTags_map_char_append (start : Nat) (u : List Char) (ts : List Token) :
    locateTags start (u.map .char ++ ts) = locateTags (start + Text.byteSize u) ts := by
  have hnone : ∀ start, locateTags start (u.map .char) = [] := by
    induction u with
    | nil => exact fun _ => rfl
    | cons c u ih => exact fun _ => ih _
  rw [locateTags_append, hnone, List.nil_append, flatMap_text_map_tokenChar]

/-- The tags that are found stand in the text. -/
theorem of_mem_locateTags {start : Nat} {ts : List Token} {tag : Found Tag}
    (h : tag ∈ locateTags start ts) : .tag tag.value ∈ ts ∧ start ≤ tag.start ∧
      tag.start < tag.stop ∧ tag.stop ≤ start + Text.byteSize (ts.flatMap Token.text) := by
  induction ts generalizing start with
  | nil => cases h
  | cons t ts ih =>
    rw [List.flatMap_cons, Text.byteSize_append]
    have hlater (h : tag ∈ locateTags (start + Text.byteSize t.text) ts) :
        .tag tag.value ∈ t :: ts ∧ start ≤ tag.start ∧ tag.start < tag.stop ∧
          tag.stop ≤ start + (Text.byteSize t.text + Text.byteSize (ts.flatMap Token.text)) := by
      obtain ⟨hmem, hstart, hlt, hstop⟩ := ih h
      exact ⟨List.mem_cons_of_mem t hmem, by omega, hlt, by omega⟩
    cases t with
    | char c => exact hlater h
    | tag t =>
      rcases List.mem_cons.1 h with rfl | h
      · have := Tag.byteSize_text t
        refine ⟨List.mem_cons_self, Nat.le_refl _, ?_, ?_⟩
        all_goals
          simp only [Token.text]
          omega
      · exact hlater h

theorem filterMap_tag?_locate (start : Nat) (ps : List Piece) :
    (locate start ps).filterMap Found.tag? = locateTags start (ps.flatMap Piece.tokens) := by
  induction ps generalizing start with
  | nil => rfl
  | cons p ps ih =>
    rw [List.flatMap_cons]
    cases p with
    | char c => exact ih _
    | span body =>
      rw [locate, List.filterMap_cons, Found.tag?, Piece.tokens]
      cases ht : Tag.ofInner? body with
      | none =>
        dsimp only [Option.map_none]
        rw [locateTags_map_char_append, ih]
      | some t =>
        have htext : t.text = (Piece.span body).text := by
          rw [Tag.text, Tag.inner_of_ofInner? ht, Piece.text]
        dsimp only [Option.map_some]
        rw [List.singleton_append, locateTags, ih, htext]

variable (window) in
/-- The tags of a text are those among its tokens. -/
theorem tagsFrom_zero (s : List Char) :
    tagsFrom window 0 s = locateTags 0 (tokens window s) := by
  have hall : (locate 0 (pieces window s)).filter (fun span => 0 ≤ span.start)
      = locate 0 (pieces window s) :=
    List.filter_eq_self.2 fun span _ => decide_eq_true (Nat.zero_le _)
  rw [tagsFrom, spansFrom_eq, hall, filterMap_tag?_locate, tokens]

end Locate

/-! ### Scanners -/

namespace Scanner

/-- What is asked of a scanner: to go to a place, or for the next thing it finds. -/
inductive Request where
  | seek (place : Nat)
  | next
  deriving DecidableEq, Repr

section Requests

variable {α : Type} (find : Scanner → Option (Found α) × Scanner)

/-- The scanner after some requests. -/
def after (scanner : Scanner) : List Request → Scanner
  | [] => scanner
  | .seek place :: requests => (scanner.seek place).after requests
  | .next :: requests => (find scanner).2.after requests

/-- What is found next after so many things have been asked for. -/
def answer (scanner : Scanner) (n : Nat) : Option (Found α) :=
  (find (scanner.after find (List.replicate n .next))).1

variable {find} {found : Scanner → List (Found α)}

/-- A search that finds the first of a list, and behind it the rest, finds the list, one after the
other, and then nothing any more. -/
theorem answer_eq (hfind : ∀ scanner, find scanner = scanner.behind (found scanner))
    (hfound : ∀ scanner first rest, found scanner = first :: rest →
      found (scanner.seek first.stop) = rest)
    (scanner : Scanner) (n : Nat) : scanner.answer find n = (found scanner)[n]? := by
  induction n generalizing scanner with
  | zero =>
    rw [answer, List.replicate_zero, after, hfind]
    cases found scanner <;> rfl
  | succ n ih =>
    have hnext : scanner.answer find (n + 1) = (find scanner).2.answer find n := rfl
    rw [hnext, ih, hfind]
    cases h : found scanner with
    | nil =>
      rw [behind, h]
      rfl
    | cons first rest => rw [behind, hfound scanner first rest h, List.getElem?_cons_succ]

/-- Requests change nothing but the place. -/
theorem seek_after (hfind : ∀ scanner, find scanner = scanner.behind (found scanner))
    (scanner : Scanner) (requests : List Request) (place : Nat) :
    (scanner.after find requests).seek place = scanner.seek place := by
  induction requests generalizing scanner with
  | nil => rfl
  | cons request requests ih =>
    cases request with
    | seek other => exact ih (scanner.seek other)
    | next =>
      rw [after, ih, hfind]
      cases found scanner <;> rfl

end Requests

/-- **A scanner finds the tags of a text**, whatever has been asked of it before. From the place on
that it was sent to last it finds, from left to right and each once, the tags that are written there
and are short enough, and then nothing any more. What is written for a tag is read as that tag, and
a tag is read from nothing else. -/
theorem nextTag_finds {bound : UInt64} (hbound : bound.toNat < 2 ^ 63) (text : List Char)
    (requests : List Request) (place : Nat) :
    (∃ tags : List (Found Tag),
      (∀ n, (((Scanner.mk text (windowSize bound) 0).after nextTag requests).seek place).answer
        nextTag n = tags[n]?) ∧
      tags.Pairwise (fun a b => a.stop ≤ b.start) ∧
      ∀ tag : Found Tag, tag ∈ tags ↔ place ≤ tag.start ∧ tag.value.IsNamed ∧
        Text.byteSize tag.value.inner ≤ max bound.toNat 1 ∧
        ∃ before after, text = before ++ (tag.value.text ++ after) ∧
          tag.start = Text.byteSize before ∧
          tag.stop = tag.start + Text.byteSize tag.value.text) ∧
    (∀ t : Tag, t.IsNamed → Tag.ofInner? t.inner = some t) ∧
    ∀ (s : List Char) (t : Tag), Tag.ofInner? s = some t → t.inner = s ∧ t.IsNamed := by
  have hfind : ∀ scanner : Scanner, scanner.nextTag
      = scanner.behind (tagsFrom scanner.window scanner.place scanner.text) := fun _ => rfl
  refine ⟨⟨tagsFrom (windowSize bound) place text, fun n => ?_, pairwise_tagsFrom _ _ _,
    fun tag => ?_⟩, fun t ht => Tag.ofInner?_inner ht,
    fun s t h => ⟨Tag.inner_of_ofInner? h, Tag.named_of_ofInner? h⟩⟩
  · rw [seek_after hfind, answer_eq hfind fun _ _ _ h => tagsFrom_stop h]
    rfl
  · rw [mem_tagsFrom_iff, windowSize_eq hbound]
    constructor
    · rintro ⟨⟨⟨hnamed, hsize⟩, hwritten⟩, hplace⟩
      exact ⟨hplace, hnamed, Nat.le_of_lt_succ hsize, hwritten⟩
    · rintro ⟨hplace, hnamed, hsize, hwritten⟩
      exact ⟨⟨⟨hnamed, Nat.lt_succ_of_le hsize⟩, hwritten⟩, hplace⟩

/-- Tags among braces that make none: a doubled brace, a name with a blank, a mark of a row without
a name, and a name that is too long for the bound; two of the names are words of other tags. -/
theorem nextTag_finds_braces :
    let text := ("\x7b\x7b:else\x7d\x7d é\x7b?a b\x7d\x7btable:\x7d\x7btable:else\x7d"
      ++ "\x7btable\x7d\x7b#too_long_by_1\x7d\x7b/x\x7d").toList
    let scanner := ((Scanner.mk text (windowSize 10) 0).after nextTag [.next, .seek 40]).seek 1
    (10 : UInt64).toNat < 2 ^ 63 ∧
      (scanner.answer nextTag 0 = some ⟨1, 8, .otherwise⟩ ∧
        scanner.answer nextTag 1 = some ⟨26, 38, .table "else"⟩ ∧
        scanner.answer nextTag 2 = some ⟨38, 45, .simple "table"⟩ ∧
        scanner.answer nextTag 3 = some ⟨61, 65, .close "x"⟩ ∧ scanner.answer nextTag 4 = none) ∧
      (∃ tags : List (Found Tag), (∀ n, scanner.answer nextTag n = tags[n]?) ∧
        tags.Pairwise (fun a b => a.stop ≤ b.start) ∧
        ∀ tag : Found Tag, tag ∈ tags ↔ 1 ≤ tag.start ∧ tag.value.IsNamed ∧
          Text.byteSize tag.value.inner ≤ max (10 : UInt64).toNat 1 ∧
          ∃ before after, text = before ++ (tag.value.text ++ after) ∧
            tag.start = Text.byteSize before ∧
            tag.stop = tag.start + Text.byteSize tag.value.text) ∧
      (Tag.loopOpen "a_1").IsNamed ∧ Tag.ofInner? "#a_1".toList = some (.loopOpen "a_1") := by
  intro text scanner
  obtain ⟨hfinds, hread, hwritten⟩ := nextTag_finds (show (10 : UInt64).toNat < 2 ^ 63 by decide)
    text [.next, .seek 40] 1
  have h : Tag.ofInner? "#a_1".toList = some (.loopOpen "a_1") :=
    hread (.loopOpen "a_1") (by decide)
  exact ⟨by decide, by decide +kernel, hfinds, (hwritten _ _ h).2, h⟩

end Scanner

end MailMerge
