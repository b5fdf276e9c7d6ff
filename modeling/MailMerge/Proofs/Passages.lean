import MailMerge.Proofs.Gathering
import MailMerge.Proofs.NestedRows

/-!
# Passages

A **passage** is a stretch of a well nested text between two places in character data. It leads from
the elements that are open in front of it to those that are open behind it (`Passage`), and part of
it is seen: the characters in text elements. Where text elements are **plain**, holding character
data only, a well nested text is a passage from nowhere to nowhere, and the other way round
(`exists_passage_iff`).

What is looked for by markup alone is what is there: the contents of the text elements of a text are
the characters that are seen (`Passage.visibleText_eq`), and a place is inside a text element when
this is the innermost one that is open there (`Passage.insideTextElement_eq`).
-/

namespace MailMerge

namespace Markup

/-- The name of text elements. -/
def textName : List Char := "w:t".toList

theorem textOpening_eq : textOpening = '<' :: textName :=
  rfl

theorem textClosing_eq : textClosing = '<' :: ('/' :: textName ++ ['>']) :=
  rfl

/-- A text element holds character data only: the next tag in it is its closing tag, in its shortest
form. -/
def PlainTexts (s : List Char) : Prop :=
  ∀ before after path, s = before ++ '<' :: after →
    placeAfter? {} before = some (.at (textName :: path)) → textClosing <+: '<' :: after

/-- Whether what follows a place may follow it when text elements are plain. -/
def mayFollow (before after : List Char) : Bool :=
  match placeAfter? {} before, after with
  | some ⟨name :: _, none⟩, '<' :: _ => name != textName || Text.startsWith textClosing after
  | _, _ => true

theorem plainTexts_iff {s : List Char} :
    PlainTexts s ↔ ∀ i ∈ List.range (s.length + 1), mayFollow (s.take i) (s.drop i) = true := by
  have hstarts : ∀ r, Text.startsWith textClosing r = true ↔ textClosing <+: r := fun r => by
    rw [Text.startsWith, Option.isSome_iff_exists]
    exact exists_congr fun t => Text.after?_eq_some_iff.trans eq_comm
  constructor
  · intro h i _
    unfold mayFollow
    split
    · next name path after hplace hafter =>
      by_cases hname : name = textName
      · subst hname
        have hs : s = s.take i ++ '<' :: after := by rw [← hafter, List.take_append_drop]
        rw [hafter, (hstarts _).2 (h _ after path hs hplace), Bool.or_true]
      · rw [bne_iff_ne.2 hname, Bool.true_or]
    · rfl
  · rintro h before after path rfl hbefore
    have hlength : before.length < (before ++ '<' :: after).length + 1 := by
      rw [List.length_append]
      omega
    have hmay := h before.length (List.mem_range.2 hlength)
    rw [List.take_left, List.drop_left] at hmay
    simp only [mayFollow, hbefore, Place.at, bne_self_eq_false, Bool.false_or] at hmay
    exact (hstarts _).1 hmay

instance : DecidablePred PlainTexts :=
  fun _ => decidable_of_iff _ plainTexts_iff.symm

/-- A text leads from the elements that are open in front of it to those that are open behind it,
and `visible` is what it shows. Text elements are plain. -/
inductive Passage : Path → List Char → Path → List Char → Prop
  | nil (path : Path) : Passage path [] path []
  | char {path path' : Path} {c : Char} {s visible : List Char} (hc : c ≠ '<')
      (h : Passage path s path' visible) :
      Passage path (c :: s) path' (if path.head? = some textName then c :: visible else visible)
  | tag {path next path' : Path} {body s visible : List Char} {tag : ElementTag}
      (hopen : '<' ∉ body) (hclose : '>' ∉ body) (htag : elementTag? body = some tag)
      (hfollow : tag.follow? path = some next)
      (hplain : path.head? = some textName → body = '/' :: textName)
      (h : Passage next s path' visible) : Passage path ('<' :: (body ++ '>' :: s)) path' visible

/-! ### Tags of text elements -/

theorem opening_notMem_concat {body : List Char} (h : '<' ∉ body) : '<' ∉ body ++ ['>'] := by
  rw [List.mem_append, not_or]
  exact ⟨h, by decide⟩

/-- The tag of an element closes one, or is one, or opens one. -/
theorem elementTag?_cases {body : List Char} {tag : ElementTag}
    (htag : elementTag? body = some tag) :
    (∃ b, body = '/' :: b ∧ tag = .closes (nameOf b)) ∨
      (∃ b, body = b ++ ['/'] ∧ isNamed b = true ∧ tag = .empty (nameOf b)) ∨
        (body.getLast? ≠ some '/' ∧ isNamed body = true ∧ tag = .opens (nameOf body)) := by
  unfold elementTag? at htag
  split at htag
  · next b =>
    split at htag <;> cases htag
    exact .inl ⟨b, rfl, rfl⟩
  · split at htag
    · next hlast =>
      split at htag <;> cases htag
      next hnamed =>
      obtain ⟨b, rfl⟩ := List.getLast?_eq_some_iff.1 hlast
      rw [List.dropLast_concat] at hnamed ⊢
      exact .inr (.inl ⟨b, rfl, hnamed, rfl⟩)
    · next hlast =>
      split at htag <;> cases htag
      next hnamed => exact .inr (.inr ⟨hlast, hnamed, rfl⟩)

theorem nameOf_eq_textName_iff {b : List Char} (hnamed : isNamed b = true) (hangle : '>' ∉ b) :
    nameOf b = textName ↔ ∃ x, b = textName ++ x ∧ nameEnds (x ++ ['>']) = true :=
  nameOf_eq_iff (by decide) hnamed hangle

/-- A slash at the end of a tag does not belong to the name. -/
theorem nameEnds_slash (x : List Char) :
    nameEnds (x ++ ['/'] ++ ['>']) = nameEnds (x ++ ['>']) := by
  cases x <;> rfl

theorem getLast?_textName_append (x : List Char) :
    (textName ++ x).getLast? = some '/' ↔ x.getLast? = some '/' := by
  cases x with
  | nil => decide
  | cons c x => simp [List.getLast?_append]

/-- The tag of an element is that of a text element when it starts with the name, which ends
there. -/
theorem textTag_cases {body : List Char} {tag : ElementTag} (htag : elementTag? body = some tag)
    (hangle : '>' ∉ body) :
    (∃ x, body = textName ++ x ∧ IsAttributes x ∧
        tag = if x.getLast? = some '/' then .empty textName else .opens textName) ∨
      ((∀ x, body = textName ++ x → nameEnds (x ++ ['>']) = false) ∧
        tag ≠ .opens textName) := by
  obtain ⟨b, rfl, rfl⟩ | ⟨b, rfl, hnamed, rfl⟩ | ⟨hlast, hnamed, rfl⟩ := elementTag?_cases htag
  · exact .inr ⟨fun x hx => absurd (List.cons.inj hx).1 (by decide), nofun⟩
  · have hname := nameOf_eq_textName_iff hnamed fun hm => hangle (List.mem_append_left _ hm)
    by_cases htext : nameOf b = textName
    · obtain ⟨x, rfl, hends⟩ := hname.1 htext
      refine .inl ⟨x ++ ['/'], List.append_assoc .., ⟨fun hm => hangle ?_, ?_⟩, ?_⟩
      · rw [List.append_assoc]
        exact List.mem_append_right _ hm
      · rw [nameEnds_slash, hends]
      · rw [htext, List.getLast?_concat, if_pos rfl]
    · refine .inr ⟨fun x hx => ?_, nofun⟩
      have hlast : x.getLast? = some '/' := by
        rw [← getLast?_textName_append, ← hx, List.getLast?_concat]
      obtain ⟨x, rfl⟩ := List.getLast?_eq_some_iff.1 hlast
      rw [← List.append_assoc] at hx
      rw [nameEnds_slash, ← Bool.not_eq_true]
      exact fun hends => htext (hname.2 ⟨x, (List.append_inj' hx rfl).1, hends⟩)
  · have hname := nameOf_eq_textName_iff hnamed hangle
    by_cases htext : nameOf body = textName
    · obtain ⟨x, rfl, hends⟩ := hname.1 htext
      rw [ne_eq, getLast?_textName_append] at hlast
      refine .inl ⟨x, rfl, ⟨fun hm => hangle (List.mem_append_right _ hm), hends⟩, ?_⟩
      rw [htext, if_neg hlast]
    · refine .inr ⟨fun x hx => ?_, fun h => htext (ElementTag.opens.inj h)⟩
      rw [← Bool.not_eq_true]
      exact fun hends => htext (hname.2 ⟨x, hx, hends⟩)

/-! ### Passages and places -/

theorem leads_map_char_iff (outer : Path) {p q : Place} {s : List Char} :
    MailMerge.Leads outer p q (s.map .char) ↔ placeAfter? p s = some q := by
  rw [MailMerge.Leads, List.foldlM_map]
  rfl

/-- A tag is read from end to end. -/
theorem placeAfter?_tag {path next : Path} {body : List Char} {tag : ElementTag}
    (hopen : '<' ∉ body) (hclose : '>' ∉ body) (htag : elementTag? body = some tag)
    (hfollow : tag.follow? path = some next) (s : List Char) :
    placeAfter? (.at path) ('<' :: (body ++ '>' :: s)) = placeAfter? (.at next) s := by
  have hread : placeAfter? (.at path) ('<' :: (body ++ ['>'])) = some (.at next) :=
    (leads_map_char_iff []).1 (Leads.elementTokens hopen hclose htag hfollow)
  rw [← List.singleton_append (l := s), ← List.append_assoc, ← List.cons_append,
    placeAfter?_append, hread, Option.bind_some]

/-- A tag that stands in front of a place in character data is read to its end. -/
theorem exists_tag_of_placeAfter? {path path' : Path} {s : List Char}
    (h : placeAfter? (.at path) ('<' :: s) = some (.at path')) :
    ∃ body s' tag next, s = body ++ '>' :: s' ∧ '<' ∉ body ∧ '>' ∉ body ∧
      elementTag? body = some tag ∧ tag.follow? path = some next ∧
      placeAfter? (.at next) s' = some (.at path') := by
  have hopened : placeAfter? ⟨path, some []⟩ s = some (.at path') := h
  obtain ⟨body, us, tag, next, hs, hopen, hclose, htag, hfollow, hus⟩ :=
    Leads.exists_tag ((leads_map_char_iff []).2 hopened)
  obtain ⟨b, s', rfl, hb, rfl⟩ := List.map_eq_append_iff.1 hs
  obtain rfl := List.map_injective_iff.2 (fun c d => Token.char.inj) hb
  exact ⟨body, s', tag, next, by simp, hopen, hclose, htag, hfollow,
    (leads_map_char_iff []).1 hus⟩

namespace Passage

variable {path mid path' : Path} {s r v w : List Char}

theorem placeAfter?_eq (h : Passage path s path' v) :
    placeAfter? (.at path) s = some (.at path') := by
  induction h with
  | nil path => rfl
  | @char path path' c s visible hc h ih =>
    have hnext : (Place.at path).next c = some (.at path) := by
      simp [Place.next, Place.at, hc]
    rw [placeAfter?_cons, hnext]
    exact ih
  | tag hopen hclose htag hfollow hplain h ih =>
    rw [placeAfter?_tag hopen hclose htag hfollow]
    exact ih

theorem append (h : Passage path s mid v) (h' : Passage mid r path' w) :
    Passage path (s ++ r) path' (v ++ w) := by
  induction h with
  | nil path => exact h'
  | @char path mid c s visible hc h ih =>
    have hrest := Passage.char hc (ih h')
    split at hrest
    · next htext =>
      rw [if_pos htext]
      exact hrest
    · next htext =>
      rw [if_neg htext]
      exact hrest
  | tag hopen hclose htag hfollow hplain h ih =>
    rw [List.cons_append, List.append_assoc, List.cons_append]
    exact .tag hopen hclose htag hfollow hplain (ih h')

/-- A passage is parted at a place in character data. -/
theorem split {a b : List Char} (h : Passage path (a ++ b) path' v)
    (hmid : placeAfter? (.at path) a = some (.at mid)) :
    ∃ v₁ v₂, v = v₁ ++ v₂ ∧ Passage path a mid v₁ ∧ Passage mid b path' v₂ := by
  have hstart : ∀ path s path' v, Passage path s path' v →
      placeAfter? (.at path) [] = some (.at mid) → [] ++ b = s →
      ∃ v₁ v₂, v = v₁ ++ v₂ ∧ Passage path [] mid v₁ ∧ Passage mid b path' v₂ := by
    rintro path _ path' v h ⟨⟩ rfl
    exact ⟨[], v, rfl, .nil _, h⟩
  generalize hs : a ++ b = s at h
  induction h generalizing a with
  | nil path =>
    obtain ⟨rfl, rfl⟩ := List.append_eq_nil_iff.1 hs
    exact hstart _ _ _ _ (.nil path) hmid rfl
  | @char path path' c s visible hc h ih =>
    obtain _ | ⟨d, a⟩ := a
    · exact hstart _ _ _ _ (.char hc h) hmid hs
    · obtain ⟨rfl, rfl⟩ := List.cons.inj hs
      have hnext : (Place.at path).next d = some (.at path) := by
        simp [Place.next, Place.at, hc]
      rw [placeAfter?_cons, hnext] at hmid
      obtain ⟨v₁, v₂, rfl, h₁, h₂⟩ := ih hmid rfl
      refine ⟨_, v₂, ?_, .char hc h₁, h₂⟩
      split <;> rfl
  | @tag path next path' body s visible tag hopen hclose htag hfollow hplain h ih =>
    obtain _ | ⟨d, a⟩ := a
    · exact hstart _ _ _ _ (.tag hopen hclose htag hfollow hplain h) hmid hs
    · obtain ⟨rfl, hs⟩ := List.cons.inj hs
      -- the place in character data is behind the tag
      obtain ⟨body', a, tag', next', rfl, -, hclose', -, -, -⟩ := exists_tag_of_placeAfter? hmid
      have hcut : body' ++ '>' :: (a ++ b) = body ++ '>' :: s := by
        simpa using hs
      obtain ⟨rfl, hrest⟩ := Text.eq_of_append_cons_eq hclose' hclose hcut
      rw [placeAfter?_tag hopen hclose htag hfollow] at hmid
      obtain ⟨v₁, v₂, rfl, h₁, h₂⟩ := ih hmid hrest
      exact ⟨v₁, v₂, rfl, .tag hopen hclose htag hfollow hplain h₁, h₂⟩

end Passage

/-- A tag that starts with the closing tag of a text element is this tag. -/
theorem eq_of_closing_isPrefix {body r : List Char} (hclose : '>' ∉ body)
    (h : textClosing <+: '<' :: (body ++ '>' :: r)) : body = '/' :: textName := by
  obtain ⟨rest, hrest⟩ := h
  rw [textClosing_eq, List.cons_append, List.cons.injEq] at hrest
  have hcut : '/' :: textName ++ '>' :: rest = body ++ '>' :: r := by simpa using hrest.2
  exact (Text.eq_of_append_cons_eq (by decide) hclose hcut).1.symm

/-- What leads from place to place in a text with plain text elements is a passage. -/
theorem exists_passage {before s after : List Char} {path path' : Path}
    (hplain : PlainTexts (before ++ (s ++ after)))
    (hbefore : placeAfter? {} before = some (.at path))
    (hs : placeAfter? (.at path) s = some (.at path')) : ∃ v, Passage path s path' v := by
  induction hn : s.length using Nat.strongRecOn generalizing s before path with
  | ind n ihn =>
    subst hn
    obtain _ | ⟨c, s⟩ := s
    · cases hs
      exact ⟨[], .nil _⟩
    · by_cases hc : c = '<'
      · subst hc
        obtain ⟨body, s, tag, next, rfl, hopen, hclose, htag, hfollow, hs⟩ :=
          exists_tag_of_placeAfter? hs
        have hplain' : path.head? = some textName → body = '/' :: textName := by
          intro htext
          obtain ⟨outer, rfl⟩ : ∃ outer, path = textName :: outer := List.head?_eq_some_iff.1 htext
          exact eq_of_closing_isPrefix hclose
            (hplain before (body ++ '>' :: (s ++ after)) outer (by simp) hbefore)
        have hnext : placeAfter? {} (before ++ '<' :: (body ++ ['>'])) = some (.at next) := by
          rw [placeAfter?_append, hbefore, Option.bind_some]
          exact placeAfter?_tag hopen hclose htag hfollow []
        obtain ⟨v, hv⟩ := ihn s.length (by simp; omega) (by simpa using hplain) hnext hs rfl
        exact ⟨v, .tag hopen hclose htag hfollow hplain' hv⟩
      · have hkept : placeAfter? (.at path) [c] = some (.at path) :=
          placeAfter?_of_notMem (by simpa using Ne.symm hc) path
        have hnext : placeAfter? {} (before ++ [c]) = some (.at path) := by
          rw [placeAfter?_append, hbefore, Option.bind_some, hkept]
        rw [← List.singleton_append, placeAfter?_append, hkept, Option.bind_some] at hs
        obtain ⟨v, hv⟩ := ihn s.length (by simp) (by simpa using hplain) hnext hs rfl
        exact ⟨_, .char hc hv⟩

/-- A passage leads to each place in character data of a text with plain text elements. -/
theorem exists_passage_of_place {before after : List Char} {path : Path}
    (hplain : PlainTexts (before ++ after)) (hplace : placeAfter? {} before = some (.at path)) :
    ∃ v, Passage [] before path v := by
  have hwhole : PlainTexts ([] ++ (before ++ after)) := hplain
  exact exists_passage hwhole rfl hplace

/-- A well nested text with plain text elements is a passage from nowhere to nowhere. -/
theorem exists_passage_iff {s : List Char} :
    (∃ v, Passage [] s [] v) ↔ WellNested s ∧ PlainTexts s := by
  constructor
  · rintro ⟨v, h⟩
    refine ⟨h.placeAfter?_eq, ?_⟩
    rintro before after path rfl hbefore
    obtain ⟨-, v', -, -, h'⟩ := h.split hbefore
    cases h' with
    | char hc _ => exact absurd rfl hc
    | tag _ _ _ _ hclosing _ =>
      rw [hclosing rfl]
      exact List.prefix_append textClosing _
  · rintro ⟨hnested, hplain⟩
    rw [← List.append_nil s] at hplain
    exact exists_passage_of_place hplain hnested

/-! ### What a passage shows -/

theorem notMem_of_follow? {name : List Char} {tag : ElementTag} {path next : Path}
    (hfollow : tag.follow? path = some next) (hpath : name ∉ path) (htag : tag ≠ .opens name) :
    name ∉ next := by
  cases tag with
  | opens name' =>
    cases hfollow
    exact List.not_mem_cons_of_ne_of_not_mem (fun h => htag (congrArg _ h.symm)) hpath
  | closes name' =>
    rw [ElementTag.follow?] at hfollow
    split at hfollow
    · cases hfollow
      exact fun hm => hpath (List.mem_of_mem_tail hm)
    · cases hfollow
  | empty name' =>
    cases hfollow
    exact hpath

/-- A tag outside of text elements is that of an empty one, or opens one, or leads to elements that
are none. -/
theorem follow?_cases {body : List Char} {tag : ElementTag} {path next : Path}
    (htag : elementTag? body = some tag) (hangle : '>' ∉ body)
    (hfollow : tag.follow? path = some next) (hpath : textName ∉ path) :
    (∃ x, body = textName ++ x ∧ IsAttributes x ∧
        (x.getLast? = some '/' ∧ next = path ∨
          x.getLast? ≠ some '/' ∧ next = textName :: path)) ∨
      (∀ x, body = textName ++ x → nameEnds (x ++ ['>']) = false) ∧ textName ∉ next := by
  obtain ⟨x, rfl, hx, htext⟩ | ⟨hother, hopens⟩ := textTag_cases htag hangle
  · refine .inl ⟨x, rfl, hx, ?_⟩
    split at htext
    · next hlast =>
      obtain rfl := htext
      exact .inl ⟨hlast, (Option.some.inj hfollow).symm⟩
    · next hlast =>
      obtain rfl := htext
      exact .inr ⟨hlast, (Option.some.inj hfollow).symm⟩
  · exact .inr ⟨hother, notMem_of_follow? hfollow hpath hopens⟩

/-- The closing tag of a text element closes it. -/
theorem follow?_closing {tag : ElementTag} {outer next : Path}
    (htag : elementTag? ('/' :: textName) = some tag)
    (hfollow : tag.follow? (textName :: outer) = some next) : next = outer := by
  obtain rfl : ElementTag.closes textName = tag := Option.some.inj htag
  exact (Option.some.inj hfollow).symm

theorem head?_ne_of_notMem {name : List Char} {path : Path} (h : name ∉ path) :
    path.head? ≠ some name :=
  fun hhead => h (List.mem_of_head? hhead)

theorem notMem_of_head?_ne {name : List Char} {path : Path} (hhead : path.head? ≠ some name)
    (htail : name ∉ path.tail) : name ∉ path := by
  cases path with
  | nil => exact List.not_mem_nil
  | cons name' outer =>
    exact List.not_mem_cons_of_ne_of_not_mem (fun heq => hhead (congrArg some heq.symm)) htail

theorem exists_of_append_eq {name : List Char} (hname : '>' ∉ name) {body s r : List Char}
    (h : body ++ '>' :: s = name ++ r) : ∃ x, body = name ++ x ∧ r = x ++ '>' :: s := by
  obtain ⟨x, rfl, hx⟩ | ⟨x, hbody, hr⟩ := List.append_eq_append_iff.1 h
  · obtain _ | ⟨c, x⟩ := x
    · exact ⟨[], by simp, hx.symm⟩
    · obtain ⟨rfl, -⟩ := List.cons.inj hx
      exact absurd (List.mem_append_right _ List.mem_cons_self) hname
  · exact ⟨x, hbody, hr⟩

/-- A tag that is none of a text element is made of characters outside of them. -/
theorem chunks_tag {body : List Char} (hopen : '<' ∉ body)
    (hother : ∀ x, body = textName ++ x → nameEnds (x ++ ['>']) = false) (s : List Char) :
    chunks ('<' :: (body ++ '>' :: s)) = ('<' :: (body ++ ['>'])).map .char ++ chunks s := by
  have hplain : start ('<' :: (body ++ '>' :: s)) = .plain := by
    rw [start_eq_plain_iff]
    intro r hr
    obtain ⟨x, hx, rfl⟩ := exists_of_append_eq (by decide) (List.cons.inj hr).2
    rw [nameEnds_append_cons]
    exact hother x hx
  have hbody : body ++ '>' :: s = body ++ ['>'] ++ s := by simp
  rw [chunks_of_plain hplain, hbody, chunks_append_of_notMem (opening_notMem_concat hopen)]
  rfl

/-- The chunks of a passage that ends outside of text elements do not depend on what follows it, and
show what it does; inside of a text element, the rest of its content comes first. -/
theorem Passage.chunks_spec {path path' : Path} {s v : List Char} (h : Passage path s path' v)
    (hend : textName ∉ path') :
    (textName ∉ path →
        ∃ cs, (∀ r, chunks (s ++ r) = cs ++ chunks r) ∧ (cs.filterMap Chunk.content?).flatten = v) ∧
      ∀ outer, path = textName :: outer → textName ∉ outer →
        ∃ content rest cs, s = content ++ (textClosing ++ rest) ∧ '<' ∉ content ∧
          (∀ r, chunks (rest ++ r) = cs ++ chunks r) ∧
          content ++ (cs.filterMap Chunk.content?).flatten = v := by
  induction h with
  | nil path =>
    refine ⟨fun _ => ⟨[], fun r => rfl, rfl⟩, ?_⟩
    rintro outer rfl -
    exact absurd List.mem_cons_self hend
  | @char path path' c s visible hc h ih =>
    obtain ⟨hout, hin⟩ := ih hend
    constructor
    · intro hpath
      obtain ⟨cs, hcs, rfl⟩ := hout hpath
      rw [if_neg (head?_ne_of_notMem hpath)]
      refine ⟨.char c :: cs, fun r => ?_, rfl⟩
      rw [List.cons_append, chunks_of_plain (start_eq_plain_of_ne hc _), hcs, List.cons_append]
    · rintro outer rfl houter
      obtain ⟨content, rest, cs, rfl, hcontent, hcs, rfl⟩ := hin outer rfl houter
      rw [List.head?_cons, if_pos rfl]
      exact ⟨c :: content, rest, cs, rfl,
        List.not_mem_cons_of_ne_of_not_mem (Ne.symm hc) hcontent, hcs, rfl⟩
  | @tag path next path' body s visible tag hopen hclose htag hfollow hplain h ih =>
    obtain ⟨hout, hin⟩ := ih hend
    constructor
    · intro hpath
      obtain ⟨x, rfl, hx, hnext⟩ | ⟨hother, hnext⟩ := follow?_cases htag hclose hfollow hpath
      · have hopening : ∀ t, '<' :: (textName ++ x ++ '>' :: t) = textOpening ++ (x ++ '>' :: t) :=
          fun t => by simp [textName, textOpening]
        obtain ⟨hlast, rfl⟩ | ⟨hlast, rfl⟩ := hnext
        · obtain ⟨cs, hcs, rfl⟩ := hout hpath
          have hstart : ∀ t, start (textOpening ++ (x ++ '>' :: t))
              = .empty (textOpening ++ x ++ ['>']) t :=
            fun t => by rw [start_opening hx, if_pos hlast]
          refine ⟨(textOpening ++ x ++ ['>']).map .char ++ cs, fun r => ?_, ?_⟩
          · rw [List.cons_append, List.append_assoc, List.cons_append, hopening,
              chunks_of_empty (hstart _), hcs, List.append_assoc (List.map _ _)]
          · rw [List.filterMap_append, filterMap_content?_map_char]
            rfl
        · obtain ⟨content, rest, cs, rfl, hcontent, hcs, rfl⟩ := hin path rfl hpath
          have hstart : ∀ t, start (textOpening ++ (x ++ '>' :: (content ++ (textClosing ++ t))))
              = .element (textOpening ++ x ++ ['>']) content (textClosing ++ t) := fun t => by
            have hopen := start_opening_append hx hlast hcontent t
            simpa using hopen
          refine ⟨.element (textOpening ++ x ++ ['>']) content :: (textClosing.map .char ++ cs),
            fun r => ?_, ?_⟩
          · rw [List.cons_append, List.append_assoc, List.cons_append, hopening, List.append_assoc,
              List.append_assoc, chunks_of_element (hstart _), chunks_closing_append, hcs,
              List.cons_append, List.append_assoc (List.map _ _)]
          · have hshown : ((Chunk.element (textOpening ++ x ++ ['>']) content
                :: (textClosing.map .char ++ cs)).filterMap Chunk.content?)
                = content :: cs.filterMap Chunk.content? := rfl
            rw [hshown, List.flatten_cons]
      · obtain ⟨cs, hcs, rfl⟩ := hout hnext
        refine ⟨('<' :: (body ++ ['>'])).map .char ++ cs, fun r => ?_, ?_⟩
        · rw [List.cons_append, List.append_assoc, List.cons_append, chunks_tag hopen hother, hcs,
            List.append_assoc (List.map _ _)]
        · rw [List.filterMap_append, filterMap_content?_map_char]
          rfl
    · rintro outer rfl houter
      obtain rfl := hplain rfl
      obtain rfl := follow?_closing htag hfollow
      obtain ⟨cs, hcs, rfl⟩ := hout houter
      exact ⟨[], s, cs, rfl, List.not_mem_nil, hcs, rfl⟩

/-- **A text shows the contents of its text elements.** -/
theorem Passage.visibleText_eq {s v : List Char} (h : Passage [] s [] v) : visibleText s = v := by
  obtain ⟨cs, hcs, rfl⟩ := (h.chunks_spec List.not_mem_nil).1 List.not_mem_nil
  have hchunks : chunks s = cs := by simpa [chunks] using hcs []
  rw [visibleText, textContents, hchunks]

/-- **A passage outside of text elements is cut into chunks whatever follows it.** -/
theorem Passage.chunks_append {path : Path} {s v : List Char} (h : Passage [] s path v)
    (hpath : textName ∉ path) (r : List Char) : chunks (s ++ r) = chunks s ++ chunks r := by
  obtain ⟨cs, hcs, -⟩ := (h.chunks_spec hpath).1 List.not_mem_nil
  have hchunks : chunks s = cs := by simpa [chunks] using hcs []
  rw [hcs, hchunks]

/-- Text elements stand in no text elements. -/
theorem Passage.notMem_tail {path path' : Path} {s v : List Char} (h : Passage path s path' v)
    (hpath : textName ∉ path.tail) : textName ∉ path'.tail := by
  induction h with
  | nil path => exact hpath
  | char _ _ ih => exact ih hpath
  | @tag path next path' body s visible tag hopen hclose htag hfollow hplain h ih =>
    refine ih ?_
    by_cases htext : path.head? = some textName
    · obtain ⟨outer, rfl⟩ := List.head?_eq_some_iff.1 htext
      obtain rfl := hplain rfl
      obtain rfl := follow?_closing htag hfollow
      exact fun hm => hpath (List.mem_of_mem_tail hm)
    · have hnot := notMem_of_head?_ne htext hpath
      obtain ⟨-, -, -, ⟨-, rfl⟩ | ⟨-, rfl⟩⟩ | ⟨-, hnext⟩ := follow?_cases htag hclose hfollow hnot
      · exact hpath
      · exact hnot
      · exact fun hm => hnext (List.mem_of_mem_tail hm)

/-! ### Inside text elements -/

/-- What is left of a text after the start of each opening tag of a text element, with `after`
behind it. -/
def openedIn (after s : List Char) : List (List Char) :=
  (occurrences textOpening s).filter fun rest => nameEnds (rest.take 1 ++ after.take 1)

/-- Whether a place is inside a text element, given whether the text before it starts inside one. -/
def insideFrom (start : Bool) (after s : List Char) : Bool :=
  match (openedIn after s).getLast? with
  | none => start && !Text.contains textClosing s
  | some rest =>
    match Text.breakAt? ['>'] rest with
    | none => false
    | some (attributes, _) =>
      attributes.getLast? != some '/' && !Text.contains textClosing rest

theorem insideTextElement_eq_insideFrom (before after : List Char) :
    insideTextElement before after = insideFrom false after before := by
  rw [insideTextElement, insideFrom]
  rfl

theorem contains_cons (p : List Char) (c : Char) (s : List Char) :
    Text.contains p (c :: s) = ((Text.after? p (c :: s)).isSome || Text.contains p s) := by
  rw [Text.contains, Text.breakAt?]
  cases Text.after? p (c :: s) with
  | none => simp [Text.contains]
  | some r => rfl

theorem contains_iff_isInfix {p s : List Char} : Text.contains p s = true ↔ p <:+: s := by
  constructor
  · intro h
    obtain ⟨⟨before, r⟩, hcut⟩ := Option.isSome_iff_exists.1 h
    exact ⟨before, r, by rw [Text.eq_append_of_breakAt? hcut, List.append_assoc]⟩
  · intro h
    have hafter {s : List Char} (hs : p <+: s) : (Text.after? p s).isSome = true := by
      obtain ⟨r, rfl⟩ := hs
      rw [Text.after?_append]
      rfl
    induction s with
    | nil =>
      obtain rfl := List.infix_nil.1 h
      rfl
    | cons c s ih =>
      rw [contains_cons, Bool.or_eq_true]
      exact (List.infix_cons_iff.1 h).imp hafter ih

theorem contains_append_of_notMem {c : Char} {p u : List Char} (hu : c ∉ u) (s : List Char) :
    Text.contains (c :: p) (u ++ s) = Text.contains (c :: p) s := by
  induction u with
  | nil => rfl
  | cons d u ih =>
    rw [List.mem_cons, not_or] at hu
    have hnone : Text.after? (c :: p) (d :: (u ++ s)) = none := by
      rw [Text.after?, if_neg hu.1]
    rw [List.cons_append, contains_cons, hnone, ih hu.2]
    rfl

theorem occurrences_append_of_notMem {c : Char} {p u : List Char} (hu : c ∉ u) (s : List Char) :
    occurrences (c :: p) (u ++ s) = occurrences (c :: p) s := by
  induction u with
  | nil => rfl
  | cons d u ih =>
    rw [List.mem_cons, not_or] at hu
    have hnone : Text.after? (c :: p) (d :: (u ++ s)) = none := by
      rw [Text.after?, if_neg hu.1]
    rw [List.cons_append, occurrences, hnone]
    exact ih hu.2

theorem insideFrom_append_of_notMem {u : List Char} (hu : '<' ∉ u) (start : Bool)
    (after s : List Char) : insideFrom start after (u ++ s) = insideFrom start after s := by
  rw [insideFrom, insideFrom, openedIn, openedIn, textOpening_eq, textClosing_eq,
    occurrences_append_of_notMem hu, contains_append_of_notMem hu]

/-- The start of an opening tag is found in a tag when this is one of a text element. -/
theorem openedIn_tag {body : List Char} (hopen : '<' ∉ body) (after s : List Char) :
    openedIn after ('<' :: (body ++ '>' :: s))
      = ((Text.after? textName (body ++ '>' :: s)).filter
          fun rest => nameEnds (rest.take 1 ++ after.take 1)).toList ++ openedIn after s := by
  have hrest := opening_notMem_concat hopen
  have hbody : body ++ '>' :: s = body ++ ['>'] ++ s := by simp
  rw [openedIn, openedIn, textOpening_eq, occurrences, Text.after?, if_pos rfl]
  cases hafter : Text.after? textName (body ++ '>' :: s) with
  | none => simp only [hbody, occurrences_append_of_notMem hrest, Option.filter_none,
      Option.toList_none, List.nil_append]
  | some rest =>
    simp only [hbody, occurrences_append_of_notMem hrest, List.filter_cons, Option.filter_some]
    split <;> rfl

/-- A text starts inside a text element behind the opening tag of one, and not behind the tag of an
empty one. -/
theorem insideFrom_textTag {x : List Char} (hx : IsAttributes x) (hopen : '<' ∉ x) (start : Bool)
    (after s : List Char) :
    insideFrom start after ('<' :: (textName ++ x ++ '>' :: s))
      = insideFrom (x.getLast? != some '/') after s := by
  have hbody : '<' ∉ textName ++ x := by
    rw [List.mem_append, not_or]
    exact ⟨by decide, hopen⟩
  have hends : nameEnds ((x ++ '>' :: s).take 1 ++ after.take 1) = true := by
    rw [← hx.named]
    cases x <;> rfl
  have hopened : openedIn after ('<' :: (textName ++ x ++ '>' :: s))
      = (x ++ '>' :: s) :: openedIn after s := by
    rw [openedIn_tag hbody, List.append_assoc, Text.after?_append, Option.filter_some, if_pos hends]
    rfl
  have hbreak : Text.breakAt? ['>'] (x ++ '>' :: s) = some (x, s) :=
    Text.breakAt?_singleton_eq_some_iff.2 ⟨rfl, hx.ended⟩
  have hcontains : Text.contains textClosing (x ++ '>' :: s) = Text.contains textClosing s := by
    rw [← List.singleton_append (l := s), ← List.append_assoc, textClosing_eq,
      contains_append_of_notMem (opening_notMem_concat hopen)]
  rw [insideFrom, insideFrom, hopened, List.getLast?_cons]
  cases (openedIn after s).getLast? with
  | none =>
    simp only [Option.getD_none, hbreak, hcontains]
  | some rest => rfl

/-- A tag that is none of a text element changes nothing. -/
theorem insideFrom_otherTag {body : List Char} (hopen : '<' ∉ body) (hclose : '>' ∉ body)
    (hother : ∀ x, body = textName ++ x → nameEnds (x ++ ['>']) = false)
    (hclosing : body ≠ '/' :: textName) (start : Bool) (after s : List Char) :
    insideFrom start after ('<' :: (body ++ '>' :: s)) = insideFrom start after s := by
  have hopened : openedIn after ('<' :: (body ++ '>' :: s)) = openedIn after s := by
    rw [openedIn_tag hopen]
    cases hafter : Text.after? textName (body ++ '>' :: s) with
    | none => rfl
    | some rest =>
      obtain ⟨x, hx, rfl⟩ := exists_of_append_eq (by decide) (Text.eq_append_of_after? hafter)
      have hends : nameEnds ((x ++ '>' :: s).take 1 ++ after.take 1) = false := by
        rw [← hother x hx]
        cases x <;> rfl
      rw [Option.filter_some, hends]
      rfl
  have hcontains : Text.contains textClosing ('<' :: (body ++ '>' :: s))
      = Text.contains textClosing s := by
    have hnone : Text.after? textClosing ('<' :: (body ++ '>' :: s)) = none := by
      rw [Option.eq_none_iff_forall_ne_some]
      intro r hr
      have hcut : body ++ '>' :: s = '/' :: textName ++ '>' :: r := by
        simpa [textClosing_eq] using Text.eq_append_of_after? hr
      exact hclosing (Text.eq_of_append_cons_eq hclose (by decide) hcut).1
    rw [contains_cons, hnone, ← List.singleton_append (l := s), ← List.append_assoc, textClosing_eq,
      contains_append_of_notMem (opening_notMem_concat hopen)]
    rfl
  rw [insideFrom, insideFrom, hopened, hcontains]

/-- A text starts outside of text elements behind a closing tag of one. -/
theorem insideFrom_closingTag (start : Bool) (after s : List Char) :
    insideFrom start after ('<' :: ('/' :: textName ++ '>' :: s)) = insideFrom false after s := by
  have hopened : openedIn after ('<' :: ('/' :: textName ++ '>' :: s)) = openedIn after s := by
    rw [openedIn_tag (by decide)]
    rfl
  have hcontains : Text.contains textClosing ('<' :: ('/' :: textName ++ '>' :: s)) = true := by
    rw [contains_cons, textClosing_eq, Text.after?_eq_some_iff.2 (by simp : _ = _ ++ s)]
    rfl
  rw [insideFrom, insideFrom, hopened, hcontains]
  cases (openedIn after s).getLast? with
  | none => simp
  | some rest => rfl

/-- What is found about a passage backwards is what it leads to. -/
theorem Passage.insideFrom_eq {path path' : Path} {s v : List Char} (h : Passage path s path' v)
    (after : List Char) :
    (textName ∉ path → insideFrom false after s = (path'.head? == some textName)) ∧
      ∀ outer, path = textName :: outer → textName ∉ outer →
        insideFrom true after s = (path'.head? == some textName) := by
  induction h with
  | nil path =>
    constructor
    · intro hpath
      exact (beq_eq_false_iff_ne.2 (head?_ne_of_notMem hpath)).symm
    · rintro outer rfl -
      rfl
  | @char path path' c s visible hc h ih =>
    have hnot : '<' ∉ [c] := by simpa using Ne.symm hc
    rw [← List.singleton_append, insideFrom_append_of_notMem hnot, insideFrom_append_of_notMem hnot]
    exact ih
  | @tag path next path' body s visible tag hopen hclose htag hfollow hplain h ih =>
    obtain ⟨hout, hin⟩ := ih
    constructor
    · intro hpath
      obtain ⟨x, rfl, hx, hnext⟩ | ⟨hother, hnext⟩ := follow?_cases htag hclose hfollow hpath
      · rw [insideFrom_textTag hx fun hm => hopen (List.mem_append_right _ hm)]
        obtain ⟨hlast, rfl⟩ | ⟨hlast, rfl⟩ := hnext
        · rw [hlast]
          exact hout hpath
        · rw [bne_iff_ne.2 hlast]
          exact hin path rfl hpath
      · by_cases hclosing : body = '/' :: textName
        · subst hclosing
          rw [insideFrom_closingTag]
          exact hout hnext
        · rw [insideFrom_otherTag hopen hclose hother hclosing]
          exact hout hnext
    · rintro outer rfl houter
      obtain rfl := hplain rfl
      obtain rfl := follow?_closing htag hfollow
      rw [insideFrom_closingTag]
      exact hout houter

/-- **A place is inside a text element when this is the innermost element there.** -/
theorem Passage.insideTextElement_eq {path : Path} {before v : List Char}
    (h : Passage [] before path v) (after : List Char) :
    insideTextElement before after = (path.head? == some textName) := by
  rw [insideTextElement_eq_insideFrom]
  exact (h.insideFrom_eq after).1 List.not_mem_nil

end Markup

end MailMerge
