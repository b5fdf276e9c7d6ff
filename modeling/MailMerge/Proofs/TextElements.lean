import MailMerge.Proofs.Bytes
import MailMerge.Proofs.Passages

/-!
# Two views of text elements

Text elements are looked for in two ways: from left to right, all of them (`elementsIn`), and from a
place backwards, to tell whether one is open there (`insideTextElement`). In a well nested text
whose text elements are plain, both see the elements that there are (`elementsIn_agrees`):
`IsTextElement` says what these are, by the tags of the text and how they nest.

What stands in front of an element does not keep it from being found, since it is cut into chunks
whatever follows it (`Passage.chunks_append`).
-/

namespace MailMerge.Markup

/-! ### Text elements by their places -/

/-- A tag with its angle brackets. -/
def angled (body : List Char) : List Char :=
  '<' :: (body ++ ['>'])

/-- The text elements of a text: a tag in character data opens an element with their name, what
follows is well nested by itself, and then a tag closes an element of this name. -/
inductive IsTextElement (s : List Char) : TextElement → Prop
  | intro {before body content closing after : List Char} {path : Path}
    (hs : s = before ++ (angled body ++ (content ++ (angled closing ++ after))))
    (hplace : placeAfter? {} before = some (.at path)) (hopen : '<' ∉ body) (hclose : '>' ∉ body)
    (hopens : elementTag? body = some (.opens textName)) (hcontent : WellNested content)
    (hclosing : '>' ∉ closing) (hcloses : elementTag? closing = some (.closes textName)) :
    IsTextElement s (.at (Text.byteSize before) (angled body) content)

theorem locateElements_append (place : Nat) (cs ds : List Chunk) :
    locateElements place (cs ++ ds)
      = locateElements place cs
        ++ locateElements (place + Text.byteSize (cs.flatMap Chunk.text)) ds := by
  induction cs generalizing place with
  | nil => rfl
  | cons c cs ih =>
    cases c with
    | char c =>
      rw [List.cons_append, locateElements, locateElements, ih, List.flatMap_cons, Chunk.text,
        Text.byteSize_append, Text.byteSize_cons, Text.byteSize_nil, Nat.add_zero, Nat.add_assoc]
    | element opening content =>
      simp only [List.cons_append, locateElements, ih, List.flatMap_cons, Chunk.text,
        Text.byteSize_append, TextElement.at, Nat.add_assoc]

theorem locateElements_map_char (place : Nat) (u : List Char) :
    locateElements place (u.map .char) = [] := by
  induction u generalizing place with
  | nil => rfl
  | cons c u ih => exact ih _

theorem locateElements_map_char_append (place : Nat) (u : List Char) (cs : List Chunk) :
    locateElements place (u.map .char ++ cs) = locateElements (place + Text.byteSize u) cs := by
  rw [locateElements_append, locateElements_map_char, flatMap_text_map_char]
  rfl

theorem le_start_of_mem_locateElements {place : Nat} {cs : List Chunk} {e : TextElement}
    (h : e ∈ locateElements place cs) : place ≤ e.opening.start := by
  induction cs generalizing place with
  | nil => cases h
  | cons c cs ih =>
    cases c with
    | char c => exact Nat.le_of_add_right_le (ih h)
    | element opening content =>
      rcases List.mem_cons.1 h with rfl | h
      · exact Nat.le_refl _
      · have hle := ih h
        simp only [TextElement.at] at hle
        omega

/-! ### What is found from left to right -/

/-- A text element that starts at a place ends with the first closing tag. -/
theorem breakAt?_of_start {s opening content after : List Char}
    (hstart : start s = .element opening content after) :
    ∃ x v, opening = angled (textName ++ x) ∧ IsAttributes x ∧ x.getLast? ≠ some '/' ∧
      after = textClosing ++ v ∧
      Text.breakAt? textClosing (content ++ (textClosing ++ v)) = some (content, v) := by
  obtain ⟨x, r, rfl, hx⟩ : ∃ x r, s = textOpening ++ (x ++ '>' :: r) ∧ IsAttributes x :=
    exists_opening_of_start (by simp [hstart]) (by simp [hstart])
  rw [start_opening hx] at hstart
  split at hstart
  · cases hstart
  · next hlast =>
    split at hstart
    · cases hstart
    · next hbreak =>
      cases hstart
      exact ⟨x, _, rfl, hx, hlast, rfl, Text.eq_append_of_breakAt? hbreak ▸ hbreak⟩

/-- Text elements that are found are written out in the text, each with the first closing tag behind
its opening tag. -/
theorem exists_of_mem_locateElements {place : Nat} {s : List Char} {e : TextElement}
    (h : e ∈ locateElements place (chunks s)) :
    ∃ u x content v, s = u ++ (angled (textName ++ x) ++ (content ++ (textClosing ++ v))) ∧
      IsAttributes x ∧ x.getLast? ≠ some '/' ∧
      Text.breakAt? textClosing (content ++ (textClosing ++ v)) = some (content, v) ∧
      e = .at (place + Text.byteSize u) (angled (textName ++ x)) content := by
  fun_induction chunks s generalizing place with
  | case1 => cases h
  | case2 c rest _ ih =>
    obtain ⟨u, x, content, v, rfl, hx, hlast, hbreak, rfl⟩ := ih h
    refine ⟨c :: u, x, content, v, rfl, hx, hlast, hbreak, ?_⟩
    rw [Text.byteSize_cons, Nat.add_assoc]
  | case3 c rest tag after hstart _ ih =>
    rw [locateElements_map_char_append] at h
    obtain ⟨u, x, content, v, rfl, hx, hlast, hbreak, rfl⟩ := ih h
    refine ⟨tag ++ u, x, content, v, ?_, hx, hlast, hbreak, ?_⟩
    · rw [eq_append_of_start_empty hstart, List.append_assoc]
    · rw [Text.byteSize_append, Nat.add_assoc]
  | case4 c rest opening content after hstart _ ih =>
    rw [eq_append_of_start_element hstart]
    rcases List.mem_cons.1 h with rfl | h
    · obtain ⟨x, v, rfl, hx, hlast, rfl, hbreak⟩ := breakAt?_of_start hstart
      exact ⟨[], x, content, v, rfl, hx, hlast, hbreak, rfl⟩
    · obtain ⟨u, x, content', v, rfl, hx, hlast, hbreak, rfl⟩ := ih h
      refine ⟨opening ++ (content ++ u), x, content', v, by simp, hx, hlast, hbreak, ?_⟩
      simp only [TextElement.at, Text.byteSize_append, Nat.add_assoc]
  | case5 c rest _ =>
    rw [locateElements_map_char] at h
    cases h

/-- Text elements stand apart, with their closing tags between them. -/
theorem pairwise_locateElements (place : Nat) (s : List Char) :
    (locateElements place (chunks s)).Pairwise fun e f =>
      e.content.stop + Text.byteSize textClosing ≤ f.opening.start := by
  fun_induction chunks s generalizing place with
  | case1 => exact .nil
  | case2 c rest _ ih => exact ih _
  | case3 c rest tag after _ _ ih =>
    rw [locateElements_map_char_append]
    exact ih _
  | case4 c rest opening content after hstart _ ih =>
    refine .cons (fun f hf => ?_) (ih _)
    obtain ⟨x, v, -, -, -, rfl, -⟩ := breakAt?_of_start hstart
    rw [chunks_closing_append, locateElements_map_char_append] at hf
    exact le_start_of_mem_locateElements hf
  | case5 c rest _ =>
    rw [locateElements_map_char]
    exact .nil

/-! ### Text elements where they are plain -/

section Plain

variable {s : List Char} {e : TextElement}

/-- A tag starts in character data. -/
theorem exists_path_of_placeAfter? {u r : List Char} {q : Place}
    (h : placeAfter? {} (u ++ '<' :: r) = some q) :
    ∃ path, placeAfter? {} u = some (.at path) ∧ placeAfter? (.at path) ('<' :: r) = some q := by
  rw [placeAfter?_append, Option.bind_eq_some_iff] at h
  obtain ⟨⟨path, tag⟩, hu, hrest⟩ := h
  cases tag with
  | none => exact ⟨path, hu, hrest⟩
  | some tag => cases hrest

theorem placeAfter?_angled {path next : Path} {body : List Char} {tag : ElementTag}
    (hopen : '<' ∉ body) (hclose : '>' ∉ body) (htag : elementTag? body = some tag)
    (hfollow : tag.follow? path = some next) :
    placeAfter? (.at path) (angled body) = some (.at next) :=
  placeAfter?_tag hopen hclose htag hfollow []

/-- The text in front of a tag that does not close a text element stands in none. -/
theorem PlainTexts.exists_passage {before body r : List Char} {path : Path}
    (hplain : PlainTexts (before ++ (angled body ++ r)))
    (hplace : placeAfter? {} before = some (.at path)) (hclose : '>' ∉ body)
    (hne : body ≠ '/' :: textName) : (∃ v, Passage [] before path v) ∧ textName ∉ path := by
  obtain ⟨v, hv⟩ := exists_passage_of_place hplain hplace
  refine ⟨⟨v, hv⟩, notMem_of_head?_ne (fun hhead => hne ?_) (hv.notMem_tail List.not_mem_nil)⟩
  obtain ⟨outer, rfl⟩ := List.head?_eq_some_iff.1 hhead
  have hcut : before ++ (angled body ++ r) = before ++ '<' :: (body ++ '>' :: r) := by
    simp [angled]
  exact eq_of_closing_isPrefix hclose (hplain before _ outer hcut hplace)

/-- The content of a text element is character data. -/
theorem PlainTexts.notMem_content {before content r : List Char} {path : Path}
    (hplain : PlainTexts (before ++ (content ++ r)))
    (hplace : placeAfter? {} before = some (.at (textName :: path)))
    (hcontent : WellNested content) : '<' ∉ content := by
  intro hm
  obtain ⟨front, back, rfl, hfront⟩ := List.eq_append_cons_of_mem hm
  have hbefore : placeAfter? {} (before ++ front) = some (.at (textName :: path)) := by
    rw [placeAfter?_append, hplace, Option.bind_some, placeAfter?_of_notMem hfront]
  have hprefix := hplain (before ++ front) (back ++ r) path (by simp) hbefore
  -- the tag would close an element that is not open in the content
  have hback : placeAfter? (.at []) ('<' :: back) = some (.at []) := by
    have hfront' : placeAfter? {} front = some (.at []) := placeAfter?_of_notMem hfront []
    rw [WellNested, placeAfter?_append, hfront', Option.bind_some] at hcontent
    exact hcontent
  obtain ⟨body, rest, tag, next, rfl, -, hclose, htag, hfollow, -⟩ :=
    exists_tag_of_placeAfter? hback
  rw [List.append_assoc, List.cons_append] at hprefix
  obtain rfl := eq_of_closing_isPrefix hclose hprefix
  obtain rfl : ElementTag.closes textName = tag := Option.some.inj htag
  cases hfollow

/-- The opening tag of a text element is the name and attributes. -/
theorem exists_of_opens_textName {body : List Char} (hclose : '>' ∉ body)
    (hopens : elementTag? body = some (.opens textName)) :
    ∃ x, body = textName ++ x ∧ IsAttributes x ∧ x.getLast? ≠ some '/' := by
  obtain ⟨x, rfl, hx, htag⟩ | ⟨-, hne⟩ := textTag_cases hopens hclose
  · refine ⟨x, rfl, hx, fun hlast => ?_⟩
    rw [if_pos hlast] at htag
    cases htag
  · exact absurd rfl hne

/-- In the content of a text element, the next tag is its closing tag. -/
theorem PlainTexts.exists_closing {before s : List Char} {path : Path} {q : Place}
    (hplain : PlainTexts (before ++ s))
    (hplace : placeAfter? {} before = some (.at (textName :: path)))
    (hs : placeAfter? (.at (textName :: path)) s = some q) (hq : q ≠ .at (textName :: path)) :
    ∃ content after, s = content ++ (textClosing ++ after) ∧ '<' ∉ content := by
  have hm : '<' ∈ s := by
    by_contra hm
    rw [placeAfter?_of_notMem hm] at hs
    exact hq (Option.some.inj hs).symm
  obtain ⟨content, back, rfl, hcontent⟩ := List.eq_append_cons_of_mem hm
  have hbefore : placeAfter? {} (before ++ content) = some (.at (textName :: path)) := by
    rw [placeAfter?_append, hplace, Option.bind_some, placeAfter?_of_notMem hcontent]
  obtain ⟨after, hafter⟩ := hplain (before ++ content) back path (by simp) hbefore
  exact ⟨content, after, by rw [hafter], hcontent⟩

/-- An opening tag, character data and the closing tag make a text element. -/
theorem isTextElement_of_notMem {before body content after : List Char} {path : Path}
    (hplace : placeAfter? {} before = some (.at path)) (hopen : '<' ∉ body) (hclose : '>' ∉ body)
    (hopens : elementTag? body = some (.opens textName)) (hcontent : '<' ∉ content) :
    IsTextElement (before ++ (angled body ++ (content ++ (textClosing ++ after))))
      (.at (Text.byteSize before) (angled body) content) :=
  have hclosing : '>' ∉ '/' :: textName := by decide
  .intro rfl hplace hopen hclose hopens (placeAfter?_of_notMem hcontent []) hclosing rfl

/-- A text element that is plain is found: its opening tag, character data, and the closing tag. -/
theorem IsTextElement.exists_plain (hplain : PlainTexts s) (h : IsTextElement s e) :
    ∃ before x content after path,
      s = before ++ (angled (textName ++ x) ++ (content ++ (textClosing ++ after))) ∧
      e = .at (Text.byteSize before) (angled (textName ++ x)) content ∧ IsAttributes x ∧
      x.getLast? ≠ some '/' ∧ '<' ∉ content ∧ textName ∉ path ∧
      (∃ v, Passage [] before path v) ∧
      placeAfter? {} (before ++ angled (textName ++ x)) = some (.at (textName :: path)) := by
  obtain @⟨before, body, content, closing, after, path, rfl, hplace, hopen, hclose, hopens,
    hcontent, hclosing, hcloses⟩ := h
  have hne : body ≠ '/' :: textName := by
    rintro rfl
    cases hopens
  obtain ⟨hpassage, hpath⟩ := hplain.exists_passage hplace hclose hne
  have hinside : placeAfter? {} (before ++ angled body) = some (.at (textName :: path)) := by
    rw [placeAfter?_append, hplace, Option.bind_some]
    exact placeAfter?_angled hopen hclose hopens rfl
  rw [← List.append_assoc] at hplain
  have hdata : '<' ∉ content := hplain.notMem_content hinside hcontent
  have hend : placeAfter? {} (before ++ angled body ++ content)
      = some (.at (textName :: path)) := by
    rw [placeAfter?_append, hinside, Option.bind_some, placeAfter?_of_notMem hdata]
  have hprefix := hplain (before ++ angled body ++ content) (closing ++ '>' :: after) path
    (by simp [angled]) hend
  obtain rfl := eq_of_closing_isPrefix hclosing hprefix
  obtain ⟨x, rfl, hx, hlast⟩ := exists_of_opens_textName hclose hopens
  exact ⟨before, x, content, after, path, rfl, rfl, hx, hlast, hdata, hpath, hpassage, hinside⟩

/-- An opening tag that is looked for is one when the text is well nested. -/
theorem opens_of_placeAfter? {x r : List Char} {path : Path} {path' : Path} (hx : IsAttributes x)
    (hlast : x.getLast? ≠ some '/')
    (h : placeAfter? (.at path) (angled (textName ++ x) ++ r) = some (.at path')) :
    '<' ∉ textName ++ x ∧ '>' ∉ textName ++ x ∧
      elementTag? (textName ++ x) = some (.opens textName) ∧
      placeAfter? (.at (textName :: path)) r = some (.at path') := by
  obtain ⟨body, rest, tag, next, hcut, hopen, hclose, htag, hfollow, hrest⟩ :=
    exists_tag_of_placeAfter? h
  have hangle : '>' ∉ textName ++ x := by
    rw [List.mem_append, not_or]
    exact ⟨by decide, hx.ended⟩
  have hsame : textName ++ x ++ '>' :: r = body ++ '>' :: rest := by
    simpa using hcut
  obtain ⟨rfl, rfl⟩ := Text.eq_of_append_cons_eq hangle hclose hsame
  obtain ⟨y, hy, -, rfl⟩ | ⟨hother, -⟩ := textTag_cases htag hangle
  · obtain rfl := List.append_cancel_left hy
    rw [if_neg hlast] at htag hfollow
    obtain rfl : textName :: path = next := Option.some.inj hfollow
    exact ⟨hopen, hangle, htag, hrest⟩
  · have hnamed := hx.named
    rw [hother x rfl] at hnamed
    cases hnamed

/-- What is found is a text element. -/
theorem isTextElement_of_mem (hnested : WellNested s) (hplain : PlainTexts s)
    (h : e ∈ elementsIn s) : IsTextElement s e := by
  obtain ⟨before, x, content, after, rfl, hx, hlast, hbreak, rfl⟩ := exists_of_mem_locateElements h
  rw [Nat.zero_add]
  obtain ⟨path, hplace, hrest⟩ := exists_path_of_placeAfter? hnested
  obtain ⟨hopen, hclose, hopens, hrest⟩ := opens_of_placeAfter? hx hlast hrest
  have hinside : placeAfter? {} (before ++ angled (textName ++ x))
      = some (.at (textName :: path)) := by
    rw [placeAfter?_append, hplace, Option.bind_some]
    exact placeAfter?_angled hopen hclose hopens rfl
  -- the content ends with the first closing tag, which is the next tag
  rw [← List.append_assoc] at hplain
  obtain ⟨content', after', hcut, hcontent⟩ := hplain.exists_closing hinside hrest nofun
  have hfirst : Text.breakAt? textClosing (content ++ (textClosing ++ after))
      = some (content', after') := by
    rw [hcut]
    exact Text.breakAt?_append_of_notMem hcontent after'
  obtain ⟨rfl, rfl⟩ := Prod.mk.inj (Option.some.inj (hbreak.symm.trans hfirst))
  exact isTextElement_of_notMem hplace hopen hclose hopens hcontent

/-- Text elements are found. -/
theorem mem_elementsIn_of_isTextElement (hplain : PlainTexts s) (h : IsTextElement s e) :
    e ∈ elementsIn s := by
  obtain ⟨before, x, content, after, path, rfl, rfl, hx, hlast, hcontent, hpath, ⟨v, hv⟩, -⟩ :=
    h.exists_plain hplain
  have hstart : start (angled (textName ++ x) ++ (content ++ (textClosing ++ after)))
      = .element (angled (textName ++ x)) content (textClosing ++ after) :=
    start_opening_append hx hlast hcontent after
  rw [elementsIn, hv.chunks_append hpath, chunks_of_element hstart, locateElements_append,
    text_chunks, Nat.zero_add, locateElements]
  exact List.mem_append_right _ List.mem_cons_self

/-! ### What is found backwards -/

theorem exists_eq_append_last {c : Char} {r : List Char} (h : c ∈ r) :
    ∃ front back, r = front ++ c :: back ∧ c ∉ back := by
  obtain ⟨back, front, hr, hback⟩ := List.eq_append_cons_of_mem (List.mem_reverse.2 h)
  refine ⟨front.reverse, back.reverse, ?_, by rwa [List.mem_reverse]⟩
  rw [← List.reverse_reverse r, hr]
  simp

/-- In front of a place in the content of a text element are its opening tag and character data. -/
theorem PlainTexts.exists_opening {before after : List Char} {path : Path}
    (hplain : PlainTexts (before ++ after))
    (hplace : placeAfter? {} before = some (.at (textName :: path))) :
    ∃ front body content, before = front ++ (angled body ++ content) ∧ '<' ∉ body ∧ '>' ∉ body ∧
      elementTag? body = some (.opens textName) ∧ '<' ∉ content ∧
      placeAfter? {} front = some (.at path) := by
  have hm : '<' ∈ before := by
    by_contra hm
    have hstays : placeAfter? {} before = some (.at []) := placeAfter?_of_notMem hm []
    rw [hstays] at hplace
    cases hplace
  obtain ⟨front, back, rfl, hback⟩ := exists_eq_append_last hm
  obtain ⟨path', hfront, hrest⟩ := exists_path_of_placeAfter? hplace
  obtain ⟨body, content, tag, next, rfl, hopen, hclose, htag, hfollow, hcontent⟩ :=
    exists_tag_of_placeAfter? hrest
  have hdata : '<' ∉ content := fun hm =>
    hback (List.mem_append_right _ (List.mem_cons_of_mem _ hm))
  rw [placeAfter?_of_notMem hdata] at hcontent
  obtain rfl : next = textName :: path := congrArg Place.path (Option.some.inj hcontent)
  have hcut : front ++ '<' :: (body ++ '>' :: content) ++ after
      = front ++ (angled body ++ (content ++ after)) := by simp [angled]
  rw [hcut] at hplain
  cases tag with
  | opens name =>
    obtain ⟨rfl, rfl⟩ := List.cons.inj (Option.some.inj hfollow)
    exact ⟨front, body, content, by simp [angled], hopen, hclose, htag, hdata, hfront⟩
  | closes name =>
    -- the element that is closed would stand in a text element
    obtain ⟨v, hv⟩ := exists_passage_of_place hplain hfront
    have htail := hv.notMem_tail List.not_mem_nil
    rw [ElementTag.follow?] at hfollow
    split at hfollow
    · rw [Option.some.inj hfollow] at htail
      exact absurd List.mem_cons_self htail
    · cases hfollow
  | empty name =>
    have hne : body ≠ '/' :: textName := by
      rintro rfl
      cases htag
    obtain ⟨-, hpath⟩ := hplain.exists_passage hfront hclose hne
    cases hfollow
    exact absurd List.mem_cons_self hpath

/-- A place whose innermost element is a text element is in the content of one. -/
theorem exists_isTextElement_of_place {before after : List Char} {path : Path}
    (hnested : WellNested (before ++ after)) (hplain : PlainTexts (before ++ after))
    (hplace : placeAfter? {} before = some (.at (textName :: path))) :
    ∃ e, IsTextElement (before ++ after) e ∧ e.content.start ≤ Text.byteSize before ∧
      Text.byteSize before ≤ e.content.stop := by
  have hrest : placeAfter? (.at (textName :: path)) after = some (.at []) := by
    rw [WellNested, placeAfter?_append, hplace, Option.bind_some] at hnested
    exact hnested
  obtain ⟨back, after, rfl, hback⟩ := hplain.exists_closing hplace hrest nofun
  obtain ⟨front, body, content, rfl, hopen, hclose, hopens, hcontent, hfront⟩ :=
    hplain.exists_opening hplace
  have hdata : '<' ∉ content ++ back := by
    rw [List.mem_append, not_or]
    exact ⟨hcontent, hback⟩
  refine ⟨.at (Text.byteSize front) (angled body) (content ++ back), ?_, ?_, ?_⟩
  · have hcut : front ++ (angled body ++ content) ++ (back ++ (textClosing ++ after))
        = front ++ (angled body ++ (content ++ back ++ (textClosing ++ after))) := by simp
    rw [hcut]
    exact isTextElement_of_notMem hfront hopen hclose hopens hdata
  all_goals
    simp only [TextElement.at, Text.byteSize_append]
    omega

/-- A place in the content of a text element has it as its innermost element. -/
theorem IsTextElement.head?_eq {before after : List Char} {path : Path}
    (hplain : PlainTexts (before ++ after)) (h : IsTextElement (before ++ after) e)
    (hplace : placeAfter? {} before = some (.at path))
    (hstart : e.content.start ≤ Text.byteSize before)
    (hstop : Text.byteSize before ≤ e.content.stop) : path.head? = some textName := by
  obtain ⟨front, x, content, back, outer, hs, rfl, -, -, hcontent, -, -, hinside⟩ :=
    h.exists_plain hplain
  simp only [TextElement.at] at hstart hstop
  rw [← List.append_assoc] at hs
  obtain ⟨inner, rfl, hcut⟩ := Text.exists_append_of_byteSize_le hs.symm
    (by rw [Text.byteSize_append]; exact hstart)
  obtain ⟨rest, rfl, -⟩ := Text.exists_append_of_byteSize_le hcut.symm
    (by simp only [Text.byteSize_append] at hstop; omega)
  rw [placeAfter?_append, hinside, Option.bind_some,
    placeAfter?_of_notMem fun hm => hcontent (List.mem_append_left _ hm)] at hplace
  obtain rfl : textName :: outer = path := congrArg Place.path (Option.some.inj hplace)
  rfl

end Plain

/-! ### Both views agree -/

/-- **Both views see the text elements of a text.** In a well nested text with plain text elements,
those that are found from left to right are the ones that there are, and they stand apart. A place
in character data is inside a text element when it is in the content of one, its ends included. -/
theorem elementsIn_agrees {s : List Char} (hnested : WellNested s) (hplain : PlainTexts s) :
    (∀ e, e ∈ elementsIn s ↔ IsTextElement s e) ∧
      ((elementsIn s).Pairwise fun e f =>
        e.content.stop + Text.byteSize textClosing ≤ f.opening.start) ∧
      ∀ before after path, s = before ++ after → placeAfter? {} before = some (.at path) →
        (insideTextElement before after = true ↔
          ∃ e ∈ elementsIn s, e.content.start ≤ Text.byteSize before ∧
            Text.byteSize before ≤ e.content.stop) := by
  have hfound : ∀ e, e ∈ elementsIn s ↔ IsTextElement s e := fun e =>
    ⟨isTextElement_of_mem hnested hplain, mem_elementsIn_of_isTextElement hplain⟩
  refine ⟨hfound, pairwise_locateElements 0 s, ?_⟩
  rintro before after path rfl hplace
  obtain ⟨v, hpassage⟩ := exists_passage_of_place hplain hplace
  rw [hpassage.insideTextElement_eq, beq_iff_eq]
  simp only [hfound]
  constructor
  · intro hhead
    obtain ⟨outer, rfl⟩ := List.head?_eq_some_iff.1 hhead
    exact exists_isTextElement_of_place hnested hplain hplace
  · rintro ⟨e, he, hstart, hstop⟩
    exact he.head?_eq hplain hplace hstart hstop

/-- Lookalikes, an empty element, an attribute and a character of two bytes. -/
theorem elementsIn_agrees_cell :
    let s := "<w:tc><w:tab/><w:t>\u00e9</w:t><w:t/><w:t a=\"1\">b</w:t></w:tc>".toList
    elementsIn s =
        [⟨⟨14, 19, "<w:t>".toList⟩, ⟨19, 21, "\u00e9".toList⟩⟩,
          ⟨⟨33, 44, "<w:t a=\"1\">".toList⟩, ⟨44, 45, "b".toList⟩⟩] ∧
      WellNested s ∧ PlainTexts s ∧ (∀ e, e ∈ elementsIn s ↔ IsTextElement s e) ∧
      ((elementsIn s).Pairwise fun e f =>
        e.content.stop + Text.byteSize textClosing ≤ f.opening.start) ∧
      ∀ before after path, s = before ++ after → placeAfter? {} before = some (.at path) →
        (insideTextElement before after = true ↔
          ∃ e ∈ elementsIn s, e.content.start ≤ Text.byteSize before ∧
            Text.byteSize before ≤ e.content.stop) :=
  have hnested := by decide +kernel
  have hplain := by decide +kernel
  ⟨by decide +kernel, hnested, hplain, elementsIn_agrees hnested hplain⟩

end MailMerge.Markup
