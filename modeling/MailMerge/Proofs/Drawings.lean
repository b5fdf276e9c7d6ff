import MailMerge.Proofs.Listings
import MailMerge.Proofs.Shapes

/-!
# Drawings as they are read

A text is a drawing (`IsDrawing`) when it is one element `w:drawing` around others, none of which is
a further drawing, and when a number and the id of a relationship are read from it: the `id` of the
only `wp:docPr`, and the `r:embed` of the only `a:blip`. What is written for a drawing is one, with
its number and its id (`Drawing.isDrawing_text`).

The elements of a text are told from its tags alone (`elementNames`). A passage has its own elements
whatever follows it (`Markup.Passage.elementNames_append`), so that the drawings in a text can be
counted piece by piece.
-/

namespace MailMerge

namespace Markup

open MailMerge.Text (glyphsOf)

/-! ### The elements of a text -/

/-- The name of the element that a tag starts, if it starts one. -/
def startedName? (tag : List Char) : Option (List Char) :=
  match elementTag? tag with
  | some (.opens name) => some name
  | some (.empty name) => some name
  | some (.closes _) => none
  | none => none

/-- The names of the elements in a text, in the order of their tags. -/
def elementNames (s : List Char) : List (List Char) :=
  (markupTags none s).filterMap startedName?

section Names

variable {body s : List Char}

theorem markupTags_some (h : '>' ∉ body) (before s : List Char) :
    markupTags (some before) (body ++ '>' :: s)
      = (before.reverse ++ body) :: markupTags none s := by
  induction body generalizing before with
  | nil => simp [markupTags]
  | cons c body ih =>
    rw [List.mem_cons, not_or] at h
    rw [List.cons_append, markupTags, if_neg (Ne.symm h.1), ih h.2]
    simp

theorem markupTags_tag (h : '>' ∉ body) (s : List Char) :
    markupTags none ('<' :: (body ++ '>' :: s)) = body :: markupTags none s := by
  rw [markupTags, if_pos rfl, markupTags_some h]
  rfl

theorem elementNames_tag (h : '>' ∉ body) (s : List Char) :
    elementNames ('<' :: (body ++ '>' :: s)) = (startedName? body).toList ++ elementNames s := by
  rw [elementNames, elementNames, markupTags_tag h, List.filterMap_cons]
  cases startedName? body <;> rfl

theorem elementNames_append_of_notMem (h : '<' ∉ s) (r : List Char) :
    elementNames (s ++ r) = elementNames r := by
  rw [elementNames, elementNames, markupTags_append_of_notMem h]

theorem elementNames_of_notMem (h : '<' ∉ s) : elementNames s = [] := by
  have hnil := elementNames_append_of_notMem h []
  rwa [List.append_nil] at hnil

/-- A passage has its own elements, whatever follows it. -/
theorem Passage.elementNames_append {path path' : Path} {v : List Char}
    (h : Passage path s path' v) (r : List Char) :
    elementNames (s ++ r) = elementNames s ++ elementNames r := by
  induction h with
  | nil => rfl
  | @char _ _ c s _ hc _ ih =>
    have hplain : '<' ∉ [c] := fun hm => hc (List.mem_singleton.1 hm).symm
    have hcons := elementNames_append_of_notMem hplain
    rw [List.cons_append, ← List.singleton_append, hcons, ih, ← List.singleton_append (l := s),
      hcons]
  | tag _ hclose _ _ _ _ ih =>
    rw [List.cons_append, List.append_assoc, List.cons_append, elementNames_tag hclose,
      elementNames_tag hclose, ih, List.append_assoc]

/-- The elements of a forest are those that it was written for. -/
theorem Forest.elementNames_append {forest : Forest} (h : ∀ tag ∈ forest.tags, IsPlainTag tag)
    (r : List Char) :
    elementNames (forest.text ++ r)
      = forest.tags.map (fun tag => tag.1.toList) ++ elementNames r := by
  induction forest generalizing r with
  | nil => rfl
  | empty name attributes others ih =>
    rw [tags, List.forall_mem_cons] at h
    have hclose : '>' ∉ name.toList ++ attributesText attributes ++ ['/'] := by
      rw [List.mem_append, not_or]
      exact ⟨fun hm => (h.1.angleFree _ hm).2 rfl, by decide⟩
    rw [text, List.cons_append, List.append_assoc, List.cons_append, elementNames_tag hclose,
      ih h.2, startedName?, h.1.elementTag?_empty]
    rfl
  | element name attributes inner others ihi ihr =>
    rw [tags, List.forall_mem_cons, List.forall_mem_append] at h
    obtain ⟨htag, hinner, hothers⟩ := h
    have hclose : '>' ∉ name.toList ++ attributesText attributes :=
      fun hm => (htag.angleFree _ hm).2 rfl
    have hclosing : '>' ∉ '/' :: name.toList :=
      List.not_mem_cons_of_ne_of_not_mem (by decide) (htag.1.notMem (by decide))
    have htext : (element name attributes inner others).text ++ r
        = '<' :: (name.toList ++ attributesText attributes ++ '>' :: (inner.text ++
            '<' :: ('/' :: name.toList ++ '>' :: (others.text ++ r)))) := by
      simp [text]
    rw [htext, elementNames_tag hclose, ihi hinner, elementNames_tag hclosing, ihr hothers,
      startedName?, htag.elementTag?_opens, startedName?, htag.1.elementTag?_closes]
    simp [tags]

theorem Forest.elementNames_text {forest : Forest} (h : ∀ tag ∈ forest.tags, IsPlainTag tag) :
    elementNames forest.text = forest.tags.map fun tag => tag.1.toList := by
  have hnil := elementNames_append h []
  rwa [List.append_nil, elementNames_of_notMem List.not_mem_nil, List.append_nil] at hnil

end Names

/-! ### Values that are read -/

/-- The value of an attribute in a text that has one element of a name. The prefix in the name of an
element does not count. -/
def onlyValue? (name key : String) (s : List Char) : Option String :=
  match Xml.readElements [(name, [key])] (Text.encode s) with
  | .ok [⟨_, [(_, value)]⟩] => some value
  | _ => none

section Values

variable {name key : String} {attributes : List (String × List Char)}

theorem unescape?_of_notMem {s : List Char} (h : '&' ∉ s) : unescape? s = some s := by
  induction s with
  | nil => rw [unescape?]
  | cons c s ih =>
    rw [List.mem_cons, not_or] at h
    rw [unescape?_cons_of_ne (Ne.symm h.1), ih h.2]
    rfl

/-- Attributes with other names are passed over. -/
theorem wantedFields_of_notMem (h : key ∉ attributes.map Prod.fst) :
    Xml.wantedFields [key]
      (attributes.map fun a => .sound ⟨glyphsOf a.1.toList, glyphsOf a.2⟩) = .ok [] := by
  induction attributes with
  | nil => rfl
  | cons a attributes ih =>
    rw [List.map_cons, List.mem_cons, not_or] at h
    rw [List.map_cons, Xml.wantedFields]
    simp only [Text.glyphsOf_beq, List.find?_singleton, beq_iff_eq, h.1, if_false]
    exact ih h.2

/-- Elements with other names are passed over. -/
theorem wantedElements_append {tags : List (String × List (String × List Char))}
    (h : ∀ tag ∈ tags, Xml.localName (glyphsOf tag.1.toList) ≠ glyphsOf name.toList)
    (events : List Xml.Event) :
    Xml.wantedElements [(name, [key])]
        (tags.map (fun tag => .ofWritten tag.1 tag.2) ++ events)
      = Xml.wantedElements [(name, [key])] events := by
  induction tags with
  | nil => rfl
  | cons tag tags ih =>
    rw [List.forall_mem_cons] at h
    rw [List.map_cons, List.cons_append, Xml.Event.ofWritten, Xml.wantedElements]
    simp only [List.find?_singleton, beq_iff_eq, Ne.symm h.1, if_false]
    exact ih h.2

theorem Forest.glyphsWithoutMark_text (forest : Forest) :
    Xml.glyphsWithoutMark (Text.encode forest.text) = glyphsOf forest.text := by
  rw [Xml.glyphsWithoutMark, Text.glyphs_encode]
  cases forest <;> rfl

/-- The value of an attribute is read from the only element with a name. -/
theorem Forest.onlyValue?_text {forest : Forest} (hplain : ∀ tag ∈ forest.tags, IsPlainTag tag)
    {before after : List (String × List (String × List Char))} {tag : String} {value : List Char}
    (htags : forest.tags = before ++ (tag, (key, value) :: attributes) :: after)
    (htag : Xml.localName (glyphsOf tag.toList) = glyphsOf name.toList)
    (hothers : ∀ other ∈ (before ++ after).map Prod.fst,
      Xml.localName (glyphsOf other.toList) ≠ glyphsOf name.toList)
    (hdistinct : (key :: attributes.map Prod.fst).Nodup) (hvalue : '&' ∉ value) :
    onlyValue? name key forest.text = some (String.ofList value) := by
  have hitems : Xml.attributeItems [] (glyphsOf (attributesText ((key, value) :: attributes)))
      = ((key, value) :: attributes).map fun a => .sound ⟨glyphsOf a.1.toList, glyphsOf a.2⟩ := by
    have hmem : (tag, (key, value) :: attributes) ∈ forest.tags :=
      htags ▸ List.mem_append_right _ List.mem_cons_self
    exact Xml.attributeItems_attributesText (hplain _ hmem).2 hdistinct (by simp)
  have hfields : Xml.wantedFields [key]
      (((key, value) :: attributes).map fun a => .sound ⟨glyphsOf a.1.toList, glyphsOf a.2⟩)
        = .ok [(key, String.ofList value)] := by
    rw [List.map_cons, Xml.wantedFields]
    simp only [Text.glyphsOf_beq, List.find?_singleton, beq_self_eq_true, if_true,
      Xml.Attribute.text?, Text.charsOf?_glyphsOf, Option.bind_some, unescape?_of_notMem hvalue,
      Option.map_some, wantedFields_of_notMem (List.nodup_cons.1 hdistinct).1]
    rfl
  rw [List.forall_mem_map, List.forall_mem_append] at hothers
  have hread : Xml.readElements [(name, [key])] (Text.encode forest.text)
      = .ok [⟨name, [(key, String.ofList value)]⟩] := by
    have hevents := events_text hplain [] []
    rw [List.append_nil, Xml.events, List.append_nil] at hevents
    have hafter : Xml.wantedElements [(name, [key])]
        (after.map (fun tag => .ofWritten tag.1 tag.2) ++ []) = .ok [] :=
      wantedElements_append hothers.2 []
    rw [List.append_nil] at hafter
    rw [Xml.readElements, glyphsWithoutMark_text, hevents, events, htags, List.map_append,
      wantedElements_append hothers.1, List.map_cons, Xml.Event.ofWritten, Xml.wantedElements,
      htag]
    simp only [List.find?_singleton, beq_self_eq_true, if_true, hitems, hfields, hafter]
    rfl
  rw [onlyValue?, hread]

end Values

end Markup

/-! ### Drawings -/

open Markup
open MailMerge.Text (glyphsOf)

/-- The name of drawings. -/
def drawingName : List Char := "w:drawing".toList

namespace Drawing

/-- The number of the only drawing in a text. -/
def number? (s : List Char) : Option String :=
  onlyValue? "docPr" "id" s

/-- The id of the relationship to the only picture that is shown in a text. -/
def embeddedId? (s : List Char) : Option String :=
  onlyValue? "blip" "r:embed" s

end Drawing

/-- A text is one drawing, with a number and the id of the relationship to its picture. -/
structure IsDrawing (s : List Char) (number : Nat) (relationshipId : String) : Prop where
  /-- It is an element around others, none of which is a drawing. -/
  element : ∃ inner, s = "<w:drawing>".toList ++ inner ++ "</w:drawing>".toList ∧
    WellNested inner ∧ drawingName ∉ elementNames inner
  number : Drawing.number? s = some (String.ofList (decimalDigits number))
  embedded : Drawing.embeddedId? s = some relationshipId

namespace Drawing

/-- The elements around the one with the number and the one with the id. -/
theorem exists_tags (drawing : Drawing) :
    ∃ before between after number picture,
      drawing.forest.tags
        = before ++ ("wp:docPr", ("id", decimalDigits drawing.drawingId) :: number)
          :: (between ++ ("a:blip", ("r:embed", drawing.relationshipId.toList) :: picture)
            :: after) ∧
      number.map Prod.fst = ["name"] ∧ picture.map Prod.fst = ["xmlns:r"] ∧
      before.map Prod.fst = ["w:drawing", "wp:inline", "wp:extent", "wp:effectExtent"] ∧
      between.map Prod.fst = ["wp:cNvGraphicFramePr", "a:graphicFrameLocks", "a:graphic",
        "a:graphicData", "pic:pic", "pic:nvPicPr", "pic:cNvPr", "pic:cNvPicPr", "pic:blipFill"] ∧
      after.map Prod.fst = ["a:stretch", "a:fillRect", "pic:spPr", "a:xfrm", "a:off", "a:ext",
        "a:prstGeom", "a:avLst"] :=
  ⟨[_, _, _, _], [_, _, _, _, _, _, _, _, _], [_, _, _, _, _, _, _, _], [_], [_],
    rfl, rfl, rfl, rfl, rfl, rfl⟩

/-- A drawing is one element, and no other drawing stands in it. -/
theorem exists_inner (drawing : Drawing) :
    ∃ inner, drawing.forest = .element "w:drawing" [] inner .nil ∧
      drawingName ∉ inner.tags.map fun tag => tag.1.toList := by
  refine ⟨_, rfl, ?_⟩
  simp only [Forest.tags, List.map_cons, List.map_nil, List.cons_append, List.nil_append]
  decide

section Text

variable {drawing : Drawing}

theorem forall_isPlainTag (hid : IsPlainValue drawing.relationshipId.toList) :
    ∀ tag ∈ drawing.forest.tags, IsPlainTag tag :=
  fun tag htag => (isPlainTag_of_mem_tags hid tag htag).1

theorem count_elementNames_text (hid : IsPlainValue drawing.relationshipId.toList) :
    (elementNames drawing.text).count drawingName = 1 := by
  obtain ⟨inner, hforest, hnone⟩ := drawing.exists_inner
  rw [text_eq, Forest.elementNames_text (forall_isPlainTag hid), hforest, Forest.tags,
    Forest.tags, List.append_nil, List.map_cons]
  refine (List.count_cons_self ..).trans ?_
  rw [List.count_eq_zero.2 hnone]

theorem number?_text (hid : IsPlainValue drawing.relationshipId.toList) :
    number? drawing.text = some (String.ofList (decimalDigits drawing.drawingId)) := by
  obtain ⟨before, between, after, number, picture, htags, hnumber, -, hbefore, hbetween, hafter⟩ :=
    drawing.exists_tags
  have hothers : ∀ other ∈ (before ++ (between ++ ("a:blip", ("r:embed",
      drawing.relationshipId.toList) :: picture) :: after)).map Prod.fst,
      Xml.localName (glyphsOf other.toList) ≠ glyphsOf "docPr".toList := by
    rw [List.map_append, List.map_append, List.map_cons, hbefore, hbetween, hafter]
    dsimp only
    decide
  rw [number?, text_eq]
  refine Forest.onlyValue?_text (forall_isPlainTag hid) htags (by decide) hothers
    (hnumber ▸ by decide) ?_
  exact fun hm => absurd (isNumeric_decimalDigits _ hm) (by decide)

theorem embeddedId?_text (hid : IsPlainValue drawing.relationshipId.toList)
    (hreference : '&' ∉ drawing.relationshipId.toList) :
    embeddedId? drawing.text = some drawing.relationshipId := by
  obtain ⟨before, between, after, number, picture, htags, -, hpicture, hbefore, hbetween, hafter⟩ :=
    drawing.exists_tags
  have hothers : ∀ other ∈ ((before ++ ("wp:docPr",
      ("id", decimalDigits drawing.drawingId) :: number) :: between) ++ after).map Prod.fst,
      Xml.localName (glyphsOf other.toList) ≠ glyphsOf "blip".toList := by
    rw [List.map_append, List.map_append, List.map_cons, hbefore, hbetween, hafter]
    dsimp only
    decide
  have hblip : drawing.forest.tags
      = (before ++ ("wp:docPr", ("id", decimalDigits drawing.drawingId) :: number) :: between)
        ++ ("a:blip", ("r:embed", drawing.relationshipId.toList) :: picture) :: after := by
    rw [htags]
    simp
  rw [embeddedId?, text_eq, Forest.onlyValue?_text (forall_isPlainTag hid) hblip (by decide)
    hothers (hpicture ▸ by decide) hreference, String.ofList_toList]

/-- **What is written for a drawing is one**, with its number and the id of its relationship. -/
theorem isDrawing_text (hid : IsPlainValue drawing.relationshipId.toList)
    (hreference : '&' ∉ drawing.relationshipId.toList) :
    IsDrawing drawing.text drawing.drawingId drawing.relationshipId := by
  constructor
  case element =>
    obtain ⟨inner, hforest, hnone⟩ := drawing.exists_inner
    have hinner : ∀ tag ∈ inner.tags, IsPlainTag tag ∧ tag.1.toList ≠ textName := by
      intro tag htag
      refine isPlainTag_of_mem_tags hid tag ?_
      rw [hforest, Forest.tags]
      exact List.mem_cons_of_mem _ (List.mem_append_left _ htag)
    have hpassage : Passage [] inner.text [] [] :=
      Forest.passage (head?_ne_of_notMem List.not_mem_nil) hinner
    refine ⟨inner.text, ?_, hpassage.placeAfter?_eq, ?_⟩
    · rw [text_eq, hforest]
      simp [Forest.text, attributesText]
    · rw [Forest.elementNames_text fun tag htag => (hinner tag htag).1]
      exact hnone
  case number => exact number?_text hid
  case embedded => exact embeddedId?_text hid hreference

end Text

end Drawing

end MailMerge
