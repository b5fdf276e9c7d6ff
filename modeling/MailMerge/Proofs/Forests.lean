import Mathlib.Data.List.TakeWhile
import MailMerge.Image.Drawing
import MailMerge.Proofs.Passages

/-!
# Elements that are written out

A `Forest` is what stands between two tags: elements side by side, with attributes and elements in
them. What is written for a forest is a passage that leads nowhere else and shows nothing
(`Forest.passage`). A drawing is one (`Drawing.text_eq`), whatever is written in its attributes.
-/

namespace MailMerge

namespace Markup

/-- Elements side by side. -/
inductive Forest where
  | nil
  /-- An element of its own, and those behind it. -/
  | empty (name : String) (attributes : List (String × List Char)) (rest : Forest)
  /-- An element with others in it, and those behind it. -/
  | element (name : String) (attributes : List (String × List Char)) (inner rest : Forest)

/-- Attributes as they are written, each behind a blank. -/
def attributesText (attributes : List (String × List Char)) : List Char :=
  attributes.flatMap fun (name, value) => ' ' :: (name.toList ++ '=' :: '"' :: (value ++ ['"']))

namespace Forest

/-- The markup of a forest. -/
def text : Forest → List Char
  | nil => []
  | empty name attributes rest =>
    '<' :: (name.toList ++ attributesText attributes ++ ['/'] ++ '>' :: rest.text)
  | element name attributes inner rest =>
    '<' :: (name.toList ++ attributesText attributes
      ++ '>' :: (inner.text ++ '<' :: ('/' :: name.toList ++ '>' :: rest.text)))

/-- The names and attributes of the elements of a forest. -/
def tags : Forest → List (String × List (String × List Char))
  | nil => []
  | empty name attributes rest => (name, attributes) :: rest.tags
  | element name attributes inner rest => (name, attributes) :: (inner.tags ++ rest.tags)

end Forest

/-- A text that is fit to be the name of an element or attribute. -/
def IsPlainName (name : List Char) : Prop :=
  name ≠ [] ∧ ∀ c ∈ name, isNameSymbol c = true

instance : DecidablePred IsPlainName :=
  fun name => inferInstanceAs (Decidable (name ≠ [] ∧ _))

/-- No character of a text ends a value or a tag. -/
def IsPlainValue (value : List Char) : Prop :=
  ∀ c ∈ value, c ≠ '"' ∧ c ≠ '<' ∧ c ≠ '>'

instance : DecidablePred IsPlainValue :=
  fun value => inferInstanceAs (Decidable (∀ c ∈ value, _))

/-- The names of elements and attributes can be written, and values do not end early. -/
def IsPlainTag (tag : String × List (String × List Char)) : Prop :=
  IsPlainName tag.1.toList ∧ ∀ a ∈ tag.2, IsPlainName a.1.toList ∧ IsPlainValue a.2

instance : DecidablePred IsPlainTag :=
  fun tag => inferInstanceAs (Decidable (IsPlainName tag.1.toList ∧ _))

/-! ### Reading what is written -/

theorem isPlainValue_of_isNumeric {s : List Char} (h : ∀ c ∈ s, isNumeric c = true) :
    IsPlainValue s := by
  intro c hc
  refine ⟨?_, ?_, ?_⟩
  all_goals
    rintro rfl
    exact absurd (h _ hc) (by decide)

theorem isPlainValue_escape (s : List Char) : IsPlainValue (escape s) := by
  intro c hc
  refine ⟨?_, angleFree_escape s c hc⟩
  rintro rfl
  rcases mem_escape hc with ⟨-, hnone⟩ | hc
  · cases hnone
  · exact absurd hc (by decide)

theorem IsPlainName.notMem {name : List Char} (h : IsPlainName name) {c : Char}
    (hc : isNameSymbol c = false) : c ∉ name :=
  fun hm => Bool.false_ne_true (hc.symm.trans (h.2 c hm))

theorem isTagSpace_of_isNameSymbol {c : Char} (h : isNameSymbol c = true) :
    isTagSpace c = false := by
  rw [isNameSymbol, Bool.and_eq_true, Bool.not_eq_true'] at h
  exact h.1

section Attributes

open AttributePlace

theorem next_symbol {place : AttributePlace} (hplace : place = apart ∨ place = name) {c : Char}
    (hc : isNameSymbol c = true) : place.next c = some name := by
  have hspace := isTagSpace_of_isNameSymbol hc
  have hequals : c ≠ '=' := by
    rintro rfl
    exact absurd hc (by decide +kernel)
  have hnext : place.next c = if isTagSpace c then
        some (if place = name ∨ place = named then named else apart)
      else if c = '=' then if place = name ∨ place = named then some assigned else none
      else if isNameSymbol c ∧ (place = apart ∨ place = name) then some name else none := by
    rcases hplace with rfl | rfl <;> rfl
  rw [hnext, if_neg (by simp [hspace]), if_neg hequals, if_pos ⟨hc, hplace⟩]

theorem foldlM_name {s : List Char} (h : ∀ c ∈ s, isNameSymbol c = true) :
    s.foldlM AttributePlace.next name = some name := by
  induction s with
  | nil => rfl
  | cons c s ih =>
    rw [List.forall_mem_cons] at h
    rw [List.foldlM_cons, next_symbol (.inr rfl) h.1]
    exact ih h.2

theorem foldlM_value {s : List Char} (h : IsPlainValue s) :
    s.foldlM AttributePlace.next (value '"') = some (value '"') := by
  induction s with
  | nil => rfl
  | cons c s ih =>
    obtain ⟨hc, hs⟩ := List.forall_mem_cons.1 h
    have hnext : (value '"').next c = some (value '"') :=
      congrArg some (if_neg hc.1)
    rw [List.foldlM_cons, hnext]
    exact ih hs

/-- Attributes are read as they are written. -/
theorem foldlM_attributesText {attributes : List (String × List Char)}
    (h : ∀ a ∈ attributes, IsPlainName a.1.toList ∧ IsPlainValue a.2) :
    (attributesText attributes).foldlM AttributePlace.next complete = some complete := by
  induction attributes with
  | nil => rfl
  | cons a attributes ih =>
    obtain ⟨key, v⟩ := a
    rw [List.forall_mem_cons] at h
    obtain ⟨⟨⟨hne, hkey⟩, hvalue⟩, hrest⟩ := h
    obtain ⟨c, key', hcons⟩ := List.exists_cons_of_ne_nil hne
    rw [hcons, List.forall_mem_cons] at hkey
    have hblank : AttributePlace.next complete ' ' = some apart := rfl
    have hequals : AttributePlace.next name '=' = some assigned := rfl
    have hquote : AttributePlace.next assigned '"' = some (value '"') := rfl
    have hend : AttributePlace.next (value '"') '"' = some complete := rfl
    rw [attributesText, List.flatMap_cons, List.foldlM_append]
    dsimp only
    rw [hcons, List.foldlM_cons, hblank]
    simp only [Option.bind_eq_bind, Option.bind_some, List.cons_append, List.foldlM_cons,
      next_symbol (.inl rfl) hkey.1, List.foldlM_append, foldlM_name hkey.2, hequals, hquote,
      foldlM_value hvalue, hend, List.foldlM_nil, Option.pure_def]
    exact ih hrest

end Attributes

section Tags

variable {name : String} {attributes : List (String × List Char)}

theorem attributesText_cons (key : String) (value : List Char) :
    attributesText ((key, value) :: attributes)
      = ' ' :: (key.toList ++ '=' :: '"' :: (value ++ ['"'])) ++ attributesText attributes :=
  List.flatMap_cons

theorem attributesText_ends (attributes : List (String × List Char)) :
    attributesText attributes = [] ∨
      ∃ s, attributesText attributes = ' ' :: s ∧ (' ' :: s).getLast? = some '"' := by
  induction attributes with
  | nil => exact .inl rfl
  | cons a attributes ih =>
    obtain ⟨key, value⟩ := a
    refine .inr ⟨key.toList ++ '=' :: '"' :: (value ++ ['"']) ++ attributesText attributes,
      attributesText_cons key value, ?_⟩
    rw [← List.cons_append]
    obtain hnil | ⟨s, hs, hlast⟩ := ih
    · rw [hnil, List.append_nil]
      simp [List.getLast?_cons, List.getLast?_append]
    · rw [hs, List.getLast?_append, hlast]
      rfl

theorem IsPlainTag.angleFree (h : IsPlainTag (name, attributes)) :
    ∀ c ∈ name.toList ++ attributesText attributes, c ≠ '<' ∧ c ≠ '>' := by
  have hname : ∀ s, IsPlainName s → ∀ c ∈ s, c ≠ '<' ∧ c ≠ '>' := fun s hs c hc =>
    ⟨fun heq => hs.notMem (by decide) (heq ▸ hc), fun heq => hs.notMem (by decide) (heq ▸ hc)⟩
  rw [List.forall_mem_append]
  refine ⟨hname _ h.1, fun c hc => ?_⟩
  obtain ⟨a, ha, hc⟩ := List.mem_flatMap.1 hc
  obtain ⟨hkey, hvalue⟩ := h.2 a ha
  have hpiece : ∀ c ∈ ' ' :: (a.1.toList ++ '=' :: '"' :: (a.2 ++ ['"'])), c ≠ '<' ∧ c ≠ '>' := by
    simp only [List.forall_mem_cons, List.forall_mem_append]
    exact ⟨by decide, hname _ hkey, by decide, by decide, fun c hc => (hvalue c hc).2, by decide,
      nofun⟩
  exact hpiece c hc

theorem IsPlainTag.isNamed (h : IsPlainTag (name, attributes)) :
    isNamed (name.toList ++ attributesText attributes) = true ∧
      nameOf (name.toList ++ attributesText attributes) = name.toList := by
  have hsolid : ∀ c ∈ name.toList, (!isTagSpace c) = true := fun c hc => by
    rw [isTagSpace_of_isNameSymbol (h.1.2 c hc)]
    rfl
  have hends : (attributesText attributes).takeWhile (!isTagSpace ·) = [] ∧
      (attributesText attributes).dropWhile (!isTagSpace ·) = attributesText attributes := by
    obtain hnil | ⟨s, hs, -⟩ := attributesText_ends attributes
    · rw [hnil]
      exact ⟨rfl, rfl⟩
    · rw [hs]
      exact ⟨rfl, rfl⟩
  have hname : nameOf (name.toList ++ attributesText attributes) = name.toList := by
    rw [nameOf, List.takeWhile_append_of_pos hsolid, hends.1, List.append_nil]
  refine ⟨?_, hname⟩
  rw [Markup.isNamed, hname, List.dropWhile_append_of_pos hsolid, hends.2, areAttributes,
    foldlM_attributesText h.2, Bool.and_true, Bool.and_eq_true, Bool.not_eq_true',
    List.isEmpty_eq_false_iff, List.all_eq_true]
  exact h.1

/-- A tag does not start with a slash, and neither does it end with one. -/
theorem IsPlainTag.slashes (h : IsPlainTag (name, attributes)) :
    (∀ r s, name.toList ++ r ≠ '/' :: s) ∧
      (name.toList ++ attributesText attributes).getLast? ≠ some '/' := by
  have hslash : '/' ∉ name.toList := h.1.notMem (by decide)
  constructor
  · intro r s hs
    obtain ⟨c, s', hcons⟩ := List.exists_cons_of_ne_nil h.1.1
    rw [hcons, List.cons_append] at hs
    rw [hcons, (List.cons.inj hs).1] at hslash
    exact hslash List.mem_cons_self
  · intro hlast
    obtain hnil | ⟨s, hs, hquote⟩ := attributesText_ends attributes
    · rw [hnil, List.append_nil] at hlast
      exact hslash (List.mem_of_getLast? hlast)
    · rw [hs, List.getLast?_append, hquote] at hlast
      cases hlast

theorem IsPlainTag.elementTag?_opens (h : IsPlainTag (name, attributes)) :
    elementTag? (name.toList ++ attributesText attributes) = some (.opens name.toList) := by
  obtain ⟨hstart, hlast⟩ := h.slashes
  obtain ⟨hnamed, hname⟩ := h.isNamed
  unfold elementTag?
  split
  · next s hs => exact absurd hs (hstart _ s)
  · rw [if_neg hlast, if_pos hnamed, hname]

theorem IsPlainTag.elementTag?_empty (h : IsPlainTag (name, attributes)) :
    elementTag? (name.toList ++ attributesText attributes ++ ['/'])
      = some (.empty name.toList) := by
  obtain ⟨hstart, -⟩ := h.slashes
  obtain ⟨hnamed, hname⟩ := h.isNamed
  unfold elementTag?
  split
  · next s hs =>
    rw [List.append_assoc] at hs
    exact absurd hs (hstart _ s)
  · rw [List.getLast?_concat, if_pos rfl, List.dropLast_concat, if_pos hnamed, hname]

theorem IsPlainName.elementTag?_closes (h : IsPlainName name.toList) :
    elementTag? ('/' :: name.toList) = some (.closes name.toList) := by
  have hbare : IsPlainTag (name, []) := ⟨h, nofun⟩
  have hsolid : name.toList.dropWhile (!isTagSpace ·) = [] := by
    rw [List.dropWhile_eq_nil_iff]
    intro c hc
    rw [isTagSpace_of_isNameSymbol (h.2 c hc)]
    rfl
  obtain ⟨hnamed, hname⟩ := hbare.isNamed
  rw [show attributesText [] = [] from rfl, List.append_nil] at hnamed hname
  rw [elementTag?, if_pos ⟨hnamed, by rw [hsolid]; rfl⟩, hname]

end Tags

/-! ### What is written is a passage -/

namespace Passage

variable {path path' : Path} {name : String} {attributes : List (String × List Char)}
  {s v : List Char}

theorem empty (hpath : path.head? ≠ some textName) (htag : IsPlainTag (name, attributes))
    (h : Passage path s path' v) :
    Passage path ('<' :: (name.toList ++ attributesText attributes ++ ['/'] ++ '>' :: s)) path'
      v := by
  have hangle : ∀ c ∈ name.toList ++ attributesText attributes ++ ['/'], c ≠ '<' ∧ c ≠ '>' := by
    rw [List.forall_mem_append, List.forall_mem_singleton]
    exact ⟨htag.angleFree, by decide⟩
  exact .tag (fun hm => (hangle _ hm).1 rfl) (fun hm => (hangle _ hm).2 rfl)
    htag.elementTag?_empty rfl (fun hhead => absurd hhead hpath) h

theorem opening (hpath : path.head? ≠ some textName) (htag : IsPlainTag (name, attributes))
    (h : Passage (name.toList :: path) s path' v) :
    Passage path ('<' :: (name.toList ++ attributesText attributes ++ '>' :: s)) path' v :=
  .tag (fun hm => (htag.angleFree _ hm).1 rfl) (fun hm => (htag.angleFree _ hm).2 rfl)
    htag.elementTag?_opens rfl (fun hhead => absurd hhead hpath) h

theorem closing (hname : IsPlainName name.toList) (h : Passage path s path' v) :
    Passage (name.toList :: path) ('<' :: ('/' :: name.toList ++ '>' :: s)) path' v := by
  refine .tag ?_ ?_ hname.elementTag?_closes (if_pos rfl) (fun hhead => ?_) h
  · exact List.not_mem_cons_of_ne_of_not_mem (by decide) (hname.notMem (by decide))
  · exact List.not_mem_cons_of_ne_of_not_mem (by decide) (hname.notMem (by decide))
  · rw [Option.some.inj hhead]

end Passage

/-- The markup of a forest without text elements leads nowhere and shows nothing. -/
theorem Forest.passage {forest : Forest} {path : Path} (hpath : path.head? ≠ some textName)
    (h : ∀ tag ∈ forest.tags, IsPlainTag tag ∧ tag.1.toList ≠ textName) :
    Passage path forest.text path [] := by
  induction forest generalizing path with
  | nil => exact .nil path
  | empty name attributes rest ih =>
    rw [tags, List.forall_mem_cons] at h
    exact .empty hpath h.1.1 (ih hpath h.2)
  | element name attributes inner rest ihi ihr =>
    rw [tags, List.forall_mem_cons, List.forall_mem_append] at h
    obtain ⟨⟨htag, hname⟩, hinner, hrest⟩ := h
    have hinside : (name.toList :: path).head? ≠ some textName := fun hhead =>
      hname (Option.some.inj hhead)
    exact .opening hpath htag
      ((ihi hinside hinner).append (.closing htag.1 (ihr hpath hrest)))

end Markup

/-! ### Drawings -/

namespace Drawing

open Markup

/-- The elements of a drawing. -/
def forest (drawing : Drawing) : Forest :=
  let name := escape drawing.name.toList
  let cx := integerText drawing.extent.width
  let cy := integerText drawing.extent.height
  let shape : Forest :=
    .element "a:xfrm" []
      (.empty "a:off" [("x", ['0']), ("y", ['0'])] (.empty "a:ext" [("cx", cx), ("cy", cy)] .nil))
      (.element "a:prstGeom" [("prst", "rect".toList)] (.empty "a:avLst" [] .nil) .nil)
  let filling : Forest :=
    .empty "a:blip"
      [("r:embed", drawing.relationshipId.toList), ("xmlns:r", relationshipSpace.toList)]
      (.element "a:stretch" [] (.empty "a:fillRect" [] .nil) .nil)
  let picture : Forest :=
    .element "pic:nvPicPr" []
      (.empty "pic:cNvPr" [("id", ['0']), ("name", name)] (.empty "pic:cNvPicPr" [] .nil))
      (.element "pic:blipFill" [] filling (.element "pic:spPr" [] shape .nil))
  let graphic : Forest :=
    .element "a:graphicData" [("uri", pictureSpace.toList)]
      (.element "pic:pic" [("xmlns:pic", pictureSpace.toList)] picture .nil) .nil
  let locks : Forest :=
    .empty "a:graphicFrameLocks"
      [("xmlns:a", drawingSpace.toList), ("noChangeAspect", ['1'])] .nil
  let inline : Forest :=
    .empty "wp:extent" [("cx", cx), ("cy", cy)]
      (.empty "wp:effectExtent" [("l", ['0']), ("t", ['0']), ("r", ['0']), ("b", ['0'])]
        (.empty "wp:docPr" [("id", decimalDigits drawing.drawingId), ("name", name)]
          (.element "wp:cNvGraphicFramePr" [] locks
            (.element "a:graphic" [("xmlns:a", drawingSpace.toList)] graphic .nil))))
  .element "w:drawing" []
    (.element "wp:inline"
      [("distT", ['0']), ("distB", ['0']), ("distL", ['0']), ("distR", ['0']),
        ("xmlns:wp", wordDrawingSpace.toList)] inline .nil) .nil

set_option maxRecDepth 4000 in
theorem text_eq (drawing : Drawing) : drawing.text = drawing.forest.text := by
  unfold text forest
  dsimp only
  -- the rules hold by definition, but then the kernel would compare the texts letter by letter
  simp -implicitDefEqProofs only [List.flatMap_cons, List.flatMap_nil, Forest.text, attributesText,
    List.append_assoc, List.cons_append, List.nil_append, List.append_nil, String.toList_ofList,
    -String.reduceToList]
  generalize escape drawing.name.toList = name
  generalize decimalDigits drawing.drawingId = id
  generalize integerText drawing.extent.width = cx
  generalize integerText drawing.extent.height = cy
  generalize drawing.relationshipId.toList = relationshipId
  generalize wordDrawingSpace.toList = wordDrawing
  generalize drawingSpace.toList = space
  generalize pictureSpace.toList = picture
  generalize relationshipSpace.toList = relationship
  repeat rw [String.toList_ofList]
  simp -implicitDefEqProofs only [List.cons_append, List.nil_append]

/-- The tags of a drawing can be written when its relationship has an id that can. -/
theorem isPlainTag_of_mem_tags {drawing : Drawing}
    (hid : IsPlainValue drawing.relationshipId.toList) :
    ∀ tag ∈ drawing.forest.tags, IsPlainTag tag ∧ tag.1.toList ≠ textName := by
  have hname := isPlainValue_escape drawing.name.toList
  have hdigits := isPlainValue_of_isNumeric (isNumeric_decimalDigits (n := drawing.drawingId))
  have hwidth := isPlainValue_of_isNumeric (isNumeric_integerText (n := drawing.extent.width))
  have hheight := isPlainValue_of_isNumeric (isNumeric_integerText (n := drawing.extent.height))
  unfold forest
  dsimp only
  generalize escape drawing.name.toList = name at hname
  generalize decimalDigits drawing.drawingId = digits at hdigits
  generalize integerText drawing.extent.width = width at hwidth
  generalize integerText drawing.extent.height = height at hheight
  generalize drawing.relationshipId.toList = id at hid
  simp only [Forest.tags, IsPlainTag, List.cons_append, List.nil_append, List.append_nil,
    List.forall_mem_cons]
  and_intros
  all_goals first | decide +kernel | assumption

/-- The markup of a drawing leads nowhere and shows nothing. -/
theorem passage {drawing : Drawing} (hid : IsPlainValue drawing.relationshipId.toList) {path : Path}
    (hpath : path.head? ≠ some textName) : Passage path drawing.text path [] := by
  rw [text_eq]
  exact Forest.passage hpath (isPlainTag_of_mem_tags hid)

end Drawing

end MailMerge
