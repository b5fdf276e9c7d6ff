import MailMerge.Proofs.Forests
import MailMerge.Xml.Reader

/-!
# Reading tags back

A tag that is written with plain names and values is read as the element that it was written for
(`Xml.events_opening`, `Xml.events_empty`), with its attributes
(`Xml.attributeItems_attributesText`). So the markup of a forest is read as its elements, in order,
whatever follows it (`Markup.Forest.events_text`).

A tag is read up to the first `>` outside of quotation marks. A text is `Endless` when no tag can
end in it; attributes are, because written values hold no quotation marks.
-/

namespace MailMerge

namespace Text

/-! ### Glyphs -/

theorem glyphsOf_append (s r : List Char) : glyphsOf (s ++ r) = glyphsOf s ++ glyphsOf r :=
  List.map_append

theorem glyphsOf_inj {s r : List Char} : glyphsOf s = glyphsOf r ↔ s = r :=
  List.map_inj_right fun _ _ => Glyph.char.inj

theorem glyphsOf_beq (s r : String) : (glyphsOf s.toList == glyphsOf r.toList) = (s == r) := by
  rw [Bool.eq_iff_iff, beq_iff_eq, beq_iff_eq, glyphsOf_inj, String.toList_inj]

theorem char_mem_glyphsOf {c : Char} {s : List Char} : .char c ∈ glyphsOf s ↔ c ∈ s := by
  simp [glyphsOf]

theorem charsOf?_glyphsOf (s : List Char) : charsOf? (glyphsOf s) = some s := by
  induction s with
  | nil => rfl
  | cons c s ih =>
    rw [glyphsOf, List.map_cons, charsOf?, ← glyphsOf, ih]
    rfl

end Text

namespace Xml

open Markup
open MailMerge.Text (Glyph glyphsOf glyphsOf_append char_mem_glyphsOf)

/-! ### Where tags end -/

/-- No tag ends in a text: quotation marks are closed in it, and no `>` stands outside of them. -/
def Endless (s : List Glyph) : Prop :=
  ∀ rest, breakUnquoted? (· == .char '>') none (s ++ rest)
    = (breakUnquoted? (· == .char '>') none rest).map fun (tag, after) => (s ++ tag, after)

theorem endless_nil : Endless [] := fun rest => by simp

theorem Endless.append {s r : List Glyph} (hs : Endless s) (hr : Endless r) :
    Endless (s ++ r) := by
  intro rest
  rw [List.append_assoc, hs, hr, Option.map_map]
  simp [Function.comp_def]

theorem endless_of_forall {s : List Glyph}
    (h : ∀ g ∈ s, g ≠ .char '>' ∧ g ≠ .char '"' ∧ g ≠ .char '\'') : Endless s := by
  induction s with
  | nil => exact endless_nil
  | cons g s ih =>
    rw [List.forall_mem_cons] at h
    obtain ⟨⟨hend, hdouble, hsingle⟩, h⟩ := h
    intro rest
    rw [List.cons_append, breakUnquoted?]
    simp only [beq_iff_eq, hend, hdouble, hsingle, if_false, or_self, ih h rest, Option.map_map]
    rfl

theorem breakUnquoted?_quoted (stops : Glyph → Bool) {q : Glyph} {s : List Glyph} (h : q ∉ s)
    (rest : List Glyph) :
    breakUnquoted? stops (some q) (s ++ q :: rest)
      = (breakUnquoted? stops none rest).map fun (before, after) => (s ++ q :: before, after) := by
  induction s with
  | nil =>
    rw [List.nil_append, breakUnquoted?]
    simp
  | cons g s ih =>
    rw [List.mem_cons, not_or] at h
    rw [List.cons_append, breakUnquoted?]
    simp only [Ne.symm h.1, if_false, ih h.2, Option.map_map]
    rfl

theorem endless_quoted {s : List Glyph} (h : .char '"' ∉ s) :
    Endless (.char '"' :: (s ++ [.char '"'])) := by
  intro rest
  rw [List.cons_append, List.append_assoc, List.singleton_append, breakUnquoted?]
  have hquoted := breakUnquoted?_quoted (· == .char '>') h rest
  simp [hquoted, Function.comp_def]

theorem Endless.tagEnd?_eq {s : List Glyph} (h : Endless s) (rest : List Glyph) :
    tagEnd? (s ++ .char '>' :: rest) = some (s, rest) := by
  rw [tagEnd?, h, breakUnquoted?]
  simp

section Names

variable {name : List Char}

theorem notMem_of_isPlainName (h : IsPlainName name) {c : Char} (hc : isNameSymbol c = false) :
    .char c ∉ glyphsOf name :=
  char_mem_glyphsOf.not.2 (h.notMem hc)

theorem exists_cons_of_isPlainName (h : IsPlainName name) :
    ∃ first letters, glyphsOf name = first :: letters := by
  obtain ⟨c, s, rfl⟩ := List.exists_cons_of_ne_nil h.1
  exact ⟨_, _, rfl⟩

theorem isSpace_of_isPlainName (h : IsPlainName name) :
    ∀ g ∈ glyphsOf name, isSpace g = false := by
  intro g hg
  rw [Bool.eq_false_iff]
  intro hspace
  simp only [Xml.isSpace, Bool.or_eq_true, beq_iff_eq] at hspace
  rcases hspace with ((rfl | rfl) | rfl) | rfl <;>
    exact absurd hg (notMem_of_isPlainName h (by decide))

theorem endless_of_isPlainName (h : IsPlainName name) : Endless (glyphsOf name) :=
  endless_of_forall fun _ hg =>
    ⟨ne_of_mem_of_not_mem hg (notMem_of_isPlainName h (by decide)),
      ne_of_mem_of_not_mem hg (notMem_of_isPlainName h (by decide)),
      ne_of_mem_of_not_mem hg (notMem_of_isPlainName h (by decide))⟩

theorem head?_ne_of_isPlainName (h : IsPlainName name) (s : List Glyph) :
    ∀ c ∈ ['!', '?', '/'], (glyphsOf name ++ s).head? ≠ some (.char c) := by
  intro c hc hhead
  obtain ⟨first, letters, hletters⟩ := exists_cons_of_isPlainName h
  have hmem : first ∈ glyphsOf name := hletters ▸ List.mem_cons_self
  rw [hletters] at hhead
  obtain rfl := Option.some.inj hhead
  have hsymbol : isNameSymbol c = false :=
    (by decide : ∀ c ∈ ['!', '?', '/'], isNameSymbol c = false) c hc
  exact notMem_of_isPlainName h hsymbol hmem

end Names

/-! ### Attributes -/

section Attributes

variable {attributes : List (String × List Char)}

theorem glyphsOf_attributesText_cons (key : String) (value : List Char) :
    glyphsOf (attributesText ((key, value) :: attributes))
      = .char ' ' :: (glyphsOf key.toList ++ .char '=' :: (.char '"' ::
          (glyphsOf value ++ .char '"' :: glyphsOf (attributesText attributes)))) := by
  rw [attributesText_cons]
  simp [glyphsOf]

theorem endless_of_isPlain
    (h : ∀ a ∈ attributes, IsPlainName a.1.toList ∧ IsPlainValue a.2) :
    Endless (glyphsOf (attributesText attributes)) := by
  induction attributes with
  | nil => exact endless_nil
  | cons a attributes ih =>
    obtain ⟨key, value⟩ := a
    rw [List.forall_mem_cons] at h
    obtain ⟨⟨hkey, hvalue⟩, hrest⟩ := h
    have hquoted : Endless (.char '"' :: (glyphsOf value ++ [.char '"'])) :=
      endless_quoted (char_mem_glyphsOf.not.2 fun hm => (hvalue _ hm).1 rfl)
    have hsign : Endless [Glyph.char '='] := endless_of_forall (by simp)
    have hspace : Endless [Glyph.char ' '] := endless_of_forall (by simp)
    have hfirst := hspace.append ((endless_of_isPlainName hkey).append (hsign.append hquoted))
    have hall := hfirst.append (ih hrest)
    rw [glyphsOf_attributesText_cons]
    simpa using hall

/-- An attribute is read as it was written. -/
theorem attribute?_eq {key value : List Char} (hkey : IsPlainName key) (hvalue : '"' ∉ value)
    (rest : List Glyph) :
    attribute? (glyphsOf key ++ .char '=' ::
        (.char '"' :: (glyphsOf value ++ .char '"' :: rest)))
      = some (⟨glyphsOf key, glyphsOf value⟩, rest) := by
  have hends : ∀ g ∈ glyphsOf key, (!(isSpace g || g == .char '=')) = true := by
    intro g hg
    have hsign : g ≠ .char '=' :=
      ne_of_mem_of_not_mem hg (notMem_of_isPlainName hkey (by decide))
    simp [isSpace_of_isPlainName hkey g hg, hsign]
  obtain ⟨first, letters, hletters⟩ := exists_cons_of_isPlainName hkey
  rw [hletters, List.forall_mem_cons] at hends
  rw [hletters, List.cons_append, attribute?]
  have htake : ∀ r, (letters ++ Glyph.char '=' :: r).takeWhile
      (fun g => !(isSpace g || g == Glyph.char '=')) = letters := by
    intro r
    rw [List.takeWhile_append_of_pos hends.2, List.takeWhile_cons_of_neg (by simp),
      List.append_nil]
  have hdrop : ∀ r, (letters ++ Glyph.char '=' :: r).dropWhile
      (fun g => !(isSpace g || g == Glyph.char '=')) = .char '=' :: r := by
    intro r
    rw [List.dropWhile_append_of_pos hends.2, List.dropWhile_cons_of_neg (by simp)]
  have hquote : Text.breakAt? [.char '"'] (glyphsOf value ++ .char '"' :: rest)
      = some (glyphsOf value, rest) :=
    Text.breakAt?_singleton_eq_some_iff.2 ⟨rfl, char_mem_glyphsOf.not.2 hvalue⟩
  simp only [htake, hdrop]
  rw [List.dropWhile_cons_of_neg (by decide)]
  simp [isSpace, hquote]

theorem attributeItems_of_attribute? {seen : List (List Glyph)} {s rest after : List Glyph}
    {g : Glyph} {a : Attribute} (hs : s.dropWhile isSpace = g :: rest)
    (h : attribute? (g :: rest) = some (a, after)) (hnew : a.name ∉ seen) :
    attributeItems seen s = .sound a :: attributeItems (a.name :: seen) after := by
  rw [attributeItems]
  split
  · next hnil =>
    rw [hs] at hnil
    cases hnil
  · next hcons =>
    rw [hs] at hcons
    cases hcons
    split
    · next hnone =>
      rw [h] at hnone
      cases hnone
    · next hsome =>
      rw [h, Option.some.injEq, Prod.mk.injEq] at hsome
      obtain ⟨rfl, rfl⟩ := hsome
      exact if_neg hnew

/-- Attributes with distinct names are read as they were written. -/
theorem attributeItems_attributesText
    (h : ∀ a ∈ attributes, IsPlainName a.1.toList ∧ IsPlainValue a.2)
    (hdistinct : (attributes.map Prod.fst).Nodup) {seen : List (List Glyph)}
    (hseen : ∀ a ∈ attributes, glyphsOf a.1.toList ∉ seen) :
    attributeItems seen (glyphsOf (attributesText attributes))
      = attributes.map fun a => .sound ⟨glyphsOf a.1.toList, glyphsOf a.2⟩ := by
  induction attributes generalizing seen with
  | nil =>
    rw [attributeItems]
    rfl
  | cons a attributes ih =>
    obtain ⟨key, value⟩ := a
    rw [List.forall_mem_cons] at h hseen
    rw [List.map_cons, List.nodup_cons] at hdistinct
    obtain ⟨⟨hkey, hvalue⟩, hrest⟩ := h
    have hattribute := attribute?_eq hkey (fun hm => (hvalue _ hm).1 rfl)
      (glyphsOf (attributesText attributes))
    obtain ⟨first, letters, hletters⟩ := exists_cons_of_isPlainName hkey
    have hfirst : isSpace first = false :=
      isSpace_of_isPlainName hkey first (hletters ▸ List.mem_cons_self)
    have hspaces : (glyphsOf (attributesText ((key, value) :: attributes))).dropWhile isSpace
        = first :: (letters ++ .char '=' :: (.char '"' ::
            (glyphsOf value ++ .char '"' :: glyphsOf (attributesText attributes)))) := by
      rw [glyphsOf_attributesText_cons, hletters, List.dropWhile_cons_of_pos (by decide),
        List.cons_append, List.dropWhile_cons_of_neg (by simp [hfirst])]
    rw [hletters, List.cons_append, ← hletters] at hattribute
    rw [attributeItems_of_attribute? hspaces hattribute hseen.1, List.map_cons,
      ih hrest hdistinct.2 fun b hb => ?_]
    rw [List.mem_cons, not_or]
    refine ⟨fun he => hdistinct.1 ?_, hseen.2 b hb⟩
    rw [← String.toList_injective (Text.glyphsOf_inj.1 he)]
    exact List.mem_map_of_mem hb

end Attributes

/-! ### Elements -/

section Elements

variable {name : String} {attributes : List (String × List Char)} {opened : List (List Glyph)}

theorem events_of_tag {s tag after : List Glyph}
    (hfirst : ∀ c ∈ ['!', '?', '/'], s.head? ≠ some (.char c))
    (h : tagEnd? s = some (tag, after)) :
    events opened (.char '<' :: s) =
      if tag.getLast? = some (.char '/') then Event.ofTag tag.dropLast :: events opened after
      else Event.ofTag tag :: events (tag.takeWhile (!isSpace ·) :: opened) after := by
  rw [events]
  case x =>
    rintro rest rfl
    exact hfirst '!' (by decide) rfl
  case x_1 =>
    rintro rest rfl
    exact hfirst '?' (by decide) rfl
  case x_2 =>
    rintro rest rfl
    exact hfirst '/' (by decide) rfl
  split
  · next hsome =>
    rw [h, Option.some.injEq, Prod.mk.injEq] at hsome
    obtain ⟨rfl, rfl⟩ := hsome
    rfl
  · next hnone =>
    rw [h] at hnone
    cases hnone

/-- The event of a tag that is read as it was written. -/
def Event.ofWritten (name : String) (attributes : List (String × List Char)) : Event :=
  .element (glyphsOf name.toList) (glyphsOf (attributesText attributes))

/-- The name and the attributes in a tag. -/
theorem ofTag_eq (h : IsPlainName name.toList) (attributes : List (String × List Char)) :
    (glyphsOf (name.toList ++ attributesText attributes)).takeWhile (!isSpace ·)
        = glyphsOf name.toList ∧
      Event.ofTag (glyphsOf (name.toList ++ attributesText attributes))
        = .ofWritten name attributes := by
  have hname : ∀ g ∈ glyphsOf name.toList, (!isSpace g) = true := fun g hg => by
    rw [isSpace_of_isPlainName h g hg]
    rfl
  rw [Event.ofTag, glyphsOf_append, List.takeWhile_append_of_pos hname,
    List.dropWhile_append_of_pos hname, Event.ofWritten]
  obtain hnil | ⟨s, hs, -⟩ := attributesText_ends attributes
  · simp [hnil, glyphsOf]
  · have hcons : glyphsOf (' ' :: s) = .char ' ' :: glyphsOf s := rfl
    rw [hs, hcons, List.takeWhile_cons_of_neg (by decide), List.dropWhile_cons_of_neg (by decide),
      List.append_nil]
    exact ⟨rfl, rfl⟩

theorem endless_of_isPlainTag (h : IsPlainTag (name, attributes)) :
    Endless (glyphsOf (name.toList ++ attributesText attributes)) := by
  rw [glyphsOf_append]
  exact (endless_of_isPlainName h.1).append (endless_of_isPlain h.2)

/-- An element of its own is read as it was written. -/
theorem events_empty (h : IsPlainTag (name, attributes)) (rest : List Glyph) :
    events opened (.char '<' :: (glyphsOf (name.toList ++ attributesText attributes) ++
        .char '/' :: .char '>' :: rest))
      = .ofWritten name attributes :: events opened rest := by
  have hslash : Endless [Glyph.char '/'] := endless_of_forall (by simp)
  have hend := ((endless_of_isPlainTag h).append hslash).tagEnd?_eq rest
  rw [List.append_assoc, List.singleton_append] at hend
  rw [events_of_tag ?_ hend, if_pos (by simp), List.dropLast_concat, (ofTag_eq h.1 _).2]
  rw [glyphsOf_append, List.append_assoc]
  exact head?_ne_of_isPlainName h.1 _

/-- The tag of an element that holds others is read as it was written. -/
theorem events_opening (h : IsPlainTag (name, attributes)) (rest : List Glyph) :
    events opened (.char '<' :: (glyphsOf (name.toList ++ attributesText attributes) ++
        .char '>' :: rest))
      = .ofWritten name attributes :: events (glyphsOf name.toList :: opened) rest := by
  have hlast : (glyphsOf (name.toList ++ attributesText attributes)).getLast?
      ≠ some (.char '/') := by
    intro hslash
    rw [glyphsOf, List.getLast?_map] at hslash
    obtain ⟨c, hc, hcslash⟩ := Option.map_eq_some_iff.1 hslash
    obtain rfl := Glyph.char.inj hcslash
    exact h.slashes.2 hc
  rw [events_of_tag ?_ ((endless_of_isPlainTag h).tagEnd?_eq rest), if_neg hlast,
    (ofTag_eq h.1 _).1, (ofTag_eq h.1 _).2]
  rw [glyphsOf_append, List.append_assoc]
  exact head?_ne_of_isPlainName h.1 _

theorem closingName_eq (h : IsPlainName name.toList) :
    closingName (glyphsOf name.toList) = glyphsOf name.toList := by
  have hspaceless : ∀ g ∈ (glyphsOf name.toList).reverse, ¬isSpace g = true := fun g hg => by
    rw [isSpace_of_isPlainName h g (List.mem_reverse.1 hg)]
    exact Bool.false_ne_true
  rw [closingName]
  split
  · rfl
  · cases hreverse : (glyphsOf name.toList).reverse with
    | nil => rw [List.dropWhile_nil, ← hreverse, List.reverse_reverse]
    | cons g s =>
      rw [hreverse, List.forall_mem_cons] at hspaceless
      rw [List.dropWhile_cons_of_neg hspaceless.1, ← hreverse, List.reverse_reverse]

theorem events_closing (h : IsPlainName name.toList) (rest : List Glyph) :
    events (glyphsOf name.toList :: opened)
        (.char '<' :: .char '/' :: (glyphsOf name.toList ++ .char '>' :: rest))
      = events opened rest := by
  have hend := (endless_of_isPlainName h).tagEnd?_eq rest
  rw [events]
  split
  · next hsome =>
    rw [hend, Option.some.injEq, Prod.mk.injEq] at hsome
    obtain ⟨rfl, rfl⟩ := hsome
    exact if_pos (closingName_eq h)
  · next hnone =>
    rw [hend] at hnone
    cases hnone

end Elements

end Xml

/-! ### Forests -/

namespace Markup.Forest

open MailMerge.Text (Glyph glyphsOf)

/-- The events of the elements of a forest. -/
def events (forest : Forest) : List Xml.Event :=
  forest.tags.map fun tag => .ofWritten tag.1 tag.2

/-- **The markup of a forest is read as its elements**, whatever follows it. -/
theorem events_text {forest : Forest} (h : ∀ tag ∈ forest.tags, IsPlainTag tag)
    (opened : List (List Glyph)) (rest : List Glyph) :
    Xml.events opened (glyphsOf forest.text ++ rest)
      = forest.events ++ Xml.events opened rest := by
  induction forest generalizing opened rest with
  | nil => rfl
  | empty name attributes others ih =>
    rw [tags, List.forall_mem_cons] at h
    have htext : glyphsOf (empty name attributes others).text ++ rest
        = .char '<' :: (glyphsOf (name.toList ++ attributesText attributes) ++
            .char '/' :: .char '>' :: (glyphsOf others.text ++ rest)) := by
      simp [text, glyphsOf]
    rw [htext, Xml.events_empty h.1, ih h.2]
    rfl
  | element name attributes inner others ihi ihr =>
    rw [tags, List.forall_mem_cons, List.forall_mem_append] at h
    have htext : glyphsOf (element name attributes inner others).text ++ rest
        = .char '<' :: (glyphsOf (name.toList ++ attributesText attributes) ++
            .char '>' :: (glyphsOf inner.text ++
              .char '<' :: .char '/' :: (glyphsOf name.toList ++
                .char '>' :: (glyphsOf others.text ++ rest)))) := by
      simp [text, glyphsOf]
    rw [htext, Xml.events_opening h.1, ihi h.2.1, Xml.events_closing h.1.1, ihr h.2.2]
    simp [events, tags]

end Markup.Forest

end MailMerge
