import MailMerge.Proofs.GatheredParts
import MailMerge.Template.Scanner

/-!
# White space that is kept

Gathering moves text between elements, and white space at the ends of a content counts only where
the opening tag says so, once, in a tag that can be read (`KeepsSpace`). Which elements with a new
content say so is decided by the tags they had: those that said so before, and those that could be
read and did not mention `xml:space` at all (`keepsSpace_gatherPart_iff`). A tag that says the
opposite is left as it is, and its white space may be lost (`not_keepsSpace_default`).

The attributes of a tag that gains one are read first: sound ones stay as they are, and the new one
follows (`Xml.attributeItems_append_spacing`), while what is malformed is not mended by it
(`Xml.malformed_mem_append_spacing`).
-/

namespace MailMerge.Xml

open MailMerge.Text (Glyph glyphsOf)
open MailMerge.Markup (spacing spaceName)

/-! ### An attribute and what follows it -/

section Append

variable {s r value after : List Glyph} {a : Attribute} {p : Glyph → Bool}

/-- What ends a name in front of a value. -/
def endsName (g : Glyph) : Bool :=
  isSpace g || g == .char '='

/-- The value in quotation marks that a text starts with, and what follows it. -/
def quoted? : List Glyph → Option (List Glyph × List Glyph)
  | [] => none
  | quote :: s =>
    if quote = .char '"' ∨ quote = .char '\'' then Text.breakAt? [quote] s else none

/-- The value that follows a name, and what follows the value. -/
def value? : List Glyph → Option (List Glyph × List Glyph)
  | .char '=' :: s => quoted? (s.dropWhile isSpace)
  | _ => none

theorem value?_sign (s : List Glyph) : value? (.char '=' :: s) = quoted? (s.dropWhile isSpace) :=
  rfl

theorem value?_cons_of_ne {sign : Glyph} (h : sign ≠ .char '=') (s : List Glyph) :
    value? (sign :: s) = none := by
  unfold value?
  split
  · next he => exact absurd (List.cons.inj he).1 h
  · rfl

/-- An attribute is a name and what is read behind it. -/
theorem attribute?_cons (first : Glyph) (rest : List Glyph) :
    attribute? (first :: rest)
      = (value? ((rest.dropWhile (!endsName ·)).dropWhile isSpace)).map fun (value, after) =>
          (⟨first :: rest.takeWhile (!endsName ·), value⟩, after) := by
  simp only [attribute?, endsName]
  generalize (rest.dropWhile fun g => !(isSpace g || g == .char '=')).dropWhile isSpace = behind
  cases behind with
  | nil => rfl
  | cons sign s =>
    by_cases hsign : sign = .char '='
    · subst hsign
      simp only [value?]
      cases s.dropWhile isSpace with
      | nil => rfl
      | cons quote s =>
        simp only [quoted?]
        split <;> rfl
    · rw [value?_cons_of_ne hsign]
      split
      · next he => exact absurd (List.cons.inj he).1 hsign
      · rfl

theorem dropWhile_append_of_ne_nil (h : s.dropWhile p ≠ []) (r : List Glyph) :
    (s ++ r).dropWhile p = s.dropWhile p ++ r := by
  rw [List.dropWhile_append, if_neg (by simpa using h)]

theorem takeWhile_append_of_ne_nil (h : s.dropWhile p ≠ []) (r : List Glyph) :
    (s ++ r).takeWhile p = s.takeWhile p := by
  rw [List.takeWhile_append, if_neg fun hlength => h ?_]
  have hsplit := congrArg List.length (List.takeWhile_append_dropWhile (p := p) (l := s))
  rw [List.length_append, hlength] at hsplit
  exact List.eq_nil_of_length_eq_zero (by omega)

theorem ne_nil_of_quoted? (h : quoted? s = some (value, after)) : s ≠ [] := by
  rintro rfl
  cases h

theorem ne_nil_of_value? (h : value? s = some (value, after)) : s ≠ [] := by
  rintro rfl
  cases h

theorem quoted?_append (h : quoted? s = some (value, after)) (r : List Glyph) :
    quoted? (s ++ r) = some (value, after ++ r) := by
  cases s with
  | nil => cases h
  | cons quote s =>
    rw [quoted?] at h
    split at h
    · next hquote =>
      rw [List.cons_append, quoted?, if_pos hquote]
      rw [Text.breakAt?_singleton_eq_some_iff] at h ⊢
      exact ⟨by simp [h.1], h.2⟩
    · cases h

theorem value?_append (h : value? s = some (value, after)) (r : List Glyph) :
    value? (s ++ r) = some (value, after ++ r) := by
  unfold value? at h
  split at h
  · next s =>
    rw [List.cons_append, value?, dropWhile_append_of_ne_nil (ne_nil_of_quoted? h),
      quoted?_append h]
  · cases h

/-- An attribute stays what it is when more follows. -/
theorem attribute?_append (h : attribute? s = some (a, after)) (r : List Glyph) :
    attribute? (s ++ r) = some (a, after ++ r) := by
  cases s with
  | nil => cases h
  | cons first rest =>
    rw [attribute?_cons] at h
    obtain ⟨⟨value, after⟩, hvalue, he⟩ := Option.map_eq_some_iff.1 h
    obtain ⟨rfl, rfl⟩ := Prod.mk.inj he
    have hspaces := ne_nil_of_value? hvalue
    have hname : rest.dropWhile (!endsName ·) ≠ [] := by
      intro hnil
      rw [hnil] at hspaces
      exact hspaces rfl
    rw [List.cons_append, attribute?_cons, dropWhile_append_of_ne_nil hname,
      dropWhile_append_of_ne_nil hspaces, takeWhile_append_of_ne_nil hname, value?_append hvalue]
    rfl

end Append

/-! ### Where the attribute for white space follows -/

section Spacing

variable {s : List Glyph}

/-- A value that is not closed stays open, or takes all of `spacing` but its value. -/
theorem quoted?_append_spacing {quote : Glyph} (h : quoted? (quote :: s) = none) :
    quoted? (quote :: s ++ glyphsOf spacing) = none
      ∨ ∃ value, quoted? (quote :: s ++ glyphsOf spacing)
          = some (value, glyphsOf "preserve\"".toList) := by
  rw [List.cons_append]
  by_cases hquote : quote = .char '"' ∨ quote = .char '\''
  · rw [quoted?, if_pos hquote, Text.breakAt?_singleton_eq_none_iff] at h
    rw [quoted?, if_pos hquote]
    rcases hquote with rfl | rfl
    · refine .inr ⟨s ++ glyphsOf " xml:space=".toList,
        Text.breakAt?_singleton_eq_some_iff.2 ⟨?_, ?_⟩⟩
      · rw [List.append_assoc]
        rfl
      · rw [List.mem_append, not_or]
        exact ⟨h, by decide⟩
    · refine .inl (Text.breakAt?_singleton_eq_none_iff.2 ?_)
      rw [List.mem_append, not_or]
      exact ⟨h, by decide⟩
  · exact .inl (if_neg hquote)

theorem dropWhile_isSpace_append_spacing (s : List Glyph) :
    (s ++ glyphsOf spacing).dropWhile isSpace
      = if s.dropWhile isSpace = [] then glyphsOf "xml:space=\"preserve\"".toList
        else s.dropWhile isSpace ++ glyphsOf spacing := by
  rw [List.dropWhile_append]
  simp only [List.isEmpty_iff]
  rfl

theorem value?_append_spacing (h : value? s = none) :
    value? (s ++ glyphsOf spacing) = none
      ∨ ∃ value, value? (s ++ glyphsOf spacing) = some (value, glyphsOf "preserve\"".toList) := by
  cases s with
  | nil => exact .inl rfl
  | cons sign s =>
    by_cases hsign : sign = .char '='
    · subst hsign
      rw [value?_sign] at h
      rw [List.cons_append, value?_sign, dropWhile_isSpace_append_spacing]
      split
      · exact .inl rfl
      · next hne =>
        obtain ⟨quote, r, hr⟩ := List.exists_cons_of_ne_nil hne
        rw [hr] at h ⊢
        exact quoted?_append_spacing h
    · exact .inl (value?_cons_of_ne hsign _)

/-- What is no attribute stays none, or takes all of `spacing` but its value into its own. -/
theorem attribute?_append_spacing {g : Glyph} (h : attribute? (g :: s) = none) :
    attribute? (g :: s ++ glyphsOf spacing) = none
      ∨ ∃ a, attribute? (g :: s ++ glyphsOf spacing)
          = some (a, glyphsOf "preserve\"".toList) := by
  have hname : (s ++ glyphsOf spacing).dropWhile (!endsName ·)
      = s.dropWhile (!endsName ·) ++ glyphsOf spacing := by
    rw [List.dropWhile_append]
    split
    · next hnil =>
      rw [List.isEmpty_iff.1 hnil]
      rfl
    · rfl
  rw [attribute?_cons, Option.map_eq_none_iff] at h
  rw [List.cons_append, attribute?_cons, hname, dropWhile_isSpace_append_spacing]
  split
  · exact .inl rfl
  · rcases value?_append_spacing h with hnone | ⟨value, hvalue⟩
    · rw [hnone]
      exact .inl rfl
    · rw [hvalue]
      exact .inr ⟨_, rfl⟩

end Spacing

/-! ### All attributes of a tag -/

/-- Attributes are malformed, whatever the first one is, when malformed ones follow it. -/
theorem malformed_mem_attributeItems {seen : List (List Glyph)} {s rest : List Glyph} {g : Glyph}
    (hs : s.dropWhile isSpace = g :: rest)
    (h : ∀ a after, attribute? (g :: rest) = some (a, after) → a.name ∉ seen →
      .malformed ∈ attributeItems (a.name :: seen) after) :
    .malformed ∈ attributeItems seen s := by
  rw [attributeItems]
  split
  · next hnil =>
    rw [hs] at hnil
    cases hnil
  · next hcons =>
    rw [hs] at hcons
    cases hcons
    split
    · exact List.mem_singleton_self _
    · next a after hattribute =>
      dsimp only
      split
      · exact List.mem_singleton_self _
      · next hnew => exact List.mem_cons_of_mem _ (h a after hattribute hnew)

/-- The attribute that says that white space counts, as `spacing` writes it. -/
def spaceKept : Attribute :=
  ⟨glyphsOf spaceName, glyphsOf "preserve".toList⟩

theorem attributeItems_spaces_append_spacing {seen : List (List Glyph)} {s : List Glyph}
    (hs : s.dropWhile isSpace = []) (hseen : glyphsOf spaceName ∉ seen) :
    attributeItems seen (s ++ glyphsOf spacing) = [.sound spaceKept] := by
  have hdrop : (s ++ glyphsOf spacing).dropWhile isSpace
      = glyphsOf "xml:space=\"preserve\"".toList := by
    rw [dropWhile_isSpace_append_spacing, if_pos hs]
  have hitem : attribute? (glyphsOf "xml:space=\"preserve\"".toList) = some (spaceKept, []) := by
    decide
  rw [attributeItems_of_attribute? hdrop hitem hseen, attributeItems]
  rfl

theorem dropWhile_isSpace_cons_append_spacing {s rest : List Glyph} {g : Glyph}
    (hs : s.dropWhile isSpace = g :: rest) :
    (s ++ glyphsOf spacing).dropWhile isSpace = g :: rest ++ glyphsOf spacing := by
  rw [dropWhile_isSpace_append_spacing, hs, if_neg (List.cons_ne_nil g rest)]

/-- Behind sound attributes of other names, `spacing` is one more. -/
theorem attributeItems_append_spacing {seen : List (List Glyph)} {s : List Glyph}
    (hsound : .malformed ∉ attributeItems seen s)
    (hother : ∀ a, .sound a ∈ attributeItems seen s → a.name ≠ glyphsOf spaceName)
    (hseen : glyphsOf spaceName ∉ seen) :
    attributeItems seen (s ++ glyphsOf spacing) = attributeItems seen s ++ [.sound spaceKept] := by
  fun_induction attributeItems seen s with
  | case1 seen s hs => exact attributeItems_spaces_append_spacing hs hseen
  | case2 => simp at hsound
  | case3 => simp at hsound
  | case4 seen s g rest hs a after hattribute _ hnew ih =>
    rw [List.mem_cons, not_or] at hsound
    have hseen' : glyphsOf spaceName ∉ a.name :: seen := by
      rw [List.mem_cons, not_or]
      exact ⟨(hother a List.mem_cons_self).symm, hseen⟩
    rw [attributeItems_of_attribute? (dropWhile_isSpace_cons_append_spacing hs)
      (attribute?_append hattribute _) hnew,
      ih hsound.2 (fun b hb => hother b (List.mem_cons_of_mem _ hb)) hseen', List.cons_append]

/-- What is malformed is not mended by `spacing`. -/
theorem malformed_mem_append_spacing {seen : List (List Glyph)} {s : List Glyph}
    (h : .malformed ∈ attributeItems seen s) :
    .malformed ∈ attributeItems seen (s ++ glyphsOf spacing) := by
  fun_induction attributeItems seen s with
  | case1 => cases h
  | case2 seen s g rest hs hattribute =>
    refine malformed_mem_attributeItems (dropWhile_isSpace_cons_append_spacing hs)
      fun a after ha _ => ?_
    rcases attribute?_append_spacing hattribute with hnone | ⟨b, hsome⟩
    · cases hnone.symm.trans ha
    · -- the value of `spacing` is left over, and this is no attribute
      cases hsome.symm.trans ha
      have hleft : attribute? (glyphsOf "preserve\"".toList) = none := by decide
      refine malformed_mem_attributeItems rfl fun c left hc _ => ?_
      cases hleft.symm.trans hc
  | case3 seen s g rest hs a after hattribute _ hold =>
    refine malformed_mem_attributeItems (dropWhile_isSpace_cons_append_spacing hs)
      fun b after' hb hnew => ?_
    cases (attribute?_append hattribute _).symm.trans hb
    exact absurd hold hnew
  | case4 seen s g rest hs a after hattribute _ hnew ih =>
    refine malformed_mem_attributeItems (dropWhile_isSpace_cons_append_spacing hs)
      fun b after' hb _ => ?_
    cases (attribute?_append hattribute _).symm.trans hb
    exact ih ((List.mem_cons.1 h).resolve_left (by simp))

end MailMerge.Xml

namespace MailMerge.Markup

open MailMerge.Text (glyphsOf)

/-! ### Tags that keep white space -/

/-- The attributes of the opening tag of a text element. -/
def attributesOf (opening : List Char) : List Xml.AttributeItem :=
  Xml.attributeItems [] (glyphsOf ((opening.drop textOpening.length).dropLast))

/-- An opening tag is well formed: it holds attributes of distinct names, and nothing else. -/
def HasSoundAttributes (opening : List Char) : Prop :=
  .malformed ∉ attributesOf opening

/-- What an attribute says about white space, if it is the one that does; its value may stand for no
text. -/
def spaceText? : Xml.AttributeItem → Option (Option String)
  | .sound a => if a.name = glyphsOf spaceName then some a.text? else none
  | .malformed => none

/-- White space counts in an element with this opening tag: the tag is well formed, and has one
attribute for white space, which says so. -/
def KeepsSpace (opening : List Char) : Prop :=
  HasSoundAttributes opening ∧ (attributesOf opening).filterMap spaceText? = [some "preserve"]

instance (opening : List Char) : Decidable (HasSoundAttributes opening) :=
  inferInstanceAs (Decidable (_ ∉ _))

instance (opening : List Char) : Decidable (KeepsSpace opening) :=
  inferInstanceAs (Decidable (_ ∧ _))

theorem attributesOf_opening (x : List Char) :
    attributesOf (textOpening ++ x ++ ['>']) = Xml.attributeItems [] (glyphsOf x) := by
  rw [attributesOf, List.append_assoc, List.drop_left, List.dropLast_concat]

theorem KeepsSpace.isInfix {x : List Char} (h : KeepsSpace (textOpening ++ x ++ ['>'])) :
    spaceName <:+: textOpening ++ x ++ ['>'] := by
  have hmem : some "preserve"
      ∈ (attributesOf (textOpening ++ x ++ ['>'])).filterMap spaceText? := by
    rw [h.2]
    exact List.mem_singleton_self _
  obtain ⟨item, hitem, htext⟩ := List.mem_filterMap.1 hmem
  rw [attributesOf_opening] at hitem
  cases item with
  | malformed => cases htext
  | sound a =>
    rw [spaceText?] at htext
    split at htext
    · next hname =>
      have hspace : HasSpaceAttribute x := ⟨a, hitem, hname⟩
      exact hspace.isInfix.trans ⟨textOpening, ['>'], rfl⟩
    · cases htext

/-- A tag without the name gains the attribute, which counts if the tag could be read before. -/
theorem keepsSpace_spacing_iff {x : List Char} (hname : ¬spaceName <:+: textOpening ++ x ++ ['>']) :
    KeepsSpace (textOpening ++ x ++ spacing ++ ['>'])
      ↔ HasSoundAttributes (textOpening ++ x ++ ['>']) := by
  have hother (a : Xml.Attribute) (ha : .sound a ∈ Xml.attributeItems [] (glyphsOf x)) :
      a.name ≠ glyphsOf spaceName := fun h =>
    hname ((HasSpaceAttribute.isInfix ⟨a, ha, h⟩).trans ⟨textOpening, ['>'], rfl⟩)
  have hafter : attributesOf (textOpening ++ x ++ spacing ++ ['>'])
      = Xml.attributeItems [] (glyphsOf x ++ glyphsOf spacing) := by
    rw [List.append_assoc textOpening, attributesOf_opening, glyphsOf, List.map_append]
    rfl
  rw [HasSoundAttributes, attributesOf_opening]
  constructor
  · rintro ⟨hsound, -⟩ hmem
    refine hsound ?_
    rw [hafter]
    exact Xml.malformed_mem_append_spacing hmem
  · intro hsound
    have hitems := Xml.attributeItems_append_spacing hsound hother List.not_mem_nil
    refine ⟨?_, ?_⟩
    · rw [HasSoundAttributes, hafter, hitems, List.mem_append, not_or]
      exact ⟨hsound, by simp⟩
    · have hnone : (Xml.attributeItems [] (glyphsOf x)).filterMap spaceText? = [] := by
        rw [List.filterMap_eq_nil_iff]
        intro item hitem
        cases item with
        | malformed => rfl
        | sound a => exact if_neg (hother a hitem)
      rw [hafter, hitems, List.filterMap_append, hnone]
      decide +kernel

/-! ### Elements with a new content -/

theorem Regathered.keepsSpace_iff {opening content opening' content' : List Char}
    (h : Regathered (.element opening content) (.element opening' content'))
    (hne : content ≠ content') :
    KeepsSpace opening' ↔
      KeepsSpace opening ∨ HasSoundAttributes opening ∧ ¬spaceName <:+: opening := by
  cases h with
  | unchanged => exact absurd rfl hne
  | declared _ hname => exact (or_iff_left fun h => h.2 hname).symm
  | gains _ hname =>
    rw [keepsSpace_spacing_iff hname, or_iff_right fun h => hname h.isInfix, and_iff_left hname]

/-- Elements are located in step, whatever their places. -/
theorem forall₂_locateElements {cs ds : List Chunk} (h : List.Forall₂ Regathered cs ds)
    (place place' : Nat) :
    List.Forall₂ (fun e e' => Regathered (.element e.opening.value e.content.value)
        (.element e'.opening.value e'.content.value))
      (locateElements place cs) (locateElements place' ds) := by
  induction h generalizing place place' with
  | nil => exact .nil
  | cons hc _ ih =>
    cases hc with
    | char c => exact ih _ _
    | unchanged => exact .cons (.unchanged _ _) (ih _ _)
    | declared hne hname => exact .cons (.declared hne hname) (ih _ _)
    | gains hne hname => exact .cons (.gains hne hname) (ih _ _)

/-- **Where white space that moves is kept.** An element with a new content keeps its white space
exactly when its tag said so before, or was well formed and mentioned no `xml:space`. -/
theorem keepsSpace_gatherPart_iff (bound : UInt64) {s : List Char}
    (hangle : ∀ content ∈ textContents s, '<' ∉ content) :
    List.Forall₂ (fun e e' => e.content.value ≠ e'.content.value →
        (KeepsSpace e'.opening.value ↔ KeepsSpace e.opening.value ∨
          HasSoundAttributes e.opening.value ∧ ¬spaceName <:+: e.opening.value))
      (elementsIn s) (elementsIn (gatherPart (windowSize bound) s)) := by
  have hchunks : List.Forall₂ Regathered (chunks s) (chunks (gatherPart (windowSize bound) s)) :=
    forall₂_chunks_withContents (length_gather _ _) (notMem_of_mem_gather hangle _)
  exact (forall₂_locateElements hchunks 0 0).imp fun _ _ h => h.keepsSpace_iff

/-- One span over five elements: a tag without attributes, one with another attribute, one that
keeps white space, one that does not, and one that ends in a value. -/
theorem keepsSpace_gatherPart_iff_tags :
    let s := "<w:t>\x7ba</w:t><w:t w:x=\"1\">b</w:t><w:t xml:space='preserve'> c</w:t>".toList
      ++ "<w:t xml:space=\"default\">d</w:t><w:t a=\"1>2\">e\x7d</w:t>".toList
    let after := gatherPart (windowSize 256) s
    (∀ content ∈ textContents s, '<' ∉ content) ∧
      List.Forall₂ (fun e e' => e.content.value ≠ e'.content.value)
        (elementsIn s) (elementsIn after) ∧
      (elementsIn after).map (fun e => decide (KeepsSpace e.opening.value))
        = [true, true, true, false, false] ∧
      List.Forall₂ (fun e e' => e.content.value ≠ e'.content.value →
          (KeepsSpace e'.opening.value ↔ KeepsSpace e.opening.value ∨
            HasSoundAttributes e.opening.value ∧ ¬spaceName <:+: e.opening.value))
        (elementsIn s) (elementsIn after) := by
  intro s after
  have hangle : ∀ content ∈ textContents s, '<' ∉ content := by decide +kernel
  exact ⟨hangle, by decide +kernel, by decide +kernel, keepsSpace_gatherPart_iff 256 hangle⟩

/-- A tag that says `default` still says so when white space has moved into its element. -/
theorem not_keepsSpace_default :
    let s := "<w:t>Hi \x7bna</w:t><w:t xml:space=\"default\">me\x7d there</w:t>".toList
    let after := gatherPart (windowSize 256) s
    (∀ content ∈ textContents s, '<' ∉ content) ∧
      after = "<w:t xml:space=\"preserve\">Hi \x7bname\x7d</w:t>".toList
        ++ "<w:t xml:space=\"default\"> there</w:t>".toList ∧
      ¬List.Forall₂ (fun e e' => e.content.value ≠ e'.content.value →
          KeepsSpace e'.opening.value) (elementsIn s) (elementsIn after) := by
  decide +kernel

end MailMerge.Markup
