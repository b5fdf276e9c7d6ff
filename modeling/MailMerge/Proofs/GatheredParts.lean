import MailMerge.Proofs.Listings
import MailMerge.Proofs.Passages
import MailMerge.Proofs.Untagged

/-!
# What gathering changes in a part

A part that has been gathered is read as text elements again: there are as many, with the gathered
contents, and what stands between is as it was (`forall₂_chunks_withContents`). The opening tag of
an element whose content has changed says that white space counts, and gains an attribute for this
unless it has one already.

Whether it has one is decided by a search for characters: `xml:space` anywhere in the tag will do.
Where it stands in the value of another attribute, the tag gains nothing, and white space at the
ends of the new content may be lost (`gatherPart_frame`, `not_gains_quoted`).
-/

namespace MailMerge.Markup

open MailMerge.Text (glyphsOf)

/-- The name of the attribute that says whether white space counts. -/
def spaceName : List Char := "xml:space".toList

/-- An opening tag has the attribute for white space, given the text after its name. -/
def HasSpaceAttribute (x : List Char) : Prop :=
  ∃ a, .sound a ∈ Xml.attributeItems [] (glyphsOf x) ∧ a.name = glyphsOf spaceName

/-- A chunk of a part, and what becomes of it when the part is gathered. -/
inductive Regathered : Chunk → Chunk → Prop
  | char (c : Char) : Regathered (.char c) (.char c)
  | unchanged (opening content : List Char) :
    Regathered (.element opening content) (.element opening content)
  | declared {opening content content' : List Char} (hne : content' ≠ content)
    (hname : spaceName <:+: opening) :
    Regathered (.element opening content) (.element opening content')
  | gains {x content content' : List Char} (hne : content' ≠ content)
    (hname : ¬spaceName <:+: textOpening ++ x ++ ['>']) :
    Regathered (.element (textOpening ++ x ++ ['>']) content)
      (.element (textOpening ++ x ++ spacing ++ ['>']) content')

theorem regathered_self (c : Chunk) : Regathered c c := by
  cases c with
  | char c => exact .char c
  | element opening content => exact .unchanged opening content

theorem keepingSpace_of_isInfix {opening : List Char} (h : spaceName <:+: opening) :
    keepingSpace opening = opening :=
  if_pos (contains_iff_isInfix.2 h)

theorem keepingSpace_of_not_isInfix {x : List Char}
    (h : ¬spaceName <:+: textOpening ++ x ++ ['>']) :
    keepingSpace (textOpening ++ x ++ ['>']) = textOpening ++ x ++ spacing ++ ['>'] := by
  have hnot : ¬Text.contains spaceName (textOpening ++ x ++ ['>']) = true :=
    fun hcontains => h (contains_iff_isInfix.1 hcontains)
  refine (if_neg hnot).trans ?_
  rw [List.dropLast_concat, List.append_assoc _ spacing]
  rfl

/-- What becomes of an element with a new content. -/
theorem regathered_element (x content new : List Char) :
    Regathered (.element (textOpening ++ x ++ ['>']) content)
      (.element (if new = content then textOpening ++ x ++ ['>']
        else keepingSpace (textOpening ++ x ++ ['>'])) new) := by
  by_cases hnew : new = content
  · rw [if_pos hnew, hnew]
    exact .unchanged _ _
  · rw [if_neg hnew]
    by_cases hname : spaceName <:+: textOpening ++ x ++ ['>']
    · rw [keepingSpace_of_isInfix hname]
      exact .declared hnew hname
    · rw [keepingSpace_of_not_isInfix hname]
      exact .gains hnew hname

theorem start_renewed {x old new : List Char} (hx : IsAttributes x) (hlast : x.getLast? ≠ some '/')
    (hnew : '<' ∉ new) (rest : List Char) :
    let opening := if new = old then textOpening ++ x ++ ['>']
      else keepingSpace (textOpening ++ x ++ ['>'])
    start (opening ++ (new ++ (textClosing ++ rest)))
      = .element opening new (textClosing ++ rest) := by
  intro opening
  have hopening : opening = textOpening ++ x ++ ['>'] ∨
      opening = textOpening ++ (x ++ spacing) ++ ['>'] := by
    by_cases hsame : new = old
    · exact .inl (if_pos hsame)
    · refine (keepingSpace_eq (textOpening ++ x ++ ['>'])).imp (if_neg hsame).trans fun h => ?_
      rw [List.dropLast_concat] at h
      rw [← List.append_assoc, List.append_assoc _ spacing]
      exact (if_neg hsame).trans h
  rcases hopening with h | h
  · rw [h]
    exact start_opening_append hx hlast hnew rest
  · obtain ⟨hx', hlast'⟩ := hx.append_spacing
    rw [h]
    exact start_opening_append hx' hlast' hnew rest

/-- A part with other contents is read as text elements again. -/
theorem forall₂_chunks_withContents {s : List Char} {new : List (List Char)}
    (hlength : new.length = (textContents s).length) (hangle : ∀ content ∈ new, '<' ∉ content) :
    List.Forall₂ Regathered (chunks s) (chunks (withContents (chunks s) new)) := by
  have hself (cs : List Chunk) : List.Forall₂ Regathered cs cs :=
    List.forall₂_same.2 fun c _ => regathered_self c
  -- on the length, since an element is passed over as a whole
  induction hn : s.length using Nat.strongRecOn generalizing s new with
  | ind n ihn =>
    subst hn
    cases s with
    | nil =>
      rw [textContents_nil] at hlength
      obtain rfl := List.eq_nil_of_length_eq_zero hlength
      rw [withContents_nil textContents_nil]
      exact hself _
    | cons c s =>
      cases hstart : start (c :: s) with
      | plain =>
        rw [textContents_of_plain hstart] at hlength
        have hwith : withContents (chunks (c :: s)) new = c :: withContents (chunks s) new := by
          rw [chunks_of_plain hstart]
          rfl
        have htake : (c :: withContents (chunks s) new).take 5 = (c :: s).take 5 := by
          rw [List.take_succ_cons, List.take_succ_cons, take_withContents]
        rw [hwith, chunks_of_plain hstart, chunks_of_plain (start_eq_plain_of_take hstart htake)]
        exact .cons (.char c) (ihn s.length (by simp) hlength hangle rfl)
      | empty tag after =>
        rw [textContents_of_empty hstart] at hlength
        have hs := congrArg List.length (eq_append_of_start_empty hstart)
        have hpos := List.length_pos_iff.2 (tag_ne_nil_of_start_empty hstart)
        rw [List.length_append] at hs
        rw [chunks_of_empty hstart, withContents_map_char_append,
          chunks_of_empty (start_empty_append hstart _)]
        exact List.rel_append (hself _) (ihn after.length (by omega) hlength hangle rfl)
      | element opening old after =>
        rw [textContents_of_element hstart] at hlength
        cases new with
        | nil => cases hlength
        | cons content new =>
          obtain ⟨x, after', rfl, hx, hlast, rfl⟩ := opening_of_start hstart
          have hs := congrArg List.length (eq_append_of_start_element hstart)
          simp only [List.length_append, List.length_cons, List.length_nil] at hs
          rw [textContents_closing_append] at hlength
          rw [List.forall_mem_cons] at hangle
          have hrest := ihn after'.length (by rw [List.length_cons]; omega)
            (Nat.succ.inj hlength) hangle.2 rfl
          rw [chunks_of_element hstart, withContents, chunks_closing_append,
            withContents_map_char_append, List.append_assoc _ content,
            chunks_of_element (start_renewed hx hlast hangle.1 _), chunks_closing_append]
          exact .cons (regathered_element x old content) (List.rel_append (hself _) hrest)
      | unclosed =>
        rw [textContents_of_unclosed hstart] at hlength
        obtain rfl := List.eq_nil_of_length_eq_zero hlength
        rw [withContents_nil (textContents_of_unclosed hstart)]
        exact hself _

/-! ### Attributes and what is searched for -/

/-- The name of an attribute starts the text it is read from. -/
theorem of_attribute? {s after : List Text.Glyph} {a : Xml.Attribute}
    (h : Xml.attribute? s = some (a, after)) : a.name <+: s ∧ after <:+ s := by
  unfold Xml.attribute? at h
  split at h
  · cases h
  · next first rest =>
    dsimp only at h
    split at h
    · next afterSign hsign =>
      split at h
      · next quote afterQuote hquote =>
        split at h
        · obtain ⟨⟨value, r⟩, hbreak, he⟩ := Option.map_eq_some_iff.1 h
          obtain ⟨rfl, rfl⟩ := Prod.mk.inj he
          refine ⟨List.cons_prefix_cons.2 ⟨rfl, List.takeWhile_prefix _⟩, ?_⟩
          -- what follows is what is left behind the name, the sign and the value
          have hvalue : r <:+ afterQuote :=
            ⟨value ++ [quote], by rw [Text.eq_append_of_breakAt? hbreak, List.append_assoc]⟩
          have hafterQuote : afterQuote <:+ afterSign :=
            (List.suffix_cons quote afterQuote).trans (hquote ▸ List.dropWhile_suffix _)
          have hafterSign : afterSign <:+ rest :=
            (List.suffix_cons _ afterSign).trans
              ((hsign ▸ List.dropWhile_suffix _).trans (List.dropWhile_suffix _))
          exact ((hvalue.trans hafterQuote).trans hafterSign).trans (List.suffix_cons first rest)
        · cases h
      · cases h
    · cases h

/-- The names of attributes stand in the text they are read from. -/
theorem isInfix_of_mem_attributeItems {seen : List (List Text.Glyph)} {s : List Text.Glyph}
    {a : Xml.Attribute} (h : .sound a ∈ Xml.attributeItems seen s) : a.name <:+: s := by
  fun_induction Xml.attributeItems seen s with
  | case1 => cases h
  | case2 => simp at h
  | case3 => simp at h
  | case4 seen s g rest hs b after hattribute _ _ ih =>
    obtain ⟨hname, hafter⟩ := of_attribute? hattribute
    have hdropped : g :: rest <:+ s := hs ▸ List.dropWhile_suffix _
    rcases List.mem_cons.1 h with hb | h
    · obtain rfl := Xml.AttributeItem.sound.inj hb
      exact hname.isInfix.trans hdropped.isInfix
    · exact (ih h).trans (hafter.trans hdropped).isInfix

/-- Where the attribute stands, its name is found. -/
theorem HasSpaceAttribute.isInfix {x : List Char} (h : HasSpaceAttribute x) : spaceName <:+: x := by
  obtain ⟨a, ha, hname⟩ := h
  obtain ⟨u, v, huv⟩ := isInfix_of_mem_attributeItems ha
  rw [hname] at huv
  obtain ⟨front, back, rfl, hfront, -⟩ := List.map_eq_append_iff.1 huv.symm
  obtain ⟨before, name, rfl, -, hsame⟩ := List.map_eq_append_iff.1 hfront
  obtain rfl := Text.glyphsOf_inj.1 hsame
  exact ⟨before, back, rfl⟩

/-! ### The law -/

/-- **What gathering changes in a part.** It is read as the same elements with gathered contents and
is changed only there and in the opening tags of elements whose contents are new: these gain an
attribute, unless its name stands in them, as it does when they have it. The part stays as it is
exactly when every span lies in one element, and so it does when it is gathered again. -/
theorem gatherPart_frame {bound : UInt64} (hbound : bound.toNat < 2 ^ 63) {s : List Char}
    (hangle : ∀ content ∈ textContents s, '<' ∉ content) :
    let window := windowSize bound
    let after := gatherPart window s
    (textContents after = gather window (textContents s) ∧
        (textContents after).length = (textContents s).length) ∧
      List.Forall₂ Regathered (chunks s) (chunks after) ∧
      (∀ x, HasSpaceAttribute x → spaceName <:+: textOpening ++ x ++ ['>']) ∧
      (after = s ↔ SpansWhole bound (textContents s)) ∧
      gatherPart window after = after := by
  intro window after
  have hcontents : textContents after = gather window (textContents s) :=
    textContents_gatherPart window hangle
  have hlength : (gather window (textContents s)).length = (textContents s).length :=
    length_gather window (textContents s)
  refine ⟨⟨hcontents, by rw [hcontents, hlength]⟩, forall₂_chunks_withContents hlength
    (notMem_of_mem_gather hangle window), fun x hx => ?_, ?_, ?_⟩
  · exact hx.isInfix.trans ⟨textOpening, ['>'], rfl⟩
  · rw [← gather_eq_self_iff hbound]
    exact ⟨gather_textContents_of_eq_self hangle, gatherPart_eq_self⟩
  · refine gatherPart_eq_self ?_
    rw [hcontents, gather_gather]

/-- Spans over two and three elements, a tag that has the attribute and one that has not. -/
theorem gatherPart_frame_split :
    let s := "<w:p><w:t>\x7ba</w:t><w:t xml:space='preserve'> b\x7d \x7bc</w:t>".toList
      ++ "<w:t/><w:t w:x=\"1\">c</w:t><w:t>\x7d</w:t><w:t>d</w:t></w:p>".toList
    let after := gatherPart (windowSize 256) s
    (256 : UInt64).toNat < 2 ^ 63 ∧ (∀ content ∈ textContents s, '<' ∉ content) ∧
      after = "<w:p><w:t xml:space=\"preserve\">\x7ba b\x7d</w:t>".toList
        ++ "<w:t xml:space='preserve'> \x7bcc\x7d</w:t><w:t/>".toList
        ++ "<w:t w:x=\"1\" xml:space=\"preserve\"></w:t>".toList
        ++ "<w:t xml:space=\"preserve\"></w:t><w:t>d</w:t></w:p>".toList ∧
      (textContents after).length = 5 ∧ List.Forall₂ Regathered (chunks s) (chunks after) ∧
      ¬SpansWhole 256 (textContents s) ∧ gatherPart (windowSize 256) after = after := by
  intro s after
  have hbound : (256 : UInt64).toNat < 2 ^ 63 := by decide
  have hangle : ∀ content ∈ textContents s, '<' ∉ content := by decide +kernel
  obtain ⟨⟨-, hlength⟩, hchunks, -, hsame, hagain⟩ := gatherPart_frame hbound hangle
  refine ⟨hbound, hangle, by decide +kernel, hlength.trans (by decide +kernel), hchunks, ?_, hagain⟩
  exact fun hwhole => absurd (hsame.2 hwhole) (by decide +kernel)

/-- The name in the value of another attribute: the content is new, and the tag gains nothing. -/
theorem not_gains_quoted :
    let x := " a=\"xml:space\"".toList
    let s := textOpening ++ x ++ ['>'] ++ "\x7ba</w:t><w:t>b\x7d</w:t>".toList
    let after := gatherPart (windowSize 256) s
    (∀ content ∈ textContents s, '<' ∉ content) ∧ ¬HasSpaceAttribute x ∧
      (chunks s).head? = some (.element (textOpening ++ x ++ ['>']) "\x7ba".toList) ∧
      (chunks after).head? = some (.element (textOpening ++ x ++ ['>']) "\x7bab\x7d".toList) := by
  refine ⟨by decide +kernel, ?_, by decide +kernel, by decide +kernel⟩
  rintro ⟨a, ha, hname⟩
  have hitems : Xml.attributeItems [] (glyphsOf " a=\"xml:space\"".toList)
      = [.sound ⟨glyphsOf ['a'], glyphsOf spaceName⟩] := by decide +kernel
  rw [hitems, List.mem_singleton] at ha
  obtain rfl := Xml.AttributeItem.sound.inj ha
  exact absurd hname (by decide +kernel)

end MailMerge.Markup
