import MailMerge.Proofs.Alignment
import MailMerge.Proofs.Elements

/-!
# Gathered parts and their visible text

How a text is split over text elements does not matter: after spans are gathered, expanding a part
and reading its visible text is the same as expanding the visible text alone
(`visibleText_expand_gatherPart`).

The part and its visible text are aligned: the one holds, between the characters of the other, the
markup from one text element to the next. Such a stretch starts with a closing tag and leads into
the next element, so it may be copied or dropped with what is around it, and the text is still read
as text elements. When loops and conditionals begin in one element and end in another, this is what
happens to the markup in between.
-/

namespace MailMerge

/-! ### Pieces are dealt out whole -/

theorem sum_consume {count : Nat} {sizes : List Nat} (h : count ≤ sizes.sum) :
    (consume count sizes).sum = sizes.sum - count := by
  induction sizes generalizing count with
  | nil => simp [consume]
  | cons size sizes ih =>
    rw [List.sum_cons] at h
    rw [consume]
    split
    · simp only [List.sum_cons]
      omega
    · rw [List.sum_cons, List.sum_cons, ih (by omega)]
      omega

theorem length_text_pos (p : Piece) : 0 < p.text.length := by
  cases p <;> simp [Piece.text]

theorem sum_take_consume (count : Nat) (sizes : List Nat) (i : Nat) :
    ((consume count sizes).take i).sum = (sizes.take i).sum - count := by
  induction sizes generalizing count i with
  | nil => simp [consume]
  | cons size sizes ih =>
    cases i with
    | zero => simp
    | succ i =>
      rw [consume]
      split
      · simp only [List.take_succ_cons, List.sum_cons]
        omega
      · simp only [List.take_succ_cons, List.sum_cons, ih]
        omega

/-- Each piece starts in the room of the fragment whose group it is in. -/
def StartIn (groups : List (List Piece)) (sizes : List Nat) : Prop :=
  ∀ ⦃i before p after⦄, groups[i]? = some (before ++ p :: after) →
    (sizes.take i).sum ≤ (((groups.take i).flatten ++ before).flatMap Piece.text).length ∧
      (((groups.take i).flatten ++ before).flatMap Piece.text).length < (sizes.take (i + 1)).sum

/-- Each fragment gets a group of pieces, in order. -/
theorem exists_deal_eq (ps : List Piece) (sizes : List Nat)
    (h : sizes.sum = (ps.flatMap Piece.text).length) :
    ∃ groups : List (List Piece), groups.flatten = ps ∧ groups.length = sizes.length ∧
      deal ps sizes = (groups.map fun group => group.flatMap Piece.text) ∧
      StartIn groups sizes := by
  fun_induction deal ps sizes with
  | case1 ps =>
    cases ps with
    | nil => exact ⟨[], rfl, rfl, rfl, fun _ _ _ _ hgroup => by cases hgroup⟩
    | cons p ps =>
      have hpos := length_text_pos p
      simp only [List.sum_nil, List.flatMap_cons, List.length_append] at h
      omega
  | case2 size sizes ih =>
    obtain ⟨groups, hflat, hlength, hdeal, -⟩ := ih (by simp at h ⊢; omega)
    refine ⟨[] :: groups, by simpa using hflat, by simpa using hlength, by simp [hdeal],
      fun i before p after hgroup => ?_⟩
    have hmem : p ∈ ([] :: groups).flatten :=
      List.mem_flatten.2 ⟨_, List.mem_of_getElem? hgroup, by simp⟩
    rw [List.flatten_cons, hflat] at hmem
    cases hmem
  | case3 p ps sizes ih =>
    obtain ⟨groups, hflat, hlength, hdeal, hstart⟩ := ih (by simpa using h)
    refine ⟨[] :: groups, by simpa using hflat, by simpa using hlength, by simp [hdeal],
      fun i before q after hgroup => ?_⟩
    cases i with
    | zero => simp at hgroup
    | succ i => simpa using hstart hgroup
  | case4 p ps size sizes ih =>
    rw [List.flatMap_cons, List.length_append, Nat.succ_eq_add_one] at h
    -- the piece goes to this fragment, and takes room from it and from the ones behind
    have hroom : p.text.length ≤ ((size + 1) :: sizes).sum := by
      omega
    obtain ⟨groups, hflat, hlength, hdeal, hstart⟩ := ih (by rw [sum_consume hroom, h]; omega)
    rw [length_consume] at hlength
    cases groups with
    | nil => cases hlength
    | cons group groups =>
      refine ⟨(p :: group) :: groups, by simpa using hflat, hlength, by simp [hdeal, prepend],
        fun i before q after hgroup => ?_⟩
      cases i with
      | zero =>
        cases before with
        | nil => simp
        | cons _ before =>
          simp only [List.getElem?_cons_zero, Option.some.injEq, List.cons_append,
            List.cons.injEq] at hgroup
          obtain ⟨rfl, hgroup⟩ := hgroup
          have hlater := @hstart 0 before q after (by rw [hgroup]; rfl)
          rw [sum_take_consume, sum_take_consume] at hlater
          simp only [List.take_zero, List.flatten_nil, List.nil_append, List.flatMap_cons,
            List.length_append, List.sum_nil, Nat.succ_eq_add_one] at hlater ⊢
          omega
      | succ i =>
        have hlater := @hstart (i + 1) before q after hgroup
        rw [sum_take_consume, sum_take_consume] at hlater
        simp only [List.take_succ_cons, List.flatten_cons, List.cons_append, List.append_assoc,
          List.flatMap_cons, List.length_append, List.sum_cons, Nat.succ_eq_add_one] at hlater ⊢
        omega

theorem flatMap_flatten {α β : Type} (groups : List (List α)) (f : α → List β) :
    groups.flatten.flatMap f = groups.flatMap fun group => group.flatMap f := by
  have hid : groups.flatten = groups.flatMap id := List.flatMap_id.symm
  rw [hid, List.flatMap_assoc]
  rfl

/-- Gathering cuts the pieces of the whole text into groups, by the fragments in which they
start. -/
theorem exists_startIn_gather (window : Nat) (fragments : List (List Char)) :
    ∃ groups : List (List Piece), groups.flatten = pieces window fragments.flatten ∧
      groups.length = fragments.length ∧
      (gather window fragments = groups.map fun group => group.flatMap Piece.text) ∧
      StartIn groups (fragments.map List.length) := by
  have hsum : (fragments.map List.length).sum
      = ((pieces window fragments.flatten).flatMap Piece.text).length := by
    rw [text_pieces, List.length_flatten]
  obtain ⟨groups, hflat, hlength, hdeal, hstart⟩ := exists_deal_eq _ _ hsum
  exact ⟨groups, hflat, by rw [hlength, List.length_map], hdeal, hstart⟩

/-- Gathering cuts the pieces of the whole text into groups. -/
theorem exists_pieces_gather_eq (window : Nat) (fragments : List (List Char)) :
    ∃ groups : List (List Piece), groups.flatten = pieces window fragments.flatten ∧
      groups.length = fragments.length ∧
      gather window fragments = groups.map fun group => group.flatMap Piece.text := by
  obtain ⟨groups, hflat, hlength, hgather, -⟩ := exists_startIn_gather window fragments
  exact ⟨groups, hflat, hlength, hgather⟩

/-- Gathering cuts the tokens of the whole text into groups. -/
theorem exists_gather_eq (window : Nat) (fragments : List (List Char)) :
    ∃ groups : List (List Token), groups.flatten = tokens window fragments.flatten ∧
      gather window fragments = groups.map fun group => group.flatMap Token.text := by
  obtain ⟨groups, hflat, -, hgather⟩ := exists_pieces_gather_eq window fragments
  refine ⟨groups.map fun group => group.flatMap Piece.tokens, ?_, ?_⟩
  · rw [tokens, ← hflat, flatMap_flatten, List.flatMap_def]
  · rw [hgather, List.map_map]
    refine List.map_congr_left fun group _ => ?_
    rw [Function.comp_apply, List.flatMap_assoc]
    simp only [text_tokens_piece]

theorem length_gather (window : Nat) (fragments : List (List Char)) :
    (gather window fragments).length = fragments.length := by
  obtain ⟨groups, -, hlength, hgather⟩ := exists_pieces_gather_eq window fragments
  rw [hgather, List.length_map, hlength]

/-! ### Texts without tags -/

/-- A text holds no tags. -/
def Tagless (window : Nat) (s : List Char) : Prop :=
  ∀ t, .tag t ∉ tokens window s

/-- A text is read character by character, whatever follows. -/
def Inert (window : Nat) (s : List Char) : Prop :=
  ∀ r, tokens window (s ++ r) = s.map .char ++ tokens window r

variable {window : Nat}

theorem Tagless.tokens_eq {s : List Char} (h : Tagless window s) :
    tokens window s = s.map .char := by
  have hchars : ∀ ts : List Token, (∀ t, .tag t ∉ ts) →
      ts = (ts.flatMap Token.text).map .char := by
    intro ts hts
    induction ts with
    | nil => rfl
    | cons t ts ih =>
      have hrest := ih fun u hu => hts u (List.mem_cons_of_mem _ hu)
      cases t with
      | char c => exact congrArg (Token.char c :: ·) hrest
      | tag u => exact absurd List.mem_cons_self (hts u)
  have htokens := hchars _ h
  rwa [text_tokens] at htokens

instance : DecidablePred (Tagless window) := fun s =>
  decidable_of_iff (tokens window s = s.map .char)
    ⟨fun h t ht => by simp [h] at ht, Tagless.tokens_eq⟩

theorem tagless_append_separator {d : Char} (hd : Tag.isSeparator d = true) {a b : List Char} :
    Tagless window (a ++ d :: b) ↔ Tagless window a ∧ Tagless window b := by
  simp only [Tagless, tokens_append_separator hd, List.mem_append, List.mem_cons, reduceCtorEq,
    false_or, not_or, forall_and]

theorem inert_of_braceFree {s : List Char} (h : BraceFree s) : Inert window s :=
  tokens_braceFree_append h

/-- A text without tags that is cut off at a character that stands in no tag. -/
theorem Tagless.inert {a x : List Char} (h : Tagless window a) {d : Char}
    (hd : Tag.isSeparator d = true) (hx : BraceFree x) : Inert window (a ++ d :: x) := by
  intro r
  rw [List.append_assoc, List.cons_append, tokens_append_separator hd, h.tokens_eq,
    tokens_braceFree_append hx]
  simp

theorem Inert.append {a b : List Char} (ha : Inert window a) (hb : Inert window b) :
    Inert window (a ++ b) := by
  intro r
  rw [List.append_assoc, ha, hb, List.map_append, List.append_assoc]

/-! ### A part beside its visible text -/

open Markup

/-- Where a part is read: before its first text element, in the content of one, or behind the last
one. -/
inductive Stage where
  | before
  | inside
  | after
  deriving DecidableEq, Repr

/-- What a part holds, and its visible text beside it: the same characters in contents, and markup
beside nothing. -/
inductive Between (window : Nat) : Stage → Stage → List Char → List Char → Prop
  | shared {a : List Char} (hangle : '<' ∉ a) (hbrace : BraceFree a) :
    Between window .inside .inside a a
  | lead {o : List Char} (h : Markup.Leads o) (hi : Inert window o) :
    Between window .before .inside o []
  | gap {o : List Char} (h : Markup.Leads o) (hi : Inert window o) :
    Between window .inside .inside (textClosing ++ o) []
  | tail {e : List Char} (h : textContents e = []) (ht : Tagless window e) :
    Between window .inside .after (textClosing ++ e) []
  | whole {e : List Char} (h : textContents e = []) (ht : Tagless window e) :
    Between window .before .after e []

/-- A part beside its visible text. -/
def besideVisible (window : Nat) : Alignment Stage where
  here := .inside
  tag t := t.Fits window ∧ (Token.tag t).isMark = false
  block := Between window

namespace Aligned

variable {q : Stage} {us vs : List Token}

theorem eq_nil_of_after (h : Aligned (besideVisible window) .after q us vs) :
    us = [] ∧ vs = [] := by
  generalize hp : Stage.after = p at h
  cases h with
  | nil => exact ⟨rfl, rfl⟩
  | tag => cases hp
  | block hab =>
    subst hp
    cases hab

/-- Both texts are read back. -/
theorem tokens_eq {p : Stage} (h : Aligned (besideVisible window) p .after us vs) :
    tokens window (us.flatMap Token.text) = us ∧ tokens window (vs.flatMap Token.text) = vs := by
  generalize hq : Stage.after = q at h
  induction h with
  | nil => simp
  | tag ht _ ih =>
    obtain ⟨hu, hv⟩ := ih hq
    rw [List.flatMap_cons, List.flatMap_cons]
    exact ⟨by rw [Token.text, tokens_text_append ht.1, hu],
      by rw [Token.text, tokens_text_append ht.1, hv]⟩
  | @block p p' q a b us vs hab h ih =>
    obtain ⟨hu, hv⟩ := ih hq
    subst hq
    have hclosing : Inert window textClosing := inert_of_braceFree (by decide)
    rw [flatMap_text_map_char_append, flatMap_text_map_char_append]
    cases hab with
    | shared _ hbrace =>
      exact ⟨by rw [inert_of_braceFree hbrace, hu], by rw [inert_of_braceFree hbrace, hv]⟩
    | lead _ hi => exact ⟨by rw [hi, hu], hv⟩
    | gap _ hi => exact ⟨by rw [hclosing.append hi, hu], hv⟩
    | tail _ ht =>
      obtain ⟨rfl, rfl⟩ := eq_nil_of_after h
      rw [List.flatMap_nil, List.append_nil, hclosing, ht.tokens_eq]
      simp
    | whole _ ht =>
      obtain ⟨rfl, rfl⟩ := eq_nil_of_after h
      rw [List.flatMap_nil, List.append_nil, ht.tokens_eq]
      simp

/-- The visible text of the one text is the other. -/
theorem visibleText_eq {p : Stage} (h : Aligned (besideVisible window) p .after us vs) :
    (p = .inside → ∃ content rest, us.flatMap Token.text = content ++ (textClosing ++ rest) ∧
        '<' ∉ content ∧ content ++ (textContents rest).flatten = vs.flatMap Token.text) ∧
      (p = .before → (textContents (us.flatMap Token.text)).flatten = vs.flatMap Token.text) := by
  -- from the end, where the contents that are still open are known
  generalize hq : Stage.after = q at h
  induction h with
  | nil p =>
    subst hq
    exact ⟨by simp, by simp⟩
  | @tag q t us vs ht _ ih =>
    refine ⟨fun _ => ?_, by simp [besideVisible]⟩
    obtain ⟨content, rest, hus, hcontent, hvs⟩ := (ih hq).1 rfl
    refine ⟨t.text ++ content, rest, ?_, ?_, ?_⟩
    · rw [List.flatMap_cons, hus, List.append_assoc, Token.text]
    · rw [List.mem_append, not_or]
      exact ⟨Tag.notMem_text ht.1.named (by decide), hcontent⟩
    · rw [List.flatMap_cons, List.append_assoc, hvs, Token.text]
  | @block p p' q a b us vs hab h ih =>
    subst hq
    have ih := ih rfl
    rw [flatMap_text_map_char_append, flatMap_text_map_char_append]
    cases hab with
    | shared hangle _ =>
      refine ⟨fun _ => ?_, by simp⟩
      obtain ⟨content, rest, hus, hcontent, hvs⟩ := ih.1 rfl
      refine ⟨a ++ content, rest, by rw [hus, List.append_assoc], ?_,
        by rw [List.append_assoc, hvs]⟩
      rw [List.mem_append, not_or]
      exact ⟨hangle, hcontent⟩
    | lead hleads _ =>
      refine ⟨by simp, fun _ => ?_⟩
      obtain ⟨content, rest, hus, hcontent, hvs⟩ := ih.1 rfl
      rw [hus, hleads content rest hcontent, List.flatten_cons, hvs, List.nil_append]
    | @gap o hleads _ =>
      refine ⟨fun _ => ?_, by simp⟩
      obtain ⟨content, rest, hus, hcontent, hvs⟩ := ih.1 rfl
      refine ⟨[], o ++ us.flatMap Token.text, by simp, by simp, ?_⟩
      rw [hus, hleads content rest hcontent, List.flatten_cons, hvs]
    | @tail e he _ =>
      refine ⟨fun _ => ?_, by simp⟩
      obtain ⟨rfl, rfl⟩ := eq_nil_of_after h
      exact ⟨[], e, by simp, by simp, by simp [he]⟩
    | whole he _ =>
      refine ⟨by simp, fun _ => ?_⟩
      obtain ⟨rfl, rfl⟩ := eq_nil_of_after h
      simp [he]

end Aligned

/-! ### The part that is gathered -/

/-- A woven text stands beside its contents, from its start and behind a closing tag. -/
theorem exists_aligned_of_woven {k t : List Char} {contents : List (List Char)}
    (hwoven : Woven k contents t) (hk : Tagless window k) {groups : List (List Token)}
    (hcontents : contents = groups.map fun group => group.flatMap Token.text)
    (hgroups : ∀ group ∈ groups, Aligned (besideVisible window) .inside .inside group group) :
    (∃ us, us.flatMap Token.text = t ∧
        Aligned (besideVisible window) .before .after us groups.flatten) ∧
      ∃ us, us.flatMap Token.text = textClosing ++ t ∧
        Aligned (besideVisible window) .inside .after us groups.flatten := by
  induction hwoven generalizing groups with
  | @done e he =>
    cases groups with
    | cons => cases hcontents
    | nil =>
      have hwhole : (besideVisible window).block .before .after e [] := Between.whole he hk
      have htail : (besideVisible window).block .inside .after (textClosing ++ e) [] :=
        Between.tail he hk
      exact ⟨⟨_, flatMap_text_map_tokenChar _, .of_block hwhole⟩,
        ⟨_, flatMap_text_map_tokenChar _, .of_block htail⟩⟩
  | @element o o' content k t contents hleads _ ho hend hwoven ih =>
    cases groups with
    | nil => cases hcontents
    | cons group groups =>
      rw [List.map_cons] at hcontents
      obtain ⟨rfl, hrest⟩ := List.cons.inj hcontents
      rw [List.forall_mem_cons] at hgroups
      obtain ⟨a, rfl⟩ := List.getLast?_eq_some_iff.1 hend
      -- the skeleton is cut at the ends of the two tags
      have hclosing : textClosing = "</w:t".toList ++ ['>'] := rfl
      have hcut : a ++ ['>'] ++ (textClosing ++ k) = a ++ '>' :: ("</w:t".toList ++ '>' :: k) := by
        rw [hclosing]
        simp only [List.append_assoc, List.singleton_append]
      rw [hcut, tagless_append_separator (by decide), tagless_append_separator (by decide)] at hk
      obtain ⟨ha, -, hk⟩ := hk
      have hinert : Inert window o' := by
        rcases ho with rfl | rfl
        · exact ha.inert (by decide) braceFree_nil
        · rw [List.dropLast_concat]
          exact ha.inert (x := "xml:space=\"preserve\">".toList) (by decide) (by decide)
      obtain ⟨-, us, hus, halign⟩ := ih hk hrest hgroups.2
      have hgroup := hgroups.1.append halign
      have hlead : (besideVisible window).block .before .inside o' [] := Between.lead hleads hinert
      have hgap : (besideVisible window).block .inside .inside (textClosing ++ o') [] :=
        Between.gap hleads hinert
      rw [List.flatten_cons]
      refine ⟨⟨o'.map .char ++ (group ++ us), ?_, .block hlead hgroup⟩,
        ⟨(textClosing ++ o').map .char ++ (group ++ us), ?_, .block hgap hgroup⟩⟩
      · rw [flatMap_text_map_char_append, List.flatMap_append, hus]
      · rw [flatMap_text_map_char_append, List.flatMap_append, hus, List.append_assoc]

/-- The text of a part that is seen: the contents of its text elements. -/
def visibleText (s : List Char) : List Char :=
  (textContents s).flatten

/-- A part whose tags, none of which marks a row, stand in the contents of its text elements once
these are joined. -/
structure TagsInElements (window : Nat) (s : List Char) : Prop where
  contents : ∀ content ∈ textContents s, '<' ∉ content
  braces : BracesInTags window (visibleText s)
  unmarked : ∀ t ∈ tokens window (visibleText s), t.isMark = false
  outside : Tagless window (skeleton s)

instance : DecidablePred (TagsInElements window) := fun s =>
  decidable_of_iff ((∀ content ∈ textContents s, '<' ∉ content) ∧
      BracesInTags window (visibleText s) ∧
      (∀ t ∈ tokens window (visibleText s), t.isMark = false) ∧ Tagless window (skeleton s))
    ⟨fun h => ⟨h.1, h.2.1, h.2.2.1, h.2.2.2⟩, fun h => ⟨h.1, h.2, h.3, h.4⟩⟩

theorem mem_of_char_mem_tokens {s : List Char} {c : Char} (h : .char c ∈ tokens window s) :
    c ∈ s := by
  rw [← text_tokens window s]
  exact List.mem_flatMap.2 ⟨_, h, List.mem_singleton.2 rfl⟩

/-- A list of tokens beside itself. -/
theorem aligned_self {ts : List Token} (hchar : ∀ c, .char c ∈ ts → c ≠ '<' ∧ isBrace c = false)
    (htag : ∀ t, .tag t ∈ ts → t.Fits window ∧ (Token.tag t).isMark = false) :
    Aligned (besideVisible window) .inside .inside ts ts := by
  induction ts with
  | nil => exact .nil _
  | cons t ts ih =>
    have hts := ih (fun c hc => hchar c (List.mem_cons_of_mem _ hc))
      fun t ht => htag t (List.mem_cons_of_mem _ ht)
    cases t with
    | char c =>
      obtain ⟨hangle, hbrace⟩ := hchar c List.mem_cons_self
      have hab : Between window .inside .inside [c] [c] :=
        .shared (by simpa using Ne.symm hangle) (by simpa [BraceFree] using hbrace)
      exact .block hab hts
    | tag t => exact .tag (htag t List.mem_cons_self) hts

/-- A part that is gathered stands beside its visible text. -/
theorem TagsInElements.aligned {s : List Char} (h : TagsInElements window s) :
    Aligned (besideVisible window) .before .after (tokens window (gatherPart window s))
      (tokens window (visibleText s)) := by
  obtain ⟨groups, hflat, hgather⟩ := exists_gather_eq window (textContents s)
  have hmem : ∀ group ∈ groups, ∀ t ∈ group, t ∈ tokens window (visibleText s) :=
    fun group hg t ht => hflat ▸ List.mem_flatten.2 ⟨group, hg, ht⟩
  have hgroups : ∀ group ∈ groups,
      Aligned (besideVisible window) .inside .inside group group := by
    intro group hg
    refine aligned_self (fun c hc => ⟨?_, h.braces c (hmem group hg _ hc)⟩) fun t ht => ⟨?_, ?_⟩
    · rintro rfl
      obtain ⟨content, hcontent, hin⟩ :=
        List.mem_flatten.1 (mem_of_char_mem_tokens (hmem group hg _ hc))
      exact h.contents content hcontent hin
    · exact fits_of_mem_tokens (hmem group hg _ ht)
    · exact h.unmarked _ (hmem group hg _ ht)
  obtain ⟨⟨us, hus, halign⟩, -⟩ := exists_aligned_of_woven
    (woven_withContents (length_gather window (textContents s))) h.outside hgather hgroups
  rw [hflat] at halign
  rw [gatherPart, ← hus, halign.tokens_eq.1]
  exact halign

/-! ### Data beside themselves -/

/-- What shares its text with itself is alike. -/
theorem alike_self {e : Expansion} (hangle : '<' ∉ e.text) (hbrace : BraceFree e.text) :
    Alike (besideVisible window) .inside .inside e e :=
  ⟨⟨_, _, .of_block (.shared hangle hbrace), (flatMap_text_map_tokenChar _).symm,
    (flatMap_text_map_tokenChar _).symm⟩, rfl⟩

theorem alike_marker {placed : Nat} {e : Expansion} (he : e.text = marker placed) :
    Alike (besideVisible window) .inside .inside e e := by
  have hdigits : ∀ c ∈ decimalDigits placed, c ≠ '<' ∧ isBrace c = false := by
    intro c hc
    have hn := isNumeric_decimalDigits c hc
    refine ⟨?_, isBrace_of_isNumeric hn⟩
    rintro rfl
    cases hn
  have hmarker : ∀ c ∈ marker placed, c ≠ '<' ∧ isBrace c = false := by
    simp only [marker, List.forall_mem_cons, List.forall_mem_append]
    exact ⟨by decide, ⟨by decide, hdigits⟩, by decide⟩
  refine alike_self (fun hm => ?_) fun c hc => ?_
  · rw [he] at hm
    exact (hmarker _ hm).1 rfl
  · rw [he] at hc
    exact (hmarker c hc).2

section Data

variable {options : Options} (hescape : options.escapeValues = true)

include hescape

theorem alike_of_scalarText? {v : Value} (hv : v.BraceFree) {s : List Char}
    (hs : options.scalarText? v = some s) {e : Expansion} (he : e.text = s) :
    Alike (besideVisible window) .inside .inside e e := by
  refine alike_self (fun hm => ?_) ?_
  · rw [he] at hm
    exact (angleFree_of_scalarText? hescape hs _ hm).1 rfl
  · rw [he]
    exact braceFree_of_scalarText? hv hs

theorem itemsAlike_self {v : Value} (hv : v.BraceFree) :
    ItemsAlike (besideVisible window) options v v := by
  refine ⟨rfl, fun of owner name => ?_⟩
  simp only [expandField]
  cases hf : v.field? name with
  | none => exact .of_text_eq_nil _ rfl
  | some w =>
    cases hs : options.scalarText? w with
    | none =>
      simp only [hs]
      exact .of_text_eq_nil _ rfl
    | some s =>
      simp only [hs]
      exact alike_of_scalarText? hescape (hv.of_field? hf) hs rfl

theorem dataAlike_self {data : DataTree} (hdata : data.BraceFree) :
    DataAlike (besideVisible window) options data data := by
  refine ⟨fun _ => rfl, fun of name => ?_⟩
  cases hlist : listFor data of name with
  | error w => exact .error w
  | ok items =>
    refine .ok (List.forall₂_same.2 fun v hv => itemsAlike_self hescape ?_)
    have hget : data.get? name = some (.list items) := by
      unfold listFor at hlist
      split at hlist
      all_goals cases hlist
      assumption
    exact (hdata.of_get? hget).of_mem hv

theorem alike_expandPlaceholder {data : DataTree} (hdata : data.BraceFree) (placed : Nat)
    (name : String) :
    Alike (besideVisible window) .inside .inside (expandPlaceholder data options placed name)
      (expandPlaceholder data options placed name) := by
  rw [expandPlaceholder_eq]
  cases hget : data.get? name with
  | none => exact .of_text_eq_nil _ rfl
  | some v =>
    have hv := hdata.of_get? hget
    rw [Option.elim_some]
    cases v with
    | image => exact alike_marker rfl
    | null | bool | number | string | list | map =>
      simp only [expandValue]
      split
      · next hs => exact alike_of_scalarText? hescape hv hs rfl
      · split <;> exact .of_text_eq_nil _ rfl

end Data

/-! ### Run splitting does not matter -/

/-- Expanding a gathered part and reading its visible text is expanding its visible text. -/
theorem TagsInElements.visibleText_expand {data : DataTree} {options : Options} {s : List Char}
    (h : TagsInElements options.window s) (hdata : data.BraceFree)
    (hescape : options.escapeValues = true) :
    visibleText (expand data options (gatherPart options.window s)).text
        = (expand data options (visibleText s)).text ∧
      (expand data options (gatherPart options.window s)).withoutText
        = (expand data options (visibleText s)).withoutText := by
  have hlists : DataAlike (besideVisible options.window) options data data :=
    dataAlike_self hescape hdata
  -- each pass leaves texts side by side, and both are read back for the next one
  have hlooped := h.aligned.expandLoops hlists
  obtain ⟨us, vs, hloops, hus, hvs⟩ := hlooped.text
  obtain ⟨hreadu, hreadv⟩ := hloops.tokens_eq
  have hdecided := hloops.expandConditionals (fun name => rfl : ∀ name, holds data name = _)
  obtain ⟨us', vs', hconds, hus', hvs'⟩ := hdecided.text
  obtain ⟨hreadu', hreadv'⟩ := hconds.tokens_eq
  have hfilled := hconds.expandPlaceholders (fun placed name =>
    alike_expandPlaceholder hescape hdata placed name) 0
  obtain ⟨us'', vs'', hvalues, hus'', hvs''⟩ := hfilled.text
  have hmark : ∀ t, t ∈ us' ∨ t ∈ vs' → t.isMark = false := by
    intro t ht
    cases t with
    | char c => rfl
    | tag t => exact (hconds.tag_of_mem ht).2
  rw [expand_of_read hus hreadu hus' hreadu' fun t ht => hmark t (Or.inl ht),
    expand_of_read hvs hreadv hvs' hreadv' fun t ht => hmark t (Or.inr ht)]
  constructor
  · have hvisible := hvalues.visibleText_eq.2 rfl
    rw [← hus'', ← hvs''] at hvisible
    exact hvisible
  · rw [Expansion.withoutText_append, Expansion.withoutText_append, Expansion.withoutText_append,
      Expansion.withoutText_append, hlooped.withoutText, hdecided.withoutText, hfilled.withoutText]

/-- **How a text is split over text elements does not matter.** Expanding a gathered part and
reading its visible text is expanding its visible text, with the same warnings, counts and
pictures; so two parts with the same visible text come to the same. -/
theorem visibleText_expand_gatherPart {data : DataTree} {options : Options} {s : List Char}
    (hs : TagsInElements options.window s) (hdata : data.BraceFree)
    (hescape : options.escapeValues = true) :
    (visibleText (expand data options (gatherPart options.window s)).text
          = (expand data options (visibleText s)).text ∧
        (expand data options (gatherPart options.window s)).withoutText
          = (expand data options (visibleText s)).withoutText) ∧
      ∀ s', TagsInElements options.window s' → visibleText s' = visibleText s →
        visibleText (expand data options (gatherPart options.window s')).text
            = visibleText (expand data options (gatherPart options.window s)).text ∧
          (expand data options (gatherPart options.window s')).withoutText
            = (expand data options (gatherPart options.window s)).withoutText := by
  obtain ⟨htext, hrest⟩ := hs.visibleText_expand hdata hescape
  refine ⟨⟨htext, hrest⟩, fun s' hs' hsame => ?_⟩
  obtain ⟨htext', hrest'⟩ := hs'.visibleText_expand hdata hescape
  rw [hsame] at htext' hrest'
  exact ⟨htext'.trans htext.symm, hrest'.trans hrest.symm⟩

/-- Two ways to split a greeting over text elements and a paragraph. -/
theorem visibleText_expand_gatherPart_greeting :
    let s := "<w:p><w:t>Dear \x7bna</w:t><w:t>me\x7d\x7b#k\x7d, \x7b</w:t></w:p>".toList
      ++ "<w:p><w:t a>f\x7d!\x7b/k\x7d</w:t></w:p>".toList
    let s' := "<w:t>Dear \x7bname\x7d\x7b#k\x7d, \x7bf\x7d!\x7b/k\x7d</w:t>".toList
    let data : DataTree :=
      ⟨[("k", .list [.map ⟨[("f", .string "x")]⟩, .map ⟨[("f", .string "y")]⟩]),
        ("name", .string "A&B")]⟩
    let options : Options := {}
    (TagsInElements options.window s ∧ TagsInElements options.window s' ∧
        visibleText s' = visibleText s ∧ data.BraceFree ∧ options.escapeValues = true) ∧
      visibleText (expand data options (gatherPart options.window s)).text
        = (expand data options (visibleText s)).text ∧
      visibleText (expand data options (gatherPart options.window s')).text
        = visibleText (expand data options (gatherPart options.window s)).text := by
  intro s s' data options
  have hs : TagsInElements options.window s := by decide +kernel
  have hs' : TagsInElements options.window s' := by decide +kernel
  have hsame : visibleText s' = visibleText s := by decide +kernel
  have hdata : data.BraceFree := by
    simp only [data, DataTree.BraceFree, Value.braceFree_map, List.forall_mem_cons,
      Value.braceFree_list, Value.braceFree_string, List.not_mem_nil, false_implies, implies_true]
    decide
  obtain ⟨⟨htext, -⟩, hsplit⟩ := visibleText_expand_gatherPart hs hdata rfl
  exact ⟨⟨hs, hs', hsame, hdata, rfl⟩, htext, (hsplit s' hs' hsame).1⟩

end MailMerge
