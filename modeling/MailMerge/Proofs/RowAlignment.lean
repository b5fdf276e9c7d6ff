import MailMerge.Proofs.Holes
import MailMerge.Proofs.Table

/-!
# Table rows side by side

The table pass looks for rows by their markup. Two texts that stand side by side **share their
markup** when they differ in character data only, tags stand in character data, and both are read
back (`SharesMarkup`). Then they have the same row tags at corresponding places
(`SharesMarkup.rowTags`). So rows are cut out of both at the same places, and each round leaves
texts side by side (`SharesMarkup.tableRound`), as does the whole pass
(`SharesMarkup.expandTables`). Rows need not match for this, and may hold any number of marks.

Texts with holes share their markup when the holes and the tags stand in character data, and what is
filled in is harmless and has no angle brackets (`sharesMarkup_inCharacterData`).
-/

namespace MailMerge

open Markup

namespace Markup

/-! ### Inside and outside of markup -/

/-- Whether markup is open at the end of a text, given whether it is open at its start. -/
def inMarkup (inside : Bool) : List Char → Bool
  | [] => inside
  | c :: s => inMarkup (if inside then c != '>' else c == '<') s

theorem inMarkup_append (inside : Bool) (s r : List Char) :
    inMarkup inside (s ++ r) = inMarkup (inMarkup inside s) r := by
  induction s generalizing inside with
  | nil => rfl
  | cons c s ih => exact ih _

theorem inMarkup_of_notMem {s : List Char} (h : '<' ∉ s) : inMarkup false s = false := by
  induction s with
  | nil => rfl
  | cons c s ih =>
    rw [List.mem_cons, not_or] at h
    have hc : (c == '<') = false := by simpa using Ne.symm h.1
    simp only [inMarkup, Bool.false_eq_true, if_false, hc]
    exact ih h.2

/-- Markup that is closed at the end of a text has been closed somewhere. -/
theorem exists_append_of_inMarkup {s : List Char} (h : inMarkup true s = false) :
    ∃ body r, s = body ++ '>' :: r ∧ '>' ∉ body := by
  induction s with
  | nil => cases h
  | cons c s ih =>
    by_cases hc : c = '>'
    · subst hc
      exact ⟨[], s, rfl, List.not_mem_nil⟩
    · have hc' : (c != '>') = true := by simpa using hc
      simp only [inMarkup, if_true, hc'] at h
      obtain ⟨body, r, rfl, hbody⟩ := ih h
      refine ⟨c :: body, r, rfl, ?_⟩
      rw [List.mem_cons, not_or]
      exact ⟨Ne.symm hc, hbody⟩

theorem startsRowTag_append_iff {body : List Char} (hbody : '>' ∉ body) (r : List Char) :
    StartsRowTag (body ++ '>' :: r) ↔
      (∃ x, body = rowName ++ x ∧ IsOpeningTail x)
        ∨ ∃ x, body = '/' :: (rowName ++ x) ∧ IsClosingTail x := by
  -- both are cut at the first closing angle bracket
  have hcut : ∀ {inner r'}, body ++ '>' :: r = inner ++ '>' :: r' → '>' ∉ inner → body = inner := by
    intro inner r' he hinner
    have hfirst : Text.breakAt? ['>'] (body ++ '>' :: r) = some (body, r) :=
      Text.breakAt?_singleton_eq_some_iff.2 ⟨rfl, hbody⟩
    rw [Text.breakAt?_singleton_eq_some_iff.2 ⟨he, hinner⟩, Option.some.injEq,
      Prod.mk.injEq] at hfirst
    exact hfirst.1.symm
  have hname : ∀ {x : List Char}, '>' ∉ x → '>' ∉ rowName ++ x := by
    intro x hx
    rw [List.mem_append, not_or]
    exact ⟨by decide, hx⟩
  constructor
  · rintro (⟨x, r', he, hx⟩ | ⟨x, r', he, hx⟩)
    · exact Or.inl ⟨x, hcut (by rw [he, List.append_assoc]) (hname hx.ended), hx⟩
    · have hslash : '>' ∉ '/' :: (rowName ++ x) := by
        rw [List.mem_cons, not_or]
        exact ⟨by decide, hname hx.ended⟩
      have he' : body ++ '>' :: r = '/' :: (rowName ++ x) ++ '>' :: r' := by
        rw [he]
        simp
      exact Or.inr ⟨x, hcut he' hslash, hx⟩
  · rintro (⟨x, rfl, hx⟩ | ⟨x, rfl, hx⟩)
    · exact Or.inl ⟨x, r, by simp, hx⟩
    · exact Or.inr ⟨x, r, by simp, hx⟩

/-- What a piece of markup says about rows does not depend on what follows it. -/
theorem angleMark?_append {body : List Char} (hbody : '>' ∉ body) :
    (∀ place r, angleMark? place (body ++ '>' :: r) = none) ∨
      (4 ≤ body.length ∧
        ∀ place r, angleMark? place (body ++ '>' :: r) = some ⟨place + 1, .opens place⟩) ∨
      (5 ≤ body.length ∧ ∀ place r, angleMark? place (body ++ '>' :: r)
        = some ⟨place + 2, .closes (place + (body.length + 2))⟩) := by
  by_cases h : (∃ x, body = rowName ++ x ∧ IsOpeningTail x)
      ∨ ∃ x, body = '/' :: (rowName ++ x) ∧ IsClosingTail x
  · rcases h with ⟨x, rfl, hx⟩ | ⟨x, rfl, hx⟩
    · refine Or.inr (Or.inl ⟨by simp [rowName], fun place r => ?_⟩)
      rw [List.append_assoc, angleMark?_opening hx]
    · refine Or.inr (Or.inr ⟨by simp [rowName], fun place r => ?_⟩)
      rw [List.cons_append, List.append_assoc, angleMark?_closing hx]
      simp only [List.length_cons, Option.some.injEq, RowMark.mk.injEq, RowTag.closes.injEq,
        true_and]
      omega
  · refine Or.inl fun place r => angleMark?_eq_none (fun hs => h ?_) place
    exact (startsRowTag_append_iff hbody r).1 hs

/-- The row tags of a text that ends in character data stand in that text. -/
theorem angleMarks_append_of_inMarkup {s : List Char} {inside : Bool}
    (h : inMarkup inside s = false) (place : Nat) (r : List Char) :
    angleMarks place (s ++ r) = angleMarks place s ++ angleMarks (place + s.length) r ∧
      ∀ m ∈ angleMarks place s, m.place + rowName.length ≤ place + s.length := by
  have hname : rowName.length = 4 := rfl
  induction s generalizing inside place with
  | nil => simp [angleMarks]
  | cons c s ih =>
    obtain ⟨hs, hplace⟩ := ih h (place + 1)
    rw [List.length_cons]
    -- what the first character says about rows is said before the end of the text
    have hfirst : (if c = '<' then (angleMark? place (s ++ r)).toList else [])
          = (if c = '<' then (angleMark? place s).toList else []) ∧
        ∀ m ∈ (if c = '<' then (angleMark? place s).toList else []),
          m.place + rowName.length ≤ place + (s.length + 1) := by
      by_cases hc : c = '<'
      · subst hc
        have hinside : inMarkup true s = false := by cases inside <;> exact h
        obtain ⟨body, r', rfl, hbody⟩ := exists_append_of_inMarkup hinside
        rw [List.append_assoc, List.cons_append]
        simp only [if_true, List.length_append, List.length_cons]
        rcases angleMark?_append hbody with hnone | ⟨hlength, hsome⟩ | ⟨hlength, hsome⟩
        · simp [hnone]
        · simp only [hsome, Option.toList_some, List.mem_singleton, true_and]
          rintro m rfl
          simp only
          omega
        · simp only [hsome, Option.toList_some, List.mem_singleton, true_and]
          rintro m rfl
          simp only
          omega
      · simp [hc]
    constructor
    · rw [List.cons_append, angleMarks, angleMarks, hs, hfirst.1, List.append_assoc,
        Nat.add_right_comm, Nat.add_assoc]
    · intro m hm
      rw [angleMarks, List.mem_append] at hm
      rcases hm with hm | hm
      · exact hfirst.2 m hm
      · have := hplace m hm
        omega

/-- The row around a place in character data starts at an opening tag before that place. -/
theorem rowStart_eq_unmatchedOpening? {before : List Char} (h : inMarkup false before = false)
    (after : List Char) :
    rowStart before after
      = unmatchedOpening? 0 ((angleMarks 0 before).reverse.map RowMark.tag) := by
  obtain ⟨hmarks, hplace⟩ := angleMarks_append_of_inMarkup h 0 after
  have hin : (angleMarks 0 before).filter (fun m => m.place + rowName.length ≤ before.length)
      = angleMarks 0 before := by
    rw [List.filter_eq_self]
    intro m hm
    simpa using hplace m hm
  have hout : (angleMarks (0 + before.length) after).filter
      (fun m => m.place + rowName.length ≤ before.length) = [] := by
    rw [List.filter_eq_nil_iff]
    intro m hm
    have := lt_place_of_mem_angleMarks hm
    simp only [decide_eq_true_eq]
    omega
  rw [rowStart, rowMarks_eq, hmarks]
  simp only [List.filter_append, hin, hout, List.append_nil]

/-- The row around a place in character data stops at a closing tag behind that place. -/
theorem rowStop_eq_unmatchedClosing? {before : List Char} (h : inMarkup false before = false)
    (after : List Char) :
    rowStop before after
      = unmatchedClosing? 0 ((angleMarks before.length after).map RowMark.tag) := by
  obtain ⟨hmarks, hplace⟩ := angleMarks_append_of_inMarkup h 0 after
  have hname : rowName.length = 4 := rfl
  have hout : (angleMarks 0 before).filter (fun m => before.length ≤ m.place) = [] := by
    rw [List.filter_eq_nil_iff]
    intro m hm
    have := hplace m hm
    simp only [decide_eq_true_eq]
    omega
  have hin : (angleMarks before.length after).filter (fun m => before.length ≤ m.place)
      = angleMarks before.length after := by
    rw [List.filter_eq_self]
    intro m hm
    simpa using Nat.le_of_lt (lt_place_of_mem_angleMarks hm)
  rw [rowStop, rowMarks_eq, hmarks, Nat.zero_add, List.filter_append, hout, hin, List.nil_append]

end Markup

/-! ### Texts that share their markup -/

/-- Texts that stand side by side share their markup: they differ in character data only, tags stand
in character data, and both texts are read back, but for the spelling of tags that open loops. The
states say where markup is open. -/
structure SharesMarkup (window : Nat) (A : Alignment Bool) : Prop where
  here : A.here = false
  tag : ∀ {t}, A.tag t → t.Fits window
  block : ∀ {p q a b}, A.block p q a b →
    (p = false ∧ q = false ∧ '<' ∉ a ∧ '<' ∉ b) ∨
      ∃ c, a = [c] ∧ b = [c] ∧ (p = true → c ≠ '<') ∧ q = inMarkup p [c]
  read : ∀ {p q us vs}, Aligned A p q us vs →
    spellLoops (tokens window (us.flatMap Token.text)) = spellLoops us ∧
      spellLoops (tokens window (vs.flatMap Token.text)) = spellLoops vs

section SharedMarkup

variable {window : Nat} {A : Alignment Bool} {p q : Bool} {us vs : List Token}

theorem notMem_tagText {t : Tag} (h : t.Fits window) : '<' ∉ t.text :=
  Tag.notMem_text h.named (by decide)

/-- The states say where markup is open. -/
theorem SharesMarkup.inMarkup_eq (hA : SharesMarkup window A) (h : Aligned A p q us vs) :
    inMarkup p (us.flatMap Token.text) = q ∧ inMarkup p (vs.flatMap Token.text) = q := by
  induction h with
  | nil => exact ⟨rfl, rfl⟩
  | @tag q t us vs ht _ ih =>
    have hclosed : inMarkup A.here t.text = A.here := by
      rw [hA.here]
      exact inMarkup_of_notMem (notMem_tagText (hA.tag ht))
    rw [List.flatMap_cons, List.flatMap_cons, Token.text, inMarkup_append, inMarkup_append, hclosed]
    exact ih
  | block hab _ ih =>
    rw [flatMap_text_map_char_append, flatMap_text_map_char_append, inMarkup_append,
      inMarkup_append]
    rcases hA.block hab with ⟨rfl, rfl, ha, hb⟩ | ⟨c, rfl, rfl, -, rfl⟩
    · rw [inMarkup_of_notMem ha, inMarkup_of_notMem hb]
      exact ih
    · exact ih

/-! ### Corresponding places -/

/-- Two places in character data at which both texts can be cut. -/
def CutAt (A : Alignment Bool) (p q : Bool) (us vs : List Token) (k k' : Nat) : Prop :=
  ∃ us₁ us₂ vs₁ vs₂, us = us₁ ++ us₂ ∧ vs = vs₁ ++ vs₂ ∧ Aligned A p A.here us₁ vs₁ ∧
    Aligned A A.here q us₂ vs₂ ∧ (us₁.flatMap Token.text).length = k ∧
    (vs₁.flatMap Token.text).length = k'

/-- Row tags of one kind at corresponding places of two texts, which start at given places. -/
inductive TagsAt (A : Alignment Bool) (p q : Bool) (us vs : List Token) (place place' : Nat) :
    RowTag → RowTag → Prop
  | opens {k k' : Nat} (h : CutAt A p q us vs k k') :
    TagsAt A p q us vs place place' (.opens (place + k)) (.opens (place' + k'))
  | closes {k k' : Nat} (h : CutAt A p q us vs k k') :
    TagsAt A p q us vs place place' (.closes (place + k)) (.closes (place' + k'))

theorem CutAt.append_left {r : Bool} {us₀ vs₀ : List Token} (h₀ : Aligned A p r us₀ vs₀)
    {k k' : Nat} (h : CutAt A r q us vs k k') :
    CutAt A p q (us₀ ++ us) (vs₀ ++ vs) ((us₀.flatMap Token.text).length + k)
      ((vs₀.flatMap Token.text).length + k') := by
  obtain ⟨us₁, us₂, vs₁, vs₂, rfl, rfl, h₁, h₂, rfl, rfl⟩ := h
  refine ⟨us₀ ++ us₁, us₂, vs₀ ++ vs₁, vs₂, by simp, by simp, h₀.append h₁, h₂, ?_, ?_⟩
  · rw [List.flatMap_append, List.length_append]
  · rw [List.flatMap_append, List.length_append]

theorem TagsAt.append_left {r : Bool} {us₀ vs₀ : List Token} (h₀ : Aligned A p r us₀ vs₀)
    {place place' n n' : Nat} (hn : (us₀.flatMap Token.text).length = n)
    (hn' : (vs₀.flatMap Token.text).length = n') {tag tag' : RowTag}
    (h : TagsAt A r q us vs (place + n) (place' + n') tag tag') :
    TagsAt A p q (us₀ ++ us) (vs₀ ++ vs) place place' tag tag' := by
  subst hn
  subst hn'
  cases h with
  | opens h =>
    rw [Nat.add_assoc, Nat.add_assoc]
    exact .opens (h.append_left h₀)
  | closes h =>
    rw [Nat.add_assoc, Nat.add_assoc]
    exact .closes (h.append_left h₀)

/-- Open markup goes on alike in both texts, to its end or to the end of the texts. -/
theorem SharesMarkup.exists_body (hA : SharesMarkup window A) (h : Aligned A true q us vs) :
    (∃ body, '>' ∉ body ∧ us.flatMap Token.text = body ∧ vs.flatMap Token.text = body) ∨
      ∃ body us' vs', '>' ∉ body ∧ us = (body ++ ['>']).map .char ++ us' ∧
        vs = (body ++ ['>']).map .char ++ vs' ∧
        Aligned A true A.here ((body ++ ['>']).map .char) ((body ++ ['>']).map .char) ∧
        Aligned A A.here q us' vs' := by
  generalize hp : true = p at h
  induction h with
  | nil => exact Or.inl ⟨[], List.not_mem_nil, rfl, rfl⟩
  | tag =>
    rw [hA.here] at hp
    cases hp
  | @block _ p' q a b us vs hab h ih =>
    subst hp
    rcases hA.block hab with ⟨hp, -⟩ | ⟨c, rfl, rfl, -, hp'⟩
    · cases hp
    · by_cases hc : c = '>'
      · subst hc
        obtain rfl : p' = A.here := by rw [hA.here, hp']; rfl
        exact Or.inr ⟨[], us, vs, List.not_mem_nil, rfl, rfl, .of_block hab, h⟩
      · have hc' : (c != '>') = true := by simpa using hc
        obtain rfl : p' = true := by simpa [inMarkup, hc'] using hp'
        have hcons : ∀ {body : List Char}, '>' ∉ body → '>' ∉ c :: body := by
          intro body hbody
          rw [List.mem_cons, not_or]
          exact ⟨Ne.symm hc, hbody⟩
        rcases ih rfl with ⟨body, hbody, hu, hv⟩ | ⟨body, us', vs', hbody, rfl, rfl, hwhole, hrest⟩
        · refine Or.inl ⟨c :: body, hcons hbody, ?_, ?_⟩
          · rw [flatMap_text_map_char_append, hu]
            rfl
          · rw [flatMap_text_map_char_append, hv]
            rfl
        · exact Or.inr ⟨c :: body, us', vs', hcons hbody, rfl, rfl, .block hab hwhole, hrest⟩

/-- Both texts say the same of an opening angle bracket before them. -/
theorem SharesMarkup.angleMark? (hA : SharesMarkup window A) (h : Aligned A true q us vs)
    (hopen : A.block A.here true ['<'] ['<']) (place place' : Nat) :
    (Markup.angleMark? place (us.flatMap Token.text) = none ∧
        Markup.angleMark? place' (vs.flatMap Token.text) = none) ∨
      ∃ m m', Markup.angleMark? place (us.flatMap Token.text) = some m ∧
        Markup.angleMark? place' (vs.flatMap Token.text) = some m' ∧
        TagsAt A A.here q (.char '<' :: us) (.char '<' :: vs) place place' m.tag m'.tag := by
  -- the bracket says what it says up to the end of its markup
  rcases hA.exists_body h with
    ⟨body, hbody, hu, hv⟩ | ⟨body, us', vs', hbody, rfl, rfl, hwhole, hrest⟩
  · -- markup that is never closed is no row tag
    have hno : ¬StartsRowTag body := by
      rintro (⟨x, r, rfl, -⟩ | ⟨x, r, rfl, -⟩) <;> simp at hbody
    rw [hu, hv, angleMark?_eq_none hno, angleMark?_eq_none hno]
    exact Or.inl ⟨rfl, rfl⟩
  · have htext : ∀ ts : List Token, ((body ++ ['>']).map Token.char ++ ts).flatMap Token.text
        = body ++ '>' :: ts.flatMap Token.text := by
      intro ts
      rw [flatMap_text_map_char_append, List.append_assoc]
      rfl
    rw [htext, htext]
    rcases angleMark?_append hbody with hnone | ⟨-, hsome⟩ | ⟨-, hsome⟩
    · exact Or.inl ⟨hnone _ _, hnone _ _⟩
    · have hcut : CutAt A A.here q
          (.char '<' :: ((body ++ ['>']).map .char ++ us'))
          (.char '<' :: ((body ++ ['>']).map .char ++ vs')) 0 0 :=
        ⟨[], _, [], _, rfl, rfl, .nil _, .block hopen (hwhole.append hrest), rfl, rfl⟩
      exact Or.inr ⟨_, _, hsome _ _, hsome _ _, .opens hcut⟩
    · have hlength : ((Token.char '<' :: (body ++ ['>']).map Token.char).flatMap Token.text).length
          = body.length + 2 := by
        rw [← List.map_cons, flatMap_text_map_tokenChar]
        simp
      have hcut : CutAt A A.here q
          (.char '<' :: ((body ++ ['>']).map .char ++ us'))
          (.char '<' :: ((body ++ ['>']).map .char ++ vs')) (body.length + 2) (body.length + 2) :=
        ⟨.char '<' :: (body ++ ['>']).map .char, us', .char '<' :: (body ++ ['>']).map .char, vs',
          rfl, rfl, .block hopen hwhole, hrest, hlength, hlength⟩
      exact Or.inr ⟨_, _, hsome _ _, hsome _ _, .closes hcut⟩

/-- Both texts have the same row tags at corresponding places. -/
theorem SharesMarkup.rowTags (hA : SharesMarkup window A) (h : Aligned A p q us vs)
    (place place' : Nat) :
    List.Forall₂ (TagsAt A p q us vs place place')
      ((angleMarks place (us.flatMap Token.text)).map RowMark.tag)
      ((angleMarks place' (vs.flatMap Token.text)).map RowMark.tag) := by
  induction h generalizing place place' with
  | nil => exact .nil
  | @tag q t us vs ht h ih =>
    have hangle := notMem_tagText (hA.tag ht)
    rw [List.flatMap_cons, List.flatMap_cons, Token.text, angleMarks_append_of_notMem hangle,
      angleMarks_append_of_notMem hangle]
    have htag : Aligned A A.here A.here [.tag t] [.tag t] := .tag ht (.nil _)
    exact (ih _ _).imp fun _ _ hR =>
      hR.append_left htag (by simp [Token.text]) (by simp [Token.text])
  | @block p p' q a b us vs hab h ih =>
    -- a block before the texts shifts the places of their row tags
    have hone := Aligned.of_block hab
    rw [flatMap_text_map_char_append, flatMap_text_map_char_append]
    have hshift : ∀ {tags tags'},
        List.Forall₂ (TagsAt A p' q us vs (place + a.length) (place' + b.length)) tags tags' →
        List.Forall₂ (TagsAt A p q (a.map .char ++ us) (b.map .char ++ vs) place place')
          tags tags' := by
      intro tags tags' hR
      exact hR.imp fun _ _ hR => hR.append_left hone (by rw [flatMap_text_map_tokenChar])
        (by rw [flatMap_text_map_tokenChar])
    by_cases hangle : '<' ∈ a ∨ '<' ∈ b
    · -- an opening angle bracket stands in character data, and belongs to both texts
      rcases hA.block hab with ⟨-, -, ha, hb⟩ | ⟨c, rfl, rfl, hc, hp'⟩
      · exact (hangle.elim ha hb).elim
      · obtain rfl : c = '<' := by
          rcases hangle with hm | hm <;> exact (List.mem_singleton.1 hm).symm
        obtain rfl : p = A.here := by
          rw [hA.here]
          cases p with
          | true => exact absurd rfl (hc rfl)
          | false => rfl
        obtain rfl : p' = true := by
          rw [hp', hA.here]
          rfl
        simp only [List.singleton_append, angleMarks, if_true, List.map_append]
        refine List.rel_append ?_ (hshift (ih _ _))
        rcases hA.angleMark? h hab place place' with ⟨hu, hv⟩ | ⟨m, m', hu, hv, hR⟩
        · rw [hu, hv]
          exact .nil
        · rw [hu, hv]
          exact .cons hR .nil
    · rw [not_or] at hangle
      rw [angleMarks_append_of_notMem hangle.1, angleMarks_append_of_notMem hangle.2]
      exact hshift (ih _ _)

/-! ### Rounds side by side -/

section Counting

variable {place place' : Nat} {tags tags' : List RowTag}

theorem unmatchedOpening?_tagsAt
    (h : List.Forall₂ (TagsAt A p q us vs place place') tags tags') (depth : Nat) :
    (unmatchedOpening? depth tags = none ∧ unmatchedOpening? depth tags' = none) ∨
      ∃ k k', CutAt A p q us vs k k' ∧ unmatchedOpening? depth tags = some (place + k) ∧
        unmatchedOpening? depth tags' = some (place' + k') := by
  induction h generalizing depth with
  | nil => exact Or.inl ⟨rfl, rfl⟩
  | cons htag _ ih =>
    cases htag with
    | closes => exact ih (depth + 1)
    | opens hcut =>
      cases depth with
      | zero => exact Or.inr ⟨_, _, hcut, rfl, rfl⟩
      | succ depth => exact ih depth

theorem unmatchedClosing?_tagsAt
    (h : List.Forall₂ (TagsAt A p q us vs place place') tags tags') (depth : Nat) :
    (unmatchedClosing? depth tags = none ∧ unmatchedClosing? depth tags' = none) ∨
      ∃ k k', CutAt A p q us vs k k' ∧ unmatchedClosing? depth tags = some (place + k) ∧
        unmatchedClosing? depth tags' = some (place' + k') := by
  induction h generalizing depth with
  | nil => exact Or.inl ⟨rfl, rfl⟩
  | cons htag _ ih =>
    cases htag with
    | opens => exact ih (depth + 1)
    | closes hcut =>
      cases depth with
      | zero => exact Or.inr ⟨_, _, hcut, rfl, rfl⟩
      | succ depth => exact ih depth

end Counting

/-- The first marks are the same, with texts side by side before and after. -/
theorem Aligned.firstMark? (h : Aligned A p q us vs) :
    (MailMerge.firstMark? us = none ∧ MailMerge.firstMark? vs = none) ∨
      ∃ name before after before' after',
        us = before ++ .tag (.table name) :: after ∧
        vs = before' ++ .tag (.table name) :: after' ∧
        MailMerge.firstMark? us = some (before.flatMap Token.text, name) ∧
        MailMerge.firstMark? vs = some (before'.flatMap Token.text, name) ∧
        A.tag (.table name) ∧ Aligned A p A.here before before' ∧
        Aligned A A.here q after after' := by
  induction h with
  | nil => exact Or.inl ⟨rfl, rfl⟩
  | @tag q t us vs ht h ih =>
    cases hmark : (Token.tag t).isMark with
    | true =>
      obtain ⟨name, he⟩ := Token.exists_of_isMark hmark
      obtain rfl := Token.tag.inj he
      exact Or.inr ⟨name, [], us, [], vs, rfl, rfl, rfl, rfl, ht, .nil _, h⟩
    | false =>
      rw [firstMark?_cons hmark, firstMark?_cons hmark]
      rcases ih with ⟨hu, hv⟩ |
        ⟨name, before, after, before', after', rfl, rfl, hu, hv, hname, hbefore, hafter⟩
      · rw [hu, hv]
        exact Or.inl ⟨rfl, rfl⟩
      · rw [hu, hv]
        exact Or.inr ⟨name, .tag t :: before, after, .tag t :: before', after', rfl, rfl, rfl, rfl,
          hname, .tag ht hbefore, hafter⟩
  | @block p p' q a b us vs hab h ih =>
    rw [firstMark?_map_char_append, firstMark?_map_char_append]
    rcases ih with ⟨hu, hv⟩ |
      ⟨name, before, after, before', after', rfl, rfl, hu, hv, hname, hbefore, hafter⟩
    · rw [hu, hv]
      exact Or.inl ⟨rfl, rfl⟩
    · refine Or.inr ⟨name, a.map .char ++ before, after, b.map .char ++ before', after', by simp,
        by simp, ?_, ?_, hname, .block hab hbefore, hafter⟩
      · rw [hu, flatMap_text_map_char_append]
        rfl
      · rw [hv, flatMap_text_map_char_append]
        rfl

/-- The round for the first mark: the row around it gives way to what comes of it, if there is one.
-/
theorem tableRound_eq (data : DataTree) {options : Options} {rest between after : List Char}
    {name : String} (hmark : firstMark? (tokens options.window rest) = some (between, name))
    (hrest : rest = between ++ ((Tag.table name).text ++ after)) (done : List Char) :
    tableRound data options done rest =
      match rowStart (done ++ between) ((Tag.table name).text ++ after),
        rowStop (done ++ between ++ (Tag.table name).text) after with
      | some start, some stop =>
        let inside := stop - (done ++ between ++ (Tag.table name).text).length
        let row := expandRow data options name
          ((done ++ between).drop start ++ (Tag.table name).text ++ after.take inside)
        some (row.withoutText, (done ++ between).take start ++ row.text, after.drop inside)
      | _, _ => some (.warning (.outsideRow name), done ++ between, after) := by
  have hdrop : rest.drop (between.length + (Tag.table name).text.length) = after := by
    rw [hrest, ← List.append_assoc, ← List.length_append, List.drop_left]
  rw [tableRound, hmark, List.length_append]
  exact hdrop ▸ rfl

section Rounds

variable {options : Options} {data data' : DataTree}

/-- What comes of rows side by side is alike. -/
theorem SharesMarkup.expandRow (hA : SharesMarkup options.window A)
    (hdata : DataAlike A options data data') (name : String)
    (h : Aligned A A.here A.here us vs) :
    Alike A A.here A.here
      (MailMerge.expandRow data options name (us.flatMap Token.text))
      (MailMerge.expandRow data' options name (vs.flatMap Token.text)) := by
  obtain ⟨hreadu, hreadv⟩ := hA.read h
  unfold MailMerge.expandRow
  have hlist := hdata.list .table name
  revert hlist
  cases listFor data .table name <;> cases listFor data' .table name
  all_goals
    intro hlist
    cases hlist
  · exact .of_text_eq_nil _ rfl
  · next hitems =>
    dsimp only
    rw [expandItems_of_spellLoops_eq hreadu, expandItems_of_spellLoops_eq hreadv]
    exact (Alike.of_text_eq_nil _ rfl).append (h.expandItems .table name hitems)

/-- A round leaves texts side by side, and notes the same. -/
theorem SharesMarkup.tableRound (hA : SharesMarkup options.window A)
    (hdata : DataAlike A options data data') {done done' : List Token}
    (hdone : Aligned A A.here p done done') (h : Aligned A p q us vs) :
    (MailMerge.tableRound data options (done.flatMap Token.text) (us.flatMap Token.text) = none ∧
        MailMerge.tableRound data' options (done'.flatMap Token.text) (vs.flatMap Token.text)
          = none) ∨
      ∃ note r ds ds' ts ts',
        MailMerge.tableRound data options (done.flatMap Token.text) (us.flatMap Token.text)
            = some (note, ds.flatMap Token.text, ts.flatMap Token.text) ∧
          MailMerge.tableRound data' options (done'.flatMap Token.text) (vs.flatMap Token.text)
            = some (note, ds'.flatMap Token.text, ts'.flatMap Token.text) ∧
          note.text = [] ∧ Aligned A A.here r ds ds' ∧ Aligned A r q ts ts' := by
  obtain ⟨hreadu, hreadv⟩ := hA.read h
  have hfirst := firstMark?_of_spellLoops_eq hreadu
  have hfirst' := firstMark?_of_spellLoops_eq hreadv
  rcases h.firstMark? with ⟨hu, hv⟩ |
    ⟨name, before, after, before', after', rfl, rfl, hu, hv, hname, hbefore, hafter⟩
  · refine Or.inl ⟨?_, ?_⟩
    · rw [MailMerge.tableRound, hfirst, hu]
    · rw [MailMerge.tableRound, hfirst', hv]
  · have hall := hdone.append hbefore
    have hangle := notMem_tagText (hA.tag hname)
    have hlength := length_text_table name
    have htext : ∀ before after : List Token,
        (before ++ .tag (.table name) :: after).flatMap Token.text
          = before.flatMap Token.text ++ ((Tag.table name).text ++ after.flatMap Token.text) := by
      intro before after
      rw [List.flatMap_append, List.flatMap_cons, Token.text]
    rw [tableRound_eq data (hfirst.trans hu) (htext before after),
      tableRound_eq data' (hfirst'.trans hv) (htext before' after'), ← List.flatMap_append,
      ← List.flatMap_append]
    -- where the row starts and stops in the two texts
    obtain ⟨hclosed, hclosed'⟩ := hA.inMarkup_eq hall
    rw [hA.here] at hclosed hclosed'
    rw [rowStart_eq_unmatchedOpening? hclosed, rowStart_eq_unmatchedOpening? hclosed',
      rowStop_append hangle hlength, rowStop_append hangle hlength, List.map_reverse,
      List.map_reverse]
    have hstarts := unmatchedOpening?_tagsAt
      (List.forall₂_reverse_iff.2 (hA.rowTags hall 0 0)) 0
    have hstops := unmatchedClosing?_tagsAt (hA.rowTags hafter
      ((done ++ before).flatMap Token.text ++ (Tag.table name).text).length
      ((done' ++ before').flatMap Token.text ++ (Tag.table name).text).length) 0
    right
    rcases hstarts with ⟨hs, hs'⟩ | ⟨k, k', hcut, hs, hs'⟩
    · rw [hs, hs']
      exact ⟨_, A.here, _, _, _, _, rfl, rfl, rfl, hall, hafter⟩
    rcases hstops with ⟨ht, ht'⟩ | ⟨m, m', hcut', ht, ht'⟩
    · rw [hs, hs', ht, ht']
      exact ⟨_, A.here, _, _, _, _, rfl, rfl, rfl, hall, hafter⟩
    -- the row reaches from the one cut to the other
    rw [hs, hs', ht, ht']
    obtain ⟨ds, row₁, ds', row₁', hbefore_eq, hbefore_eq', hds, hrow₁, rfl, rfl⟩ := hcut
    obtain ⟨row₂, ts, row₂', ts', rfl, rfl, hrow₂, hts, rfl, rfl⟩ := hcut'
    rw [hbefore_eq, hbefore_eq']
    have hmark : Aligned A A.here A.here
        (row₁ ++ .tag (.table name) :: row₂) (row₁' ++ .tag (.table name) :: row₂') :=
      hrow₁.append (.tag hname hrow₂)
    have hrow := hA.expandRow hdata name hmark
    obtain ⟨es, es', hes, heu, hev⟩ := hrow.text
    simp only [List.flatMap_append, List.flatMap_cons, Token.text] at hrow heu hev
    simp only [Nat.zero_add, Nat.add_sub_cancel_left, List.flatMap_append, List.drop_left,
      List.take_left, List.append_assoc]
    rw [heu, hev, ← hrow.withoutText, ← List.flatMap_append, ← List.flatMap_append]
    exact ⟨_, A.here, _, _, _, _, rfl, rfl, rfl, hds.append hes, hts⟩

/-- **The table pass keeps texts side by side**, when they share their markup. -/
theorem SharesMarkup.expandTables (hA : SharesMarkup options.window A)
    (hdata : DataAlike A options data data') (h : Aligned A A.here q us vs) :
    Alike A A.here q
      (MailMerge.expandTables data options (us.flatMap Token.text))
      (MailMerge.expandTables data' options (vs.flatMap Token.text)) := by
  -- rounds go on with less text, and with what has been dealt with side by side
  suffices hfrom : ∀ n {p : Bool} {done done' us vs : List Token},
      Aligned A A.here p done done' → Aligned A p q us vs →
      (us.flatMap Token.text).length ≤ n →
      Alike A A.here q
        (expandTablesFrom data options (done.flatMap Token.text) (us.flatMap Token.text))
        (expandTablesFrom data' options (done'.flatMap Token.text) (vs.flatMap Token.text)) from
    hfrom _ (.nil A.here) h (Nat.le_refl _)
  intro n
  induction n using Nat.strongRecOn with
  | ind n ihn =>
    intro p done done' us vs hdone h hn
    rcases hA.tableRound hdata hdone h with ⟨hu, hv⟩ |
      ⟨note, r, ds, ds', ts, ts', hu, hv, hnote, hds, hts⟩
    · rw [expandTablesFrom_of_none hu, expandTablesFrom_of_none hv]
      refine ⟨⟨_, _, hdone.append h, ?_, ?_⟩, rfl⟩
      · rw [List.flatMap_append]
        rfl
      · rw [List.flatMap_append]
        rfl
    · have hlt := length_lt_of_tableRound hu
      rw [expandTablesFrom_of_some hu, expandTablesFrom_of_some hv]
      exact (Alike.of_text_eq_nil _ hnote).append (ihn _ (by omega) hds hts (Nat.le_refl _))

end Rounds

end SharedMarkup

/-! ### Holes in character data -/

/-- How a place of a text leads on: an angle bracket opens markup, or closes it. Neither holes nor
further opening angle brackets stand in markup, and no braces stand outside of tags. -/
def markupMove : Bool → Option Char → Bool → Prop
  | false, none, q => q = false
  | true, none, _ => False
  | p, some c, q => isBrace c = false ∧ (p = true → c ≠ '<') ∧ q = inMarkup p [c]

/-- Tags and holes in character data. -/
def inCharacterData (window : Nat) (w w' : List Char) : Alignment Bool :=
  holed false (fun t => t.Fits window) markupMove w w'

section CharacterData

variable {w w' : List Char} {p q : Bool} {us vs : List Token}

theorem isBrace_of_markupMove {c : Char} (h : markupMove p (some c) q) : isBrace c = false := by
  cases p <;> exact h.1

/-- Texts with the same character at a place share their markup there. -/
theorem markupMove_some {c : Char} (h : markupMove p (some c) q) :
    (p = true → c ≠ '<') ∧ q = inMarkup p [c] := by
  cases p <;> exact h.2

/-- Texts share their markup when harmless texts without angle brackets are filled in. -/
theorem sharesMarkup_inCharacterData {window : Nat} (hw : Harmless window w)
    (hw' : Harmless window w') (ha : AngleFree w) (ha' : AngleFree w') :
    SharesMarkup window (inCharacterData window w w') where
  here := rfl
  tag ht := ht
  block := by
    rintro p q a b ⟨o, ho, rfl, rfl⟩
    cases o with
    | some c => exact Or.inr ⟨c, rfl, rfl, markupMove_some ho⟩
    | none =>
      cases p with
      | true => exact absurd ho id
      | false => exact Or.inl ⟨rfl, ho, fun hm => (ha _ hm).1 rfl, fun hm => (ha' _ hm).1 rfl⟩
  read h := h.spellLoops_tokens hw hw' (fun t ht => ht) isBrace_of_markupMove

/-- The table pass keeps texts with holes side by side. -/
theorem Aligned.expandTables {options : Options} {data data' : DataTree}
    (hw : Harmless options.window w) (hw' : Harmless options.window w')
    (ha : AngleFree w) (ha' : AngleFree w')
    (hdata : DataAlike (inCharacterData options.window w w') options data data')
    (h : Aligned (inCharacterData options.window w w') false q us vs) :
    Alike (inCharacterData options.window w w') false q
      (MailMerge.expandTables data options (us.flatMap Token.text))
      (MailMerge.expandTables data' options (vs.flatMap Token.text)) :=
  (sharesMarkup_inCharacterData hw hw' ha ha').expandTables hdata h

end CharacterData

end MailMerge
