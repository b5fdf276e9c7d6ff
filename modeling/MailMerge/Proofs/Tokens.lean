import Mathlib.Algebra.Ring.Nat
import MailMerge.Template.Span

/-!
# Reading tokens back

`tokens` cuts a text into tags and characters. Whether a tag starts at a place depends on nothing
but the text from there: `tagAt?` looks for one, and finds exactly the written tags that fit the
window (`tagAt?_eq_some_iff`). So `tokens` goes from place to place, taking a tag where one starts
and a character elsewhere (`tokens_text_append`, `tokens_cons`).

A list of tokens is **proper** when its tags fit and its characters are no braces. Such a list is
read back from its own text, whatever follows (`tokens_flatMap_text_append`). A text that is not
proper can still be cut at any character that stands in no tag (`tokens_append_separator`) and at
any written tag (`tokens_append_text_append`).
-/

namespace MailMerge

/-- Whether all characters of a text have a property is decided along the text, not by a search
through all characters there are. -/
instance (priority := high) decidableForallMem {p : Char → Prop} [DecidablePred p]
    (s : List Char) : Decidable (∀ c ∈ s, p c) :=
  List.decidableBAll p s

/-! ### Braces and names -/

/-- Whether a character is a brace. -/
def isBrace (c : Char) : Bool :=
  c == '{' || c == '}'

/-- A text without braces. -/
def BraceFree (s : List Char) : Prop :=
  ∀ c ∈ s, isBrace c = false

instance : DecidablePred BraceFree :=
  fun s => inferInstanceAs (Decidable (∀ c ∈ s, isBrace c = false))

theorem braceFree_nil : BraceFree [] := by
  simp [BraceFree]

theorem braceFree_cons {c : Char} {s : List Char} :
    BraceFree (c :: s) ↔ isBrace c = false ∧ BraceFree s := by
  simp [BraceFree]

theorem braceFree_append {s r : List Char} :
    BraceFree (s ++ r) ↔ BraceFree s ∧ BraceFree r := by
  simp [BraceFree, or_imp, forall_and]

theorem ne_brace {c : Char} (h : isBrace c = false) : c ≠ '{' ∧ c ≠ '}' := by
  simpa [isBrace] using h

theorem isBrace_of_isNameChar {c : Char} (h : isNameChar c = true) : isBrace c = false := by
  rw [Bool.eq_false_iff]
  intro hb
  simp only [isBrace, Bool.or_eq_true, beq_iff_eq] at hb
  rcases hb with rfl | rfl <;> revert h <;> decide

theorem isNameChar_of_isIdentifier {s : List Char} (h : isIdentifier s = true) :
    ∀ c ∈ s, isNameChar c = true := by
  simp only [isIdentifier, Bool.and_eq_true, List.all_eq_true] at h
  exact h.2

theorem ne_nil_of_isIdentifier {s : List Char} (h : isIdentifier s = true) : s ≠ [] := by
  rintro rfl
  simp [isIdentifier] at h

namespace Tag

/-- The name in a tag is an identifier, if there is one. -/
def IsNamed : Tag → Prop
  | simple name | loopOpen name | condOpen name | close name | table name =>
    isIdentifier name.toList = true
  | otherwise => True

instance : DecidablePred IsNamed
  | simple _ | loopOpen _ | condOpen _ | close _ | table _ => inferInstanceAs (Decidable (_ = true))
  | otherwise => inferInstanceAs (Decidable True)

/-- A tag that a text can hold: its name is an identifier, and its closing brace lies in the
window. -/
structure Fits (window : Nat) (t : Tag) : Prop where
  named : t.IsNamed
  size : Text.byteSize t.inner < window

instance (window : Nat) : DecidablePred (Fits window) :=
  fun t => decidable_of_iff (t.IsNamed ∧ Text.byteSize t.inner < window)
    ⟨fun h => ⟨h.1, h.2⟩, fun h => ⟨h.named, h.size⟩⟩

/-- Characters that stand in no tag. -/
def isSeparator (c : Char) : Bool :=
  !isBrace c && !isNameChar c && c != '#' && c != '?' && c != '/' && c != ':'

theorem name?_eq_some {name : String} (h : isIdentifier name.toList = true) :
    name? name.toList = some name := by
  simp [name?, h]

/-- The characters of a tag without its braces. -/
theorem mem_inner {t : Tag} (h : t.IsNamed) {c : Char} (hc : c ∈ t.inner) :
    isNameChar c = true ∨ c = '#' ∨ c = '?' ∨ c = '/' ∨ c = ':' := by
  cases t with
  | otherwise =>
    refine (by decide : ∀ c ∈ Tag.otherwise.inner,
      isNameChar c = true ∨ c = '#' ∨ c = '?' ∨ c = '/' ∨ c = ':') c hc
  | table name =>
    rcases List.mem_append.1 hc with hw | hn
    · exact (by decide : ∀ c ∈ tableWord,
        isNameChar c = true ∨ c = '#' ∨ c = '?' ∨ c = '/' ∨ c = ':') c hw
    · exact Or.inl (isNameChar_of_isIdentifier h c hn)
  | simple name => exact Or.inl (isNameChar_of_isIdentifier h c hc)
  | loopOpen name | condOpen name | close name =>
    rcases List.mem_cons.1 hc with rfl | hn
    · simp
    · exact Or.inl (isNameChar_of_isIdentifier h c hn)

theorem braceFree_inner {t : Tag} (h : t.IsNamed) : BraceFree t.inner := by
  intro c hc
  rcases mem_inner h hc with hn | rfl | rfl | rfl | rfl
  · exact isBrace_of_isNameChar hn
  all_goals decide

theorem inner_ne_nil {t : Tag} (h : t.IsNamed) : t.inner ≠ [] := by
  cases t with
  | simple name => exact ne_nil_of_isIdentifier h
  | table name => exact List.append_ne_nil_of_left_ne_nil (by decide : tableWord ≠ []) _
  | loopOpen | condOpen | close | otherwise => simp [inner]

/-- No character of a tag is a separator. -/
theorem isSeparator_of_mem_text {t : Tag} (h : t.IsNamed) {c : Char} (hc : c ∈ t.text) :
    isSeparator c = false := by
  simp only [text, List.mem_cons, List.mem_append, List.not_mem_nil, or_false] at hc
  rcases hc with rfl | hc | rfl
  · decide
  · rcases mem_inner h hc with hn | rfl | rfl | rfl | rfl
    · simp [isSeparator, hn]
    all_goals decide
  · decide

theorem notMem_text {t : Tag} (h : t.IsNamed) {d : Char} (hd : isSeparator d = true) :
    d ∉ t.text := by
  intro hm
  rw [isSeparator_of_mem_text h hm] at hd
  cases hd

theorem named_of_name? {s : List Char} {name : String} (h : name? s = some name) :
    isIdentifier name.toList = true := by
  rw [eq_of_name? h]
  simp only [name?] at h
  split at h
  · assumption
  · cases h

/-- A tag that is read has a name. -/
theorem named_of_ofInner? {s : List Char} {t : Tag} (h : ofInner? s = some t) : t.IsNamed := by
  cases s with
  | nil => simp [ofInner?] at h
  | cons c s =>
    simp only [ofInner?] at h
    repeat' split at h
    all_goals try obtain ⟨name, hn, rfl⟩ := Option.map_eq_some_iff.1 h
    all_goals try exact named_of_name? hn
    all_goals cases h
    trivial

/-- A tag with a name is read from its own text. -/
theorem ofInner?_inner {t : Tag} (h : t.IsNamed) : ofInner? t.inner = some t := by
  cases t with
  | loopOpen name | condOpen name | close name =>
    simp [inner, ofInner?, name?_eq_some (show isIdentifier name.toList = true from h)]
  | otherwise => rfl
  | table name =>
    have hn : isIdentifier name.toList = true := h
    have ha : Text.after? tableWord (tableWord ++ name.toList) = some name.toList :=
      Text.after?_append _ _
    have hw : tableWord ++ name.toList = 't' :: ("able:".toList ++ name.toList) := rfl
    rw [inner, hw, ofInner?, ← hw, ha]
    simp [name?_eq_some hn]
  | simple name =>
    have hn : isIdentifier name.toList = true := h
    have hc := isNameChar_of_isIdentifier hn
    -- a name holds no colon, so it is not taken for a mark of a row
    have ha : Text.after? tableWord name.toList = none := by
      rw [Option.eq_none_iff_forall_not_mem]
      intro r hr
      have hmem : ':' ∈ name.toList := by
        rw [Text.eq_append_of_after? hr]
        exact List.mem_append_left _ (by decide : ':' ∈ tableWord)
      exact absurd (hc _ hmem) (by decide)
    rw [inner]
    cases hs : name.toList with
    | nil => exact absurd hs (ne_nil_of_isIdentifier hn)
    | cons c s =>
      rw [hs] at hc ha
      have hne : ∀ d, isNameChar d = false → c ≠ d := by
        rintro d hd rfl
        simp [hc c (by simp)] at hd
      rw [ofInner?, if_neg (hne '#' (by decide)), if_neg (hne '?' (by decide)),
        if_neg (hne '/' (by decide)), if_neg (hne ':' (by decide)), ha, ← hs]
      simp [name?_eq_some hn]

end Tag

/-! ### The tag at a place -/

/-- Below `2 ^ 63`, the window is one byte more than the bound. -/
theorem windowSize_eq {bound : UInt64} (h : bound.toNat < 2 ^ 63) :
    windowSize bound = max bound.toNat 1 + 1 := by
  have hmax : (max bound 1).toNat = max bound.toNat 1 := by
    show (if bound ≤ 1 then 1 else bound).toNat = _
    split
    · next hle =>
      rw [UInt64.le_iff_toNat_le] at hle
      exact (Nat.max_eq_right hle).symm
    · next hlt =>
      rw [UInt64.le_iff_toNat_le] at hlt
      exact (Nat.max_eq_left (Nat.le_of_not_le hlt)).symm
  rw [windowSize, UInt64.toNat_add, hmax, Nat.mod_eq_of_lt]
  · rfl
  · rw [UInt64.toNat_one]
    omega

theorem body?_append {room : Nat} {b : List Char} (hb : BraceFree b)
    (hroom : Text.byteSize b < room) (s : List Char) :
    body? room (b ++ '}' :: s) = some (b, s) := by
  induction b generalizing room with
  | nil =>
    have : room ≠ 0 := by
      simp at hroom
      omega
    simp [body?, this]
  | cons c b ih =>
    obtain ⟨hc, hb⟩ := braceFree_cons.1 hb
    obtain ⟨ho, hcl⟩ := ne_brace hc
    rw [Text.byteSize_cons] at hroom
    have h0 : room ≠ 0 := by omega
    rw [List.cons_append, body?, if_neg h0, if_neg ho, if_neg hcl, ih hb (by omega)]
    rfl

/-- What is read as the body of a span has no braces and lies in the window. -/
theorem braceFree_of_body? {room : Nat} {s b rest : List Char}
    (h : body? room s = some (b, rest)) : BraceFree b ∧ Text.byteSize b < room := by
  induction s generalizing room b with
  | nil => simp [body?] at h
  | cons c s ih =>
    simp only [body?] at h
    split at h
    · cases h
    split at h
    · cases h
    split at h
    · cases h
      exact ⟨braceFree_nil, by simp; omega⟩
    · next h0 ho hcl =>
      obtain ⟨⟨b', r⟩, hr, he⟩ := Option.map_eq_some_iff.1 h
      cases he
      obtain ⟨hb, hsize⟩ := ih hr
      refine ⟨braceFree_cons.2 ⟨by simp [isBrace, ho, hcl], hb⟩, ?_⟩
      simp only [Text.byteSize_cons] at hsize ⊢
      omega

theorem span?_eq_some_iff {window : Nat} {s b rest : List Char} :
    span? window s = some (b, rest) ↔
      s = '{' :: (b ++ '}' :: rest) ∧ b ≠ [] ∧ BraceFree b ∧ Text.byteSize b < window := by
  constructor
  · intro h
    refine ⟨eq_append_of_span? h, ?_⟩
    unfold span? at h
    split at h
    · split at h
      · next hb =>
        cases h
        exact ⟨by simp, braceFree_of_body? hb⟩
      · cases h
    · cases h
  · rintro ⟨rfl, hne, hb, hsize⟩
    rw [span?, body?_append hb hsize]
    cases b with
    | nil => exact absurd rfl hne
    | cons c b => rfl

theorem span?_eq_none_of_ne {window : Nat} {c : Char} (hc : c ≠ '{') (s : List Char) :
    span? window (c :: s) = none := by
  rw [Option.eq_none_iff_forall_not_mem]
  rintro ⟨b, rest⟩ h
  have := (span?_eq_some_iff.1 h).1
  simp [hc] at this

/-- The tag that starts a text, and what follows it. -/
def tagAt? (window : Nat) (s : List Char) : Option (Tag × List Char) :=
  (span? window s).bind fun (body, rest) => (Tag.ofInner? body).map fun t => (t, rest)

/-- The tags that start texts are the written tags that fit. -/
theorem tagAt?_eq_some_iff {window : Nat} {s rest : List Char} {t : Tag} :
    tagAt? window s = some (t, rest) ↔ t.Fits window ∧ s = t.text ++ rest := by
  constructor
  · intro h
    obtain ⟨⟨b, r⟩, hs, hb⟩ := Option.bind_eq_some_iff.1 h
    obtain ⟨t', ht, he⟩ := Option.map_eq_some_iff.1 hb
    cases he
    obtain ⟨rfl, -, -, hsize⟩ := span?_eq_some_iff.1 hs
    have hi := Tag.inner_of_ofInner? ht
    exact ⟨⟨Tag.named_of_ofInner? ht, hi ▸ hsize⟩, by simp [Tag.text, hi]⟩
  · rintro ⟨⟨hn, hsize⟩, rfl⟩
    have hs : span? window (t.text ++ rest) = some (t.inner, rest) :=
      span?_eq_some_iff.2
        ⟨by simp [Tag.text], Tag.inner_ne_nil hn, Tag.braceFree_inner hn, hsize⟩
    simp [tagAt?, hs, Tag.ofInner?_inner hn]

theorem tagAt?_eq_none_of_ne {window : Nat} {c : Char} (hc : c ≠ '{') (s : List Char) :
    tagAt? window (c :: s) = none := by
  simp [tagAt?, span?_eq_none_of_ne hc]

/-! ### Tokens from place to place -/

@[simp]
theorem tokens_nil (window : Nat) : tokens window [] = [] := by
  simp [tokens, pieces]

theorem tokens_of_span? {window : Nat} {s b rest : List Char}
    (h : span? window s = some (b, rest)) :
    tokens window s = (Piece.span b).tokens ++ tokens window rest := by
  cases s with
  | nil => simp [span?] at h
  | cons c s =>
    rw [tokens, pieces]
    split
    · next h' =>
      rw [h] at h'
      cases h'
      simp [tokens]
    · next h' => simp [h] at h'

theorem tokens_of_span?_eq_none {window : Nat} {c : Char} {s : List Char}
    (h : span? window (c :: s) = none) : tokens window (c :: s) = .char c :: tokens window s := by
  rw [tokens, pieces]
  split
  · next h' => simp [h] at h'
  · simp [tokens, Piece.tokens]

theorem tokens_braceFree_append {window : Nat} {s : List Char} (h : BraceFree s) (r : List Char) :
    tokens window (s ++ r) = s.map .char ++ tokens window r := by
  induction s with
  | nil => rfl
  | cons c s ih =>
    obtain ⟨hc, hs⟩ := braceFree_cons.1 h
    rw [List.cons_append, tokens_of_span?_eq_none (span?_eq_none_of_ne (ne_brace hc).1 _), ih hs]
    rfl

/-- Where a tag starts, it is taken whole. -/
theorem tokens_text_append {window : Nat} {t : Tag} (h : t.Fits window) (s : List Char) :
    tokens window (t.text ++ s) = .tag t :: tokens window s := by
  have hs : span? window (t.text ++ s) = some (t.inner, s) :=
    span?_eq_some_iff.2
      ⟨by simp [Tag.text], Tag.inner_ne_nil h.named, Tag.braceFree_inner h.named, h.size⟩
  rw [tokens_of_span? hs]
  simp [Piece.tokens, Tag.ofInner?_inner h.named]

/-- Where no tag starts, one character is taken. -/
theorem tokens_cons {window : Nat} {c : Char} {s : List Char}
    (h : tagAt? window (c :: s) = none) : tokens window (c :: s) = .char c :: tokens window s := by
  cases hs : span? window (c :: s) with
  | none => exact tokens_of_span?_eq_none hs
  | some span =>
    -- a span that is no tag: its body has no braces, so nothing starts inside
    obtain ⟨b, rest⟩ := span
    have hb : Tag.ofInner? b = none := by simpa [tagAt?, hs] using h
    obtain ⟨he, -, hfree, -⟩ := span?_eq_some_iff.1 hs
    obtain ⟨rfl, rfl⟩ := List.cons.inj he
    rw [tokens_of_span? hs, tokens_braceFree_append hfree,
      tokens_of_span?_eq_none (span?_eq_none_of_ne (by decide) _)]
    simp [Piece.tokens, hb, Piece.text]

/-- Induction from place to place: at each place of a text a tag starts, or none does. -/
theorem placewise (window : Nat) {motive : List Char → Prop} (nil : motive [])
    (tag : ∀ (t : Tag) (s : List Char), t.Fits window → motive s → motive (t.text ++ s))
    (char : ∀ c s, tagAt? window (c :: s) = none → motive s → motive (c :: s)) :
    ∀ s, motive s
  | [] => nil
  | c :: s => by
    cases ht : tagAt? window (c :: s) with
    | none => exact char c s ht (placewise window nil tag char s)
    | some found =>
      obtain ⟨t, rest⟩ := found
      obtain ⟨hfits, hs⟩ := tagAt?_eq_some_iff.1 ht
      have hlt : rest.length < (c :: s).length := by
        rw [hs, List.length_append]
        simp [Tag.text]
      rw [hs]
      exact tag t rest hfits (placewise window nil tag char rest)
termination_by s => s.length
decreasing_by
  · exact Nat.lt_succ_self _
  · exact hlt

/-- The tags of a text fit. -/
theorem fits_of_mem_tokens {window : Nat} {s : List Char} {t : Tag}
    (h : .tag t ∈ tokens window s) : t.Fits window := by
  induction s using placewise window with
  | nil => simp at h
  | tag u s hfits ih =>
    rw [tokens_text_append hfits, List.mem_cons, Token.tag.injEq] at h
    rcases h with rfl | h
    · exact hfits
    · exact ih h
  | char c s hnone ih =>
    rw [tokens_cons hnone, List.mem_cons] at h
    exact ih (h.resolve_left (by simp))

/-! ### Proper lists of tokens -/

/-- A tag that fits, or a character that is no brace. -/
def Token.Proper (window : Nat) : Token → Prop
  | char c => isBrace c = false
  | tag t => t.Fits window

instance (window : Nat) : DecidablePred (Token.Proper window)
  | .char _ => inferInstanceAs (Decidable (_ = false))
  | .tag t => inferInstanceAs (Decidable (t.Fits window))

/-- Every brace of the text belongs to a tag. -/
def BracesInTags (window : Nat) (s : List Char) : Prop :=
  ∀ c, .char c ∈ tokens window s → isBrace c = false

theorem proper_of_bracesInTags {window : Nat} {s : List Char} (h : BracesInTags window s) :
    ∀ t ∈ tokens window s, t.Proper window := by
  intro t ht
  cases t with
  | char c => exact h c ht
  | tag t => exact fits_of_mem_tokens ht

theorem bracesInTags_iff {window : Nat} {s : List Char} :
    BracesInTags window s ↔ ∀ t ∈ tokens window s, t.Proper window :=
  ⟨proper_of_bracesInTags, fun h _ hc => h _ hc⟩

instance (window : Nat) : DecidablePred (BracesInTags window) :=
  fun _ => decidable_of_iff _ bracesInTags_iff.symm

/-- A proper list of tokens is read back from its text. -/
theorem tokens_flatMap_text_append {window : Nat} {ts : List Token}
    (h : ∀ t ∈ ts, t.Proper window) (s : List Char) :
    tokens window (ts.flatMap Token.text ++ s) = ts ++ tokens window s := by
  induction ts with
  | nil => rfl
  | cons t ts ih =>
    have hts := ih fun u hu => h u (List.mem_cons_of_mem _ hu)
    have ht := h t List.mem_cons_self
    rw [List.flatMap_cons, List.append_assoc, List.cons_append, ← hts]
    cases t with
    | char c => exact tokens_cons (tagAt?_eq_none_of_ne (ne_brace ht).1 _)
    | tag t => exact tokens_text_append ht _

theorem tokens_flatMap_text {window : Nat} {ts : List Token} (h : ∀ t ∈ ts, t.Proper window) :
    tokens window (ts.flatMap Token.text) = ts := by
  simpa using tokens_flatMap_text_append h []

theorem flatMap_text_map_tokenChar (s : List Char) : (s.map Token.char).flatMap Token.text = s := by
  induction s with
  | nil => rfl
  | cons c s ih => simp [Token.text, ih]

theorem flatMap_text_map_char_append (s : List Char) (ts : List Token) :
    (s.map Token.char ++ ts).flatMap Token.text = s ++ ts.flatMap Token.text := by
  rw [List.flatMap_append, flatMap_text_map_tokenChar]

theorem bracesInTags_flatMap_text {window : Nat} {ts : List Token}
    (h : ∀ t ∈ ts, t.Proper window) : BracesInTags window (ts.flatMap Token.text) := by
  intro c hc
  rw [tokens_flatMap_text h] at hc
  exact h _ hc

/-- A text whose braces belong to tags is read whatever follows. -/
theorem BracesInTags.tokens_append {window : Nat} {s : List Char} (h : BracesInTags window s)
    (r : List Char) : tokens window (s ++ r) = tokens window s ++ tokens window r := by
  have hread := tokens_flatMap_text_append (proper_of_bracesInTags h) r
  rwa [text_tokens] at hread

/-! ### Cutting texts -/

/-- A tag does not reach over a character that stands in no tag behind the opening brace. -/
theorem tagAt?_append_cons {window : Nat} {d : Char}
    (hd : ∀ t : Tag, t.IsNamed → d ∉ t.inner ++ ['}']) {c : Char} {a : List Char}
    (ha : tagAt? window (c :: a) = none) (b : List Char) :
    tagAt? window (c :: (a ++ d :: b)) = none := by
  rw [Option.eq_none_iff_forall_not_mem]
  rintro ⟨t, rest⟩ hmem
  obtain ⟨hfits, hs⟩ := tagAt?_eq_some_iff.1 hmem
  have hout : ∀ u, c :: a ≠ t.text ++ u := fun u hu => by
    rw [tagAt?_eq_some_iff.2 ⟨hfits, hu⟩] at ha
    cases ha
  rcases List.append_eq_append_iff.1 (show (c :: a) ++ d :: b = t.text ++ rest from hs) with
    ⟨u, htext, hu⟩ | ⟨u, hu, -⟩
  · cases u with
    | nil => exact hout [] (by simp [htext])
    | cons e u =>
      obtain ⟨rfl, -⟩ := List.cons.inj hu
      refine hd t hfits.named ?_
      rw [(List.cons.inj htext).2]
      simp
  · exact hout u hu

/-- A text can be cut before a character that stands in no tag behind the opening brace. -/
theorem tokens_append_cons {window : Nat} {d : Char}
    (hd : ∀ t : Tag, t.IsNamed → d ∉ t.inner ++ ['}']) (a b : List Char) :
    tokens window (a ++ d :: b) = tokens window a ++ tokens window (d :: b) := by
  induction a using placewise window with
  | nil => simp
  | tag t a hfits ih =>
    rw [List.append_assoc, tokens_text_append hfits, tokens_text_append hfits, ih,
      List.cons_append]
  | char c a hnone ih =>
    rw [List.cons_append, tokens_cons (tagAt?_append_cons hd hnone b), tokens_cons hnone, ih,
      List.cons_append]

/-- A text can be cut at a character that stands in no tag. -/
theorem tokens_append_separator {window : Nat} {d : Char} (hd : Tag.isSeparator d = true)
    (a b : List Char) :
    tokens window (a ++ d :: b) = tokens window a ++ .char d :: tokens window b := by
  have hbrace : d ≠ '{' := by
    rintro rfl
    exact absurd hd (by decide)
  rw [tokens_append_cons (fun t ht hm => Tag.notMem_text ht hd (List.mem_cons_of_mem _ hm)),
    tokens_cons (tagAt?_eq_none_of_ne hbrace b)]

/-- A written tag that fits is read wherever it stands. -/
theorem tokens_append_text_append {window : Nat} {t : Tag} (h : t.Fits window)
    (a b : List Char) :
    tokens window (a ++ (t.text ++ b)) = tokens window a ++ .tag t :: tokens window b := by
  have hbrace : ∀ u : Tag, u.IsNamed → '{' ∉ u.inner ++ ['}'] := by
    intro u hu hm
    rcases List.mem_append.1 hm with hm | hm
    · exact absurd (Tag.braceFree_inner hu _ hm) (by decide)
    · exact absurd hm (by decide)
  rw [← tokens_text_append h]
  exact tokens_append_cons hbrace a (t.inner ++ ['}'] ++ b)

/-- A tag that is read stands in the text. -/
theorem exists_append_of_mem_tokens {window : Nat} {s : List Char} {t : Tag}
    (h : .tag t ∈ tokens window s) : ∃ a b, s = a ++ (t.text ++ b) := by
  obtain ⟨us, vs, hts⟩ := List.append_of_mem h
  refine ⟨us.flatMap Token.text, vs.flatMap Token.text, ?_⟩
  rw [← text_tokens window s, hts, List.flatMap_append, List.flatMap_cons]
  rfl

end MailMerge
