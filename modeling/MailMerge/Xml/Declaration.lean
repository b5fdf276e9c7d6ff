import MailMerge.Xml.Attribute

/-!
# Declarations

What stands between the tags of an XML text and says nothing about elements: comments, character
data sections, document types and processing instructions. They are passed over, so all that matters
is where they end.

A document type can hold declarations in square brackets. Comments and instructions among them are
passed over whole. Anything else that starts with an angle bracket there lasts up to the next `>`,
and only in the declarations with one of the `quotingKeywords` can a `>` stand in quotes.
-/

namespace MailMerge.Xml

open MailMerge.Text (Glyph glyphsOf)

/-- The text up to the first glyph outside of quotes at which `stops` holds, and the text from there
on; `quote` is the quotation mark that is waited for. -/
def breakUnquoted? (stops : Glyph → Bool) (quote : Option Glyph) :
    List Glyph → Option (List Glyph × List Glyph)
  | [] => none
  | g :: s =>
    let more (quote : Option Glyph) :=
      (breakUnquoted? stops quote s).map fun (before, rest) => (g :: before, rest)
    match quote with
    | some q => more (if g = q then none else some q)
    | none =>
      if stops g then some ([], g :: s)
      else more (if g = .char '"' ∨ g = .char '\'' then some g else none)

theorem eq_append_of_breakUnquoted? {stops : Glyph → Bool} {quote : Option Glyph}
    {s before rest : List Glyph} (h : breakUnquoted? stops quote s = some (before, rest)) :
    s = before ++ rest := by
  induction s generalizing quote before with
  | nil => simp [breakUnquoted?] at h
  | cons g s ih =>
    simp only [breakUnquoted?] at h
    split at h
    · simp only [Option.map_eq_some_iff, Prod.mk.injEq, Prod.exists] at h
      obtain ⟨b, r, hb, rfl, rfl⟩ := h
      simp [ih hb]
    · split at h
      · simp only [Option.some.injEq, Prod.mk.injEq] at h
        simp [← h.1, ← h.2]
      · simp only [Option.map_eq_some_iff, Prod.mk.injEq, Prod.exists] at h
        obtain ⟨b, r, hb, rfl, rfl⟩ := h
        simp [ih hb]

/-- The text up to the `>` that ends a tag, which stands outside of quotes, and what follows it. -/
def tagEnd? (s : List Glyph) : Option (List Glyph × List Glyph) :=
  (breakUnquoted? (· == .char '>') none s).map fun (tag, rest) => (tag, rest.tail)

theorem length_le_of_tagEnd? {s tag rest : List Glyph} (h : tagEnd? s = some (tag, rest)) :
    rest.length ≤ s.length := by
  simp only [tagEnd?, Option.map_eq_some_iff, Prod.mk.injEq, Prod.exists] at h
  obtain ⟨b, r, hb, rfl, rfl⟩ := h
  simp [eq_append_of_breakUnquoted? hb]
  omega

/-- What follows `opening`, when `s` starts with it. -/
def after? (opening : String) (s : List Glyph) : Option (List Glyph) :=
  Text.after? (glyphsOf opening.toList) s

theorem length_le_of_after? {opening : String} {s rest : List Glyph}
    (h : after? opening s = some rest) : rest.length ≤ s.length := by
  have := congrArg List.length (Text.eq_append_of_after? h)
  simp only [List.length_append] at this
  omega

/-- What follows the first occurrence of `closing` in `s`. -/
def past? (closing : String) (s : List Glyph) : Option (List Glyph) :=
  (Text.breakAt? (glyphsOf closing.toList) s).map Prod.snd

theorem length_le_of_past? {closing : String} {s rest : List Glyph}
    (h : past? closing s = some rest) : rest.length ≤ s.length := by
  obtain ⟨⟨before, r⟩, hb, rfl⟩ := Option.map_eq_some_iff.1 h
  have := congrArg List.length (Text.eq_append_of_breakAt? hb)
  simp only [List.length_append] at this
  change r.length ≤ s.length
  omega

/-! ### Document types -/

/-- The keywords of the declarations in which a `>` can stand in quotes. -/
def quotingKeywords : List String := ["!ENTITY", "!ATTLIST", "!NOTATION"]

/-- What follows the comment, instruction or declaration that an angle bracket before `s` starts. -/
def afterMarkup? (s : List Glyph) : Option (List Glyph) :=
  match after? "!--" s with
  | some body => past? "-->" body
  | none =>
    match after? "?" s with
    | some body => past? "?>" body
    | none =>
      match quotingKeywords.findSome? (after? · s) with
      | some body => (tagEnd? body).map Prod.snd
      | none => past? ">" s

theorem length_le_of_afterMarkup? {s rest : List Glyph} (h : afterMarkup? s = some rest) :
    rest.length ≤ s.length := by
  unfold afterMarkup? at h
  split at h
  · next hb => exact Nat.le_trans (length_le_of_past? h) (length_le_of_after? hb)
  split at h
  · next hb => exact Nat.le_trans (length_le_of_past? h) (length_le_of_after? hb)
  split at h
  · next hb =>
    obtain ⟨keyword, _, hk⟩ := List.exists_of_findSome?_eq_some hb
    obtain ⟨⟨tag, r⟩, ht, rfl⟩ := Option.map_eq_some_iff.1 h
    exact Nat.le_trans (length_le_of_tagEnd? ht) (length_le_of_after? hk)
  · exact length_le_of_past? h

/-- What follows the closing bracket of the declarations in a document type. -/
def afterDeclarations? (s : List Glyph) : Option (List Glyph) :=
  match s with
  | [] => none
  | .char ']' :: rest => some rest
  | .char '<' :: rest =>
    match h : afterMarkup? rest with
    | some after =>
      have := length_le_of_afterMarkup? h
      afterDeclarations? after
    | none => none
  | _ :: rest => afterDeclarations? rest
termination_by s.length

theorem length_le_of_afterDeclarations? {s rest : List Glyph}
    (h : afterDeclarations? s = some rest) : rest.length ≤ s.length := by
  fun_induction afterDeclarations? s with
  | case1 => simp at h
  | case2 =>
    cases h
    simp
  | case3 _ _ _ hle ih =>
    have := ih h
    simp only [List.length_cons]
    omega
  | case4 => simp at h
  | case5 _ _ _ _ ih =>
    have := ih h
    simp only [List.length_cons]
    omega

/-- What follows the `>` that ends a document type. A document type is not blank. Quotes count in
front of its declarations, but not behind them. -/
def afterDoctype? (s : List Glyph) : Option (List Glyph) :=
  match breakUnquoted? (fun g => g == .char '>' || g == .char '[') none s with
  | some (_, .char '[' :: rest) => (afterDeclarations? rest).bind (past? ">")
  | some (head, rest) => if head.all isSpace then none else some rest.tail
  | none => none

theorem length_le_of_afterDoctype? {s rest : List Glyph} (h : afterDoctype? s = some rest) :
    rest.length ≤ s.length := by
  unfold afterDoctype? at h
  split at h
  · next head body hs =>
    obtain ⟨after, ha, hr⟩ := Option.bind_eq_some_iff.1 h
    have h₁ := length_le_of_past? hr
    have h₂ := length_le_of_afterDeclarations? ha
    have h₃ := congrArg List.length (eq_append_of_breakUnquoted? hs)
    simp only [List.length_append, List.length_cons] at h₃
    omega
  · next head body _ hs =>
    split at h
    · simp at h
    · cases h
      simp [eq_append_of_breakUnquoted? hs]
      omega
  · simp at h

/-! ### What an angle bracket and a mark start -/

/-- What follows `opening`, when `s` starts with it but for the case of ASCII letters. -/
def afterAnyCase? (opening : String) (s : List Glyph) : Option (List Glyph) :=
  let lower : Glyph → Glyph
    | .char c => .char c.toLower
    | .stray b => .stray b
  let letters := opening.toList
  if (s.take letters.length).map lower = glyphsOf (letters.map Char.toLower) then
    some (s.drop letters.length)
  else none

theorem length_le_of_afterAnyCase? {opening : String} {s rest : List Glyph}
    (h : afterAnyCase? opening s = some rest) : rest.length ≤ s.length := by
  simp only [afterAnyCase?] at h
  split at h
  · cases h
    simp
  · simp at h

/-- What follows the comment, character data section or document type that `<!` starts. Only the
keyword of a document type may be written in any case. -/
def afterDeclaration? (s : List Glyph) : Option (List Glyph) :=
  match after? "--" s with
  | some body => past? "-->" body
  | none =>
    match after? "[CDATA[" s with
    | some body => past? "]]>" body
    | none => (afterAnyCase? "DOCTYPE" s).bind afterDoctype?

theorem length_le_of_afterDeclaration? {s rest : List Glyph}
    (h : afterDeclaration? s = some rest) : rest.length ≤ s.length := by
  unfold afterDeclaration? at h
  split at h
  · next hb => exact Nat.le_trans (length_le_of_past? h) (length_le_of_after? hb)
  split at h
  · next hb => exact Nat.le_trans (length_le_of_past? h) (length_le_of_after? hb)
  · obtain ⟨body, hb, hr⟩ := Option.bind_eq_some_iff.1 h
    exact Nat.le_trans (length_le_of_afterDoctype? hr) (length_le_of_afterAnyCase? hb)

/-- What follows the processing instruction that `<?` starts. -/
def afterInstruction? (s : List Glyph) : Option (List Glyph) :=
  if s.head? = some (.char '>') then none else past? "?>" s

theorem length_le_of_afterInstruction? {s rest : List Glyph}
    (h : afterInstruction? s = some rest) : rest.length ≤ s.length := by
  unfold afterInstruction? at h
  split at h
  · simp at h
  · exact length_le_of_past? h

end MailMerge.Xml
