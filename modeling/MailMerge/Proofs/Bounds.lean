import MailMerge.Proofs.Gathering
import MailMerge.Proofs.Leftover
import MailMerge.Proofs.Sweeps

/-!
# Bounds on the length of tags

The bound on the length of a tag matters to a text only through the spans and tags in it: when two
windows see the same of them (`SameSpans`, `SameTags`), the text is cut into the same pieces and
tokens. An expansion reads more texts than its template, since each pass reads what the one before
has left (`scannedTexts`). It is the same for two bounds whose windows see the same tags in all of
these texts (`expand_withBound`).

Windows beyond the length of a text see everything in it (`sameSpans_of_inRange`). So all bounds
from the length of a text on are alike, as long as no window wraps. What bounds do to a text is
put together in `BoundsAgree`, and is so of all texts (`bounds_agree`).
-/

namespace MailMerge

/-! ### Windows that see the same -/

section SameTags

variable {window window' : Nat} {s r : List Char}

/-- Whether two windows see the same spans in a text. -/
def SameSpans (window window' : Nat) (s : List Char) : Prop :=
  ∀ body, BraceFree body → '{' :: (body ++ ['}']) <:+: s →
    (Text.byteSize body < window ↔ Text.byteSize body < window')

/-- Whether two windows see the same tags in a text. -/
def SameTags (window window' : Nat) (s : List Char) : Prop :=
  ∀ t : Tag, t.text <:+: s → (t.Fits window ↔ t.Fits window')

theorem SameSpans.of_infix (h : SameSpans window window' s) (hr : r <:+: s) :
    SameSpans window window' r :=
  fun body hfree hbody => h body hfree (hbody.trans hr)

theorem SameTags.of_infix (h : SameTags window window' s) (hr : r <:+: s) :
    SameTags window window' r :=
  fun t ht => h t (ht.trans hr)

theorem SameSpans.sameTags (h : SameSpans window window' s) : SameTags window window' s := by
  intro t ht
  constructor
  · rintro ⟨hnamed, hsize⟩
    exact ⟨hnamed, (h t.inner (Tag.braceFree_inner hnamed) ht).1 hsize⟩
  · rintro ⟨hnamed, hsize⟩
    exact ⟨hnamed, (h t.inner (Tag.braceFree_inner hnamed) ht).2 hsize⟩

theorem SameSpans.span?_eq (h : SameSpans window window' s) : span? window s = span? window' s := by
  refine Option.ext fun found => ?_
  obtain ⟨body, rest⟩ := found
  rw [span?_eq_some_iff, span?_eq_some_iff]
  refine and_congr_right fun hs => and_congr_right fun _ => and_congr_right fun hfree => ?_
  exact h body hfree ⟨[], rest, by simp [hs]⟩

/-- A text is cut into the same pieces. -/
theorem SameSpans.pieces_eq (h : SameSpans window window' s) :
    pieces window s = pieces window' s := by
  fun_induction pieces window s with
  | case1 => rw [pieces]
  | case2 c rest body after hspan _ ih =>
    have hafter : after <:+: c :: rest := by
      rw [eq_append_of_span? hspan]
      exact ⟨'{' :: (body ++ ['}']), [], by simp⟩
    rw [h.span?_eq] at hspan
    rw [pieces_of_span? hspan, ih (h.of_infix hafter)]
  | case3 c rest hspan ih =>
    rw [h.span?_eq] at hspan
    rw [pieces_of_span?_eq_none hspan, ih (h.of_infix (List.suffix_cons c rest).isInfix)]

/-- A text is cut into the same tokens. -/
theorem SameTags.tokens_eq (h : SameTags window window' s) :
    tokens window s = tokens window' s := by
  induction s using placewise window with
  | nil => rw [tokens_nil, tokens_nil]
  | tag t s hfits ih =>
    have hfits' := (h t (List.prefix_append _ _).isInfix).1 hfits
    rw [tokens_text_append hfits, tokens_text_append hfits',
      ih (h.of_infix (List.suffix_append _ _).isInfix)]
  | char c s hnone ih =>
    have hnone' : tagAt? window' (c :: s) = none := by
      rw [Option.eq_none_iff_forall_not_mem] at hnone ⊢
      rintro ⟨t, rest⟩ htag
      obtain ⟨hfits, hs⟩ := tagAt?_eq_some_iff.1 htag
      refine hnone (t, rest) (tagAt?_eq_some_iff.2 ⟨?_, hs⟩)
      exact (h t (hs ▸ (List.prefix_append _ _).isInfix)).2 hfits
    rw [tokens_cons hnone, tokens_cons hnone',
      ih (h.of_infix (List.suffix_cons c s).isInfix)]

theorem Tag.Fits.mono {t : Tag} (h : t.Fits window) (hle : window ≤ window') : t.Fits window' :=
  ⟨h.named, Nat.lt_of_lt_of_le h.size hle⟩

/-- Where all braces belong to tags, every written tag is one of them. -/
theorem HoldsOnly.of_isInfix {P : Tag → Prop} (h : HoldsOnly window P s) {t : Tag}
    (hnamed : t.IsNamed) (ht : t.text <:+: s) : t.Fits window ∧ P t := by
  obtain ⟨before, after, hs⟩ := ht
  -- a window in which the tag lies, whether it fits or not
  have hle := Nat.le_max_left window (Text.byteSize t.inner + 1)
  have hfits : t.Fits (max window (Text.byteSize t.inner + 1)) :=
    ⟨hnamed, Nat.le_max_right window _⟩
  have hproper : ∀ u ∈ tokens window s, u.Proper (max window (Text.byteSize t.inner + 1)) := by
    intro u hu
    cases u with
    | char c => exact h _ hu
    | tag u => exact (h _ hu).1.mono hle
  have hread := tokens_flatMap_text hproper
  rw [text_tokens, ← hs, List.append_assoc, tokens_append_text_append hfits] at hread
  have hmem : .tag t ∈ tokens window s := by
    rw [← hs, List.append_assoc, ← hread]
    exact List.mem_append_right _ List.mem_cons_self
  exact h _ hmem

/-- Where all braces belong to tags that another window sees, that window sees the same tags. -/
theorem HoldsOnly.sameTags (h : HoldsOnly window (Tag.Fits window') s) :
    SameTags window window' s :=
  fun _ ht => ⟨fun hfits => (h.of_isInfix hfits.named ht).2,
    fun hfits => (h.of_isInfix hfits.named ht).1⟩

end SameTags

/-! ### Passes -/

/-- The texts in which the table pass looks for marks, one for each round. -/
def tableTexts (data : DataTree) (options : Options) (done rest : List Char) : List (List Char) :=
  match h : tableRound data options done rest with
  | none => [done ++ rest]
  | some (_, done', rest') =>
    have := length_lt_of_tableRound h
    (done ++ rest) :: tableTexts data options done' rest'
termination_by rest.length

/-- The texts in which the passes look for tags. -/
def scannedTexts (data : DataTree) (options : Options) (template : List Char) :
    List (List Char) :=
  let looped := expandLoops data options (tokens options.window template)
  let decided := expandConditionals data (tokens options.window looped.text)
  let tabled := expandTables data options decided.text
  template :: looped.text :: (tableTexts data options [] decided.text ++ [tabled.text])

theorem mem_scannedTexts (data : DataTree) (options : Options) (template : List Char) :
    template ∈ scannedTexts data options template :=
  List.mem_cons_self

section Scanned

variable {P : Tag → Prop} {data : DataTree} {options : Options}

/-- No round brings other tags. -/
theorem HoldsOnly.tableTexts (hdata : data.BraceFree) {done rest : List Char}
    (hdone : HoldsOnly options.window (fun t => P t ∧ t.IsUnmarked) done)
    (hrest : HoldsOnly options.window P rest) :
    ∀ s ∈ tableTexts data options done rest, HoldsOnly options.window P s := by
  have hall {done rest : List Char}
      (hdone : HoldsOnly options.window (fun t => P t ∧ t.IsUnmarked) done)
      (hrest : HoldsOnly options.window P rest) : HoldsOnly options.window P (done ++ rest) :=
    (hdone.mono fun t ht => ht.1).append hrest
  fun_induction MailMerge.tableTexts data options done rest with
  | case1 done rest hround => exact List.forall_mem_singleton.2 (hall hdone hrest)
  | case2 done rest note done' rest' hround _ ih =>
    obtain ⟨-, hdone', hrest'⟩ := hdone.tableRound hdata hrest hround
    exact List.forall_mem_cons.2 ⟨hall hdone hrest, ih hdone' hrest'⟩

/-- No pass brings other tags. -/
theorem HoldsOnly.scannedTexts (hdata : data.BraceFree) {template : List Char}
    (h : HoldsOnly options.window P template) :
    ∀ s ∈ scannedTexts data options template, HoldsOnly options.window P s := by
  have hlooped := HoldsOnly.expandLoops hdata h
  have hdecided := HoldsOnly.expandConditionals data hlooped
  have htabled := (hdecided.expandTables hdata).mono fun t ht => ht.1
  have hrounds := (of_braceFree braceFree_nil).tableTexts hdata hdecided
  exact List.forall_mem_cons.2 ⟨h, List.forall_mem_cons.2 ⟨hlooped,
    List.forall_mem_append.2 ⟨hrounds, List.forall_mem_singleton.2 htabled⟩⟩⟩

end Scanned

/-- The same choices, with another bound on the length of tags. -/
def Options.withBound (options : Options) (bound : UInt64) : Options :=
  { options with maxTokenLength := bound }

@[simp]
theorem Options.window_withBound (options : Options) (bound : UInt64) :
    (options.withBound bound).window = windowSize bound := rfl

section WithBound

variable (data : DataTree) (options : Options) (bound : UInt64)

theorem expandLoop_withBound (name : String) (body : List Token) :
    expandLoop data (options.withBound bound) name body = expandLoop data options name body := rfl

theorem expandLoops_withBound (ts : List Token) :
    expandLoops data (options.withBound bound) ts = expandLoops data options ts := by
  fun_induction expandLoops data options ts with
  | case1 => rw [expandLoops]
  | case2 name rest body after hclosed _ ih =>
    rw [expandLoops_closed hclosed, expandLoop_withBound, ih]
  | case3 name rest hclosed ih => rw [expandLoops_unclosed hclosed, ih]
  | case4 t rest hne ih => rw [expandLoops_cons hne, ih]

theorem expandPlaceholders_withBound (placed : Nat) (ts : List Token) :
    expandPlaceholders data (options.withBound bound) placed ts
      = expandPlaceholders data options placed ts := by
  fun_induction expandPlaceholders data options placed ts with
  | case1 => rfl
  | case2 placed name ts e ih =>
    rw [expandPlaceholders]
    exact congrArg (e ++ ·) ih
  | case3 placed t ts hne ih => rw [expandPlaceholders_cons hne, ih]

theorem expandRow_withBound {bound bound' : UInt64} {name : String} {row : List Char}
    (h : SameTags (windowSize bound) (windowSize bound') row) :
    expandRow data (options.withBound bound) name row
      = expandRow data (options.withBound bound') name row := by
  have htokens : tokens (options.withBound bound).window row
      = tokens (options.withBound bound').window row := h.tokens_eq
  rw [expandRow, expandRow, htokens]
  rfl

theorem tableRound_withBound {bound bound' : UInt64} {done rest : List Char}
    (h : SameTags (windowSize bound) (windowSize bound') (done ++ rest)) :
    tableRound data (options.withBound bound) done rest
      = tableRound data (options.withBound bound') done rest := by
  have htokens : tokens (options.withBound bound).window rest
      = tokens (options.withBound bound').window rest :=
    (h.of_infix (List.suffix_append _ _).isInfix).tokens_eq
  cases hmark : firstMark? (tokens (options.withBound bound').window rest) with
  | none => rw [tableRound, tableRound, htokens, hmark]
  | some found =>
    obtain ⟨between, name⟩ := found
    obtain ⟨after, hrest, -⟩ := exists_of_firstMark?_tokens hmark
    rw [tableRound_eq data hmark hrest, tableRound_eq data (htokens ▸ hmark) hrest]
    split
    · next start stop _ _ =>
      have hrow : ∀ inside, (done ++ between).drop start ++ (Tag.table name).text
          ++ after.take inside <:+: done ++ rest := by
        intro inside
        refine ⟨(done ++ between).take start, after.drop inside, ?_⟩
        calc
          _ = ((done ++ between).take start ++ (done ++ between).drop start)
              ++ ((Tag.table name).text ++ (after.take inside ++ after.drop inside)) := by
            simp only [List.append_assoc]
          _ = done ++ rest := by
            rw [List.take_append_drop, List.take_append_drop, hrest, List.append_assoc]
      simp only [expandRow_withBound data options (h.of_infix (hrow _))]
    · rfl

theorem expandTablesFrom_withBound {bound bound' : UInt64} {done rest : List Char}
    (h : ∀ s ∈ tableTexts data (options.withBound bound) done rest,
      SameTags (windowSize bound) (windowSize bound') s) :
    expandTablesFrom data (options.withBound bound) done rest
      = expandTablesFrom data (options.withBound bound') done rest := by
  fun_induction tableTexts data (options.withBound bound) done rest with
  | case1 done rest hround =>
    have hround' := tableRound_withBound data options (List.forall_mem_singleton.1 h)
    rw [expandTablesFrom_of_none hround, expandTablesFrom_of_none (hround'.symm.trans hround)]
  | case2 done rest note done' rest' hround _ ih =>
    obtain ⟨hfirst, hrest⟩ := List.forall_mem_cons.1 h
    have hround' := tableRound_withBound data options hfirst
    rw [expandTablesFrom_of_some hround, expandTablesFrom_of_some (hround'.symm.trans hround),
      ih hrest]

/-- **An expansion does not depend on the bound**, where two bounds see the same tags in all texts
in which tags are looked for. -/
theorem expand_withBound {bound bound' : UInt64} {template : List Char}
    (h : ∀ s ∈ scannedTexts data (options.withBound bound) template,
      SameTags (windowSize bound) (windowSize bound') s) :
    expand data (options.withBound bound) template
      = expand data (options.withBound bound') template := by
  obtain ⟨htemplate, h⟩ := List.forall_mem_cons.1 h
  obtain ⟨hlooped, h⟩ := List.forall_mem_cons.1 h
  obtain ⟨hrounds, h⟩ := List.forall_mem_append.1 h
  have htabled := List.forall_mem_singleton.1 h
  have htables := expandTablesFrom_withBound data options hrounds
  simp only [expandTables, Options.window_withBound, expandLoops_withBound]
    at hlooped htabled htables
  simp only [expand, expandTables, Options.window_withBound, expandLoops_withBound,
    expandPlaceholders_withBound, ← htemplate.tokens_eq, ← hlooped.tokens_eq, ← htables,
    ← htabled.tokens_eq]

end WithBound

/-! ### Bounds beyond the length of a text -/

/-- The window reaches to the end of every span of a text that is no longer than the bound. -/
theorem byteSize_lt_windowSize {bound : UInt64} {s body : List Char}
    (h : (Sweep.ofText s bound 0).InRange) (hle : Text.byteSize s ≤ bound.toNat)
    (hbody : '{' :: (body ++ ['}']) <:+: s) : Text.byteSize body < windowSize bound := by
  obtain ⟨before, after, rfl⟩ := hbody
  have hne : bound.toNat ≠ 2 ^ 64 - 1 :=
    h.bound_ne (Nat.zero_le (Text.byteSize before))
      (getElem?_opening_iff.2 ⟨before, body ++ '}' :: after, by simp, rfl⟩)
  have hspan := byteSize_text_span body
  rw [Piece.text] at hspan
  rw [Text.byteSize_append, Text.byteSize_append, hspan] at hle
  rw [windowSize_of_ne hne]
  omega

theorem sameSpans_of_inRange {bound bound' : UInt64} {s : List Char}
    (h : (Sweep.ofText s bound 0).InRange) (h' : (Sweep.ofText s bound' 0).InRange)
    (hle : Text.byteSize s ≤ bound.toNat) (hle' : Text.byteSize s ≤ bound'.toNat) :
    SameSpans (windowSize bound) (windowSize bound') s :=
  fun _ _ hbody => iff_of_true (byteSize_lt_windowSize h hle hbody)
    (byteSize_lt_windowSize h' hle' hbody)

/-- A window that reaches to the end of every span sees all tags. -/
theorem holdsOnly_of_inRange {window : Nat} {bound : UInt64} {s : List Char}
    (h : (Sweep.ofText s bound 0).InRange) (hle : Text.byteSize s ≤ bound.toNat)
    (hbraces : BracesInTags window s) : HoldsOnly window (Tag.Fits (windowSize bound)) s := by
  intro t ht
  cases t with
  | char c => exact hbraces c ht
  | tag t =>
    have hfits := fits_of_mem_tokens ht
    have hinfix : t.text <:+: s := by
      obtain ⟨before, after, hs⟩ := List.append_of_mem ht
      rw [← text_tokens window s, hs, List.flatMap_append, List.flatMap_cons]
      exact ⟨_, _, List.append_assoc _ _ _⟩
    exact ⟨hfits, hfits.named, byteSize_lt_windowSize h hle hinfix⟩

/-- What is seen of a part is no longer than the part. -/
theorem byteSize_visibleText_le (s : List Char) :
    Text.byteSize (visibleText s) ≤ Text.byteSize s := by
  have hchunks : ∀ cs : List Markup.Chunk,
      Text.byteSize (cs.filterMap Markup.Chunk.content?).flatten
        ≤ Text.byteSize (cs.flatMap Markup.Chunk.text) := by
    intro cs
    induction cs with
    | nil => exact Nat.le_refl _
    | cons c cs ih =>
      rw [List.flatMap_cons, Text.byteSize_append]
      cases c with
      | char c => exact Nat.le_trans ih (Nat.le_add_left _ _)
      | element opening content =>
        have hcons : (Markup.Chunk.element opening content :: cs).filterMap Markup.Chunk.content?
          = content :: cs.filterMap Markup.Chunk.content? := rfl
        rw [hcons, List.flatten_cons, Text.byteSize_append, Markup.Chunk.text, Text.byteSize_append]
        omega
  exact Nat.le_trans (hchunks _) (Nat.le_of_eq (congrArg _ (Markup.text_chunks s)))

theorem gatherPart_eq {bound bound' : UInt64} {s : List Char}
    (h : SameSpans (windowSize bound) (windowSize bound') (visibleText s)) :
    Markup.gatherPart (windowSize bound) s = Markup.gatherPart (windowSize bound') s := by
  rw [Markup.gatherPart, Markup.gatherPart, gather, gather, ← visibleText, h.pieces_eq]

/-- What comes of a template is the same for bounds whose windows do not wrap, if they are as large
as all texts that are scanned, or as large as the template when data bring no tags. -/
theorem expand_withBound_of_inRange {data : DataTree} {options : Options} {bound bound' : UInt64}
    {text : List Char}
    (hrange : ∀ s ∈ scannedTexts data (options.withBound bound) text,
      (Sweep.ofText s bound 0).InRange ∧ (Sweep.ofText s bound' 0).InRange)
    (hlarge : (∀ s ∈ scannedTexts data (options.withBound bound) text,
        Text.byteSize s ≤ min bound.toNat bound'.toNat) ∨
      (Text.byteSize text ≤ min bound.toNat bound'.toNat ∧ data.BraceFree ∧
        BracesInTags (windowSize bound) text)) :
    expand data (options.withBound bound) text = expand data (options.withBound bound') text := by
  refine expand_withBound data options fun s hs => ?_
  obtain ⟨h, h'⟩ := hrange s hs
  rcases hlarge with hlarge | ⟨hlarge, hdata, hbraces⟩
  · have hle := hlarge s hs
    exact (sameSpans_of_inRange h h' (by omega) (by omega)).sameTags
  · have hrange' := (hrange text (mem_scannedTexts _ _ _)).2
    have hholds : HoldsOnly (options.withBound bound).window
        (Tag.Fits (windowSize bound')) text :=
      holdsOnly_of_inRange hrange' (by omega) hbraces
    exact (hholds.scannedTexts hdata s hs).sameTags

/-! ### What bounds agree on -/

/-- What a sweep comes to, given the spans that it should find. -/
structure Sweep.Outcome (sweep : Sweep) (spans : List (Nat × Nat)) : Prop where
  /-- It finds them when no window wraps. -/
  found : sweep.InRange → sweep.spans = .ok spans ∧ sweep.Finds spans
  /-- It finds none with the largest bound. -/
  largest : sweep.bound.toNat = 2 ^ 64 - 1 → sweep.spans = .ok [] ∧ spans = []
  /-- It comes upon a reversed window with any other bound. -/
  fails : sweep.bound.toNat ≠ 2 ^ 64 - 1 → ¬sweep.InRange →
    ∃ window, sweep.spans = .error window ∧ window.stop < window.start

theorem Sweep.outcome_ofText {text : List Char} (htext : Text.byteSize text < 2 ^ 64)
    (bound : UInt64) (place : Nat) :
    (ofText text bound place).Outcome (places (spansFrom (windowSize bound) place text)) := by
  have hsize : (ofText text bound place).bytes.length < 2 ^ 64 := by
    rwa [ofText, Text.length_encode]
  constructor
  case found => exact fun h => ⟨spans_ofText htext h, h.finds_places⟩
  case largest =>
    intro hbound
    have hword : bound.toNat = 2 ^ 64 - 1 := hbound
    refine ⟨spans_of_bound_eq hsize hbound, ?_⟩
    rw [spansFrom_of_bound_eq hword, places, List.map_nil]
  case fails => exact fun hbound h => spans_of_wraps hsize hbound h

/-- What the bound on the length of tags does to a text that is swept from a place on. -/
structure BoundsAgree (text : List Char) (place : Nat) : Prop where
  windows : ∀ bound opening, (Text.encode text)[opening]? = some openByte →
    (Sweep.ofText text bound place).WindowStops opening
  sweeps : ∀ bound, (Sweep.ofText text bound place).Outcome
    (Sweep.places (spansFrom (windowSize bound) place text))
  /-- While no window wraps, a larger bound loses no span. -/
  raised : ∀ bound bound', bound ≤ bound' → (Sweep.ofText text bound' place).InRange →
    ∃ few many, (Sweep.ofText text bound place).spans = .ok few ∧
      (Sweep.ofText text bound' place).spans = .ok many ∧ few.Sublist many
  /-- Bounds from the length of the text on find the same spans. -/
  beyond : ∀ bound : UInt64, Text.byteSize text ≤ bound.toNat →
    (Sweep.ofText text bound place).InRange → (Sweep.ofText text bound place).spans
      = (Sweep.ofText text (.ofNat (Text.byteSize text)) place).spans
  /-- What comes of a part is the same for these bounds. -/
  gathered : ∀ bound bound' : UInt64, Text.byteSize text ≤ min bound.toNat bound'.toNat →
    (Sweep.ofText (visibleText text) bound 0).InRange →
    (Sweep.ofText (visibleText text) bound' 0).InRange →
    Markup.gatherPart (windowSize bound) text = Markup.gatherPart (windowSize bound') text
  /-- What comes of a template is the same for bounds from the length of all texts on that are
  scanned for tags; from the length of the template on, if all its braces belong to tags and the
  data bring no others. -/
  expanded : ∀ (data : DataTree) (options : Options) (bound bound' : UInt64),
    (∀ s ∈ scannedTexts data (options.withBound bound) text,
      (Sweep.ofText s bound 0).InRange ∧ (Sweep.ofText s bound' 0).InRange) →
    ((∀ s ∈ scannedTexts data (options.withBound bound) text,
        Text.byteSize s ≤ min bound.toNat bound'.toNat) ∨
      (Text.byteSize text ≤ min bound.toNat bound'.toNat ∧ data.BraceFree ∧
        BracesInTags (windowSize bound) text)) →
    expand data (options.withBound bound) text = expand data (options.withBound bound') text

/-- **Bounds that are large enough make no difference**, as long as no window wraps. -/
theorem bounds_agree (text : List Char) (htext : Text.byteSize text < 2 ^ 64) (place : Nat) :
    BoundsAgree text place := by
  constructor
  case windows =>
    intro bound opening hbyte
    have hsize : (Sweep.ofText text bound place).bytes.length < 2 ^ 64 := by
      rwa [Sweep.ofText, Text.length_encode]
    exact Sweep.windowStops hsize hbyte
  case sweeps => exact fun bound => Sweep.outcome_ofText htext bound place
  case raised =>
    intro bound bound' hle h
    have hle' := UInt64.le_iff_toNat_le.1 hle
    exact ⟨_, _, Sweep.spans_ofText htext (h.of_le hle'), Sweep.spans_ofText htext h,
      Sweep.places_sublist h hle'⟩
  case beyond =>
    intro bound hle h
    have hbound : (UInt64.ofNat (Text.byteSize text)).toNat = Text.byteSize text :=
      UInt64.toNat_ofNat_of_lt' htext
    have h' : (Sweep.ofText text (.ofNat (Text.byteSize text)) place).InRange :=
      h.of_le (Nat.le_trans (Nat.le_of_eq hbound) hle)
    rw [Sweep.spans_ofText htext h, Sweep.spans_ofText htext h',
      Sweep.places_eq_of_byteSize_le h h' hle (Nat.le_of_eq hbound.symm)]
  case gathered =>
    intro bound bound' hle h h'
    have hvisible := byteSize_visibleText_le text
    exact gatherPart_eq (sameSpans_of_inRange h h' (by omega) (by omega))
  case expanded =>
    exact fun data options bound bound' hrange hlarge =>
      expand_withBound_of_inRange hrange hlarge

/-- Bounds at the border. The last opening brace stands at byte 25, so `largest` is the largest of
the bounds whose windows do not wrap, and one more is too large. The loop makes a text that is
longer than its own template, without other tags. -/
theorem bounds_agree_border :
    let text := "<w:t>\x7ba</w:t><w:t>\x7d</w:t>\x7bb\x7d".toList
    let loop := "\x7b#k\x7d\x7bf\x7d\x7b/k\x7d".toList
    let sweep (bound : UInt64) := Sweep.ofText text bound 0
    let largest : UInt64 := .ofNat (2 ^ 64 - 28)
    let data : DataTree :=
      ⟨[("b", .string "x"), ("k", .list [.map ⟨[("f", .string "abcdefghijklmno")]⟩])]⟩
    let options : Options := {}
    (Text.byteSize text = 28 ∧ (sweep largest).InRange ∧ ¬(sweep (largest + 1)).InRange) ∧
      (sweep largest).windowStop 26 = 28 ∧ (sweep (largest + 1)).windowStop 26 < 26 ∧
      (sweep largest).spans = .ok [(5, 19), (25, 28)] ∧
      (∃ few many, (sweep 1).spans = .ok few ∧ (sweep largest).spans = .ok many ∧
        few.Sublist many) ∧
      (sweep largest).spans = (sweep 28).spans ∧
      (∃ window, (sweep (largest + 1)).spans = .error window ∧ window.stop < window.start) ∧
      (sweep (.ofNat (2 ^ 64 - 1))).spans = .ok [] ∧
      Markup.gatherPart (windowSize largest) text = Markup.gatherPart (windowSize 28) text ∧
      expand data (options.withBound 28) text = expand data (options.withBound largest) text ∧
      Text.byteSize loop = 11 ∧
      expand data (options.withBound 11) loop = expand data (options.withBound largest) loop := by
  intro text loop sweep largest data options
  have hagree : BoundsAgree text 0 := bounds_agree text (by decide) 0
  have hagree' : BoundsAgree loop 0 := bounds_agree loop (by decide) 0
  have hrange : (sweep largest).InRange ∧ ¬(sweep (largest + 1)).InRange := by decide +kernel
  have hbyte : (Text.encode text)[25]? = some openByte := by decide +kernel
  have hdata : data.BraceFree := by
    simp only [data, DataTree.BraceFree, Value.braceFree_map, List.forall_mem_cons,
      Value.braceFree_list, Value.braceFree_string, List.not_mem_nil, false_implies, implies_true]
    decide
  have hscanned : ∀ s ∈ scannedTexts data (options.withBound 28) text,
      ((Sweep.ofText s 28 0).InRange ∧ (Sweep.ofText s largest 0).InRange) ∧
        Text.byteSize s ≤ min (28 : UInt64).toNat largest.toNat := by decide +kernel
  refine ⟨⟨by decide, hrange⟩, ?_, ?_, ?_, hagree.raised 1 largest (by decide) hrange.1,
    hagree.beyond largest (by decide) hrange.1, ?_, ?_, ?_, ?_, by decide, ?_⟩
  · exact ((hagree.windows largest 25 hbyte).fits (by decide)).1
  · obtain ⟨hle, hiff⟩ := (hagree.windows (largest + 1) 25 hbyte).wraps (by decide)
    exact Nat.lt_of_le_of_ne hle fun h => absurd (hiff.1 h) (by decide)
  · rw [((hagree.sweeps largest).found hrange.1).1]
    exact congrArg _ (by decide +kernel)
  · exact (hagree.sweeps (largest + 1)).fails (by decide) hrange.2
  · exact ((hagree.sweeps _).largest (by decide)).1
  · exact hagree.gathered _ _ (by decide) (by decide +kernel) (by decide +kernel)
  · exact hagree.expanded data options 28 largest (fun s hs => (hscanned s hs).1)
      (.inl fun s hs => (hscanned s hs).2)
  · exact hagree'.expanded data options 11 largest (by decide +kernel)
      (.inr ⟨by decide, hdata, by decide +kernel⟩)

/-- A bound above the length of a text may lose all of its spans, or reverse a window. And a bound
of the length of a template may be too short, since the texts of items are read again. -/
theorem not_bounds_agree :
    let text := "\x7ba\x7d".toList
    let loop := "\x7b#k\x7d\x7bf\x7d\x7b/k\x7d".toList
    let largest : UInt64 := .ofNat (2 ^ 64 - 1)
    let data : DataTree :=
      ⟨[("a", .string "x"), ("k", .list [.map ⟨[("f", .string "\x7babcdefghijkl\x7d")]⟩])]⟩
    let options : Options := {}
    (Text.byteSize text ≤ largest.toNat ∧
      (Sweep.ofText text 3 0).InRange ∧ ¬(Sweep.ofText text largest 0).InRange ∧
      Sweep.places (spansFrom (windowSize 3) 0 text) = [(0, 3)] ∧
      spansFrom (windowSize largest) 0 text = [] ∧
      (expand data (options.withBound 3) text).text = ['x'] ∧
      (expand data (options.withBound largest) text).text = text) ∧
    ((Sweep.ofText text (largest - 1) 0).spans.toOption = none ∧
      (Sweep.ofText text (largest - 1) 0).windowStop 1 = 0) ∧
    Text.byteSize loop = 11 ∧
      (expand data (options.withBound 11) loop).text = "\x7babcdefghijkl\x7d".toList ∧
      (expand data (options.withBound 12) loop).text = [] := by
  decide +kernel

end MailMerge
