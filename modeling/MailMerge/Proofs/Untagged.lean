import MailMerge.Proofs.Embedding
import MailMerge.Proofs.Placing

/-!
# Texts without tags

Braces that make no tag are plain text. Where neither a part nor its visible text holds a tag, the
part comes out of the expansion as it went in, before its spans are gathered and after
(`Tagless.untouched`).

Gathering does not ask whether a brace span is a tag. It leaves a part alone when every brace span
of the visible text lies in one text element, and only then when there is no markup in the contents
(`gather_eq_self_iff`). So a span over two elements is moved even if it is no tag, and rendering
puts the part back as it has been gathered.
-/

namespace MailMerge

open Markup

/-! ### Spans that lie in one fragment -/

/-- Every brace span of a text lies in one of its fragments. -/
def SpansWhole (bound : UInt64) (fragments : List (List Char)) : Prop :=
  ∀ start stop, IsSpanAt bound fragments.flatten start stop → ∃ i,
    (fragments.take i).flatten.length ≤ start ∧ stop ≤ (fragments.take (i + 1)).flatten.length

theorem length_flatten_take_mono (fragments : List (List Char)) {i j : Nat} (h : i ≤ j) :
    (fragments.take i).flatten.length ≤ (fragments.take j).flatten.length :=
  (List.take_prefix_take_left h).sublist.flatten.length_le

/-- A place is held by one fragment only. -/
theorem HoldsPlace.unique {fragments : List (List Char)} {i j place : Nat}
    (hi : HoldsPlace fragments i place) (hj : HoldsPlace fragments j place) : i = j := by
  rcases Nat.lt_trichotomy i j with hlt | heq | hlt
  · have hle := length_flatten_take_mono fragments hlt
    exact absurd (Nat.lt_of_lt_of_le hi.2 hle) (Nat.not_lt_of_ge hj.1)
  · exact heq
  · have hle := length_flatten_take_mono fragments hlt
    exact absurd (Nat.lt_of_lt_of_le hj.2 hle) (Nat.not_lt_of_ge hi.1)

/-- Fragments that keep their own places keep their characters. -/
theorem charsOf_flatten {fragments : List (List Char)} {owner : Nat → Nat}
    (h : ∀ place < fragments.flatten.length, HoldsPlace fragments (owner place) place) {i : Nat}
    (hi : i < fragments.length) : charsOf owner i fragments.flatten = fragments[i] := by
  have hcut : fragments.flatten
      = (fragments.take i).flatten ++ (fragments[i] ++ (fragments.drop (i + 1)).flatten) := by
    rw [← List.flatten_cons, List.getElem_cons_drop, ← List.flatten_append, List.take_append_drop]
  have hnext : (fragments.take (i + 1)).flatten.length
      = (fragments.take i).flatten.length + fragments[i].length := by
    rw [List.take_succ_eq_append_getElem hi, List.flatten_append, List.length_append]
    simp
  have htotal := congrArg List.length hcut
  rw [List.length_append, List.length_append] at htotal
  -- before the fragment, in it, and behind it
  rw [hcut, charsOf_append, charsOf_append, charsOf_eq_nil, charsOf_eq_self, charsOf_eq_nil,
    List.nil_append, List.append_nil]
  · intro place hplace heq
    have hholds := h _ (by omega : (fragments.take i).flatten.length
      + (fragments[i].length + place) < fragments.flatten.length)
    rw [heq] at hholds
    have := hholds.2
    omega
  · intro place hplace
    have hown : HoldsPlace fragments i ((fragments.take i).flatten.length + place) :=
      ⟨by omega, by omega⟩
    exact (h _ (by omega)).unique hown
  · intro place hplace heq
    have hholds := h place (by omega)
    rw [heq] at hholds
    have := hholds.1
    omega

/-- No piece starts before some pieces end and reaches behind them. -/
theorem le_pieceStart_append {ps : List Piece} (qs : List Piece) {place : Nat}
    (h : (ps.flatMap Piece.text).length ≤ place) :
    (ps.flatMap Piece.text).length ≤ pieceStart (ps ++ qs) place := by
  induction ps generalizing place with
  | nil => exact Nat.zero_le _
  | cons p ps ih =>
    rw [List.flatMap_cons, List.length_append] at h ⊢
    obtain ⟨k, rfl⟩ : ∃ k, place = p.text.length + k := ⟨place - p.text.length, by omega⟩
    rw [List.cons_append, pieceStart_add]
    exact Nat.add_le_add_left (ih (by omega)) _

/-- **What gathering leaves alone**: fragments in which every brace span is whole. -/
theorem gather_eq_self_iff {bound : UInt64} (hbound : bound.toNat < 2 ^ 63)
    (fragments : List (List Char)) :
    gather (windowSize bound) fragments = fragments ↔ SpansWhole bound fragments := by
  constructor
  · intro hgather start stop hspan
    obtain ⟨groups, hflat, -, hgroups⟩ := exists_pieces_gather_eq (windowSize bound) fragments
    obtain ⟨body, after, hread, rfl⟩ := (isSpanAt_iff hbound).1 hspan
    have hstart : start < fragments.flatten.length := by
      by_contra hend
      rw [List.drop_eq_nil_of_le (by omega)] at hread
      cases hread
    obtain ⟨hle, hlt⟩ := holdsPlace_fragmentAt hstart
    refine ⟨_, hle, ?_⟩
    generalize fragmentAt (fragments.map List.length) start + 1 = i at hlt
    -- pieces are whole in their groups, so none reaches over the end of the fragment
    have hend : (fragments.take i).flatten = ((groups.take i).flatten).flatMap Piece.text := by
      rw [← hgather, hgroups, ← List.map_take, ← List.flatMap_def, flatMap_flatten]
    have hpieces : pieces (windowSize bound) fragments.flatten
        = (groups.take i).flatten ++ (groups.drop i).flatten := by
      rw [← hflat, ← List.flatten_append, List.take_append_drop]
    by_contra hcross
    have hin := (pieceStart_pieces (windowSize bound) fragments.flatten
      (fragments.take i).flatten.length).1 start body after hread (by omega) (by omega)
    have hout := le_pieceStart_append (groups.drop i).flatten
      (Nat.le_of_eq (congrArg List.length hend.symm))
    rw [← hpieces, hin, ← hend] at hout
    omega
  · intro hwhole
    obtain ⟨owner, howner, hgather⟩ := exists_settles_gather hbound fragments
    have hlength := length_gather (windowSize bound) fragments
    have hholds : ∀ place < fragments.flatten.length, HoldsPlace fragments (owner place) place := by
      intro place hplace
      by_cases hspan : ∃ start stop, IsSpanAt bound fragments.flatten start stop ∧
          start ≤ place ∧ place < stop
      · obtain ⟨start, stop, hspan, hle, hlt⟩ := hspan
        obtain ⟨i, hi, hi'⟩ := hwhole start stop hspan
        have hstart : HoldsPlace fragments i start := ⟨hi, by omega⟩
        rw [(howner.inside hspan hle hlt).unique hstart]
        exact ⟨by omega, by omega⟩
      · exact howner.outside hplace fun start stop h hin => hspan ⟨start, stop, h, hin⟩
    refine List.ext_getElem? fun i => ?_
    by_cases hi : i < fragments.length
    · rw [hgather i hi, charsOf_flatten hholds hi, List.getElem?_eq_getElem hi]
    · rw [List.getElem?_eq_none (by omega), List.getElem?_eq_none (by omega)]

variable {window : Nat}

theorem gatherPart_eq_self {s : List Char}
    (h : gather window (textContents s) = textContents s) : gatherPart window s = s := by
  rw [gatherPart, h, withContents_self]

/-- A part that is left alone keeps its contents, which can be read off when they hold no markup. -/
theorem gather_textContents_of_eq_self {s : List Char}
    (hangle : ∀ content ∈ textContents s, '<' ∉ content) (h : gatherPart window s = s) :
    gather window (textContents s) = textContents s := by
  rw [← textContents_gatherPart window hangle, h]

/-! ### Texts without tags -/

/-- A text holds no tag when no tag is written in it. -/
theorem tagless_iff {s : List Char} :
    Tagless window s ↔ ∀ t : Tag, t.Fits window → ¬t.text <:+: s := by
  constructor
  · rintro hs t ht ⟨a, b, rfl⟩
    refine hs t ?_
    rw [List.append_assoc, tokens_append_text_append ht]
    exact List.mem_append_right _ List.mem_cons_self
  · intro h t ht
    obtain ⟨a, b, rfl⟩ := exists_append_of_mem_tokens ht
    exact h t (fits_of_mem_tokens ht) ⟨a, b, List.append_assoc _ _ _⟩

theorem Tagless.of_infix {s r : List Char} (h : Tagless window s) (hr : r <:+: s) :
    Tagless window r :=
  tagless_iff.2 fun t ht hm => tagless_iff.1 h t ht (hm.trans hr)

theorem tagless_of_braceFree {s : List Char} (h : BraceFree s) : Tagless window s := by
  intro t ht
  have htokens : tokens window (s ++ []) = s.map .char ++ tokens window [] :=
    tokens_braceFree_append h []
  rw [List.append_nil, tokens_nil, List.append_nil] at htokens
  simp [htokens] at ht

/-- What a text without tags comes to: itself. -/
theorem expand_of_tagless {options : Options} {s : List Char} (h : Tagless options.window s)
    (data : DataTree) : expand data options s = .literal s := by
  have htokens : tokens options.window s = s.map .char ++ [] := by
    rw [h.tokens_eq, List.append_nil]
  have hread := text_tokens options.window s
  have hloops : expandLoops data options (tokens options.window s) = .literal s := by
    rw [htokens, expandLoops_map_char_append, expandLoops_nil, Expansion.append_empty]
  have hconditionals : expandConditionals data (tokens options.window s) = .literal s := by
    rw [htokens, expandConditionals_map_char_append, expandConditionals_nil, Expansion.append_empty]
  have hplaceholders :
      expandPlaceholders data options 0 (tokens options.window s) = .literal s := by
    rw [htokens, expandPlaceholders_map_char_append]
    exact Expansion.append_empty _
  have hmark : ∀ t ∈ tokens options.window s, t.isMark = false := by
    intro t ht
    cases t with
    | char c => rfl
    | tag t => exact absurd ht (h t)
  -- every pass leaves the text as it was, and reads the same tokens
  have hlooped : (expandLoops data options (tokens options.window s)).text
      = (tokens options.window s).flatMap Token.text := by
    rw [hloops, hread, Expansion.text_literal]
  have hdecided : (expandConditionals data (tokens options.window s)).text
      = (tokens options.window s).flatMap Token.text := by
    rw [hconditionals, hread, Expansion.text_literal]
  have hagain := congrArg (tokens options.window) hread
  rw [expand_of_read hlooped hagain hdecided hagain hmark, hloops, hconditionals, hplaceholders,
    Expansion.withoutText_literal, Expansion.empty_append, Expansion.empty_append]

namespace Markup

/-- The opening tag of a text element ends there, whether or not it says that white space counts. -/
theorem tagless_opening_append {o o' r : List Char}
    (ho : o' = o ∨ o' = o.dropLast ++ (spacing ++ ['>'])) (hend : o.getLast? = some '>') :
    Tagless window (o' ++ r) ↔ Tagless window o.dropLast ∧ Tagless window r := by
  obtain ⟨a, rfl⟩ := List.getLast?_eq_some_iff.1 hend
  rw [List.dropLast_concat] at ho ⊢
  rcases ho with rfl | rfl
  · rw [List.append_assoc]
    exact tagless_append_separator (by decide)
  · have hspacing : spacing = ' ' :: "xml:space=\"preserve\"".toList := rfl
    have hword : Tagless window "xml:space=\"preserve\"".toList :=
      tagless_of_braceFree (by decide)
    rw [List.append_assoc, List.append_assoc, hspacing, List.cons_append,
      tagless_append_separator (by decide), List.singleton_append,
      tagless_append_separator (by decide)]
    exact and_congr_right' (and_iff_right hword)

/-- A woven text holds no tag when its skeleton and its contents hold none. -/
theorem Woven.tagless_iff {k t : List Char} {contents : List (List Char)}
    (h : Woven k contents t) :
    Tagless window t ↔ Tagless window k ∧ ∀ content ∈ contents, Tagless window content := by
  induction h with
  | done => simp
  | @element o o' content k t contents _ _ ho hend _ ih =>
    have hword : textClosing = '<' :: ("/w:t".toList ++ ['>']) := rfl
    have hclosing : ∀ x r, Tagless window (x ++ (textClosing ++ r))
        ↔ Tagless window x ∧ Tagless window r := by
      intro x r
      have hname : Tagless window "/w:t".toList := tagless_of_braceFree (by decide)
      rw [hword, List.cons_append, tagless_append_separator (by decide), List.append_assoc,
        List.singleton_append, tagless_append_separator (by decide), and_iff_right hname]
    have hnone := hclosing [] k
    rw [List.nil_append, and_iff_right (tagless_of_braceFree braceFree_nil)] at hnone
    rw [tagless_opening_append ho hend, tagless_opening_append (Or.inl rfl) hend, hclosing, hnone,
      ih, List.forall_mem_cons]
    constructor
    · rintro ⟨ho, hcontent, hk, hcontents⟩
      exact ⟨⟨ho, hk⟩, hcontent, hcontents⟩
    · rintro ⟨⟨ho, hk⟩, hcontent, hcontents⟩
      exact ⟨ho, hcontent, hk, hcontents⟩

end Markup

/-- A part without tags is without tags when it has been gathered. -/
theorem tagless_gatherPart {w : Nat} {s : List Char} (hs : Tagless window s)
    (hvisible : Tagless window (visibleText s)) : Tagless window (gatherPart w s) := by
  have hown : Woven (skeleton s) (textContents s) s := by
    have hwoven := woven_withContents (s := s) rfl
    rwa [withContents_self] at hwoven
  have hgathered : Woven (skeleton s) (gather w (textContents s)) (gatherPart w s) :=
    woven_withContents (length_gather w (textContents s))
  refine hgathered.tagless_iff.2 ⟨(hown.tagless_iff.1 hs).1, fun content hcontent => ?_⟩
  refine hvisible.of_infix ?_
  rw [visibleText, ← flatten_gather w]
  exact List.infix_of_mem_flatten hcontent

/-! ### Rendering a part without tags -/

section Running

variable {options : Options} {data : DataTree} {r r' : Rendering}
  {log : List (PartName × Expansion)} {name : PartName} {bytes : List UInt8} {source : List Char}

/-- What rendering leaves in a part that shows no pictures and lists no relationships. -/
theorem Renders.get?_of_plain (h : Renders options data r log r')
    (hdistinct : (log.map Prod.fst).Nodup) (hname : name ∈ log.map Prod.fst)
    (hlisting : ∀ entry ∈ log, name ≠ entry.1.relationshipsPart)
    (hbytes : r.package.get? name = some bytes) (hsource : Text.decode bytes = .ok source)
    (himages : (expand data options (gatherPart options.window source)).images = []) :
    r'.package.get? name
      = some (Text.encode (expand data options (gatherPart options.window source)).text) := by
  induction h with
  | nil => cases hname
  | @cons r r₁ r' n e log hpart hrest ih =>
    rw [List.map_cons, List.nodup_cons] at hdistinct
    rw [List.forall_mem_cons] at hlisting
    have hthere : name ∈ r.package.names := by
      rw [Package.mem_names_iff, hbytes]
      rfl
    by_cases hn : name = n
    · subst hn
      have huntouched : ¬Touched log name :=
        not_touched_of_ne
          (fun entry he heq => hdistinct.1 (List.mem_map.2 ⟨entry, he, heq.symm⟩)) hlisting.2
      rw [hrest.extends.kept name huntouched (Or.inl (hpart.extends.names name hthere))]
      cases hpart with
      | plain hbytes' hsource' he =>
        obtain rfl := Option.some.inj (hbytes.symm.trans hbytes')
        obtain rfl := Except.ok.inj (hsource.symm.trans hsource')
        rw [Package.get?_set, if_pos rfl, he]
      | pictures hbytes' hsource' he hnone =>
        obtain rfl := Option.some.inj (hbytes.symm.trans hbytes')
        obtain rfl := Except.ok.inj (hsource.symm.trans hsource')
        exact absurd (he ▸ himages) hnone
    · have huntouched : ¬Touched [(n, e)] name :=
        not_touched_of_ne (by simpa using hn) (by simpa using hlisting.1)
      have hkept := hpart.extends.kept name huntouched (Or.inl hthere)
      rcases List.mem_cons.1 hname with hhead | hname
      · exact absurd hhead hn
      · exact ih hdistinct.2 hname hlisting.2 (hkept.trans hbytes)

end Running

namespace Document

variable {document after : Document} {data : DataTree} {report : Report} {name : PartName}
  {s : List Char}

/-- What rendering leaves in a part that shows no pictures. -/
theorem get?_of_render (h : document.render data = .ok (report, after))
    (hname : name ∈ report.parts) (hbytes : document.package.get? name = some (Text.encode s))
    (htypes : name ≠ .contentTypes) (hlisting : ∀ source ∈ report.parts,
      name ≠ source.relationshipsPart)
    (himages : (expand data document.options
      (gatherPart document.options.window s)).images = []) :
    after.package.get? name = some (Text.encode (expand data document.options
      (gatherPart document.options.window s)).text) := by
  obtain ⟨types, log, final, -, hnames, hlog, hfst, rfl⟩ := render_run h
  have hfinal := hlog.get?_of_plain (hfst ▸ (partsFor_eq_ok hnames).1) (hfst ▸ hname)
    (fun entry he => hlisting _ (hfst ▸ List.mem_map_of_mem he)) hbytes (Text.decode_encode s)
    himages
  have hthere : name ∈ final.package.names := by
    rw [Package.mem_names_iff, hfinal]
    rfl
  rw [← hfinal]
  exact final.extends_finished.kept name htypes (Or.inl hthere)

end Document

/-! ### Braces that make no tag -/

/-- **Braces that make no tag stay where they are.** Gathering leaves a part alone when every brace
span of its visible text lies in one text element, and only then when there is no markup in the
contents. Where neither the part nor its visible text holds a tag, expansion gives the part back,
gathered or not, and notes nothing about it; so rendering leaves the gathered part in its place, and
with the bytes that it had when every span lies in one text element. -/
theorem Tagless.untouched {bound : UInt64} (hbound : bound.toNat < 2 ^ 63) {options : Options}
    {s : List Char} (hs : Tagless options.window s)
    (hvisible : Tagless options.window (visibleText s)) :
    ((SpansWhole bound (textContents s) → gatherPart (windowSize bound) s = s) ∧
      ((∀ content ∈ textContents s, '<' ∉ content) → gatherPart (windowSize bound) s = s →
        SpansWhole bound (textContents s))) ∧
    (∀ data : DataTree, expand data options s = .literal s ∧
      expand data options (gatherPart (windowSize bound) s)
        = .literal (gatherPart (windowSize bound) s)) ∧
    ∀ (document after : Document) (data : DataTree) (report : Report) (name : PartName),
      document.options = options → options.maxTokenLength = bound →
      document.render data = .ok (report, after) → name ∈ report.parts →
      document.package.get? name = some (Text.encode s) →
      name ≠ .contentTypes → (∀ source ∈ report.parts, name ≠ source.relationshipsPart) →
      after.package.get? name = some (Text.encode (gatherPart (windowSize bound) s)) ∧
        (SpansWhole bound (textContents s) →
          after.package.get? name = document.package.get? name) := by
  have hsame : SpansWhole bound (textContents s) → gatherPart (windowSize bound) s = s :=
    fun hwhole => gatherPart_eq_self ((gather_eq_self_iff hbound _).2 hwhole)
  have hexpand : ∀ (w : Nat) (data : DataTree), expand data options (gatherPart w s)
      = .literal (gatherPart w s) :=
    fun w data => expand_of_tagless (tagless_gatherPart hs hvisible) data
  refine ⟨⟨hsame, fun hangle hself => ?_⟩,
    fun data => ⟨expand_of_tagless hs data, hexpand _ data⟩, ?_⟩
  · exact (gather_eq_self_iff hbound _).1 (gather_textContents_of_eq_self hangle hself)
  · rintro document after data report name rfl rfl h hname hbytes htypes hlisting
    have hafter := Document.get?_of_render h hname hbytes htypes hlisting
      (by rw [hexpand]; exact Expansion.images_literal _)
    rw [hexpand, Expansion.text_literal] at hafter
    exact ⟨hafter, fun hwhole => by rw [hbytes, ← hsame hwhole]; exact hafter⟩

/-- A document whose braces make no tag: one span holds a blank, one parentheses, and one nothing
but the markup between two text elements. -/
def bracedLetter : Document where
  package := {
    parts := [(.contentTypes, []),
      (.usualDocument, Text.encode
        "<w:p><w:t>\x7ba b\x7d \x7b</w:t><w:t>\x7d \x7bf(x)\x7d</w:t></w:p>".toList)] }

theorem Tagless.untouched_bracedLetter :
    let s := "<w:p><w:t>\x7ba b\x7d \x7b</w:t><w:t>\x7d \x7bf(x)\x7d</w:t></w:p>".toList
    let data : DataTree := ⟨[("a", .string "b")]⟩
    ∃ report after, bracedLetter.render data = .ok (report, after) ∧
      ((256 : UInt64).toNat < 2 ^ 63 ∧ Tagless bracedLetter.options.window s ∧
        Tagless bracedLetter.options.window (visibleText s) ∧
        bracedLetter.options.maxTokenLength = 256 ∧
        (∀ content ∈ textContents s, '<' ∉ content) ∧ SpansWhole 256 (textContents s) ∧
        .usualDocument ∈ report.parts ∧
        bracedLetter.package.get? .usualDocument = some (Text.encode s) ∧
        PartName.usualDocument ≠ .contentTypes ∧
        ∀ source ∈ report.parts, PartName.usualDocument ≠ source.relationshipsPart) ∧
      gatherPart (windowSize 256) s = s ∧
      expand data bracedLetter.options s = .literal s ∧
      after.package.get? .usualDocument = bracedLetter.package.get? .usualDocument := by
  intro s data
  have hok : (bracedLetter.render data).isOk = true := by decide +kernel
  obtain ⟨⟨report, after⟩, h⟩ := exists_eq_ok_of_isOk hok
  have hparts : report.parts = [.usualDocument] := by
    have hreport : (bracedLetter.render data).toOption.map (·.1.parts) = some [.usualDocument] := by
      decide +kernel
    rw [h] at hreport
    exact Option.some.inj hreport
  have hbound : (256 : UInt64).toNat < 2 ^ 63 := by decide
  have hs : Tagless bracedLetter.options.window s := by decide +kernel
  have hvisible : Tagless bracedLetter.options.window (visibleText s) := by decide +kernel
  have hangle : ∀ content ∈ textContents s, '<' ∉ content := by decide +kernel
  have hwhole : SpansWhole 256 (textContents s) :=
    (gather_eq_self_iff hbound _).1 (by decide +kernel)
  have hmem : PartName.usualDocument ∈ report.parts := hparts ▸ List.mem_singleton.2 rfl
  have hlisting : ∀ source ∈ report.parts, PartName.usualDocument ≠ source.relationshipsPart := by
    rw [hparts]
    decide
  obtain ⟨⟨hsame, -⟩, hexpand, hrender⟩ := Tagless.untouched hbound hs hvisible
  refine ⟨report, after, h, ⟨hbound, hs, hvisible, rfl, hangle, hwhole, hmem, rfl, by decide,
    hlisting⟩, hsame hwhole, (hexpand data).1, ?_⟩
  exact (hrender _ _ _ _ _ rfl rfl h hmem rfl (by decide) hlisting).2 hwhole

/-- A span over two text elements is moved into the first, though it is no tag. A tag that is longer
than the bound for gathering is read where the bound for the expansion is larger. -/
theorem gatherPart_ne_self_split :
    let s := "<w:t>\x7ba </w:t><w:t>b\x7d</w:t>".toList
    let short := "\x7babc\x7d".toList
    ((256 : UInt64).toNat < 2 ^ 63 ∧ Tagless (windowSize 256) s ∧
      Tagless (windowSize 256) (visibleText s) ∧ gatherPart (windowSize 256) s ≠ s ∧
      gatherPart (windowSize 256) s
        = ("<w:t xml:space=\"preserve\">\x7ba b\x7d</w:t>"
          ++ "<w:t xml:space=\"preserve\"></w:t>").toList) ∧
    (1 : UInt64).toNat < 2 ^ 63 ∧ Tagless (windowSize 1) short ∧
      Tagless (windowSize 1) (visibleText short) ∧ (expand ⟨[]⟩ {} short).text ≠ short := by
  decide +kernel

end MailMerge
