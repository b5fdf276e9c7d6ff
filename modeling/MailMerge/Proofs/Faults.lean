import MailMerge.Memory.Media
import MailMerge.Proofs.FoundParts
import MailMerge.Proofs.FoundPasses

/-!
# No faults

What is done with texts in memory goes by places, and each of its steps may fail. None does
(`Faultless`, `no_faults`): scanning, gathering, the four passes and putting pictures in come to
what the recursions over the characters come to, which know no places. What a text holds does not
matter. Tags that are never ended, rows without partners and characters of any length are searched
like all others, since every place that is found lies between two characters (`IsCut`).

Two sizes matter. The stop of a window is a sum of places, and does not wrap as long as the bound on
tags and the lengths of texts are less than `2 ^ 63`. No text in memory is longer; the bound is a
choice, and a larger one is not safe.
-/

namespace MailMerge.Memory

open Text

/-! ### Pictures -/

theorem splice_eq (marker drawing s : List Char) :
    splice marker drawing s = .ok (Embedding.splice marker drawing s) := by
  rw [splice, Embedding.splice]
  cases h : breakAt? marker s with
  | none => rfl
  | some found =>
    obtain ⟨before, after⟩ := found
    obtain rfl := eq_append_of_breakAt? h
    dsimp only [Option.map_some]
    rw [insideTextElement_eq (isCut before (marker ++ after)), ok_bind, replace_append rfl rfl,
      replace_append rfl rfl]
    split
    · simp only [List.append_assoc]
    · rw [List.append_assoc]

section Attempts

variable {α β : Type}

/-- An attempt without faults that goes on without faults. -/
theorem mk_ok_bind (x : Except PackageError α) {f : α → Attempt β}
    {g : α → Except PackageError β} (h : ∀ a, f a = ExceptT.mk (.ok (g a))) :
    (ExceptT.mk (.ok x) >>= f) = ExceptT.mk (.ok (x >>= g)) := by
  cases x with
  | error err => rfl
  | ok a => exact h a

end Attempts

/-- One picture is put in. -/
theorem place_eq (options : Options) (source : PartName) (e : Embedding) (p : Placement) :
    place options source e p = ExceptT.mk (.ok (e.place options source p)) := by
  refine mk_ok_bind _ fun stored => ?_
  simp only [splice_eq]
  rfl

theorem foldlM_place_eq (options : Options) (source : PartName) (placements : List Placement)
    (e : Embedding) :
    placements.foldlM (place options source) e
      = ExceptT.mk (.ok (placements.foldlM (Embedding.place options source) e)) := by
  induction placements generalizing e with
  | nil => rfl
  | cons p placements ih =>
    rw [List.foldlM_cons, List.foldlM_cons, place_eq]
    exact mk_ok_bind _ ih

/-- Putting pictures in may come to an error of the package, and to no fault. -/
theorem embed_eq (r : Rendering) (options : Options) (source : PartName) (text : List Char)
    (placements : List Placement) :
    embed r options source text placements
      = ExceptT.mk (.ok (r.embed options source text placements)) := by
  refine mk_ok_bind _ fun relationships => ?_
  rw [maxDrawingId_encode]
  have hfold := foldlM_place_eq options source placements
    ⟨r, relationships, .above relationships, .above text, [], text⟩
  refine (congrArg (· >>= _) hfold).trans (mk_ok_bind _ fun done => ?_)
  rfl

/-! ### Markup -/

/-- A stretch can be cut out of a text. -/
def Stretch.IsIn (stretch : Stretch) (s : List Char) : Prop :=
  ∃ text, slice stretch.start stretch.stop s = .ok text

/-- What is looked for in the bytes of a text is found without a fault, and can be cut out. -/
structure IsSearched (s : List Char) : Prop where
  /-- Text elements stand one behind the other. -/
  elements : ∃ elements, elementsFrom 0 (encode s) = .ok elements ∧
    (elements.Pairwise fun e f => e.content.stop < f.opening.start) ∧
    ∀ e ∈ elements, e.opening.stop = e.content.start ∧ e.opening.IsIn s ∧ e.content.IsIn s
  /-- The row around a mark does not start behind the start of the mark, nor stop before its end. -/
  row : ∀ before mark after, s = before ++ (mark ++ after) →
    ∃ row?, rowAround (byteSize before) (byteSize (before ++ mark)) (encode s) = .ok row? ∧
      ∀ row ∈ row?,
        row.start ≤ byteSize before ∧ byteSize (before ++ mark) ≤ row.stop ∧ row.IsIn s
  inside : ∀ before after, s = before ++ after →
    insideTextElement (byteSize before) (encode s) = .ok (Markup.insideTextElement before after)
  drawingId : maxDrawingId (encode s) = .ok (Markup.maxDrawingId s)

/-- The row around a mark holds the mark. -/
theorem exists_rowAround (before mark after : List Char) :
    ∃ row?, rowAround (byteSize before) (byteSize (before ++ mark))
        (encode (before ++ (mark ++ after))) = .ok row? ∧
      ∀ row ∈ row?, row.start ≤ byteSize before ∧ byteSize (before ++ mark) ≤ row.stop ∧
        row.IsIn (before ++ (mark ++ after)) := by
  have hbefore := isCut before (mark ++ after)
  have hafter := isCut (before ++ mark) after
  rw [List.append_assoc] at hafter
  have hstart := rowStart_eq hbefore
  have hstop := rowStop_eq hafter
  rw [rowAround, hstart, ok_bind, hstop, ok_bind]
  cases hfirst : Markup.rowStart before (mark ++ after) with
  | none => exact ⟨none, rfl, fun row hrow => absurd hrow (Option.not_mem_none row)⟩
  | some first =>
    cases hlast : Markup.rowStop (before ++ mark) after with
    | none => exact ⟨none, rfl, fun row hrow => absurd hrow (Option.not_mem_none row)⟩
    | some last =>
      rw [hfirst] at hstart
      rw [hlast] at hstop
      obtain ⟨u, v, rfl, hcut⟩ := exists_of_rowStart_eq_some hbefore hstart
      obtain ⟨w, r, rfl, hcut'⟩ := exists_of_rowStop_eq_some hafter hstop
      refine ⟨_, rfl, fun row hrow => ?_⟩
      cases hrow
      have hstart : inBytes _ first = byteSize u := hcut.place_eq
      have hstop : inBytes _ last = byteSize (u ++ v ++ mark ++ w) := hcut'.place_eq
      rw [hstart, hstop]
      refine ⟨?_, ?_, v ++ (mark ++ w), ?_⟩
      · rw [byteSize_append u]
        exact Nat.le_add_right _ _
      · rw [byteSize_append _ w]
        exact Nat.le_add_right _ _
      · have htext : u ++ v ++ (mark ++ (w ++ r)) = u ++ (v ++ (mark ++ w) ++ r) := by simp
        rw [htext]
        refine slice_append rfl ?_ r
        simp only [byteSize_append]
        omega

theorem isSearched (s : List Char) : IsSearched s where
  elements := by
    refine ⟨_, elementsFrom_eq (isCut [] s), ?_, fun e he => ?_⟩
    · refine List.pairwise_map.2 ((Markup.pairwise_locateElements 0 s).imp fun h => ?_)
      have hclosing : 0 < byteSize Markup.textClosing := by decide
      exact Nat.lt_of_lt_of_le (Nat.lt_add_of_pos_right hclosing) h
    · obtain ⟨e, he', rfl⟩ := List.mem_map.1 he
      obtain ⟨hopening, hcontent⟩ := slices_of_mem he'
      refine ⟨?_, ⟨_, hopening⟩, _, hcontent⟩
      obtain ⟨-, -, -, -, -, -, -, -, rfl⟩ := Markup.exists_of_mem_locateElements he'
      rfl
  row before mark after hs := hs ▸ exists_rowAround before mark after
  inside before after hs := hs ▸ insideTextElement_eq (isCut before after)
  drawingId := maxDrawingId_encode s

/-! ### No faults -/

/-- What is so when a text is swept from a place on. -/
structure IsSwept (options : Options) (s : List Char) (place : Nat) : Prop where
  /-- No sum of places wraps. -/
  inRange : (Sweep.ofText s options.maxTokenLength place).InRange
  spans : (Sweep.ofText s options.maxTokenLength place).spans
    = .ok (Sweep.places (spansFrom options.window place s))
  nextTag : ∃ after, nextTag s (Sweep.ofText s options.maxTokenLength place)
    = .ok ((tagsFrom options.window place s).head?, after)

/-- What is done with texts by their places comes to what the recursions over the characters say. -/
structure Faultless (data : DataTree) (options : Options) : Prop where
  swept : ∀ s, byteSize s < 2 ^ 63 → ∀ place, IsSwept options s place
  parts : ∀ s, byteSize s < 2 ^ 63 →
    gatherPart options.maxTokenLength s = .ok (Markup.gatherPart options.window s)
  fragments : ∀ fragments : List (List Char), byteSize fragments.flatten < 2 ^ 63 →
    gather options.maxTokenLength fragments = .ok (MailMerge.gather options.window fragments)
  templates : ∀ template, (∀ s ∈ scannedTexts data options template, byteSize s < 2 ^ 63) →
    expand data options template = .ok (MailMerge.expand data options template)
  searched : ∀ s, IsSearched s
  /-- There may be an error of the package, and no fault. -/
  pictures : ∀ r source text placements, embed r options source text placements
    = ExceptT.mk (.ok (r.embed options source text placements))

theorem isSwept {options : Options} (hbound : options.maxTokenLength.toNat < 2 ^ 63)
    {s : List Char} (hsize : byteSize s < 2 ^ 63) (place : Nat) : IsSwept options s place := by
  have hrange := Sweep.inRange_of_lt hbound hsize place
  constructor
  case inRange => exact hrange
  case spans => exact Sweep.spans_ofText (by omega) hrange
  case nextTag => exact nextTag_eq hbound hsize place

/-- **No step on places fails**, as long as the bound on tags and the lengths of texts fit in a
signed word. -/
theorem no_faults (data : DataTree) (options : Options)
    (hbound : options.maxTokenLength.toNat < 2 ^ 63) : Faultless data options where
  swept _ hsize place := isSwept hbound hsize place
  parts _ hsize := gatherPart_eq hbound hsize
  fragments _ hsize := gather_eq hbound hsize
  templates _ hsize := expand_eq hbound hsize
  searched := isSearched
  pictures r source text placements := embed_eq r options source text placements

/-- A text with characters of two bytes, a row, a conditional that is not closed and a tag that is
not ended, and a part in which a span is split. -/
theorem no_faults_malformed :
    let s := ("<w:tr><w:t>\u00e9\x7btable:k\x7d\x7bf\x7d</w:t></w:tr>"
      ++ "\x7b#k\x7d\u00fc\x7bf\x7d\x7b/k\x7d\x7b?k\x7d\x7b:else\x7d<w:t").toList
    let part := "<w:t>\u00e9\x7b</w:t><w:t a=\"1\">f\x7d\u00fc</w:t><w:t>\x7b".toList
    let data : DataTree :=
      ⟨[("k", .list [.map ⟨[("f", .string "\u00df")]⟩, .map ⟨[("f", .string "<")]⟩])]⟩
    let options : Options := {}
    (options.maxTokenLength.toNat < 2 ^ 63 ∧ byteSize part < 2 ^ 63 ∧
      ∀ r ∈ scannedTexts data options s, byteSize r < 2 ^ 63) ∧
      expand data options s = .ok (MailMerge.expand data options s) ∧
      (MailMerge.expand data options s).text
        = ("<w:tr><w:t>\u00e9\u00df</w:t></w:tr><w:tr><w:t>\u00e9&lt;</w:t></w:tr>"
          ++ "\u00fc\u00df\u00fc&lt;\x7b?k\x7d\x7b:else\x7d<w:t").toList ∧
      IsSearched s ∧
      gatherPart options.maxTokenLength part = .ok
        ("<w:t xml:space=\"preserve\">\u00e9\x7bf\x7d</w:t>"
          ++ "<w:t a=\"1\" xml:space=\"preserve\">\u00fc</w:t><w:t>\x7b").toList := by
  intro s part data options
  have hbound : options.maxTokenLength.toNat < 2 ^ 63 := by decide
  have hpart : byteSize part < 2 ^ 63 := by decide
  have hscanned : ∀ r ∈ scannedTexts data options s, byteSize r < 2 ^ 63 := by decide +kernel
  have hfaultless : Faultless data options := no_faults data options hbound
  refine ⟨⟨hbound, hpart, hscanned⟩, hfaultless.templates s hscanned, by decide +kernel,
    hfaultless.searched s, ?_⟩
  exact (hfaultless.parts part hpart).trans (congrArg _ (by decide +kernel))

/-- With a larger bound the first window is reversed. -/
example : (expand ⟨[]⟩ (({} : Options).withBound (.ofNat (2 ^ 64 - 2)))
    "\x7ba\x7d".toList).toOption.isNone := by
  decide +kernel

end MailMerge.Memory
