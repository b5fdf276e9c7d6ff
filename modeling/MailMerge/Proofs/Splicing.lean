import Mathlib.Data.List.Nodup
import MailMerge.Proofs.Forests
import MailMerge.Proofs.Occurrences

/-!
# Putting pictures in loses no text

Drawings take the place of markers one after the other, and each of them changes the text in which
the next marker is looked for. What stays is the text between the markers. So a text is cut at its
markers once and for all, into **cells** (`exists_cells`): each has the text in front of a marker
and the elements that are open around it. Whatever stands in the places of the markers, as long as
it leads nowhere, the cells lead where they did (`Chained.passages`); so each drawing finds itself
inside of a text element when its marker was (`IsCut.splice_joined`), and all of them take the
places of their markers (`IsCut.placeAll`).

In the end the same text is seen as without the markers, there is one drawing more for each picture,
none stands in a text element, and the text is well nested as it was (`Rendering.embed_splices`).
-/

namespace MailMerge

open Markup

/-! ### Cells -/

/-- A picture in a text: what stands in front of its marker, behind the one before; the elements
that are open around it; and the picture. -/
structure Cell where
  before : List Char
  path : Path
  placement : Placement

/-- The text of cells, given what stands in the place of each marker, and the text behind the
last. -/
def joined (stands : Cell → List Char) (cells : List Cell) (last : List Char) : List Char :=
  cells.flatMap (fun c => c.before ++ stands c) ++ last

/-- What closes the text element that a drawing falls into. -/
def closingIn (path : Path) : List Char :=
  if path.head? = some textName then textClosing else []

/-- What opens the text element that a drawing fell into again. -/
def openingIn (path : Path) : List Char :=
  if path.head? = some textName then "<w:t xml:space=\"preserve\">".toList else []

/-- A drawing as it stands in the elements of a path. -/
def insertedIn (path : Path) (drawing : Drawing) : List Char :=
  closingIn path ++ drawing.text ++ openingIn path

/-- Each cell leads to its elements, from those of the one in front of it. -/
def Chained : Path → List Cell → List Char → Path → Prop
  | path, [], last, stop => ∃ v, Passage path last stop v
  | path, c :: cells, last, stop => (∃ v, Passage path c.before c.path v) ∧
    Chained c.path cells last stop

section Joined

variable {stands stands' : Cell → List Char} {cells xs ys : List Cell} {c : Cell} {last : List Char}
  {path stop : Path}

theorem joined_cons :
    joined stands (c :: cells) last = c.before ++ (stands c ++ joined stands cells last) := by
  simp [joined]

theorem joined_append :
    joined stands (xs ++ c :: ys) last
      = joined stands xs c.before ++ (stands c ++ joined stands ys last) := by
  simp [joined]

theorem joined_congr (h : ∀ c ∈ cells, stands c = stands' c) :
    joined stands cells last = joined stands' cells last := by
  induction cells with
  | nil => rfl
  | cons c cells ih =>
    rw [List.forall_mem_cons] at h
    rw [joined_cons, joined_cons, h.1, ih h.2]

theorem Chained.append (h : Chained path (xs ++ c :: ys) last stop) :
    Chained path xs c.before c.path ∧ Chained c.path ys last stop := by
  induction xs generalizing path with
  | nil => exact h
  | cons x xs ih =>
    obtain ⟨hrest, hlast⟩ := ih h.2
    exact ⟨⟨h.1, hrest⟩, hlast⟩

/-- Cells lead where they do whatever stands in the places of the markers, and show the same. -/
theorem Chained.passages (h : Chained path cells last stop)
    (hstands : ∀ c ∈ cells, ∃ v, Passage c.path (stands c) c.path v ∧
      Passage c.path (stands' c) c.path v) :
    ∃ v, Passage path (joined stands cells last) stop v ∧
      Passage path (joined stands' cells last) stop v := by
  induction cells generalizing path with
  | nil =>
    obtain ⟨v, hv⟩ := h
    exact ⟨v, hv, hv⟩
  | cons c cells ih =>
    rw [List.forall_mem_cons] at hstands
    obtain ⟨⟨v, hv⟩, hrest⟩ := h
    obtain ⟨⟨w, hw, hw'⟩, hcells⟩ := hstands
    obtain ⟨u, hu, hu'⟩ := ih hrest hcells
    rw [joined_cons, joined_cons]
    exact ⟨v ++ (w ++ u), hv.append (hw.append hu), hv.append (hw'.append hu')⟩

/-- Cells have as many elements of a name more as stand in the places of the markers. -/
theorem Chained.count_elementNames (h : Chained path cells last stop) {name : List Char} {k : Nat}
    (hstands : ∀ c ∈ cells, (∃ v, Passage c.path (stands c) c.path v) ∧
      (elementNames (stands c)).count name = k) :
    (elementNames (joined stands cells last)).count name
      = (elementNames (joined (fun _ => []) cells last)).count name + cells.length * k := by
  induction cells generalizing path with
  | nil => simp [joined]
  | cons c cells ih =>
    rw [List.forall_mem_cons] at hstands
    obtain ⟨⟨v, hv⟩, hrest⟩ := h
    obtain ⟨⟨⟨w, hw⟩, hk⟩, hcells⟩ := hstands
    rw [joined_cons, joined_cons, List.nil_append, hv.elementNames_append, hw.elementNames_append,
      hv.elementNames_append, List.count_append, List.count_append, List.count_append, hk,
      ih hrest hcells, List.length_cons, Nat.succ_mul]
    omega

theorem Chained.exists_passage (h : Chained path cells last stop)
    (hstands : ∀ c ∈ cells, ∃ v, Passage c.path (stands c) c.path v) :
    ∃ v, Passage path (joined stands cells last) stop v := by
  obtain ⟨v, hv, -⟩ := h.passages fun c hc => (hstands c hc).imp fun _ hc => ⟨hc, hc⟩
  exact ⟨v, hv⟩

end Joined

/-! ### Cutting a text at its markers -/

/-- A text stands in another one once, and there in character data. -/
structure StandsOnce (m s : List Char) : Prop where
  once : Text.OccursOnce m s
  plain : '<' ∉ m
  place : ∀ before, before ++ m <+: s → ∃ path, placeAfter? {} before = some (.at path)

/-- A marker stands once in character data when it stands there and on neither side. -/
theorem IsMarker.standsOnce {m a b : List Char} (h : IsMarker m) (path : Path) (hangle : '<' ∉ m)
    (hplace : placeAfter? {} a = some (.at path)) (ha : ¬m <:+: a) (hb : ¬m <:+: b) :
    StandsOnce m (a ++ (m ++ b)) := by
  have honce : Text.OccursOnce m (a ++ (m ++ b)) := h.occursOnce_append.2 ⟨ha, hb⟩
  refine ⟨honce, hangle, fun before hbefore => ⟨path, ?_⟩⟩
  have hsame : before = a := honce.unique hbefore ⟨b, List.append_assoc ..⟩
  rw [hsame, hplace]

/-- The marker of the picture of a cell. -/
def Cell.marker (c : Cell) : List Char :=
  c.placement.marker

section Cutting

variable {cells : List Cell} {last m before : List Char} {path inner stop : Path}

/-- A passage is cut at a text in character data. -/
theorem Markup.Passage.cut {s v : List Char} (h : Passage path s stop v) (hangle : '<' ∉ m)
    (hbefore : before ++ m <+: s) (hinner : placeAfter? (.at path) before = some (.at inner)) :
    ∃ rest, s = before ++ (m ++ rest) ∧ (∃ v, Passage path before inner v) ∧
      ∃ v, Passage inner rest stop v := by
  obtain ⟨rest, rfl⟩ := hbefore
  rw [List.append_assoc] at h
  obtain ⟨v₁, v₂, -, h₁, h₂⟩ := h.split hinner
  obtain ⟨v₃, v₄, -, -, h₄⟩ := h₂.split (placeAfter?_of_notMem hangle inner)
  exact ⟨rest, List.append_assoc .., ⟨v₁, h₁⟩, v₄, h₄⟩

/-- One more marker is found in a text that has been cut. -/
theorem Chained.exists_insert (h : Chained path cells last stop) {p : Placement}
    (hm : IsMarker p.marker) (hangle : '<' ∉ p.marker)
    (hcells : ∀ c ∈ cells, (IsMarker c.marker ∧ '<' ∉ c.marker) ∧ p.marker ≠ c.marker)
    (hbefore : before ++ p.marker <+: joined Cell.marker cells last)
    (hinner : placeAfter? (.at path) before = some (.at inner)) :
    ∃ cells' last', Chained path cells' last' stop ∧
      (cells'.map Cell.placement).Perm (p :: cells.map Cell.placement) ∧
      joined Cell.marker cells' last' = joined Cell.marker cells last := by
  induction cells generalizing path before with
  | nil =>
    obtain ⟨v, hv⟩ := h
    obtain ⟨rest, rfl, hfirst, hrest⟩ := hv.cut hangle hbefore hinner
    exact ⟨[⟨before, inner, p⟩], rest, ⟨hfirst, hrest⟩, .refl _, by simp [joined, Cell.marker]⟩
  | cons c cells ih =>
    rw [List.forall_mem_cons] at hcells
    obtain ⟨⟨v, hv⟩, hrest⟩ := h
    rw [joined_cons] at hbefore
    obtain hfirst | ⟨-, heq⟩ | ⟨before, rfl, hlater⟩ :=
      (hm.occurs_append hcells.1.1.1).1 hbefore
    · obtain ⟨rest, hcut, hfirst, hsecond⟩ := hv.cut hangle hfirst hinner
      refine ⟨⟨before, inner, p⟩ :: { c with before := rest } :: cells, last,
        ⟨hfirst, hsecond, hrest⟩, .refl _, ?_⟩
      rw [joined_cons, joined_cons, joined_cons, hcut, List.append_assoc, List.append_assoc]
      rfl
    · exact absurd heq hcells.1.2
    · rw [placeAfter?_append, hv.placeAfter?_eq, Option.bind_some, placeAfter?_append,
        placeAfter?_of_notMem hcells.1.1.2, Option.bind_some] at hinner
      obtain ⟨cells', last', hchained, hperm, hjoined⟩ := ih hrest hcells.2 hlater hinner
      refine ⟨c :: cells', last', ⟨⟨v, hv⟩, hchained⟩, ?_, ?_⟩
      · exact (hperm.cons _).trans (.swap _ _ _)
      · rw [joined_cons, joined_cons, hjoined]

end Cutting

/-- **A text is cut at markers that stand in it once, in character data.** -/
theorem exists_cells {s v : List Char} (hs : Passage [] s [] v) {ps : List Placement}
    (hdistinct : (ps.map Placement.marker).Nodup)
    (hmarkers : ∀ p ∈ ps, IsMarker p.marker ∧ StandsOnce p.marker s) :
    ∃ cells last, Chained [] cells last [] ∧ (cells.map Cell.placement).Perm ps ∧
      joined Cell.marker cells last = s := by
  induction ps with
  | nil => exact ⟨[], s, ⟨v, hs⟩, .nil, rfl⟩
  | cons p ps ih =>
    rw [List.map_cons, List.nodup_cons] at hdistinct
    rw [List.forall_mem_cons] at hmarkers
    obtain ⟨⟨hm, hstands⟩, hothers⟩ := hmarkers
    obtain ⟨cells, last, hchained, hperm, rfl⟩ := ih hdistinct.2 hothers
    obtain ⟨before, hbefore, -⟩ := hstands.once
    obtain ⟨inner, hinner⟩ := hstands.place before hbefore
    have hcells : ∀ c ∈ cells, (IsMarker c.marker ∧ '<' ∉ c.marker) ∧ p.marker ≠ c.marker := by
      intro c hc
      have hp : c.placement ∈ ps := hperm.subset (List.mem_map_of_mem hc)
      obtain ⟨hmarker, hc⟩ := hothers _ hp
      refine ⟨⟨hmarker, hc.plain⟩, fun heq => hdistinct.1 ?_⟩
      rw [heq]
      exact List.mem_map_of_mem hp
    obtain ⟨cells', last', hchained', hperm', hjoined⟩ :=
      hchained.exists_insert hm hstands.plain hcells hbefore hinner
    exact ⟨cells', last', hchained', hperm'.trans (hperm.cons p), hjoined⟩

/-! ### One drawing more -/

/-- A text between the markers spells a text. -/
def Spells (m : List Char) (cells : List Cell) (last : List Char) : Prop :=
  (∃ c ∈ cells, m <:+: c.before) ∨ m <:+: last

section Spelling

variable {m : List Char} {stands : Cell → List Char} {cells xs ys : List Cell} {c : Cell}
  {last : List Char}

theorem spells_cons_iff : Spells m (c :: cells) last ↔ m <:+: c.before ∨ Spells m cells last := by
  rw [Spells, Spells, List.exists_mem_cons_iff, or_assoc]

theorem Spells.isInfix_joined (h : Spells m cells last) : m <:+: joined stands cells last := by
  induction cells with
  | nil => exact h.resolve_left (by simp)
  | cons c cells ih =>
    rw [joined_cons]
    rcases spells_cons_iff.1 h with hbefore | hrest
    · exact hbefore.trans (List.prefix_append _ _).isInfix
    · exact (ih hrest).trans
        ((List.suffix_append _ _).isInfix.trans (List.suffix_append _ _).isInfix)

/-- A marker that stands nowhere but between other markers and drawings stands in the text between
them. -/
theorem spells_of_isInfix_joined (hm : IsMarker m) (hangle : '<' ∉ m)
    (hstands : ∀ c ∈ cells, (IsMarker (stands c) ∧ m ≠ stands c) ∨
      ∃ s, stands c = '<' :: s ∧ MarkerFree ('<' :: s))
    (h : m <:+: joined stands cells last) : Spells m cells last := by
  induction cells with
  | nil => exact .inr h
  | cons c cells ih =>
    rw [List.forall_mem_cons] at hstands
    rw [joined_cons] at h
    have hparts : m <:+: c.before ∨ m <:+: joined stands cells last := by
      rcases hstands.1 with ⟨hmarker, hne⟩ | ⟨s, hs, hfree⟩
      · exact ((hm.isInfix_append hmarker).1 h).imp_right fun hrest => hrest.resolve_left hne
      · rw [hs] at h
        exact hm.isInfix_of_solid hangle hfree h
    exact spells_cons_iff.2 (hparts.imp_right (ih hstands.2))

/-- A marker that stands once in the text of cells is spelled by none of them. -/
theorem not_spells_of_occursOnce (hc : IsMarker c.marker)
    (h : Text.OccursOnce c.marker (joined Cell.marker (xs ++ c :: ys) last)) :
    ¬Spells c.marker xs c.before := by
  rw [joined_append, hc.occursOnce_append] at h
  exact fun hspells => h.1 hspells.isInfix_joined

end Spelling

/-! ### Drawings in place -/

theorem Drawing.exists_text_eq (drawing : Drawing) : ∃ s, drawing.text = '<' :: s :=
  ⟨_, drawing.text_eq⟩

section Drawings

variable {options : Options} {drawing : Drawing} {p : Placement} {path : Path}

theorem Drawing.Shows.passage (h : drawing.Shows options p) (hpath : textName ∉ path) :
    Passage path drawing.text path [] :=
  Drawing.passage h.isPlainValue (head?_ne_of_notMem hpath)

theorem exists_insertedIn_eq (h : drawing.Shows options p) (path : Path) :
    ∃ s, insertedIn path drawing = '<' :: s ∧ MarkerFree ('<' :: s) := by
  obtain ⟨s, hs⟩ := drawing.exists_text_eq
  have hfree : MarkerFree (insertedIn path drawing) := by
    rw [insertedIn, markerFree_append, markerFree_append, closingIn, openingIn]
    refine ⟨⟨?_, h.markerFree⟩, ?_⟩
    all_goals
      split
      · decide
      · exact markerFree_nil
  have hfirst : ∃ r, insertedIn path drawing = '<' :: r := by
    rw [insertedIn, closingIn, hs]
    split
    · exact ⟨_, rfl⟩
    · exact ⟨_, rfl⟩
  obtain ⟨r, hr⟩ := hfirst
  exact ⟨r, hr, hr ▸ hfree⟩

/-- What closes a text element in front of a drawing leads out of it. -/
theorem exists_passage_closingIn (hpath : textName ∉ path.tail) :
    ∃ outer, textName ∉ outer ∧ Passage path (closingIn path) outer [] ∧
      Passage outer (openingIn path) path [] := by
  rw [closingIn, openingIn]
  split
  · next htext =>
    obtain ⟨outer, rfl⟩ := List.head?_eq_some_iff.1 htext
    have htag : IsPlainTag ("w:t", [("xml:space", "preserve".toList)]) := by decide
    refine ⟨outer, hpath, ?_, .opening (head?_ne_of_notMem hpath) htag (.nil _)⟩
    have hname : IsPlainName "w:t".toList := by decide
    exact .closing hname (.nil outer)
  · next htext =>
    exact ⟨path, notMem_of_head?_ne htext hpath, .nil path, .nil path⟩

theorem Drawing.Shows.passage_insertedIn (h : drawing.Shows options p)
    (hpath : textName ∉ path.tail) : Passage path (insertedIn path drawing) path [] := by
  obtain ⟨outer, houter, hclosing, hopening⟩ := exists_passage_closingIn hpath
  exact (hclosing.append (h.passage houter)).append hopening

/-- What stands in the place of a marker has one drawing in it. -/
theorem Drawing.Shows.count_insertedIn (h : drawing.Shows options p)
    (hpath : textName ∉ path.tail) :
    (elementNames (insertedIn path drawing)).count drawingName = 1 := by
  obtain ⟨outer, houter, hclosing, -⟩ := exists_passage_closingIn hpath
  have hclosed : (elementNames (closingIn path)).count drawingName = 0 := by
    rw [closingIn]
    split <;> decide +kernel
  have hopened : (elementNames (openingIn path)).count drawingName = 0 := by
    rw [openingIn]
    split <;> decide +kernel
  rw [insertedIn, List.append_assoc, hclosing.elementNames_append,
    (h.passage houter).elementNames_append, List.count_append, List.count_append, hclosed,
    Drawing.count_elementNames_text h.isPlainValue, hopened]

end Drawings

theorem Markup.Passage.exists_of_notMem {s : List Char} (h : '<' ∉ s) (path : Path) :
    ∃ v, Passage path s path v := by
  induction s with
  | nil => exact ⟨[], .nil path⟩
  | cons c s ih =>
    rw [List.mem_cons, not_or] at h
    obtain ⟨v, hv⟩ := ih h.2
    exact ⟨_, .char (Ne.symm h.1) hv⟩

theorem Chained.notMem_tail {cells : List Cell} {last : List Char} {path stop : Path}
    (h : Chained path cells last stop) (hpath : textName ∉ path.tail) :
    ∀ c ∈ cells, textName ∉ c.path.tail := by
  induction cells generalizing path with
  | nil => exact nofun
  | cons c cells ih =>
    obtain ⟨⟨v, hv⟩, hrest⟩ := h
    have hc := hv.notMem_tail hpath
    exact List.forall_mem_cons.2 ⟨hc, ih hrest hc⟩

/-! ### Putting drawings in -/

/-- A drawing takes the place of the first marker. -/
theorem splice_append {m before v : List Char} {path : Path} (hm : IsMarker m)
    (hfirst : ¬m <:+: before) (hbefore : Passage [] before path v) (drawing : Drawing)
    (after : List Char) :
    Embedding.splice m drawing.text (before ++ (m ++ after))
      = before ++ (insertedIn path drawing ++ after) := by
  simp only [Embedding.splice, hm.breakAt?_append hfirst, hbefore.insideTextElement_eq,
    insertedIn, closingIn, openingIn, -String.reduceToList]
  by_cases htext : path.head? = some textName
  · rw [if_pos (beq_iff_eq.2 htext), if_pos htext, if_pos htext]
    simp only [List.append_assoc, -String.reduceToList]
  · rw [if_neg fun h => htext (beq_iff_eq.1 h), if_neg htext, if_neg htext, List.nil_append,
      List.append_nil, List.append_assoc]

/-- What stands in the place of the marker of a cell, given the drawings that have been put in. -/
def standing (drawn : List Char → Option Drawing) (c : Cell) : List Char :=
  match drawn c.marker with
  | none => c.marker
  | some drawing => insertedIn c.path drawing

/-- Drawings that have been put in show the pictures of their cells. -/
def AllShow (options : Options) (cells : List Cell) (drawn : List Char → Option Drawing) : Prop :=
  ∀ c ∈ cells, ∀ d ∈ drawn c.marker, d.Shows options c.placement

/-- A text is cut into cells at markers that stand in it once, in character data. -/
structure IsCut (cells : List Cell) (last : List Char) : Prop where
  chained : Chained [] cells last []
  markers : ∀ c ∈ cells, IsMarker c.marker ∧ StandsOnce c.marker (joined Cell.marker cells last)
  distinct : (cells.map Cell.marker).Nodup

namespace IsCut

variable {options : Options} {cells : List Cell} {last : List Char}
  {drawn : List Char → Option Drawing}

/-- What stands in the place of a marker leads nowhere. -/
theorem exists_passage_standing (h : IsCut cells last)
    (hdrawn : AllShow options cells drawn) :
    ∀ c ∈ cells, ∃ v, Passage c.path (standing drawn c) c.path v := by
  intro c hc
  rw [standing]
  split
  · exact Passage.exists_of_notMem (h.markers c hc).2.plain c.path
  · next d hd =>
    have hpath := h.chained.notMem_tail List.not_mem_nil c hc
    exact ⟨[], (hdrawn c hc d hd).passage_insertedIn hpath⟩

/-- **A drawing is put in the place of the marker of its cell.** -/
theorem splice_joined (h : IsCut cells last)
    (hdrawn : AllShow options cells drawn) {c : Cell}
    (hc : c ∈ cells) (hnew : drawn c.marker = none) (drawing : Drawing) :
    Embedding.splice c.marker drawing.text (joined (standing drawn) cells last)
      = joined (standing (Function.update drawn c.marker (some drawing))) cells last := by
  obtain ⟨xs, ys, rfl⟩ := List.append_of_mem hc
  obtain ⟨hmarker, honce⟩ := h.markers c hc
  have hother : ∀ x, x ∈ xs ∨ x ∈ ys → c.marker ≠ x.marker := by
    have hdistinct := h.distinct
    rw [List.map_append, List.map_cons, List.nodup_append, List.nodup_cons] at hdistinct
    rintro x (hx | hx) heq
    · exact hdistinct.2.2 _ (List.mem_map_of_mem hx) _ List.mem_cons_self heq.symm
    · exact hdistinct.2.1.1 (heq ▸ List.mem_map_of_mem hx)
  have hkept : ∀ x, x ∈ xs ∨ x ∈ ys →
      standing (Function.update drawn c.marker (some drawing)) x = standing drawn x := by
    intro x hx
    rw [standing, standing, Function.update_of_ne (hother x hx).symm]
  -- the marker stands nowhere in front of its cell, whatever has been drawn there
  have hfirst : ¬c.marker <:+: joined (standing drawn) xs c.before := by
    refine fun hm => not_spells_of_occursOnce hmarker honce.once
      (spells_of_isInfix_joined hmarker honce.plain (fun x hx => ?_) hm)
    have hxs : x ∈ xs ++ c :: ys := List.mem_append_left _ hx
    rw [standing]
    split
    · exact .inl ⟨(h.markers x hxs).1, hother x (.inl hx)⟩
    · next d hd => exact .inr (exists_insertedIn_eq (hdrawn x hxs d hd) x.path)
  obtain ⟨v, hbefore⟩ := h.chained.append.1.exists_passage fun x hx =>
    h.exists_passage_standing hdrawn x (List.mem_append_left _ hx)
  have hold : standing drawn c = c.marker := by
    rw [standing, hnew]
  have hnew' : standing (Function.update drawn c.marker (some drawing)) c
      = insertedIn c.path drawing := by
    rw [standing, Function.update_self]
  rw [joined_append, joined_append, joined_congr fun x hx => hkept x (.inl hx),
    joined_congr fun x hx => hkept x (.inr hx), hold, hnew',
    splice_append hmarker hfirst hbefore]

/-- One drawing more shows the picture of its cell. -/
theorem allShow_update (h : IsCut cells last) (hdrawn : AllShow options cells drawn) {c : Cell}
    (hc : c ∈ cells) {drawing : Drawing} (hshows : drawing.Shows options c.placement) :
    AllShow options cells (Function.update drawn c.marker (some drawing)) := by
  intro x hx d hd
  by_cases hmarker : x.marker = c.marker
  · obtain rfl := List.inj_on_of_nodup_map h.distinct hx hc hmarker
    rw [Function.update_self] at hd
    rwa [← Option.some.inj hd]
  · rw [Function.update_of_ne hmarker] at hd
    exact hdrawn x hx d hd

end IsCut

/-! ### Renderings that are reached -/

namespace Rendering

/-- The renderings that are reached from those of packages without pictures in store. Nothing but
storing a picture changes which are; the package, its types and whether one has been declared may
change in other ways, too. -/
inductive Reached : Rendering → Prop
  | start (package : Package) (types : ContentTypes) : Reached { package, types }
  | change {r : Rendering} (h : Reached r) (package : Package) (types : ContentTypes)
      (declared : Bool) : Reached { r with package, types, declared }
  | store {r r' : Rendering} {source name : PartName} {p : Placement} (h : Reached r)
      (hkey : isIdentifier p.key.toList = true)
      (hstore : r.store source p.key p.image = .ok (name, r')) : Reached r'

/-- The names of the files for pictures bring no markers. -/
theorem Reached.markerFree_filename {r : Rendering} (h : r.Reached) :
    ∀ entry ∈ r.media, MarkerFree entry.2.filename := by
  induction h with
  | start => exact nofun
  | change _ _ _ _ ih => exact ih
  | store _ hkey hstore ih =>
    rw [Rendering.store] at hstore
    split at hstore
    · cases hstore
      exact ih
    · obtain ⟨name, hname, hrest⟩ := bind_eq_ok hstore
      obtain ⟨rfl, rfl⟩ := Prod.mk.inj (Except.ok.inj hrest)
      rw [List.forall_mem_append, List.forall_mem_singleton]
      exact ⟨ih, (mediaName_spec hname).2.markerFree_filename hkey⟩

end Rendering

/-- What is so while pictures are put into a part of a rendering that is reached. -/
structure Embedding.Reached (e : Embedding) : Prop where
  rendering : e.rendering.Reached
  numbered : e.Numbered

section Embedding

variable {options : Options} {source : PartName} {e e' : Embedding}

/-- Putting a picture in puts a drawing that shows it in the place of its marker. -/
theorem Embedding.Reached.place (h : e.Reached) {p : Placement}
    (hkey : isIdentifier p.key.toList = true) (hplace : place options source e p = .ok e') :
    e'.Reached ∧ ∃ drawing : Drawing, drawing.Shows options p ∧
      e'.text = splice p.marker drawing.text e.text := by
  obtain ⟨name, rendering, hstore, rfl⟩ := Rendering.place_eq_ok hplace
  have hreached : rendering.Reached := h.rendering.store hkey hstore
  have hfree : MarkerFree name.filename := hreached.markerFree_filename _
    (Assoc.mem_of_get? (Rendering.extends_store hkey hstore).2)
  have hnumbered : ({ e with rendering } : Embedding).Numbered := h.numbered
  obtain ⟨hrelated, n, hid⟩ := hnumbered.relate source name p.key
  refine ⟨⟨?_, hrelated⟩, _, ⟨name, n, _, hfree, by rw [hid]⟩, rfl⟩
  dsimp only
  rwa [Rendering.rendering_relate]

/-- **Drawings are put in the places of markers one after the other**, each between the texts that
were there. -/
theorem IsCut.placeAll {cells : List Cell} {last : List Char} (hcut : IsCut cells last)
    {ps : List Placement} (hkeys : ∀ p ∈ ps, isIdentifier p.key.toList = true)
    (hcells : ∀ p ∈ ps, p ∈ cells.map Cell.placement) (hdistinct : (ps.map Placement.marker).Nodup)
    {drawn : List Char → Option Drawing} (hdrawn : AllShow options cells drawn)
    (hnew : ∀ p ∈ ps, drawn p.marker = none) (he : e.Reached)
    (htext : e.text = joined (standing drawn) cells last)
    (hplace : ps.foldlM (Embedding.place options source) e = .ok e') :
    e'.Reached ∧ ∃ drawn', AllShow options cells drawn' ∧
      (∀ m, (drawn m).isSome ∨ m ∈ ps.map Placement.marker → (drawn' m).isSome) ∧
      e'.text = joined (standing drawn') cells last := by
  induction ps generalizing e drawn with
  | nil =>
    cases hplace
    exact ⟨he, drawn, hdrawn, fun m hm => hm.resolve_right List.not_mem_nil, htext⟩
  | cons p ps ih =>
    rw [List.forall_mem_cons] at hkeys hcells hnew
    rw [List.map_cons, List.nodup_cons] at hdistinct
    obtain ⟨e₁, hfirst, hothers⟩ := bind_eq_ok hplace
    obtain ⟨c, hc, rfl⟩ := List.mem_map.1 hcells.1
    obtain ⟨he₁, drawing, hshows, hspliced⟩ := he.place hkeys.1 hfirst
    have htext₁ := hspliced.trans (htext ▸ hcut.splice_joined hdrawn hc hnew.1 drawing)
    have hnew₁ : ∀ p ∈ ps, Function.update drawn c.marker (some drawing) p.marker = none := by
      intro p hp
      have hne : p.marker ≠ c.marker := by
        rintro (heq : p.marker = c.placement.marker)
        exact hdistinct.1 (heq ▸ List.mem_map_of_mem hp)
      rw [Function.update_of_ne hne]
      exact hnew.2 p hp
    obtain ⟨he', drawn', hdrawn', hsome, htext'⟩ := ih hkeys.2 hcells.2 hdistinct.2
      (hcut.allShow_update hdrawn hc hshows) hnew₁ he₁ htext₁ hothers
    refine ⟨he', drawn', hdrawn', fun m hm => hsome m ?_, htext'⟩
    by_cases hmarker : m = c.marker
    · rw [hmarker, Function.update_self]
      exact .inl rfl
    · rw [Function.update_of_ne hmarker]
      exact hm.imp_right fun hm => (List.mem_cons.1 hm).resolve_left hmarker

end Embedding

/-! ### All drawings -/

/-- What is so of a text in which each picture of a list has been drawn in the place of its marker:
the text is cut at the markers, and between the cuts it is as it was. -/
structure Splices (options : Options) (ps : List Placement) (s t : List Char) (cells : List Cell)
    (last : List Char) (drawing : Placement → Drawing) : Prop where
  /-- Each picture has one cell. -/
  placements : (cells.map Cell.placement).Perm ps
  marked : s = joined Cell.marker cells last
  drawn : t = joined (fun c => insertedIn c.path (drawing c.placement)) cells last
  drawings : ∀ p ∈ ps, (drawing p).Shows options p
  /-- What is written for a drawing is one, with the id of its relationship. -/
  written : ∀ p ∈ ps,
    IsDrawing (drawing p).text (drawing p).drawingId (drawing p).relationshipId
  /-- There is one drawing more for each picture. -/
  count : (elementNames t).count drawingName = (elementNames s).count drawingName + ps.length
  /-- The path of a cell is that of the elements in which the marker stood. -/
  stood : ∀ xs c ys, cells = xs ++ c :: ys →
    placeAfter? {} (joined Cell.marker xs c.before) = some (.at c.path)
  /-- A drawing stands in no text element, and no element is left open in it. -/
  stands : ∀ xs c ys, cells = xs ++ c :: ys → ∃ outer, textName ∉ outer ∧
    placeAfter? {} (joined (fun c => insertedIn c.path (drawing c.placement)) xs
      (c.before ++ closingIn c.path)) = some (.at outer) ∧
    placeAfter? (.at outer) (drawing c.placement).text = some (.at outer)
  /-- What is seen is what was seen beside the markers. -/
  visible : visibleText t = visibleText (joined (fun _ => []) cells last)
  nested : WellNested t
  plain : PlainTexts t

section Splices

variable {options : Options} {source : PartName} {ps : List Placement} {s t : List Char}
  {cells : List Cell} {last : List Char} {drawing : Placement → Drawing}

/-- Cells with drawings in the places of their markers. -/
theorem IsCut.splices (hcut : IsCut cells last) (hperm : (cells.map Cell.placement).Perm ps)
    (hshows : ∀ p ∈ ps, (drawing p).Shows options p) :
    Splices options ps (joined Cell.marker cells last)
      (joined (fun c => insertedIn c.path (drawing c.placement)) cells last) cells last
      drawing := by
  have hpath := hcut.chained.notMem_tail List.not_mem_nil
  have hcell : ∀ c ∈ cells, (drawing c.placement).Shows options c.placement :=
    fun c hc => hshows _ (hperm.subset (List.mem_map_of_mem hc))
  have hinserted : ∀ c ∈ cells,
      Passage c.path (insertedIn c.path (drawing c.placement)) c.path [] :=
    fun c hc => (hcell c hc).passage_insertedIn (hpath c hc)
  have hboth : ∃ v,
      Passage [] (joined (fun c => insertedIn c.path (drawing c.placement)) cells last) [] v ∧
        Passage [] (joined (fun _ => []) cells last) [] v :=
    hcut.chained.passages fun c hc => ⟨[], hinserted c hc, .nil c.path⟩
  obtain ⟨v, hdrawn, hbare⟩ := hboth
  obtain ⟨hnested, hplain⟩ := exists_passage_iff.1 ⟨v, hdrawn⟩
  constructor
  case placements => exact hperm
  case marked => rfl
  case drawn => rfl
  case drawings => exact hshows
  case written => exact fun p hp => (hshows p hp).isDrawing
  case count =>
    have hmarker : ∀ c ∈ cells, (∃ v, Passage c.path c.marker c.path v) ∧
        (elementNames c.marker).count drawingName = 0 := by
      intro c hc
      have hplain := (hcut.markers c hc).2.plain
      rw [elementNames_of_notMem hplain]
      exact ⟨Passage.exists_of_notMem hplain c.path, rfl⟩
    have hmarked := hcut.chained.count_elementNames hmarker
    have hdrawn := hcut.chained.count_elementNames fun c hc =>
      ⟨⟨[], hinserted c hc⟩, (hcell c hc).count_insertedIn (hpath c hc)⟩
    have hlength := hperm.length_eq
    rw [List.length_map] at hlength
    omega
  case stood =>
    rintro xs c ys rfl
    obtain ⟨w, hw⟩ := hcut.chained.append.1.exists_passage fun x hx => Passage.exists_of_notMem
      (hcut.markers x (List.mem_append_left _ hx)).2.plain x.path
    exact hw.placeAfter?_eq
  case stands =>
    rintro xs c ys rfl
    have hc : c ∈ xs ++ c :: ys := List.mem_append_right _ List.mem_cons_self
    obtain ⟨outer, houter, hclosing, -⟩ := exists_passage_closingIn (hpath c hc)
    obtain ⟨w, hw⟩ := hcut.chained.append.1.exists_passage fun x hx =>
      ⟨[], hinserted x (List.mem_append_left _ hx)⟩
    have hplace := (hw.append hclosing).placeAfter?_eq
    rw [joined, List.append_assoc, ← joined] at hplace
    exact ⟨outer, houter, hplace, ((hcell c hc).passage houter).placeAfter?_eq⟩
  case visible => rw [hdrawn.visibleText_eq, hbare.visibleText_eq]
  case nested => exact hnested
  case plain => exact hplain

/-- **Putting pictures in loses no text.** In a well nested text with plain text elements, in which
each marker of a list stands once, in character data, a drawing takes the place of each marker,
beside text elements, and nothing else changes. -/
theorem Rendering.embed_splices {r r' : Rendering} (hr : r.Reached) (hnested : WellNested s)
    (hplain : PlainTexts s) (hkeys : ∀ p ∈ ps, isIdentifier p.key.toList = true)
    (hdistinct : (ps.map Placement.marker).Nodup)
    (hmarkers : ∀ p ∈ ps, IsMarker p.marker ∧ StandsOnce p.marker s)
    (h : r.embed options source s ps = .ok (t, r')) :
    r'.Reached ∧ ∃ cells last drawing, Splices options ps s t cells last drawing := by
  obtain ⟨v, hv⟩ := exists_passage_iff.2 ⟨hnested, hplain⟩
  obtain ⟨cells, last, hchained, hperm, rfl⟩ := exists_cells hv hdistinct hmarkers
  have hcut : IsCut cells last := by
    refine ⟨hchained, fun c hc => hmarkers _ (hperm.subset (List.mem_map_of_mem hc)), ?_⟩
    have hnodup := (hperm.map Placement.marker).nodup_iff.2 hdistinct
    rwa [List.map_map] at hnodup
  obtain ⟨rs, done, -, hdone, rfl, rfl⟩ := embed_eq_ok h
  have hstart : (r.embedding rs (joined Cell.marker cells last)).Reached := ⟨hr, nofun⟩
  have hnone : AllShow options cells fun _ => none := fun c _ d hd => nomatch hd
  have htext : joined Cell.marker cells last = joined (standing fun _ => none) cells last :=
    joined_congr fun _ _ => rfl
  obtain ⟨hreached, drawn, hdrawn, hsome, htext⟩ := hcut.placeAll hkeys
    (fun p hp => hperm.symm.subset hp) hdistinct hnone (fun _ _ => rfl) hstart htext hdone
  obtain ⟨drawing, hdrawing⟩ : ∃ drawing : Placement → Drawing,
      ∀ p ∈ ps, drawn p.marker = some (drawing p) := by
    refine ⟨fun p => (drawn p.marker).getD (drawingOf options p source "" 0), fun p hp => ?_⟩
    obtain ⟨d, hd⟩ := Option.isSome_iff_exists.1 (hsome _ (.inr (List.mem_map_of_mem hp)))
    dsimp only
    rw [hd, Option.getD_some]
  have hplacement : ∀ c ∈ cells, c.placement ∈ ps :=
    fun c hc => hperm.subset (List.mem_map_of_mem hc)
  have hstanding : joined (standing drawn) cells last
      = joined (fun c => insertedIn c.path (drawing c.placement)) cells last :=
    joined_congr fun c hc => by rw [standing, Cell.marker, hdrawing _ (hplacement c hc)]
  refine ⟨hreached.rendering.change _ _ _, cells, last, drawing, ?_⟩
  rw [htext, hstanding]
  refine hcut.splices hperm fun p hp => ?_
  obtain ⟨c, hc, rfl⟩ := List.mem_map.1 (hperm.symm.subset hp)
  exact hdrawn c hc _ (hdrawing _ hp)

/-- Three pictures, listed in another order than that of their markers. Two of these stand at the
ends of a text element, and one beside an empty text element. -/
theorem Rendering.embed_splices_three :
    let r : Rendering := { package := {}, types := {} }
    let s := "<w:p><w:r><w:t>".toList ++ (marker 1 ++ ("&amp;".toList ++ (marker 0 ++
      ("</w:t><w:t/>".toList ++ (marker 2 ++ "</w:r></w:p>".toList)))))
    let ps : List Placement :=
      [⟨marker 0, "logo", dot⟩, ⟨marker 1, "seal", dot⟩, ⟨marker 2, "logo", dot⟩]
    (r.Reached ∧ WellNested s ∧ PlainTexts s ∧ (∀ p ∈ ps, isIdentifier p.key.toList = true) ∧
        (ps.map Placement.marker).Nodup ∧ ∀ p ∈ ps, IsMarker p.marker ∧ StandsOnce p.marker s) ∧
      ∃ t r', r.embed {} .usualDocument s ps = .ok (t, r') ∧
        r'.Reached ∧ ∃ cells last drawing, Splices {} ps s t cells last drawing := by
  intro r s ps
  have hreached : r.Reached := .start _ _
  have hnested : WellNested s := by decide +kernel
  have hplain : PlainTexts s := by decide +kernel
  have hkeys : ∀ p ∈ ps, isIdentifier p.key.toList = true := by decide +kernel
  have hdistinct : (ps.map Placement.marker).Nodup := by decide +kernel
  have hfirst : StandsOnce (marker 1) s :=
    (isMarker_marker 1).standsOnce [textName, "w:r".toList, "w:p".toList]
      (by decide) (by decide +kernel) (by decide +kernel) (by decide +kernel)
  have hsecond : StandsOnce (marker 0) s := by
    have hs : s = "<w:p><w:r><w:t>".toList ++ (marker 1 ++ "&amp;".toList) ++ (marker 0 ++
        ("</w:t><w:t/>".toList ++ (marker 2 ++ "</w:r></w:p>".toList))) := by decide +kernel
    rw [hs]
    exact (isMarker_marker 0).standsOnce [textName, "w:r".toList, "w:p".toList]
      (by decide) (by decide +kernel) (by decide +kernel) (by decide +kernel)
  have hthird : StandsOnce (marker 2) s := by
    have hs : s = "<w:p><w:r><w:t>".toList ++ (marker 1 ++ ("&amp;".toList ++ (marker 0 ++
        "</w:t><w:t/>".toList))) ++ (marker 2 ++ "</w:r></w:p>".toList) := by decide +kernel
    rw [hs]
    exact (isMarker_marker 2).standsOnce ["w:r".toList, "w:p".toList]
      (by decide) (by decide +kernel) (by decide +kernel) (by decide +kernel)
  have hmarkers : ∀ p ∈ ps, IsMarker p.marker ∧ StandsOnce p.marker s := by
    simp only [ps, List.forall_mem_cons]
    exact ⟨⟨isMarker_marker 0, hsecond⟩, ⟨isMarker_marker 1, hfirst⟩,
      ⟨isMarker_marker 2, hthird⟩, nofun⟩
  have hok : (r.embed {} .usualDocument s ps).isOk = true := by decide +kernel
  obtain ⟨⟨t, r'⟩, h⟩ := exists_eq_ok_of_isOk hok
  exact ⟨⟨hreached, hnested, hplain, hkeys, hdistinct, hmarkers⟩, t, r', h,
    Rendering.embed_splices hreached hnested hplain hkeys hdistinct hmarkers h⟩

end Splices

end MailMerge
