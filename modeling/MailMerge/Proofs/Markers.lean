import MailMerge.Proofs.Gathering
import MailMerge.Proofs.Pictures
import MailMerge.Proofs.Shrinking
import MailMerge.Proofs.Table
import MailMerge.Render.Media

/-!
# Markers in texts

When neither a template nor the data hold the two characters that markers are made with, these
characters come into an expansion with the markers of its pictures only. So the expansion is
**marked** by its pictures: it is cut by their markers, in order, into texts without these
characters (`marked_expand`). Putting in the drawings in the same order takes the first marker each
time, and leaves none behind (`exists_splice_eq`, `Spliced.markerFree`).
-/

namespace MailMerge

/-! ### Texts without markers -/

/-- Whether a character starts or ends markers. -/
def isMarkerEnd (c : Char) : Bool :=
  c == markerOpen || c == markerClose

/-- No character of a text starts or ends markers. -/
def MarkerFree (s : List Char) : Prop :=
  ∀ c ∈ s, isMarkerEnd c = false

instance (s : List Char) : Decidable (MarkerFree s) :=
  inferInstanceAs (Decidable (∀ c ∈ s, _))

/-- No string in the data has a character that starts or ends markers. -/
def DataTree.MarkerFree (data : DataTree) : Prop :=
  ∀ s : String, Value.HasString s (.map data) → MailMerge.MarkerFree s.toList

@[simp]
theorem markerFree_nil : MarkerFree [] := nofun

@[simp]
theorem markerFree_append {s r : List Char} :
    MarkerFree (s ++ r) ↔ MarkerFree s ∧ MarkerFree r :=
  List.forall_mem_append

theorem MarkerFree.subset {s r : List Char} (hs : MarkerFree s) (h : r ⊆ s) : MarkerFree r :=
  fun c hc => hs c (h hc)

theorem markerFree_flatMap {α : Type} {xs : List α} {f : α → List Char} :
    MarkerFree (xs.flatMap f) ↔ ∀ x ∈ xs, MarkerFree (f x) := by
  simp only [MarkerFree, List.mem_flatMap, forall_exists_index, and_imp]
  exact ⟨fun h x hx c hc => h c x hx hc, fun h c x hx hc => h x hx c hc⟩

theorem MarkerFree.markerOpen_notMem {s : List Char} (h : MarkerFree s) : markerOpen ∉ s :=
  fun hm => absurd (h _ hm) (by decide)

theorem isMarkerEnd_of_isNumeric {c : Char} (h : isNumeric c = true) : isMarkerEnd c = false := by
  rw [Bool.eq_false_iff]
  intro hm
  simp only [isMarkerEnd, Bool.or_eq_true, beq_iff_eq] at hm
  rcases hm with rfl | rfl <;> revert h <;> decide

theorem isMarkerEnd_of_mem_entity {c : Char} (h : c ∈ "&amplgtquos;".toList) :
    isMarkerEnd c = false :=
  (by decide : ∀ c ∈ "&amplgtquos;".toList, isMarkerEnd c = false) c h

theorem markerFree_escape {s : List Char} (h : MarkerFree s) : MarkerFree (Markup.escape s) := by
  intro c hc
  rcases mem_escape hc with ⟨hc, -⟩ | hc
  · exact h c hc
  · exact isMarkerEnd_of_mem_entity hc

section Passes

variable {data : DataTree} (options : Options)

/-- What is put into a text for a scalar of the data brings no marker. -/
theorem markerFree_of_scalarText? {options : Options} (h : data.MarkerFree) {v : Value}
    (hv : ∀ s, v.HasString s → Value.HasString s (.map data)) {s : List Char}
    (hs : options.scalarText? v = some s) : MarkerFree s := by
  intro c hc
  rcases mem_of_scalarText? hs hc with hc | hc | ⟨t, ht, hc⟩
  · exact isMarkerEnd_of_isNumeric hc
  · exact isMarkerEnd_of_mem_entity hc
  · exact h t (hv t ht) c hc

theorem hasString_of_mem_itemsOf {name : String} {v : Value} (hv : v ∈ itemsOf data name)
    {s : String} (hs : v.HasString s) : Value.HasString s (.map data) := by
  unfold itemsOf at hv
  split at hv
  · next items hitems =>
    exact .field (Fields.mem_of_get? hitems) (.item (List.mem_filter.1 hv).1 hs)
  · cases hv

theorem markerFree_fieldText {options : Options} (h : data.MarkerFree) {list : String} {v : Value}
    (hv : v ∈ itemsOf data list) (name : String) : MarkerFree (fieldText options v name) := by
  unfold fieldText
  cases hw : (v.field? name).bind options.scalarText? with
  | none => exact markerFree_nil
  | some s =>
    obtain ⟨w, hfield, hs⟩ := Option.bind_eq_some_iff.1 hw
    refine markerFree_of_scalarText? h (fun t ht => hasString_of_mem_itemsOf hv ?_) hs
    cases v with
    | map fields => exact .field (Fields.mem_of_get? hfield) ht
    | _ => cases hfield

theorem markerFree_fieldTokens {options : Options} (h : data.MarkerFree) {list : String} {v : Value}
    (hv : v ∈ itemsOf data list) (of : Repetition) {t : Token} (ht : MarkerFree t.text) :
    MarkerFree ((fieldTokens options of v t).flatMap Token.text) := by
  have hsame : MarkerFree ([t].flatMap Token.text) := by
    simpa using ht
  cases t with
  | char c => exact hsame
  | tag t =>
    cases t with
    | simple name =>
      rw [fieldTokens, flatMap_text_map_tokenChar]
      exact markerFree_fieldText h hv name
    | table name =>
      rw [fieldTokens]
      split
      · exact markerFree_nil
      · exact hsame
    | _ => exact hsame

/-- A text that is repeated for the items of a list. -/
theorem markerFree_items {options : Options} (h : data.MarkerFree) (of : Repetition) (list : String)
    {template : List Token} (ht : ∀ t ∈ template, MarkerFree t.text) :
    MarkerFree (((itemsOf data list).flatMap fun v =>
      template.flatMap (fieldTokens options of v)).flatMap Token.text) := by
  simp only [List.flatMap_assoc, markerFree_flatMap]
  exact fun v hv t hm => markerFree_flatMap.1 (markerFree_fieldTokens h hv of (ht t hm))

theorem markerFree_of_mem_tokens (window : Nat) {s : List Char} (hs : MarkerFree s) :
    ∀ t ∈ tokens window s, MarkerFree t.text := by
  rwa [← markerFree_flatMap, text_tokens]

theorem markerFree_expandLoops (h : data.MarkerFree) {ts : List Token}
    (hts : ∀ t ∈ ts, MarkerFree t.text) : MarkerFree (expandLoops data options ts).text := by
  induction ts using expandLoops.induct with
  | case1 =>
    rw [expandLoops_nil]
    exact markerFree_nil
  | case2 name rest body after hclosed _ ih =>
    rw [List.forall_mem_cons, eq_append_of_closedBy? hclosed, List.forall_mem_append,
      List.forall_mem_cons] at hts
    rw [expandLoops_closed hclosed, Expansion.text_append, markerFree_append, text_expandLoop]
    exact ⟨markerFree_items h .loop name hts.2.1, ih hts.2.2.2⟩
  | case3 name rest hclosed ih =>
    rw [List.forall_mem_cons] at hts
    rw [expandLoops_unclosed hclosed, Expansion.text_append, Expansion.text_append,
      Expansion.text_warning, List.append_nil, markerFree_append]
    exact ⟨hts.1, ih hts.2⟩
  | case4 t rest hne ih =>
    rw [List.forall_mem_cons] at hts
    rw [expandLoops_cons hne, Expansion.text_append, markerFree_append]
    exact ⟨hts.1, ih hts.2⟩

theorem markerFree_expandRow {options : Options} (h : data.MarkerFree) (name : String)
    {row : List Char} (hrow : MarkerFree row) :
    MarkerFree (expandRow data options name row).text := by
  rw [expandRow_eq]
  cases tableProblem? data name with
  | some w => exact markerFree_nil
  | none => exact markerFree_items h .table name (markerFree_of_mem_tokens options.window hrow)

theorem markerFree_tableRound {options : Options} (h : data.MarkerFree)
    {done rest done' rest' : List Char} {note : Expansion} (hdone : MarkerFree done)
    (hrest : MarkerFree rest)
    (hround : tableRound data options done rest = some (note, done', rest')) :
    note.text = [] ∧ MarkerFree done' ∧ MarkerFree rest' := by
  cases hfirst : firstMark? (tokens options.window rest) with
  | none => simp [tableRound, hfirst] at hround
  | some found =>
    obtain ⟨between, name⟩ := found
    obtain ⟨-, after, htext⟩ := exists_of_firstMark? hfirst
    rw [text_tokens] at htext
    rw [tableRound_eq data hfirst htext] at hround
    rw [htext, markerFree_append, markerFree_append] at hrest
    obtain ⟨hbetween, hmark, hafter⟩ := hrest
    have hbefore : MarkerFree (done ++ between) := markerFree_append.2 ⟨hdone, hbetween⟩
    split at hround
    · simp only [Option.some.injEq, Prod.mk.injEq] at hround
      obtain ⟨rfl, rfl, rfl⟩ := hround
      refine ⟨rfl, markerFree_append.2 ⟨hbefore.subset (List.take_subset _ _), ?_⟩,
        hafter.subset (List.drop_subset _ _)⟩
      refine markerFree_expandRow h name (markerFree_append.2 ⟨markerFree_append.2 ⟨?_, hmark⟩,
        hafter.subset (List.take_subset _ _)⟩)
      exact hbefore.subset (List.drop_subset _ _)
    · simp only [Option.some.injEq, Prod.mk.injEq] at hround
      obtain ⟨rfl, rfl, rfl⟩ := hround
      exact ⟨rfl, hbefore, hafter⟩

theorem markerFree_expandTables (h : data.MarkerFree) {s : List Char} (hs : MarkerFree s) :
    MarkerFree (expandTables data options s).text := by
  have hfrom : ∀ done rest, MarkerFree done → MarkerFree rest →
      MarkerFree (expandTablesFrom data options done rest).text := by
    intro done rest hdone hrest
    induction done, rest using expandTablesFrom.induct data options with
    | case1 done rest hround =>
      rw [expandTablesFrom_of_none hround]
      exact markerFree_append.2 ⟨hdone, hrest⟩
    | case2 done rest note done' rest' hround _ ih =>
      obtain ⟨hnote, hdone', hrest'⟩ := markerFree_tableRound h hdone hrest hround
      rw [expandTablesFrom_of_some hround, Expansion.text_append, hnote, List.nil_append]
      exact ih hdone' hrest'
  exact hfrom [] s markerFree_nil hs

end Passes

/-! ### Texts with markers -/

/-- A text is cut by the markers of some pictures into texts without markers. -/
inductive Marked : List Placement → List Char → Prop
  | nil {s : List Char} (hs : MarkerFree s) : Marked [] s
  | cons {s r : List Char} {p : Placement} {ps : List Placement} (hs : MarkerFree s)
      (hp : ∃ n, p.marker = marker n) (hr : Marked ps r) : Marked (p :: ps) (s ++ (p.marker ++ r))

theorem Marked.append_left {ps : List Placement} {r : List Char} (h : Marked ps r) {s : List Char}
    (hs : MarkerFree s) : Marked ps (s ++ r) := by
  cases h with
  | nil hr => exact .nil (markerFree_append.2 ⟨hs, hr⟩)
  | cons hs' hp hr =>
    rw [← List.append_assoc]
    exact .cons (markerFree_append.2 ⟨hs, hs'⟩) hp hr

section Placeholders

variable {data : DataTree}

theorem marked_expandPlaceholders (options : Options) (h : data.MarkerFree) {ts : List Token}
    (hts : ∀ t ∈ ts, MarkerFree t.text) (placed : Nat) :
    Marked (expandPlaceholders data options placed ts).images
      (expandPlaceholders data options placed ts).text := by
  induction ts generalizing placed with
  | nil => exact .nil markerFree_nil
  | cons t ts ih =>
    rw [List.forall_mem_cons] at hts
    by_cases hsimple : ∃ name, t = .tag (.simple name)
    · obtain ⟨name, rfl⟩ := hsimple
      rw [expandPlaceholders]
      generalize hplaced : placed + (expandPlaceholder data options placed name).images.length = n
      have hrest := ih hts.2 n
      rw [Expansion.images_append, Expansion.text_append, expandPlaceholder_eq]
      cases hget : data.get? name with
      | none => exact hrest
      | some v =>
        rw [Option.elim_some]
        have hplain : ∀ s, options.scalarText? v = some s → MarkerFree s := fun s hs =>
          markerFree_of_scalarText? h (fun _ hv => .field (Fields.mem_of_get? hget) hv) hs
        cases v with
        | image picture => exact .cons markerFree_nil ⟨placed, rfl⟩ hrest
        | null | bool | number | string | list | map =>
          simp only [expandValue]
          split
          · next s hs => exact hrest.append_left (hplain s hs)
          · split <;> exact hrest
    · rw [expandPlaceholders_cons fun name ht => hsimple ⟨name, ht⟩, Expansion.images_append,
        Expansion.text_append]
      exact (ih hts.2 placed).append_left hts.1

/-- The passes in front of placeholders bring no marker. -/
theorem markerFree_unfilled (options : Options) (h : data.MarkerFree) {s : List Char}
    (hs : MarkerFree s) : MarkerFree (unfilled data options s) := by
  have hlooped := markerFree_expandLoops options h (markerFree_of_mem_tokens options.window hs)
  have hdecided := hlooped.subset (expandConditionals_tokens_sublist data options.window _).subset
  exact markerFree_expandTables options h hdecided

/-- An expansion is marked by its pictures. -/
theorem marked_expand (options : Options) (h : data.MarkerFree) {s : List Char}
    (hs : MarkerFree s) :
    Marked (expand data options s).images (expand data options s).text := by
  rw [images_expand, text_expand]
  exact marked_expandPlaceholders options h
    (markerFree_of_mem_tokens options.window (markerFree_unfilled options h hs)) 0

end Placeholders

/-! ### Gathering brings none -/

theorem markerFree_gather {window : Nat} {fragments : List (List Char)}
    (h : ∀ s ∈ fragments, MarkerFree s) : ∀ s ∈ gather window fragments, MarkerFree s := by
  obtain ⟨groups, hflat, hgather⟩ := exists_gather_eq window fragments
  have htokens : ∀ t ∈ tokens window fragments.flatten, MarkerFree t.text := by
    refine markerFree_of_mem_tokens window fun c hc => ?_
    obtain ⟨s, hs, hc⟩ := List.mem_flatten.1 hc
    exact h s hs c hc
  intro s hs
  rw [hgather] at hs
  obtain ⟨group, hgroup, rfl⟩ := List.mem_map.1 hs
  exact markerFree_flatMap.2 fun t ht =>
    htokens t (hflat ▸ List.mem_flatten.2 ⟨group, hgroup, ht⟩)

theorem markerFree_keepingSpace {opening : List Char} (h : MarkerFree opening) :
    MarkerFree (Markup.keepingSpace opening) := by
  rw [Markup.keepingSpace]
  split
  · exact h
  · exact markerFree_append.2 ⟨h.subset (List.dropLast_subset _), by decide⟩

/-- Gathering brings no marker into a part. -/
theorem markerFree_gatherPart {window : Nat} {s : List Char} (h : MarkerFree s) :
    MarkerFree (Markup.gatherPart window s) := by
  have hchunks : ∀ chunk ∈ Markup.chunks s, MarkerFree chunk.text := by
    rwa [← markerFree_flatMap, Markup.text_chunks]
  have hcontents : ∀ content ∈ Markup.textContents s, MarkerFree content := by
    intro content hcontent
    obtain ⟨chunk, hchunk, hcontent⟩ := List.mem_filterMap.1 hcontent
    cases chunk with
    | char c => cases hcontent
    | element opening content' =>
      cases hcontent
      exact (markerFree_append.1 (hchunks _ hchunk)).2
  have hwith : ∀ (chunks : List Markup.Chunk) (contents : List (List Char)),
      (∀ chunk ∈ chunks, MarkerFree chunk.text) → (∀ content ∈ contents, MarkerFree content) →
        MarkerFree (Markup.withContents chunks contents) := by
    intro chunks contents hchunks hcontents
    fun_induction Markup.withContents chunks contents with
    | case1 => exact markerFree_nil
    | case2 c chunks contents ih =>
      rw [List.forall_mem_cons] at hchunks
      exact (markerFree_append (s := [c])).2 ⟨hchunks.1, ih hchunks.2 hcontents⟩
    | case3 opening content chunks new contents ih =>
      rw [List.forall_mem_cons] at hchunks hcontents
      have hopening := (markerFree_append.1 hchunks.1).1
      rw [markerFree_append, markerFree_append]
      refine ⟨⟨?_, hcontents.1⟩, ih hchunks.2 hcontents.2⟩
      split
      · exact hopening
      · exact markerFree_keepingSpace hopening
    | case4 opening content chunks ih =>
      rw [List.forall_mem_cons] at hchunks
      exact markerFree_append.2 ⟨hchunks.1, ih hchunks.2 (by simp)⟩
  exact hwith _ _ hchunks (markerFree_gather hcontents)

/-! ### Drawings for markers -/

/-- A drawing as it stands in a text: a text element around it may be closed in front of it and
opened again behind. -/
inductive Stands (drawing : Drawing) : List Char → Prop
  | alone : Stands drawing drawing.text
  | between : Stands drawing
      (Markup.textClosing ++ drawing.text ++ "<w:t xml:space=\"preserve\">".toList)

/-- Drawings stand in the places of the markers of pictures, between texts without markers. -/
inductive Spliced : List (Placement × Drawing) → List Char → List Char → Prop
  | nil {s : List Char} (hs : MarkerFree s) : Spliced [] s s
  | cons {s d r r' : List Char} {p : Placement} {drawing : Drawing}
      {shown : List (Placement × Drawing)} (hs : MarkerFree s) (hd : Stands drawing d)
      (hr : Spliced shown r r') :
      Spliced ((p, drawing) :: shown) (s ++ (p.marker ++ r)) (s ++ (d ++ r'))

theorem Stands.markerFree {drawing : Drawing} {d : List Char} (h : Stands drawing d)
    (hdrawing : MarkerFree drawing.text) : MarkerFree d := by
  cases h with
  | alone => exact hdrawing
  | between =>
    rw [markerFree_append, markerFree_append]
    exact ⟨⟨by decide, hdrawing⟩, by decide⟩

/-- No marker is left when drawings bring none. -/
theorem Spliced.markerFree {shown : List (Placement × Drawing)} {s r : List Char}
    (h : Spliced shown s r) (hshown : ∀ x ∈ shown, MarkerFree x.2.text) : MarkerFree r := by
  induction h with
  | nil hs => exact hs
  | cons hs hd _ ih =>
    rw [List.forall_mem_cons] at hshown
    rw [markerFree_append, markerFree_append]
    exact ⟨hs, hd.markerFree hshown.1, ih hshown.2⟩

/-- The first marker gives way to a drawing. -/
theorem exists_splice_eq {p : Placement} (hp : ∃ n, p.marker = marker n) {s : List Char}
    (hs : MarkerFree s) (drawing : Drawing) (r : List Char) :
    ∃ d, Stands drawing d ∧
      Embedding.splice p.marker drawing.text (s ++ (p.marker ++ r)) = s ++ (d ++ r) := by
  obtain ⟨n, hn⟩ := hp
  have hbreak : Text.breakAt? p.marker (s ++ (p.marker ++ r)) = some (s, r) := by
    rw [hn]
    exact Text.breakAt?_append_of_notMem hs.markerOpen_notMem r
  rw [Embedding.splice, hbreak]
  dsimp only
  split
  · exact ⟨_, .between, by simp only [List.append_assoc]⟩
  · exact ⟨_, .alone, by rw [List.append_assoc]⟩

/-- A drawing brings no marker when what is written in it brings none. -/
theorem markerFree_drawing {drawing : Drawing} (hid : MarkerFree drawing.relationshipId.toList)
    (hname : MarkerFree drawing.name.toList) : MarkerFree drawing.text := by
  have hdigits : MarkerFree (String.ofList (decimalDigits drawing.drawingId)).toList := by
    rw [String.toList_ofList]
    exact fun c hc => isMarkerEnd_of_isNumeric (isNumeric_decimalDigits c hc)
  have hinteger : ∀ n, MarkerFree (String.ofList (integerText n)).toList := by
    intro n
    rw [String.toList_ofList]
    exact fun c hc => isMarkerEnd_of_isNumeric (isNumeric_integerText c hc)
  have hwidth := hinteger drawing.extent.width
  have hheight := hinteger drawing.extent.height
  have hwritten : MarkerFree (String.ofList (Markup.escape drawing.name.toList)).toList := by
    rw [String.toList_ofList]
    exact markerFree_escape hname
  unfold Drawing.text
  refine markerFree_flatMap.2 ?_
  dsimp only
  generalize String.ofList (decimalDigits drawing.drawingId) = digits at hdigits
  generalize String.ofList (integerText drawing.extent.width) = width at hwidth
  generalize String.ofList (integerText drawing.extent.height) = height at hheight
  generalize String.ofList (Markup.escape drawing.name.toList) = written at hwritten
  generalize drawing.relationshipId = id at hid
  simp only [List.forall_mem_cons]
  and_intros
  all_goals first | decide +kernel | assumption

end MailMerge
