import Mathlib.Data.List.Basic
import MailMerge.Proofs.Markers
import MailMerge.Proofs.Relating
import MailMerge.Proofs.Tree

/-!
# Where markers occur

A marker has the character that starts markers at its start only, and the one that ends them at its
end only. So where a text is cut by a marker, another one stands on one of the two sides
(`IsMarker.occurs_append`).

The markers in an expansion stand where the placeholders of pictures stood, in order. Each of them
stands there once when the text between them does not spell it (`markers_expand`); templates and
data can.
-/

namespace MailMerge

/-- A text stands at one place in another, and nowhere else. -/
def Text.OccursOnce {α : Type} (p s : List α) : Prop :=
  ∃! before, before ++ p <+: s

/-- The characters that start and end markers stand at the two ends of a text, and not inside. -/
def IsMarker (m : List Char) : Prop :=
  ∃ inner, m = markerOpen :: (inner ++ [markerClose]) ∧ MarkerFree inner

theorem isMarker_marker (n : Nat) : IsMarker (marker n) := by
  refine ⟨"IMG".toList ++ decimalDigits n, by rw [marker], markerFree_append.2 ⟨by decide, ?_⟩⟩
  exact fun c hc => isMarkerEnd_of_isNumeric (isNumeric_decimalDigits c hc)

theorem marker_inj {i j : Nat} (h : marker i = marker j) : i = j := by
  rw [marker, marker, List.cons.injEq, List.append_left_inj, List.append_right_inj] at h
  exact decimalDigits_inj h.2

namespace IsMarker

variable {m m' : List Char}

theorem length_pos (h : IsMarker m) : 0 < m.length := by
  obtain ⟨inner, rfl, -⟩ := h
  exact Nat.succ_pos _

/-- Two texts that start with markers start with the same one. -/
theorem append_inj (h : IsMarker m) (h' : IsMarker m') {r r' : List Char}
    (heq : m ++ r = m' ++ r') : m = m' ∧ r = r' := by
  obtain ⟨inner, rfl, hinner⟩ := h
  obtain ⟨inner', rfl, hinner'⟩ := h'
  have hnot : ∀ s, MarkerFree s → markerClose ∉ s := fun s hs hm => absurd (hs _ hm) (by decide)
  simp only [List.cons_append, List.append_assoc, List.nil_append, List.cons.injEq,
    true_and] at heq
  obtain ⟨rfl, rfl⟩ := Text.eq_of_append_cons_eq (hnot _ hinner) (hnot _ hinner') heq
  exact ⟨rfl, rfl⟩

/-- No marker starts inside a marker. -/
theorem eq_nil_of_append (h : IsMarker m) (h' : IsMarker m') {x y r r' : List Char} (hx : x ≠ [])
    (hm : m = x ++ y) (hy : m' ++ r = y ++ r') : y = [] := by
  obtain ⟨inner, rfl, hinner⟩ := h
  obtain ⟨inner', rfl, -⟩ := h'
  obtain _ | ⟨d, y⟩ := y
  · rfl
  · obtain _ | ⟨c, x⟩ := x
    · exact absurd rfl hx
    · obtain ⟨rfl, -⟩ := List.cons.inj hy
      have hmem : markerOpen ∈ inner ++ [markerClose] := by
        rw [(List.cons.inj hm).2]
        exact List.mem_append_right _ List.mem_cons_self
      rcases List.mem_append.1 hmem with hmem | hmem
      · exact absurd hmem hinner.markerOpen_notMem
      · exact absurd hmem (by decide)

/-- A marker that stands in a text with another marker is that one or stands on one side of it. -/
theorem occurs_append (h : IsMarker m) (h' : IsMarker m') {a b before : List Char} :
    before ++ m <+: a ++ (m' ++ b) ↔
      before ++ m <+: a ∨ (before = a ∧ m = m') ∨
        ∃ before', before = a ++ (m' ++ before') ∧ before' ++ m <+: b := by
  constructor
  · rintro ⟨r, hr⟩
    rw [List.append_assoc, List.append_eq_append_iff] at hr
    obtain ⟨x, rfl, hx⟩ | ⟨x, rfl, hx⟩ := hr
    · obtain ⟨y, rfl, hy⟩ | ⟨y, hy, hr⟩ := List.append_eq_append_iff.1 hx
      · exact .inl ⟨y, (List.append_assoc ..)⟩
      · by_cases hnil : x = []
        · subst hnil
          exact .inr (.inl ⟨(List.append_nil _).symm, (h.append_inj h' hx).1⟩)
        · obtain rfl := h.eq_nil_of_append h' hnil hy hr
          exact .inl ⟨[], by rw [hy, List.append_nil, List.append_nil]⟩
    · obtain ⟨y, rfl, hy⟩ | ⟨y, hy, hr⟩ := List.append_eq_append_iff.1 hx
      · exact .inr (.inr ⟨y, rfl, r, by rw [hy, List.append_assoc]⟩)
      · by_cases hnil : x = []
        · subst hnil
          exact .inr (.inl ⟨List.append_nil _, ((h'.append_inj h hx).1).symm⟩)
        · obtain rfl := h'.eq_nil_of_append h hnil hy hr
          rw [List.append_nil] at hy
          subst hy
          exact .inr (.inr ⟨[], by rw [List.append_nil], r, hr⟩)
  · rintro (hbefore | ⟨rfl, rfl⟩ | ⟨before', rfl, hbefore⟩)
    · exact hbefore.trans (List.prefix_append _ _)
    · rw [← List.append_assoc]
      exact List.prefix_append _ _
    · rw [List.append_assoc, List.append_assoc, List.prefix_append_right_inj,
        List.prefix_append_right_inj]
      exact hbefore

theorem isInfix_append (h : IsMarker m) (h' : IsMarker m') {a b : List Char} :
    m <:+: a ++ (m' ++ b) ↔ m <:+: a ∨ m = m' ∨ m <:+: b := by
  change (∃ before, before ++ m <+: a ++ (m' ++ b)) ↔
    (∃ before, before ++ m <+: a) ∨ m = m' ∨ ∃ before, before ++ m <+: b
  simp only [h.occurs_append h', exists_or]
  refine or_congr_right (or_congr (by simp) ?_)
  exact ⟨fun ⟨_, before, _, hb⟩ => ⟨before, hb⟩, fun ⟨before, hb⟩ => ⟨_, before, rfl, hb⟩⟩

/-- A marker stands once when it stands on neither side of a place where it stands. -/
theorem occursOnce_append (h : IsMarker m) {a b : List Char} :
    Text.OccursOnce m (a ++ (m ++ b)) ↔ ¬m <:+: a ∧ ¬m <:+: b := by
  have hpos : 0 < m.length := h.length_pos
  have hplace : a ++ m <+: a ++ (m ++ b) := (h.occurs_append h).2 (.inr (.inl ⟨rfl, rfl⟩))
  constructor
  · intro hone
    have heq : ∀ before, before ++ m <+: a ++ (m ++ b) → before = a := fun before hbefore =>
      hone.unique hbefore hplace
    refine ⟨fun ⟨before, hbefore⟩ => ?_, fun ⟨before, hbefore⟩ => ?_⟩
    · have hlen := List.IsPrefix.length_le hbefore
      rw [heq before ((h.occurs_append h).2 (.inl hbefore)), List.length_append] at hlen
      omega
    · have hlen := congrArg List.length
        (heq _ ((h.occurs_append h).2 (.inr (.inr ⟨before, rfl, hbefore⟩))))
      rw [List.length_append, List.length_append] at hlen
      omega
  · rintro ⟨ha, hb⟩
    refine ⟨a, hplace, fun before hbefore => ?_⟩
    obtain hbefore | ⟨rfl, -⟩ | ⟨before', -, hbefore⟩ := (h.occurs_append h).1 hbefore
    · exact absurd ⟨before, hbefore⟩ ha
    · rfl
    · exact absurd ⟨before', hbefore⟩ hb

/-- A text is cut by a marker at the first place where it stands. -/
theorem breakAt?_append (h : IsMarker m) {a : List Char} (ha : ¬m <:+: a) (b : List Char) :
    Text.breakAt? m (a ++ (m ++ b)) = some (a, b) := by
  induction a with
  | nil =>
    obtain ⟨inner, rfl, -⟩ := h
    exact Text.breakAt?_append_of_notMem List.not_mem_nil b
  | cons c a ih =>
    have hnone : Text.after? m (c :: (a ++ (m ++ b))) = none := by
      rw [Option.eq_none_iff_forall_ne_some]
      intro r hr
      have hplace : [] ++ m <+: (c :: a) ++ (m ++ b) := ⟨r, (Text.eq_append_of_after? hr).symm⟩
      obtain hplace | ⟨hnil, -⟩ | ⟨before', hnil, -⟩ := (h.occurs_append h).1 hplace
      · exact ha ⟨[], hplace⟩
      · cases hnil
      · cases hnil
    rw [List.cons_append, Text.breakAt?, hnone,
      ih fun hm => ha (hm.trans (List.suffix_cons c a).isInfix)]
    rfl

/-- What starts with an angle bracket and spells no marker parts a text for markers without one. -/
theorem isInfix_of_solid (h : IsMarker m) (hangle : '<' ∉ m) {a b s : List Char}
    (hs : MarkerFree ('<' :: s)) (hm : m <:+: a ++ ('<' :: s ++ b)) : m <:+: a ∨ m <:+: b := by
  obtain ⟨before, r, hr⟩ := hm
  rw [List.append_assoc, List.append_eq_append_iff] at hr
  obtain ⟨x, rfl, hx⟩ | ⟨x, rfl, hx⟩ := hr
  · obtain ⟨y, rfl, -⟩ | ⟨y, rfl, hy⟩ := List.append_eq_append_iff.1 hx
    · exact .inl ⟨before, y, List.append_assoc ..⟩
    · obtain _ | ⟨c, y⟩ := y
      · exact .inl ⟨before, [], by simp⟩
      · rw [← (List.cons.inj hy).1] at hangle
        exact absurd (List.mem_append_right _ List.mem_cons_self) hangle
  · obtain ⟨y, rfl, hy⟩ | ⟨y, hsplit, hy⟩ := List.append_eq_append_iff.1 hx
    · exact .inr ⟨y, r, by rw [hy, List.append_assoc]⟩
    · obtain _ | ⟨c, y⟩ := y
      · exact .inr ⟨[], r, hy⟩
      · obtain ⟨inner, rfl, -⟩ := h
        rw [hsplit, ← (List.cons.inj hy).1] at hs
        exact absurd (List.mem_append_right _ List.mem_cons_self) hs.markerOpen_notMem

end IsMarker

/-! ### Placeholders of pictures -/

/-- Whether a token is a placeholder of a picture. -/
def isPictureToken (data : DataTree) : Token → Bool
  | .tag (.simple name) => isPicture data name
  | _ => false

theorem exists_of_isPictureToken {data : DataTree} {t : Token} (h : isPictureToken data t = true) :
    ∃ name image, t = .tag (.simple name) ∧ data.get? name = some (.image image) := by
  unfold isPictureToken at h
  split at h
  · next name =>
    rw [isPicture] at h
    split at h
    · next image hget => exact ⟨name, image, rfl, hget⟩
    · cases h
  · cases h

section Placeholders

variable (data : DataTree) (options : Options)

theorem isPictureToken_simple {name : String} {image : Image}
    (h : data.get? name = some (.image image)) :
    isPictureToken data (.tag (.simple name)) = true := by
  rw [isPictureToken, isPicture, h]

/-- What comes of one token when placeholders are resolved. -/
def expandToken (placed : Nat) : Token → Expansion
  | .tag (.simple name) => expandPlaceholder data options placed name
  | t => .literal t.text

theorem expandPlaceholders_cons_eq (placed : Nat) (t : Token) (ts : List Token) :
    expandPlaceholders data options placed (t :: ts) = expandToken data options placed t
      ++ expandPlaceholders data options
        (placed + if isPictureToken data t then 1 else 0) ts := by
  unfold expandToken
  split
  · next name =>
    rw [expandPlaceholders, length_images_expandPlaceholder]
    rfl
  · next hne =>
    have hplain : isPictureToken data t = false := by
      unfold isPictureToken
      split
      · next name => exact absurd rfl (hne name)
      · rfl
    rw [expandPlaceholders_cons hne, hplain]
    rfl

theorem length_images_expandToken (placed : Nat) (t : Token) :
    (expandToken data options placed t).images.length
      = if isPictureToken data t then 1 else 0 := by
  unfold expandToken isPictureToken
  split
  · exact length_images_expandPlaceholder data options placed _
  · rfl

theorem count_expandToken (placed : Nat) (t : Token) :
    (expandToken data options placed t).stats.images
      = (expandToken data options placed t).images.length := by
  unfold expandToken
  split
  · next name =>
    rw [expandPlaceholder_eq]
    cases data.get? name with
    | none => rfl
    | some v =>
      cases v with
      | image => rfl
      | _ =>
        simp only [Option.elim_some, expandValue]
        split
        · rfl
        · split <;> rfl
  · rfl

/-- Only pictures are numbered. -/
theorem expandToken_of_plain {t : Token} (h : isPictureToken data t = false) (placed : Nat) :
    expandToken data options placed t = expandToken data options 0 t := by
  unfold expandToken
  split
  · next name =>
    rw [isPictureToken, isPicture] at h
    rw [expandPlaceholder_eq, expandPlaceholder_eq]
    cases hget : data.get? name with
    | none => rfl
    | some v =>
      cases v with
      | image => simp [hget] at h
      | _ => rfl
  · rfl

theorem expandPlaceholders_append (us vs : List Token) (placed : Nat) :
    expandPlaceholders data options placed (us ++ vs) = expandPlaceholders data options placed us
      ++ expandPlaceholders data options (placed + us.countP (isPictureToken data)) vs := by
  induction us generalizing placed with
  | nil => exact (Expansion.empty_append _).symm
  | cons u us ih =>
    rw [List.cons_append, expandPlaceholders_cons_eq, expandPlaceholders_cons_eq, ih,
      Expansion.append_assoc, List.countP_cons, Nat.add_assoc, Nat.add_comm (ite _ _ _)]

theorem length_images_expandPlaceholders (ts : List Token) (placed : Nat) :
    (expandPlaceholders data options placed ts).images.length
      = ts.countP (isPictureToken data) := by
  induction ts generalizing placed with
  | nil => rfl
  | cons t ts ih =>
    rw [expandPlaceholders_cons_eq, Expansion.images_append, List.length_append, ih,
      length_images_expandToken, List.countP_cons, Nat.add_comm]

theorem count_expandPlaceholders (ts : List Token) (placed : Nat) :
    (expandPlaceholders data options placed ts).stats.images
      = (expandPlaceholders data options placed ts).images.length := by
  induction ts generalizing placed with
  | nil => rfl
  | cons t ts ih =>
    rw [expandPlaceholders_cons_eq, Expansion.stats_append, Stats.images_add, ih,
      count_expandToken, Expansion.images_append, List.length_append]

theorem expandPlaceholders_of_plain {ts : List Token} (h : ∀ t ∈ ts, isPictureToken data t = false)
    (placed : Nat) :
    expandPlaceholders data options placed ts = expandPlaceholders data options 0 ts := by
  induction ts with
  | nil => rfl
  | cons t ts ih =>
    rw [List.forall_mem_cons] at h
    rw [expandPlaceholders_cons_eq, expandPlaceholders_cons_eq, h.1, if_neg Bool.false_ne_true,
      Nat.add_zero, Nat.add_zero, ih h.2, expandToken_of_plain data options h.1]

/-- What comes of a text with the placeholder of a picture: the marker of its number stands where
the placeholder stood. -/
theorem expandPlaceholders_picture {name : String} {image : Image}
    (h : data.get? name = some (.image image)) (us vs : List Token) (placed : Nat) :
    let n := placed + us.countP (isPictureToken data)
    let e := expandPlaceholders data options placed (us ++ .tag (.simple name) :: vs)
    e.text = (expandPlaceholders data options placed us).text
        ++ (marker n ++ (expandPlaceholders data options (n + 1) vs).text) ∧
      e.images = (expandPlaceholders data options placed us).images
        ++ ⟨marker n, name, image⟩ :: (expandPlaceholders data options (n + 1) vs).images := by
  intro n e
  have hpicture := isPictureToken_simple data h
  have htoken : expandToken data options n (.tag (.simple name))
      = expandValue options n name (.image image) := by
    rw [expandToken, expandPlaceholder_eq, h, Option.elim_some]
  have heq : e = expandPlaceholders data options placed us
      ++ (expandValue options n name (.image image)
        ++ expandPlaceholders data options (n + 1) vs) := by
    rw [← htoken]
    exact (expandPlaceholders_append data options us _ placed).trans (by
      rw [expandPlaceholders_cons_eq, if_pos hpicture])
  rw [heq]
  exact ⟨rfl, rfl⟩

/-- Induction on the first placeholder of a picture. -/
theorem picturewise {motive : List Token → Prop}
    (plain : ∀ ts, (∀ t ∈ ts, isPictureToken data t = false) → motive ts)
    (picture : ∀ us name image vs, (∀ u ∈ us, isPictureToken data u = false) →
      data.get? name = some (.image image) → motive vs →
        motive (us ++ .tag (.simple name) :: vs)) (ts : List Token) : motive ts := by
  induction hlen : ts.length using Nat.strongRecOn generalizing ts with
  | _ length ih =>
    cases hfirst : ts.find? (isPictureToken data) with
    | none =>
      refine plain ts fun t ht => ?_
      simpa using List.find?_eq_none.1 hfirst t ht
    | some t =>
      obtain ⟨hpicture, us, vs, rfl, hus⟩ := List.find?_eq_some_iff_append.1 hfirst
      obtain ⟨name, image, rfl, himage⟩ := exists_of_isPictureToken hpicture
      rw [List.length_append, List.length_cons] at hlen
      exact picture us name image vs (fun u hu => by simpa using hus u hu) himage
        (ih vs.length (by omega) vs rfl)

theorem countP_of_plain {ts : List Token} (h : ∀ t ∈ ts, isPictureToken data t = false) :
    ts.countP (isPictureToken data) = 0 := by
  refine List.countP_eq_zero.2 fun t ht => ?_
  rw [h t ht]
  exact Bool.false_ne_true

/-- A marker stands in a text when it is that of a picture, or the text between the pictures spells
it. -/
theorem isInfix_marker_iff (i : Nat) (ts : List Token) (placed : Nat) :
    marker i <:+: (expandPlaceholders data options placed ts).text ↔
      (placed ≤ i ∧ i < placed + ts.countP (isPictureToken data)) ∨
        ∃ u ∈ ts.splitOnP (isPictureToken data),
          marker i <:+: (expandPlaceholders data options 0 u).text := by
  induction ts using picturewise data generalizing placed with
  | plain ts hplain =>
    rw [List.splitOnP_eq_singleton hplain, expandPlaceholders_of_plain data options hplain,
      countP_of_plain data hplain]
    simp only [List.mem_singleton, exists_eq_left]
    exact ⟨.inr, fun h => h.resolve_left (by omega)⟩
  | picture us name image vs hus himage ih =>
    have hpicture := isPictureToken_simple data himage
    have hnumber : marker i = marker placed ↔ i = placed := ⟨marker_inj, congrArg marker⟩
    rw [(expandPlaceholders_picture data options himage us vs placed).1, countP_of_plain data hus,
      Nat.add_zero, (isMarker_marker i).isInfix_append (isMarker_marker placed), hnumber, ih,
      expandPlaceholders_of_plain data options hus,
      List.splitOnP_append_cons_of_forall_mem hus _ hpicture, List.countP_append,
      countP_of_plain data hus, List.countP_cons_of_pos hpicture, List.exists_mem_cons_iff]
    constructor
    · rintro (h | rfl | h | h)
      · exact .inr (.inl h)
      · exact .inl (by omega)
      · exact .inl (by omega)
      · exact .inr (.inr h)
    · rintro (h | h | h)
      · by_cases heq : i = placed
        · exact .inr (.inl heq)
        · exact .inr (.inr (.inl (by omega)))
      · exact .inl h
      · exact .inr (.inr (.inr h))

/-- The text between the pictures spells no marker when neither the template nor the data do. -/
theorem markerFree_of_mem_splitOnP {data : DataTree} (h : data.MarkerFree) {ts : List Token}
    (hts : ∀ t ∈ ts, MarkerFree t.text) :
    ∀ u ∈ ts.splitOnP (isPictureToken data),
      MarkerFree (expandPlaceholders data options 0 u).text := by
  have hplainly : ∀ us : List Token, (∀ u ∈ us, isPictureToken data u = false) →
      (∀ u ∈ us, MarkerFree u.text) → MarkerFree (expandPlaceholders data options 0 us).text := by
    intro us hus hfree
    have hmarked := marked_expandPlaceholders options h hfree 0
    rw [List.eq_nil_of_length_eq_zero ((length_images_expandPlaceholders data options us 0).trans
      (countP_of_plain data hus))] at hmarked
    cases hmarked with
    | nil hs => exact hs
  induction ts using picturewise data with
  | plain ts hplain =>
    rw [List.splitOnP_eq_singleton hplain, List.forall_mem_singleton]
    exact hplainly ts hplain hts
  | picture us name image vs hus himage ih =>
    rw [List.forall_mem_append, List.forall_mem_cons] at hts
    rw [List.splitOnP_append_cons_of_forall_mem hus _ (isPictureToken_simple data himage),
      List.forall_mem_cons]
    exact ⟨hplainly us hus hts.1, ih hts.2.2⟩

theorem exists_of_lt_countP {i : Nat} {ts : List Token}
    (h : i < ts.countP (isPictureToken data)) :
    ∃ us name image vs, ts = us ++ .tag (.simple name) :: vs ∧
      data.get? name = some (.image image) ∧ us.countP (isPictureToken data) = i := by
  induction ts using picturewise data generalizing i with
  | plain ts hplain =>
    rw [countP_of_plain data hplain] at h
    omega
  | picture us name image vs hus himage ih =>
    have hpicture := isPictureToken_simple data himage
    rw [List.countP_append, countP_of_plain data hus, List.countP_cons_of_pos hpicture] at h
    cases i with
    | zero => exact ⟨us, name, image, vs, rfl, himage, countP_of_plain data hus⟩
    | succ i =>
      obtain ⟨us', name', image', vs', rfl, himage', hcount⟩ := ih (by omega : i < _)
      refine ⟨us ++ .tag (.simple name) :: us', name', image', vs', by simp, himage', ?_⟩
      rw [List.countP_append, countP_of_plain data hus, List.countP_cons_of_pos hpicture, hcount,
        Nat.zero_add]

end Placeholders

/-! ### The markers of an expansion -/

/-- **The pictures of an expansion are counted and listed in the order of their placeholders, and
each marker stands where the placeholder stood.** It stands nowhere else when the text between the
placeholders of pictures does not spell it, and only then; so never when the template and the data
hold none of the two characters that markers are made with. -/
theorem markers_expand (data : DataTree) (options : Options) (s : List Char) :
    let e := expand data options s
    let ts := tokens options.window (unfilled data options s)
    e.stats.images = e.images.length ∧
      e.images.length = ts.countP (isPictureToken data) ∧
      (∀ us name vs image, ts = us ++ .tag (.simple name) :: vs →
        data.get? name = some (.image image) →
          let i := us.countP (isPictureToken data)
          e.images[i]? = some ⟨marker i, name, image⟩ ∧
            e.text = (expandPlaceholders data options 0 us).text
              ++ (marker i ++ (expandPlaceholders data options (i + 1) vs).text)) ∧
      (∀ i < e.images.length, Text.OccursOnce (marker i) e.text ↔
        ∀ u ∈ ts.splitOnP (isPictureToken data),
          ¬marker i <:+: (expandPlaceholders data options 0 u).text) ∧
      (MarkerFree s → data.MarkerFree →
        ∀ i < e.images.length, Text.OccursOnce (marker i) e.text) := by
  intro e ts
  have htext : e.text = (expandPlaceholders data options 0 ts).text := text_expand data options s
  have himages : e.images = (expandPlaceholders data options 0 ts).images :=
    images_expand data options s
  have hlength : e.images.length = ts.countP (isPictureToken data) := by
    rw [himages, length_images_expandPlaceholders]
  have honce : ∀ i < e.images.length, Text.OccursOnce (marker i) e.text ↔
      ∀ u ∈ ts.splitOnP (isPictureToken data),
        ¬marker i <:+: (expandPlaceholders data options 0 u).text := by
    intro i hi
    rw [hlength] at hi
    obtain ⟨us, name, image, vs, hts, himage, hcount⟩ := exists_of_lt_countP data hi
    have hpicture := isPictureToken_simple data himage
    have hcut := (expandPlaceholders_picture data options himage us vs 0).1
    rw [Nat.zero_add, hcount] at hcut
    rw [htext, hts, hcut, (isMarker_marker i).occursOnce_append, isInfix_marker_iff,
      isInfix_marker_iff, hcount, List.splitOnP_append_cons us vs hpicture,
      List.forall_mem_append]
    simp only [Nat.zero_add, Nat.lt_irrefl, and_false, false_or, not_exists, not_and,
      Nat.not_succ_le_self, false_and]
  refine ⟨?_, hlength, ?_, honce, ?_⟩
  · rw [himages]
    exact (count_expand data options s).trans (count_expandPlaceholders data options ts 0)
  · intro us name vs image hts himage i
    obtain ⟨hcut, hlist⟩ := expandPlaceholders_picture data options himage us vs 0
    rw [Nat.zero_add] at hcut hlist
    have hbefore := length_images_expandPlaceholders data options us 0
    rw [htext, himages, hts, hlist, List.getElem?_append_right (Nat.le_of_eq hbefore), hbefore,
      Nat.sub_self]
    exact ⟨rfl, hcut⟩
  · intro hs hdata i hi
    refine (honce i hi).2 fun u hu hm => ?_
    have hfree := markerFree_of_mem_splitOnP options hdata
      (markerFree_of_mem_tokens options.window (markerFree_unfilled options hdata hs)) u hu
    exact hfree.markerOpen_notMem (hm.subset List.mem_cons_self)

/-- A picture, by the first four bytes of its file. -/
def dot : Image :=
  { (default : Image) with bytes := [0x89, 0x50, 0x4e, 0x47] }

/-- A picture that is placed twice, each time with a marker of its own. -/
theorem markers_expand_twice :
    let data : DataTree := ⟨[("logo", .image dot), ("v", .string "V")]⟩
    let e := expand data {} "\x7blogo\x7d\x7bv\x7d\x7blogo\x7d".toList
    e.text = marker 0 ++ 'V' :: marker 1 ∧ e.images.length = 2 ∧
      ∀ i < e.images.length, Text.OccursOnce (marker i) e.text := by
  intro data e
  have hdata : data.MarkerFree := by
    rintro s (_ | _ | ⟨hv, hs⟩)
    rcases List.mem_cons.1 hv with hv | hv
    · cases hv
      cases hs
    · cases List.mem_singleton.1 hv
      cases hs
      decide
  exact ⟨by decide +kernel, by decide +kernel,
    (markers_expand data {} _).2.2.2.2 (by decide) hdata⟩

/-- Data that spell the marker of a picture behind them: it stands at two places. -/
theorem not_occursOnce_marker_spelled :
    let data : DataTree := ⟨[("logo", .image dot), ("v", .string "\ue000IMG0\ue001")]⟩
    let e := expand data {} "\x7bv\x7d\x7blogo\x7d".toList
    e.images.map Placement.marker = [marker 0] ∧ e.text = marker 0 ++ marker 0 ∧
      ¬Text.OccursOnce (marker 0) e.text := by
  intro data e
  have htext : e.text = marker 0 ++ marker 0 := by decide +kernel
  refine ⟨by decide +kernel, htext, fun honce => ?_⟩
  rw [htext] at honce
  have hplaces : [] = marker 0 := honce.unique (List.prefix_append _ _) (List.prefix_refl _)
  exact absurd hplaces (by decide)

end MailMerge
