import MailMerge.Proofs.Branches
import MailMerge.Proofs.Places
import MailMerge.Proofs.Rounds

/-!
# The regions of loops

Loops may be nested badly or be crossed, and closing tags may belong to conditionals. Whatever the
tags of a text are, the loop pass replaces **regions** that lie apart: from the end of one region
on, the first opening tag that has a closing tag of its name somewhere behind it opens the next,
which reaches up to the nearest such tag (`LoopsFrom`). This says which regions there are
(`LoopsFrom.unique`), in terms of the tags of the text and their places alone.

What comes of a text is put together from what comes of its regions and of the gaps between them
(`exists_loopsFrom`). So characters stay as they are outside of regions, and an opening tag there is
noted once; nothing that stands inside of a region is noted but what its items lack
(`expandLoops_regions`).
-/

namespace MailMerge

/-! ### Stretches of a text -/

section Sorted

variable {α : Type} {key : α → Nat} {l : List α}

/-- A sorted list is cut in two by a bound. -/
theorem filter_lt_append_filter_le (h : l.Pairwise fun x y => key x ≤ key y) (bound : Nat) :
    l.filter (fun x => key x < bound) ++ l.filter (fun x => bound ≤ key x) = l := by
  induction l with
  | nil => rfl
  | cons x l ih =>
    obtain ⟨hx, hl⟩ := List.pairwise_cons.1 h
    by_cases hlt : key x < bound
    · rw [List.filter_cons_of_pos (by simpa using hlt),
        List.filter_cons_of_neg (by simpa using hlt), List.cons_append, ih hl]
    · -- all that follows lies behind the bound
      have hbehind : ∀ y ∈ x :: l, bound ≤ key y := by
        refine List.forall_mem_cons.2 ⟨Nat.le_of_not_lt hlt, fun y hy => ?_⟩
        exact Nat.le_trans (Nat.le_of_not_lt hlt) (hx y hy)
      rw [List.filter_eq_nil_iff.2 fun y hy => by simpa using hbehind y hy,
        List.filter_eq_self.2 fun y hy => by simpa using hbehind y hy, List.nil_append]

/-- What lies between two bounds in a sorted list is cut in two by a bound in the middle. -/
theorem filter_between_append (h : l.Pairwise fun x y => key x ≤ key y) {a b c : Nat} (hab : a ≤ b)
    (hbc : b ≤ c) :
    l.filter (fun x => a ≤ key x ∧ key x < b) ++ l.filter (fun x => b ≤ key x ∧ key x < c)
      = l.filter fun x => a ≤ key x ∧ key x < c := by
  rw [← filter_lt_append_filter_le (h.filter fun x => a ≤ key x ∧ key x < c) b, List.filter_filter,
    List.filter_filter]
  congr 1
  all_goals
    refine List.filter_congr fun x _ => ?_
    rw [← Bool.decide_and, decide_eq_decide]
    omega

end Sorted

namespace Text

/-- The characters of a text with the places where they start, the first of which is `place`. -/
def placed (place : Nat) : List Char → List (Nat × Char)
  | [] => []
  | c :: s => (place, c) :: placed (place + c.utf8Size) s

theorem placed_append (place : Nat) (s r : List Char) :
    placed place (s ++ r) = placed place s ++ placed (place + byteSize s) r := by
  induction s generalizing place with
  | nil => rfl
  | cons c s ih => rw [List.cons_append, placed, ih, byteSize_cons, ← Nat.add_assoc]; rfl

theorem of_mem_placed {place : Nat} {s : List Char} {c : Nat × Char} (h : c ∈ placed place s) :
    place ≤ c.1 ∧ c.1 < place + byteSize s := by
  induction s generalizing place with
  | nil => cases h
  | cons d s ih =>
    have hpos := d.utf8Size_pos
    rw [byteSize_cons]
    rcases List.mem_cons.1 h with rfl | h
    · exact ⟨Nat.le_refl _, by dsimp only; omega⟩
    · have := ih h
      omega

theorem map_snd_placed (place : Nat) (s : List Char) : (placed place s).map Prod.snd = s := by
  induction s generalizing place with
  | nil => rfl
  | cons c s ih => exact congrArg (c :: ·) (ih _)

theorem pairwise_placed (place : Nat) (s : List Char) :
    (placed place s).Pairwise fun a b => a.1 ≤ b.1 := by
  induction s generalizing place with
  | nil => exact .nil
  | cons c s ih =>
    refine .cons (fun d hd => ?_) (ih _)
    exact Nat.le_trans (Nat.le_add_right _ _) (of_mem_placed hd).1

/-- The stretch of a text from one place up to another. -/
def between (start stop : Nat) (s : List Char) : List Char :=
  ((placed 0 s).filter fun c => start ≤ c.1 ∧ c.1 < stop).map Prod.snd

theorem between_append_between {start middle stop : Nat} (h : start ≤ middle) (h' : middle ≤ stop)
    (s : List Char) : between start middle s ++ between middle stop s = between start stop s := by
  rw [between, between, ← List.map_append, filter_between_append (pairwise_placed 0 s) h h',
    between]

/-- A stretch of a text is what stands between a text in front and one behind. -/
theorem between_append {start stop : Nat} {front s : List Char} (hstart : start = byteSize front)
    (hstop : stop = start + byteSize s) (after : List Char) :
    between start stop (front ++ (s ++ after)) = s := by
  subst hstart hstop
  have hin : (placed 0 (front ++ (s ++ after))).filter
      (fun c => byteSize front ≤ c.1 ∧ c.1 < byteSize front + byteSize s)
      = placed (byteSize front) s := by
    rw [placed_append, placed_append, Nat.zero_add]
    refine filter_append_middle (fun c hc => ?_) (fun c hc => of_mem_placed hc) fun c hc => ?_
    · have := of_mem_placed hc
      omega
    · have := of_mem_placed hc
      omega
  rw [between, hin, map_snd_placed]

end Text

/-! ### Regions -/

/-- An opening tag of a loop has a closing tag of its name somewhere behind it. -/
def Found.IsClosedIn (tag : Found Tag) (tags : List (Found Tag)) : Prop :=
  ∃ name, tag.value = .loopOpen name ∧
    ∃ closing ∈ tags, closing.value = .close name ∧ tag.stop ≤ closing.start

/-- A loop in a text: its name, and the places where the region and its body start and stop. -/
structure LoopRegion where
  name : String
  start : Nat
  bodyStart : Nat
  bodyStop : Nat
  stop : Nat
  deriving DecidableEq, Repr

namespace LoopRegion

/-- The tag that opens a region. -/
def opening (r : LoopRegion) : Found Tag :=
  ⟨r.start, r.bodyStart, .loopOpen r.name⟩

/-- The tag that closes a region. -/
def closing (r : LoopRegion) : Found Tag :=
  ⟨r.bodyStop, r.stop, .close r.name⟩

end LoopRegion

/-- The regions of the loops from a place on, in a text with the given tags. The first opening tag
from there on that has a closing tag of its name behind it opens a region, which stops behind the
nearest such tag; the next region is looked for from there on. -/
inductive LoopsFrom (tags : List (Found Tag)) : Nat → List LoopRegion → Prop
  | none {place : Nat} (hnone : ∀ tag ∈ tags, place ≤ tag.start → ¬tag.IsClosedIn tags) :
    LoopsFrom tags place []
  | next {place : Nat} {r : LoopRegion} {rs : List LoopRegion} (hplace : place ≤ r.start)
    (hopening : r.opening ∈ tags)
    (hfirst : ∀ tag ∈ tags, place ≤ tag.start → tag.start < r.start → ¬tag.IsClosedIn tags)
    (hclosing : r.closing ∈ tags) (hbehind : r.bodyStart ≤ r.bodyStop)
    (hnearest : ∀ tag ∈ tags, tag.value = .close r.name → r.bodyStart ≤ tag.start →
      r.bodyStop ≤ tag.start)
    (hrest : LoopsFrom tags r.stop rs) : LoopsFrom tags place (r :: rs)

/-- Tags that stand apart, from left to right. -/
structure StandApart (tags : List (Found Tag)) : Prop where
  pairwise : tags.Pairwise fun a b => a.stop ≤ b.start
  lt : ∀ tag ∈ tags, tag.start < tag.stop

theorem standApart_tagsFrom (window place : Nat) (s : List Char) :
    StandApart (tagsFrom window place s) where
  pairwise := pairwise_tagsFrom window place s
  lt tag htag := by
    obtain ⟨-, -, -, -, -, hstop⟩ := (mem_tagsFrom_iff.1 htag).1
    have := Tag.byteSize_text tag.value
    omega

namespace StandApart

variable {tags : List (Found Tag)} {a b : Found Tag}

theorem pairwise_start (h : StandApart tags) : tags.Pairwise fun a b => a.start ≤ b.start :=
  h.pairwise.imp_of_mem fun ha _ hab => Nat.le_trans (Nat.le_of_lt (h.lt _ ha)) hab

/-- Of two tags, one stands behind the other. -/
theorem eq_or_apart (h : StandApart tags) (ha : a ∈ tags) (hb : b ∈ tags) :
    a = b ∨ a.stop ≤ b.start ∨ b.stop ≤ a.start := by
  let R : Found Tag → Found Tag → Prop := fun a b => a = b ∨ a.stop ≤ b.start ∨ b.stop ≤ a.start
  have hforward : tags.Pairwise R := h.pairwise.imp fun hab => Or.inr (Or.inl hab)
  have hbackward : tags.Pairwise (flip R) := h.pairwise.imp fun hab => Or.inr (Or.inr hab)
  exact List.Pairwise.forall_of_forall_of_flip (R := R) (fun _ _ => Or.inl rfl) hforward hbackward
    ha hb

theorem stop_le (h : StandApart tags) (ha : a ∈ tags) (hb : b ∈ tags) (hlt : a.start < b.start) :
    a.stop ≤ b.start := by
  have := h.lt b hb
  rcases h.eq_or_apart ha hb with rfl | hle | hle <;> omega

theorem eq_of_start (h : StandApart tags) (ha : a ∈ tags) (hb : b ∈ tags)
    (heq : a.start = b.start) : a = b := by
  have := h.lt a ha
  have := h.lt b hb
  rcases h.eq_or_apart ha hb with hab | hle | hle
  · exact hab
  all_goals omega

end StandApart

namespace LoopsFrom

variable {tags : List (Found Tag)} {place place' : Nat} {r : LoopRegion}
  {loops others : List LoopRegion}

/-- The tag that opens a region is closed. -/
theorem isClosedIn_opening (hclosing : r.closing ∈ tags) (hbehind : r.bodyStart ≤ r.bodyStop) :
    r.opening.IsClosedIn tags :=
  ⟨r.name, rfl, r.closing, hclosing, rfl, hbehind⟩

/-- A tag that is not closed may be passed over. -/
theorem of_le (h : LoopsFrom tags place' loops) (hle : place ≤ place')
    (hnone : ∀ tag ∈ tags, place ≤ tag.start → tag.start < place' → ¬tag.IsClosedIn tags) :
    LoopsFrom tags place loops := by
  cases h with
  | none hlater =>
    refine .none fun tag htag hstart => ?_
    by_cases hlt : tag.start < place'
    · exact hnone tag htag hstart hlt
    · exact hlater tag htag (Nat.le_of_not_lt hlt)
  | next hplace hopening hfirst hclosing hbehind hnearest hrest =>
    refine .next (Nat.le_trans hle hplace) hopening (fun tag htag hstart hbefore => ?_) hclosing
      hbehind hnearest hrest
    by_cases hlt : tag.start < place'
    · exact hnone tag htag hstart hlt
    · exact hfirst tag htag (Nat.le_of_not_lt hlt) hbefore

/-- **There is one list of regions.** -/
theorem unique (htags : StandApart tags) (h : LoopsFrom tags place loops)
    (h' : LoopsFrom tags place others) : others = loops := by
  induction h generalizing others with
  | none hnone =>
    cases h' with
    | none => rfl
    | next hplace hopening _ hclosing hbehind =>
      exact absurd (isClosedIn_opening hclosing hbehind) (hnone _ hopening hplace)
  | @next place r rs hplace hopening hfirst hclosing hbehind hnearest _ ih =>
    cases h' with
    | none hnone => exact absurd (isClosedIn_opening hclosing hbehind) (hnone _ hopening hplace)
    | @next _ q qs hplace' hopening' hfirst' hclosing' hbehind' hnearest' hrest' =>
      have hstart : q.opening = r.opening := by
        refine htags.eq_of_start hopening' hopening (Nat.le_antisymm ?_ ?_)
        · exact Nat.le_of_not_lt fun hlt =>
            hfirst' _ hopening hplace hlt (isClosedIn_opening hclosing hbehind)
        · exact Nat.le_of_not_lt fun hlt =>
            hfirst _ hopening' hplace' hlt (isClosedIn_opening hclosing' hbehind')
      simp only [LoopRegion.opening, Found.mk.injEq, Tag.loopOpen.injEq] at hstart
      obtain ⟨hs, hb, hn⟩ := hstart
      have hstop : q.closing = r.closing := by
        refine htags.eq_of_start hclosing' hclosing (Nat.le_antisymm ?_ ?_)
        · exact hnearest' _ hclosing (by rw [hn]; rfl) (by rw [hb]; exact hbehind)
        · exact hnearest _ hclosing' (by rw [← hn]; rfl) (by rw [← hb]; exact hbehind')
      simp only [LoopRegion.closing, Found.mk.injEq] at hstop
      obtain rfl : q = r := by
        cases q
        cases r
        simp_all
      rw [ih hrest']

/-- The regions lie from left to right. -/
theorem le_start (htags : StandApart tags) (h : LoopsFrom tags place loops) :
    ∀ r ∈ loops, place ≤ r.start ∧ r.start < r.stop := by
  induction h with
  | none => simp
  | @next place r rs hplace hopening _ hclosing hbehind _ _ ih =>
    have hlt : r.start < r.stop := by
      have hbody : r.start < r.bodyStart := htags.lt _ hopening
      have hstop : r.bodyStop < r.stop := htags.lt _ hclosing
      omega
    refine List.forall_mem_cons.2 ⟨⟨hplace, hlt⟩, fun q hq => ?_⟩
    have := ih q hq
    omega

theorem pairwise (htags : StandApart tags) (h : LoopsFrom tags place loops) :
    loops.Pairwise fun a b => a.stop ≤ b.start := by
  induction h with
  | none => exact .nil
  | next _ _ _ _ _ _ hrest ih => exact .cons (fun q hq => (hrest.le_start htags q hq).1) ih

end LoopsFrom

/-! ### What comes of regions and gaps -/

/-- The tags that stand outside of some regions. -/
def outside (tags : List (Found Tag)) (loops : List LoopRegion) : List (Found Tag) :=
  tags.filter fun tag => ∀ r ∈ loops, tag.stop ≤ r.start ∨ r.stop ≤ tag.start

/-- What is noted about a tag that stands outside of all regions. -/
def Found.unclosed? (tag : Found Tag) : Option Warning :=
  match tag.value with
  | .loopOpen name => some (.unclosedLoop name)
  | _ => none

/-- Whether there are items for a loop: a list with at least one. -/
def hasItems (data : DataTree) (name : String) : Bool :=
  match data.get? name with
  | some (.list (_ :: _)) => true
  | _ => false

section Outcome

variable (data : DataTree) (options : Options) (s : List Char) (tags : List (Found Tag))

namespace LoopRegion

variable (r : LoopRegion)

/-- The tokens of the body of a region. -/
def body : List Token :=
  tokens options.window (Text.between r.bodyStart r.bodyStop s)

/-- The copies of the body of a region, one for each item that is not `null`. -/
def copies : List Char :=
  ((itemsOf data r.name).flatMap fun item =>
    (r.body options s).flatMap (fieldTokens options .loop item)).flatMap Token.text

/-- What is noted about a region: why there are no items for it, or which fields of its items have
no text. -/
def notes : List Warning :=
  match listFor data .loop r.name with
  | .error w => [w]
  | .ok _ => (itemsOf data r.name).flatMap fun item =>
      (r.body options s).flatMap (fieldWarnings options r.name item)

/-- What comes of a region. -/
def outcome : Expansion :=
  { text := r.copies data options s
    warnings := r.notes data options s
    stats := { loops := if hasItems data r.name then 1 else 0 } }

end LoopRegion

/-- What comes of a stretch of a text that lies outside of all regions. -/
def gap (start stop : Nat) : Expansion :=
  { text := Text.between start stop s
    warnings := (tags.filter fun tag => start ≤ tag.start ∧ tag.start < stop).filterMap
      Found.unclosed? }

/-- What comes of a text from a place on, given its regions from there on. -/
def resolved (place : Nat) : List LoopRegion → Expansion
  | [] => gap s tags place (Text.byteSize s)
  | r :: rs => gap s tags place r.start ++ r.outcome data options s ++ resolved r.stop rs

/-- A text from a place on, with something else in the place of each region. -/
def withLoops (insert : LoopRegion → List Char) (place : Nat) : List LoopRegion → List Char
  | [] => Text.between place (Text.byteSize s) s
  | r :: rs => Text.between place r.start s ++ (insert r ++ withLoops insert r.stop rs)

end Outcome

section Resolving

variable {data : DataTree} {options : Options} {s : List Char} {tags : List (Found Tag)}
  {place place' : Nat} {loops : List LoopRegion}

theorem listFor_eq_error (of : Repetition) {name : String} (h : hasItems data name = false) :
    ∃ w, listFor data of name = .error w ∧ w.kind = .dataMismatch ∧ itemsOf data name = [] := by
  unfold hasItems at h
  unfold listFor itemsOf
  cases hget : data.get? name with
  | none => exact ⟨_, rfl, rfl, rfl⟩
  | some v =>
    rw [hget] at h
    cases v with
    | list items =>
      cases items with
      | nil => exact ⟨_, rfl, rfl, rfl⟩
      | cons => cases h
    | null | bool | number | string | map | image => exact ⟨_, rfl, rfl, rfl⟩

theorem listFor_eq_ok (of : Repetition) {name : String} (h : hasItems data name = true) :
    ∃ items, listFor data of name = .ok items ∧
      itemsOf data name = items.filter fun item => !item.isNull := by
  unfold hasItems at h
  split at h
  · next item items hget =>
    refine ⟨item :: items, ?_, ?_⟩
    · rw [listFor, hget]
    · rw [itemsOf, hget]
  · cases h

theorem expandLoop_eq (r : LoopRegion) :
    expandLoop data options r.name (r.body options s) = r.outcome data options s := by
  cases h : hasItems data r.name with
  | false =>
    obtain ⟨w, hlist, -, hitems⟩ := listFor_eq_error .loop h
    rw [expandLoop, LoopRegion.outcome, LoopRegion.copies, LoopRegion.notes, hlist, hitems, h]
    rfl
  | true =>
    obtain ⟨items, hlist, hitems⟩ := listFor_eq_ok .loop h
    rw [expandLoop, LoopRegion.outcome, LoopRegion.copies, LoopRegion.notes, hlist, hitems, h]
    dsimp only
    rw [expandItems_eq]
    apply Expansion.ext' <;> simp

theorem gap_append_gap (htags : StandApart tags) {start middle stop : Nat} (h : start ≤ middle)
    (h' : middle ≤ stop) : gap s tags start middle ++ gap s tags middle stop
      = gap s tags start stop := by
  refine Expansion.ext' (Text.between_append_between h h' s) ?_ rfl rfl
  show (tags.filter _).filterMap _ ++ (tags.filter _).filterMap _ = (tags.filter _).filterMap _
  rw [← List.filterMap_append, filter_between_append htags.pairwise_start h h']

theorem gap_self (place : Nat) : gap s tags place place = {} := by
  have hnone : ∀ k : Nat, decide (place ≤ k ∧ k < place) = false :=
    fun k => decide_eq_false (by omega)
  simp [gap, Text.between, hnone]

/-- What comes of a text from a place on, when its next region starts further on. -/
theorem resolved_of_le (htags : StandApart tags) (h : LoopsFrom tags place' loops)
    (hle : place ≤ place') (hend : place' ≤ Text.byteSize s) :
    resolved data options s tags place loops
      = gap s tags place place' ++ resolved data options s tags place' loops := by
  cases h with
  | none => exact (gap_append_gap htags hle hend).symm
  | next hplace =>
    rw [resolved, resolved, ← gap_append_gap htags hle hplace]
    simp only [Expansion.append_assoc]

end Resolving

/-! ### From token to token -/

section Tokens

variable {options : Options} {front rest : List Token} {t : Token}

/-- The tags of a text, around one of its tokens. -/
theorem locateTags_cut (front rest : List Token) (t : Token) :
    let place := Text.byteSize (front.flatMap Token.text)
    locateTags 0 (front ++ t :: rest) = locateTags 0 front ++ (locateTags place [t]
      ++ locateTags (place + Text.byteSize t.text) rest) := by
  have hcut : front ++ t :: rest = front ++ ([t] ++ rest) := rfl
  rw [hcut, locateTags_append, locateTags_append, Nat.zero_add, List.flatMap_singleton]

/-- The tags that start inside of a token. -/
theorem filter_locateTags (front rest : List Token) (t : Token) :
    let place := Text.byteSize (front.flatMap Token.text)
    (locateTags 0 (front ++ t :: rest)).filter
        (fun tag => place ≤ tag.start ∧ tag.start < place + Text.byteSize t.text)
      = locateTags place [t] := by
  intro place
  rw [locateTags_cut]
  refine filter_append_middle (fun tag htag => ?_) (fun tag htag => ?_) fun tag htag => ?_
  · obtain ⟨-, -, hlt, hstop⟩ := of_mem_locateTags htag
    omega
  · obtain ⟨-, hstart, hlt, hstop⟩ := of_mem_locateTags htag
    rw [List.flatMap_singleton] at hstop
    omega
  · obtain ⟨-, hstart, -⟩ := of_mem_locateTags htag
    omega

/-- What comes of a token outside of all regions. -/
theorem gap_token (front rest : List Token) (t : Token) :
    let place := Text.byteSize (front.flatMap Token.text)
    gap ((front ++ t :: rest).flatMap Token.text) (locateTags 0 (front ++ t :: rest)) place
        (place + Text.byteSize t.text)
      = { text := t.text
          warnings := (locateTags place [t]).filterMap Found.unclosed? } := by
  intro place
  have htext : (front ++ t :: rest).flatMap Token.text
      = front.flatMap Token.text ++ (t.text ++ rest.flatMap Token.text) := by simp
  rw [gap, filter_locateTags, htext, Text.between_append rfl rfl]

/-- An opening tag without a closing tag of its name behind it is not closed. -/
theorem not_isClosedIn (hopen : ∀ name, t = .tag (.loopOpen name) → .tag (.close name) ∉ rest) :
    let place := Text.byteSize (front.flatMap Token.text)
    ∀ tag ∈ locateTags place [t], ¬tag.IsClosedIn (locateTags 0 (front ++ t :: rest)) := by
  rintro place tag htag ⟨name, hname, closing, hclosing, hvalue, hbehind⟩
  obtain ⟨hmem, hstart, hlt, -⟩ := of_mem_locateTags htag
  obtain rfl : t = .tag (.loopOpen name) := (hname ▸ List.mem_singleton.1 hmem).symm
  rw [locateTags_cut, List.mem_append, List.mem_append] at hclosing
  rcases hclosing with hfront | hown | hrest
  · obtain ⟨-, -, hlt', hstop⟩ := of_mem_locateTags hfront
    omega
  · rw [List.mem_singleton.1 hown] at hvalue
    cases hvalue
  · exact hopen name rfl (hvalue ▸ (of_mem_locateTags hrest).1)

/-- What comes of a text from a token on that opens no region. -/
theorem resolved_token (data : DataTree) (hread : IsRead options.window (front ++ t :: rest))
    (hopen : ∀ name, t = .tag (.loopOpen name) → .tag (.close name) ∉ rest) :
    let place := Text.byteSize (front.flatMap Token.text)
    let s := (front ++ t :: rest).flatMap Token.text
    let tags := locateTags 0 (front ++ t :: rest)
    ∀ loops, LoopsFrom tags (place + Text.byteSize t.text) loops →
      LoopsFrom tags place loops ∧ resolved data options s tags place loops
        = { text := t.text
            warnings := (locateTags place [t]).filterMap Found.unclosed? }
          ++ resolved data options s tags (place + Text.byteSize t.text) loops := by
  intro place s tags loops hloops
  have htags : StandApart tags := by
    rw [show tags = tagsFrom options.window 0 s by rw [tagsFrom_zero, hread]]
    exact standApart_tagsFrom _ _ _
  have hend : place + Text.byteSize t.text ≤ Text.byteSize s := by
    simp only [place, s, List.flatMap_append, List.flatMap_cons, Text.byteSize_append]
    omega
  refine ⟨hloops.of_le (Nat.le_add_right _ _) fun tag htag hstart hlt => ?_, ?_⟩
  · refine not_isClosedIn hopen tag ?_
    rw [← filter_locateTags front rest t]
    exact List.mem_filter.2 ⟨htag, decide_eq_true ⟨hstart, hlt⟩⟩
  · rw [resolved_of_le htags hloops (Nat.le_add_right _ _) hend, gap_token]

/-- A loop that is closed is a region, and the next one is looked for behind it. -/
theorem resolved_closed (data : DataTree) {name : String} {body after : List Token}
    (hclosed : closedBy? name rest = some (body, after))
    (hread : IsRead options.window (front ++ .tag (.loopOpen name) :: rest)) :
    let place := Text.byteSize (front.flatMap Token.text)
    let stop := Text.byteSize ((front ++ Token.tag (.loopOpen name) :: (body
      ++ [Token.tag (.close name)])).flatMap Token.text)
    let s := (front ++ .tag (.loopOpen name) :: rest).flatMap Token.text
    let tags := locateTags 0 (front ++ .tag (.loopOpen name) :: rest)
    ∀ loops, LoopsFrom tags stop loops → ∃ r : LoopRegion, LoopsFrom tags place (r :: loops) ∧
      resolved data options s tags place (r :: loops)
        = expandLoop data options name body ++ resolved data options s tags stop loops := by
  intro place stop s tags loops hloops
  let bodyStart := place + Text.byteSize (Tag.loopOpen name).text
  let bodyStop := bodyStart + Text.byteSize (body.flatMap Token.text)
  let r : LoopRegion :=
    ⟨name, place, bodyStart, bodyStop, bodyStop + Text.byteSize (Tag.close name).text⟩
  have hrest := eq_append_of_closedBy? hclosed
  have hstop : stop = bodyStop + Text.byteSize (Tag.close name).text := by
    simp only [stop, bodyStop, bodyStart, place, List.flatMap_append, List.flatMap_cons,
      List.flatMap_nil, Text.byteSize_append, Text.byteSize_nil, Token.text]
    omega
  -- the places of the tags in front of the body, in it, and behind it
  have htags : tags = locateTags 0 front ++ ([r.opening] ++ (locateTags bodyStart body
      ++ ([r.closing] ++ locateTags r.stop after))) := by
    rw [show tags = locateTags 0 (front ++ .tag (.loopOpen name) :: rest) from rfl, locateTags_cut,
      hrest, locateTags_append]
    rfl
  rw [hstop] at hloops ⊢
  refine ⟨r, .next (Nat.le_refl _) ?_ (fun tag _ hstart hlt => absurd hlt (Nat.not_lt.2 hstart)) ?_
    (Nat.le_add_right _ _) (fun tag htag hvalue hstart => ?_) hloops, ?_⟩
  · simp [htags]
  · simp [htags]
  · simp only [htags, List.mem_append, List.mem_singleton] at htag
    rcases htag with hfront | hopening | hbody | hclosing | hafter
    · obtain ⟨-, -, hlt, hle⟩ := of_mem_locateTags hfront
      rw [Nat.zero_add] at hle
      have hback : bodyStart ≤ place :=
        Nat.le_trans hstart (Nat.le_of_lt (Nat.lt_of_lt_of_le hlt hle))
      have := Tag.byteSize_text (.loopOpen name)
      omega
    · rw [hopening] at hvalue
      cases hvalue
    · have := (of_mem_locateTags hbody).1
      rw [hvalue] at this
      exact absurd this (close_notMem_body hclosed)
    · exact Nat.le_of_eq (congrArg Found.start hclosing).symm
    · have hle := (of_mem_locateTags hafter).2.1
      exact Nat.le_trans (Nat.le_add_right _ _) hle
  · have hbody : r.body options s = body := by
      have hs : s = (front ++ [Token.tag (.loopOpen name)]).flatMap Token.text
          ++ (body.flatMap Token.text
            ++ (Token.tag (.close name) :: after).flatMap Token.text) := by
        simp [s, hrest]
      have hstart : bodyStart
          = Text.byteSize ((front ++ [Token.tag (.loopOpen name)]).flatMap Token.text) := by
        simp [bodyStart, place, Token.text]
      rw [LoopRegion.body, hs, Text.between_append hstart rfl]
      rw [hrest] at hread
      exact hread.of_append_right.tail.of_append_tag
    rw [resolved, gap_self, ← expandLoop_eq, hbody, Expansion.empty_append]

/-- **What comes of a text is put together** from what comes of its regions and of the gaps between
them. -/
theorem exists_loopsFrom (data : DataTree) (front ts : List Token)
    (hread : IsRead options.window (front ++ ts)) :
    let place := Text.byteSize (front.flatMap Token.text)
    let s := (front ++ ts).flatMap Token.text
    let tags := locateTags 0 (front ++ ts)
    ∃ loops, LoopsFrom tags place loops ∧
      expandLoops data options ts = resolved data options s tags place loops := by
  -- a token is passed over, and the tokens behind it are read next
  have hnext (t : Token) (rest front : List Token) :
      front ++ [t] ++ rest = front ++ t :: rest ∧
        Text.byteSize ((front ++ [t]).flatMap Token.text)
          = Text.byteSize (front.flatMap Token.text) + Text.byteSize t.text := by
    simp
  fun_induction expandLoops data options ts generalizing front with
  | case1 =>
    refine ⟨[], .none fun tag htag hstart _ => ?_, ?_⟩
    · obtain ⟨-, -, hlt, hstop⟩ := of_mem_locateTags htag
      rw [List.append_nil, Nat.zero_add] at hstop
      omega
    · rw [resolved, List.append_nil, gap_self]
  | case2 name rest body after hclosed _ ih =>
    have hcut : front ++ .tag (.loopOpen name) :: rest
        = front ++ .tag (.loopOpen name) :: (body ++ [.tag (.close name)]) ++ after := by
      simp [eq_append_of_closedBy? hclosed]
    obtain ⟨loops, hloops, hexpand⟩ := ih _ (hcut ▸ hread)
    rw [← hcut] at hloops hexpand
    obtain ⟨r, hr, hresolved⟩ := resolved_closed data hclosed hread loops hloops
    exact ⟨r :: loops, hr, by rw [hresolved, hexpand]⟩
  | case3 name rest hclosed ih =>
    obtain ⟨hcut, hplace⟩ := hnext (.tag (.loopOpen name)) rest front
    obtain ⟨loops, hloops, hexpand⟩ := ih _ (hcut ▸ hread)
    rw [hplace, hcut] at hloops hexpand
    have hopen : ∀ other, .tag (.loopOpen name) = Token.tag (.loopOpen other) →
        .tag (.close other) ∉ rest := by
      rintro other ⟨⟩
      exact close_notMem_of_closedBy? hclosed
    obtain ⟨hfrom, hresolved⟩ := resolved_token data hread hopen loops hloops
    refine ⟨loops, hfrom, ?_⟩
    rw [hresolved, hexpand]
    exact congrArg (· ++ _) (Expansion.ext' (List.append_nil _) rfl rfl rfl)
  | case4 t rest hne ih =>
    obtain ⟨hcut, hplace⟩ := hnext t rest front
    obtain ⟨loops, hloops, hexpand⟩ := ih _ (hcut ▸ hread)
    rw [hplace, hcut] at hloops hexpand
    obtain ⟨hfrom, hresolved⟩ := resolved_token data hread
      (fun name hname => absurd hname (hne name)) loops hloops
    have hnone : (locateTags (Text.byteSize (front.flatMap Token.text)) [t]).filterMap
        Found.unclosed? = [] := by
      refine List.filterMap_eq_nil_iff.2 fun tag htag => ?_
      have hmem := List.mem_singleton.1 (of_mem_locateTags htag).1
      unfold Found.unclosed?
      split
      · next name hname => exact (hne name (hname ▸ hmem.symm)).elim
      · rfl
    exact ⟨loops, hfrom, by rw [hresolved, hexpand, hnone]; rfl⟩

end Tokens

/-! ### What the loop pass does -/

section Resolved

variable (data : DataTree) (options : Options) {s : List Char} {tags : List (Found Tag)}
  {place : Nat} {loops : List LoopRegion}

theorem text_resolved : (resolved data options s tags place loops).text
    = withLoops s (fun r => r.copies data options s) place loops := by
  induction loops generalizing place with
  | nil => rfl
  | cons r rs ih =>
    rw [resolved, Expansion.text_append, Expansion.text_append, ih, List.append_assoc]
    rfl

theorem stats_resolved : (resolved data options s tags place loops).stats
    = { loops := loops.countP fun r => hasItems data r.name } := by
  induction loops generalizing place with
  | nil => rfl
  | cons r rs ih =>
    rw [resolved, Expansion.stats_append, Expansion.stats_append, ih, List.countP_cons]
    apply Stats.ext' <;> simp [gap, LoopRegion.outcome, Nat.add_comm]

theorem images_resolved : (resolved data options s tags place loops).images = [] := by
  induction loops generalizing place with
  | nil => rfl
  | cons r rs ih =>
    rw [resolved, Expansion.images_append, Expansion.images_append, ih]
    rfl

theorem kind_of_mem_fieldWarnings {owner : String} {item : Value} {t : Token} {w : Warning}
    (h : w ∈ fieldWarnings options owner item t) : w.kind = .dataMismatch := by
  unfold fieldWarnings at h
  split at h
  · split at h
    · cases h
    · split at h
      · cases h
      · rw [List.mem_singleton.1 h]
        rfl
  · cases h

theorem kind_of_mem_notes {r : LoopRegion} {w : Warning} (h : w ∈ r.notes data options s) :
    w.kind = .dataMismatch := by
  rw [LoopRegion.notes] at h
  cases hitems : hasItems data r.name with
  | false =>
    obtain ⟨w', hlist, hkind, -⟩ := listFor_eq_error .loop hitems
    rw [hlist] at h
    rwa [List.mem_singleton.1 h]
  | true =>
    obtain ⟨items, hlist, -⟩ := listFor_eq_ok .loop hitems
    rw [hlist] at h
    obtain ⟨item, -, hw⟩ := List.mem_flatMap.1 h
    obtain ⟨t, -, hw⟩ := List.mem_flatMap.1 hw
    exact kind_of_mem_fieldWarnings options hw

theorem kind_of_mem_gap {start stop : Nat} {w : Warning}
    (h : w ∈ (gap s tags start stop).warnings) : w.kind = .layoutAmbiguity := by
  obtain ⟨tag, -, htag⟩ := List.mem_filterMap.1 h
  unfold Found.unclosed? at htag
  split at htag
  · rw [← Option.some.inj htag]
    rfl
  · cases htag

/-- What is noted about data comes from the regions. -/
theorem dataMismatch_resolved :
    (resolved data options s tags place loops).warnings.filter (·.kind = .dataMismatch)
      = loops.flatMap fun r => r.notes data options s := by
  have hgap (start stop : Nat) :
      (gap s tags start stop).warnings.filter (·.kind = .dataMismatch) = [] :=
    List.filter_eq_nil_iff.2 fun w hw => by simp [kind_of_mem_gap hw]
  induction loops generalizing place with
  | nil => exact hgap place _
  | cons r rs ih =>
    have hnotes : (r.notes data options s).filter (·.kind = .dataMismatch)
        = r.notes data options s :=
      List.filter_eq_self.2 fun w hw => decide_eq_true (kind_of_mem_notes data options hw)
    rw [resolved, Expansion.warnings_append, Expansion.warnings_append, List.filter_append,
      List.filter_append, hgap, ih, List.nil_append, List.flatMap_cons, LoopRegion.outcome, hnotes]

/-- What is noted about markup comes from the tags outside of the regions. -/
theorem layoutAmbiguity_resolved (htags : StandApart tags) (h : LoopsFrom tags place loops)
    (hend : ∀ tag ∈ tags, tag.start < Text.byteSize s) :
    (resolved data options s tags place loops).warnings.filter (·.kind = .layoutAmbiguity)
      = ((outside tags loops).filter fun tag => place ≤ tag.start).filterMap Found.unclosed? := by
  have hgap (start stop : Nat) : (gap s tags start stop).warnings.filter (·.kind = .layoutAmbiguity)
      = (gap s tags start stop).warnings :=
    List.filter_eq_self.2 fun w hw => decide_eq_true (kind_of_mem_gap hw)
  induction h with
  | @none place =>
    rw [resolved, hgap, gap, outside, List.filter_filter]
    refine congrArg _ (List.filter_congr fun tag htag => ?_)
    simp [hend tag htag]
  | @next place r rs hplace hopening _ hclosing hbehind _ hrest ih =>
    have hnotes : (r.notes data options s).filter (·.kind = .layoutAmbiguity) = [] :=
      List.filter_eq_nil_iff.2 fun w hw => by simp [kind_of_mem_notes data options hw]
    have hbody : r.start < r.bodyStart := htags.lt _ hopening
    have hstop : r.bodyStop < r.stop := htags.lt _ hclosing
    have hlater := hrest.le_start htags
    -- the tags from `place` on are those in front of the region and those behind it
    have hfront : (outside tags (r :: rs)).filter
          (fun tag => tag.start < r.start ∧ place ≤ tag.start)
        = tags.filter fun tag => place ≤ tag.start ∧ tag.start < r.start := by
      rw [outside, List.filter_filter]
      refine List.filter_congr fun tag htag => ?_
      rw [← Bool.decide_and, decide_eq_decide, List.forall_mem_cons]
      refine ⟨fun h => ⟨h.1.2, h.1.1⟩, fun ⟨hle, hlt⟩ => ⟨⟨hlt, hle⟩, ?_⟩⟩
      have hbefore : tag.stop ≤ r.start := htags.stop_le htag hopening hlt
      refine ⟨Or.inl hbefore, fun q hq => Or.inl ?_⟩
      have := hlater q hq
      omega
    have hback : (outside tags (r :: rs)).filter
          (fun tag => r.start ≤ tag.start ∧ place ≤ tag.start)
        = (outside tags rs).filter fun tag => r.stop ≤ tag.start := by
      rw [outside, outside, List.filter_filter, List.filter_filter]
      refine List.filter_congr fun tag htag => ?_
      have := htags.lt tag htag
      rw [← Bool.decide_and, ← Bool.decide_and, decide_eq_decide, List.forall_mem_cons]
      constructor
      · rintro ⟨⟨hle, -⟩, hout, hrs⟩
        exact ⟨by omega, hrs⟩
      · rintro ⟨hle, hrs⟩
        exact ⟨⟨by omega, by omega⟩, Or.inr hle, hrs⟩
    rw [resolved, Expansion.warnings_append, Expansion.warnings_append, List.filter_append,
      List.filter_append, hgap, ih, LoopRegion.outcome, hnotes, List.append_nil, ← hback, gap,
      ← hfront, ← List.filterMap_append]
    have hout : (outside tags (r :: rs)).Pairwise fun a b => a.start ≤ b.start :=
      htags.pairwise_start.filter _
    rw [← filter_lt_append_filter_le (hout.filter fun tag => place ≤ tag.start) r.start,
      List.filter_filter, List.filter_filter]
    simp only [Bool.decide_and]

end Resolved

/-- **The regions of the loop pass.** In any text, the loop pass replaces regions that lie apart:
the first opening tag behind a region that has a closing tag of its name behind it opens the next,
and the nearest such tag closes it. Outside of regions, the text stays as it is, and each opening
tag is noted once. In the place of a region stand the copies of its body, one for each item; where
there are no items, nothing stands there, and that is noted once. Nothing else is noted, and the
regions for which there are items are counted. -/
theorem expandLoops_regions (data : DataTree) (options : Options) (s : List Char) :
    let tags := tagsFrom options.window 0 s
    let e := expandLoops data options (tokens options.window s)
    ∃ loops : List LoopRegion,
      (LoopsFrom tags 0 loops ∧ (∀ others, LoopsFrom tags 0 others → others = loops) ∧
        loops.Pairwise fun a b => a.stop ≤ b.start) ∧
      e.text = withLoops s (fun r => r.copies data options s) 0 loops ∧
      e.warnings.filter (·.kind = .layoutAmbiguity)
        = (outside tags loops).filterMap Found.unclosed? ∧
      e.warnings.filter (·.kind = .dataMismatch) = loops.flatMap (fun r => r.notes data options s) ∧
      (∀ r ∈ loops, hasItems data r.name = false → r.copies data options s = [] ∧
        ∃ w, listFor data .loop r.name = .error w ∧ r.notes data options s = [w]) ∧
      e.stats = { loops := loops.countP fun r => hasItems data r.name } ∧ e.images = [] := by
  intro tags e
  have htags : StandApart tags := standApart_tagsFrom _ _ _
  obtain ⟨loops, hloops, hexpand⟩ := exists_loopsFrom data [] (tokens options.window s)
    (isRead_tokens options.window s)
  rw [List.nil_append, ← tagsFrom_zero] at hloops hexpand
  rw [text_tokens] at hexpand
  change LoopsFrom tags 0 loops at hloops
  replace hexpand : e = resolved data options s tags 0 loops := hexpand
  have hend : ∀ tag ∈ tags, tag.start < Text.byteSize s := by
    intro tag htag
    obtain ⟨-, before, after, hs, hstart, -⟩ := (mem_tagsFrom_iff.1 htag).1
    have := Tag.byteSize_text tag.value
    rw [hs, Text.byteSize_append, Text.byteSize_append]
    omega
  refine ⟨loops, ⟨hloops, fun others => hloops.unique htags, hloops.pairwise htags⟩, ?_, ?_, ?_, ?_,
    ?_, ?_⟩
  · rw [hexpand, text_resolved]
  · rw [hexpand, layoutAmbiguity_resolved data options htags hloops hend]
    exact congrArg _ (List.filter_eq_self.2 fun tag _ => decide_eq_true (Nat.zero_le _))
  · rw [hexpand, dataMismatch_resolved]
  · intro r _ hitems
    obtain ⟨w, hlist, -, hnone⟩ := listFor_eq_error .loop hitems
    refine ⟨?_, w, hlist, ?_⟩
    · rw [LoopRegion.copies, hnone]
      rfl
    · rw [LoopRegion.notes, hlist]
  · rw [hexpand, stats_resolved]
  · rw [hexpand, images_resolved]

end MailMerge
