import MailMerge.Proofs.Gathering

/-!
# Where gathered characters go

Gathering deals out a text by **places**: a character in a brace span goes to the fragment that held
the opening brace, and every other character stays in its own fragment; the characters of a fragment
keep their order. `Settles` says this of a function that gives each place its fragment, in terms of
the text alone, and `IsSpanAt` says what a brace span is. Gathering what has been gathered changes
nothing (`gather_places`).

Pieces are dealt out by the room that is left in each fragment. `fragmentAt_consume` relates this to
places: what is found in the room behind some characters is what was found there at first.
-/

namespace MailMerge

/-! ### Places in fragments -/

/-- Whether the fragment with an index holds a place of the text. Empty fragments hold none. -/
def HoldsPlace (fragments : List (List Char)) (i place : Nat) : Prop :=
  (fragments.take i).flatten.length ≤ place ∧ place < (fragments.take (i + 1)).flatten.length

/-- Whether a brace span reaches from one place of a text up to another. -/
def IsSpanAt (bound : UInt64) (s : List Char) (start stop : Nat) : Prop :=
  ∃ before body after, s = before ++ '{' :: (body ++ '}' :: after) ∧ start = before.length ∧
    stop = start + body.length + 2 ∧ body ≠ [] ∧ BraceFree body ∧
    Text.byteSize body ≤ max bound.toNat 1

/-- A function gives each place of a text the fragment that its character settles in: the one where
the brace span around it starts, and its own when it is in none. -/
structure Settles (bound : UInt64) (fragments : List (List Char)) (owner : Nat → Nat) : Prop where
  inside : ∀ {start stop place}, IsSpanAt bound fragments.flatten start stop → start ≤ place →
    place < stop → HoldsPlace fragments (owner place) start
  outside : ∀ {place}, place < fragments.flatten.length →
    (∀ start stop, IsSpanAt bound fragments.flatten start stop → ¬(start ≤ place ∧ place < stop)) →
      HoldsPlace fragments (owner place) place

/-- The characters at the places with a given owner, in order. -/
def charsOf (owner : Nat → Nat) (i : Nat) (s : List Char) : List Char :=
  (s.zipIdx.filter fun c => owner c.2 = i).map Prod.fst

theorem charsOf_append (owner : Nat → Nat) (i : Nat) (s r : List Char) :
    charsOf owner i (s ++ r)
      = charsOf owner i s ++ charsOf (fun k => owner (s.length + k)) i r := by
  have hshift : r.zipIdx s.length = r.zipIdx.map fun c => (c.1, s.length + c.2) :=
    List.zipIdx_eq_map_add
  rw [charsOf, List.zipIdx_append, List.filter_append, List.map_append, Nat.zero_add, hshift,
    List.filter_map, List.map_map]
  rfl

theorem charsOf_eq_self {owner : Nat → Nat} {i : Nat} {s : List Char}
    (h : ∀ place < s.length, owner place = i) : charsOf owner i s = s := by
  have hall : s.zipIdx.filter (fun c => owner c.2 = i) = s.zipIdx := by
    rw [List.filter_eq_self]
    intro c hc
    exact decide_eq_true (h c.2 (List.snd_lt_of_mem_zipIdx hc))
  rw [charsOf, hall, List.zipIdx_map_fst]

theorem charsOf_eq_nil {owner : Nat → Nat} {i : Nat} {s : List Char}
    (h : ∀ place < s.length, owner place ≠ i) : charsOf owner i s = [] := by
  have hnone : s.zipIdx.filter (fun c => owner c.2 = i) = [] := by
    rw [List.filter_eq_nil_iff]
    intro c hc
    simpa using h c.2 (List.snd_lt_of_mem_zipIdx hc)
  rw [charsOf, hnone, List.map_nil]

theorem charsOf_congr {owner owner' : Nat → Nat} {i j : Nat} {s : List Char}
    (h : ∀ place, owner place = i ↔ owner' place = j) : charsOf owner i s = charsOf owner' j s := by
  simp only [charsOf, h]

/-- The fragment that holds a place, for fragments of the given sizes. -/
def fragmentAt : (sizes : List Nat) → (place : Nat) → Nat
  | [], _ => 0
  | size :: sizes, place => if place < size then 0 else fragmentAt sizes (place - size) + 1

theorem fragmentAt_zero_cons (sizes : List Nat) (place : Nat) :
    fragmentAt (0 :: sizes) place = fragmentAt sizes place + 1 := by
  simp [fragmentAt]

theorem fragmentAt_consume (count : Nat) (sizes : List Nat) (place : Nat) :
    fragmentAt (consume count sizes) place = fragmentAt sizes (count + place) := by
  induction sizes generalizing count place with
  | nil => rfl
  | cons size sizes ih =>
    rw [consume]
    split
    · next hroom =>
      have hlt : place < size - count ↔ count + place < size := by omega
      simp only [fragmentAt, hlt]
      split
      · rfl
      · congr 2
        omega
    · next hroom =>
      rw [fragmentAt_zero_cons, ih, fragmentAt, if_neg (by omega)]
      congr 2
      omega

theorem holdsPlace_fragmentAt {fragments : List (List Char)} {place : Nat}
    (h : place < fragments.flatten.length) :
    HoldsPlace fragments (fragmentAt (fragments.map List.length) place) place := by
  induction fragments generalizing place with
  | nil => cases h
  | cons fragment fragments ih =>
    rw [List.flatten_cons, List.length_append] at h
    rw [List.map_cons, fragmentAt]
    split
    · next hlt => exact ⟨by simp, by simpa using hlt⟩
    · next hge =>
      obtain ⟨hstart, hstop⟩ := @ih (place - fragment.length) (by omega)
      refine ⟨?_, ?_⟩
      · rw [List.take_succ_cons, List.flatten_cons, List.length_append]
        omega
      · rw [List.take_succ_cons, List.flatten_cons, List.length_append]
        omega

/-! ### Pieces by their places -/

/-- The place where the piece at a place starts; behind the last piece, the place itself. -/
def pieceStart : List Piece → (place : Nat) → Nat
  | [], place => place
  | p :: ps, place =>
    if place < p.text.length then 0
    else p.text.length + pieceStart ps (place - p.text.length)

theorem pieceStart_of_lt {p : Piece} {place : Nat} (h : place < p.text.length) (ps : List Piece) :
    pieceStart (p :: ps) place = 0 :=
  if_pos h

theorem pieceStart_add (p : Piece) (ps : List Piece) (place : Nat) :
    pieceStart (p :: ps) (p.text.length + place) = p.text.length + pieceStart ps place := by
  rw [pieceStart, if_neg (by omega), Nat.add_sub_cancel_left]

/-- Each fragment gets the characters of the pieces that start in it. -/
theorem getElem?_deal (ps : List Piece) (sizes : List Nat) {i : Nat} (hi : i < sizes.length) :
    (deal ps sizes)[i]? = some
      (charsOf (fun place => fragmentAt sizes (pieceStart ps place)) i
        (ps.flatMap Piece.text)) := by
  fun_induction deal ps sizes generalizing i with
  | case1 => cases hi
  | case2 size sizes ih =>
    cases i with
    | zero => rfl
    | succ i => exact ih (Nat.lt_of_succ_lt_succ hi)
  | case3 p ps sizes ih =>
    simp only [fragmentAt_zero_cons]
    cases i with
    | zero => exact congrArg some (charsOf_eq_nil fun _ _ => Nat.succ_ne_zero _).symm
    | succ i =>
      rw [List.getElem?_cons_succ, ih (Nat.lt_of_succ_lt_succ hi)]
      exact congrArg some (charsOf_congr fun _ => Nat.succ_inj.symm)
  | case4 p ps size sizes ih =>
    -- behind the piece, places are found in the room that is left
    have hlater : ∀ place, fragmentAt ((size + 1) :: sizes)
        (pieceStart (p :: ps) (p.text.length + place))
          = fragmentAt (consume p.text.length ((size + 1) :: sizes)) (pieceStart ps place) := by
      intro place
      rw [pieceStart_add, fragmentAt_consume]
    have hpiece : ∀ place < p.text.length,
        fragmentAt ((size + 1) :: sizes) (pieceStart (p :: ps) place) = 0 := by
      intro place hplace
      rw [pieceStart_of_lt hplace]
      exact if_pos (Nat.succ_pos size)
    have hdeal := @ih i (by rwa [length_consume])
    rw [List.flatMap_cons, charsOf_append]
    simp only [hlater]
    cases i with
    | zero =>
      rw [charsOf_eq_self hpiece]
      cases hfirst : deal ps (consume p.text.length ((size + 1) :: sizes)) with
      | nil => simp [hfirst] at hdeal
      | cons fragment fragments =>
        rw [hfirst, List.getElem?_cons_zero, Option.some.injEq] at hdeal
        rw [prepend, List.getElem?_cons_zero, hdeal]
    | succ i =>
      have hne : ∀ place < p.text.length,
          fragmentAt ((size + 1) :: sizes) (pieceStart (p :: ps) place) ≠ i + 1 := by
        intro place hplace
        rw [hpiece place hplace]
        exact (Nat.succ_ne_zero i).symm
      rw [charsOf_eq_nil hne, List.nil_append, ← hdeal]
      cases deal ps (consume p.text.length ((size + 1) :: sizes)) <;> rfl

/-- No brace span starts inside of a brace span. -/
theorem span?_drop_eq_none {window : Nat} {s body after : List Char}
    (h : span? window s = some (body, after)) {start : Nat} (hpos : 0 < start)
    (hlt : start < body.length + 2) : span? window (s.drop start) = none := by
  obtain ⟨hs, -, hbody, -⟩ := span?_eq_some_iff.1 h
  have hs' : s = '{' :: (body ++ ['}']) ++ after := by
    rw [hs]
    simp
  obtain ⟨k, rfl⟩ : ∃ k, start = k + 1 := ⟨start - 1, by omega⟩
  have hk : k < (body ++ ['}']).length := by
    simp only [List.length_append, List.length_cons, List.length_nil]
    omega
  have hdrop : s.drop (k + 1) = (body ++ ['}'])[k] :: ((body ++ ['}']).drop (k + 1) ++ after) := by
    rw [hs', List.cons_append, List.drop_succ_cons, List.drop_append_of_le_length (Nat.le_of_lt hk),
      List.drop_eq_getElem_cons hk, List.cons_append]
  rw [hdrop]
  refine span?_eq_none_of_ne (fun hbrace => ?_) _
  have hmem : '{' ∈ body ++ ['}'] := hbrace ▸ List.getElem_mem hk
  rcases List.mem_append.1 hmem with hm | hm
  · exact absurd (hbody _ hm) (by decide)
  · exact absurd hm (by decide)

/-- A piece starts where the brace span around a place starts, or else at the place itself. -/
theorem pieceStart_pieces (window : Nat) (s : List Char) (place : Nat) :
    (∀ start body after, span? window (s.drop start) = some (body, after) → start ≤ place →
        place < start + body.length + 2 → pieceStart (pieces window s) place = start) ∧
      ((∀ start body after, span? window (s.drop start) = some (body, after) → start ≤ place →
        start + body.length + 2 ≤ place) → pieceStart (pieces window s) place = place) := by
  fun_induction pieces window s generalizing place with
  | case1 =>
    refine ⟨fun start body after h => ?_, fun _ => rfl⟩
    simp [span?] at h
  | case2 c rest body after h _ ih =>
    have hlength : (Piece.span body).text.length = body.length + 2 := by simp [Piece.text]
    have hs : c :: rest = (Piece.span body).text ++ after := by
      rw [eq_append_of_span? h]
      simp [Piece.text]
    have hfirst : ∀ {start}, start < body.length + 2 → ∀ {body' after'},
        span? window ((c :: rest).drop start) = some (body', after') → start = 0 := by
      intro start hlt body' after' hspan
      by_contra hne
      rw [span?_drop_eq_none h (Nat.pos_of_ne_zero hne) hlt] at hspan
      cases hspan
    by_cases hplace : place < body.length + 2
    · rw [pieceStart_of_lt (by rwa [hlength])]
      refine ⟨fun start body' after' hspan hle _ => (hfirst (by omega) hspan).symm, fun hnone => ?_⟩
      have := hnone 0 body after h (Nat.zero_le _)
      omega
    · obtain ⟨k, rfl⟩ : ∃ k, place = (Piece.span body).text.length + k :=
        ⟨place - (body.length + 2), by omega⟩
      have hdrop : ∀ start, (c :: rest).drop ((Piece.span body).text.length + start)
          = after.drop start := by
        intro start
        rw [hs, List.drop_length_add_append]
      rw [pieceStart_add]
      refine ⟨fun start body' after' hspan hle hlt => ?_, fun hnone => ?_⟩
      · obtain ⟨start, rfl⟩ : ∃ start', start = (Piece.span body).text.length + start' := by
          refine ⟨start - (body.length + 2), ?_⟩
          by_contra hne
          obtain rfl := hfirst (by omega) hspan
          rw [List.drop_zero, h, Option.some.injEq, Prod.mk.injEq] at hspan
          obtain ⟨rfl, rfl⟩ := hspan
          omega
        rw [hdrop] at hspan
        rw [(ih k).1 start body' after' hspan (by omega) (by omega)]
      · rw [(ih k).2 fun start body' after' hspan hle => ?_]
        have := hnone _ body' after' ((congrArg _ (hdrop start)).trans hspan) (by omega)
        omega
  | case3 c rest h ih =>
    cases place with
    | zero =>
      rw [pieceStart_of_lt (by exact Nat.one_pos)]
      exact ⟨fun start _ _ _ hle _ => (Nat.le_zero.1 hle).symm, fun _ => rfl⟩
    | succ k =>
      have hstart : pieceStart (.char c :: pieces window rest) (k + 1)
          = pieceStart (pieces window rest) k + 1 := by
        have hadd : pieceStart (.char c :: pieces window rest) (1 + k)
            = 1 + pieceStart (pieces window rest) k := pieceStart_add (.char c) _ k
        rw [Nat.add_comm k, hadd, Nat.add_comm]
      rw [hstart]
      refine ⟨fun start body after hspan hle hlt => ?_, fun hnone => ?_⟩
      · cases start with
        | zero =>
          rw [List.drop_zero, h] at hspan
          cases hspan
        | succ start =>
          rw [(ih k).1 start body after hspan (by omega) (by omega)]
      · rw [(ih k).2 fun start body after hspan hle => ?_]
        have := hnone (start + 1) body after hspan (by omega)
        omega

theorem isSpanAt_iff {bound : UInt64} (hbound : bound.toNat < 2 ^ 63) {s : List Char}
    {start stop : Nat} :
    IsSpanAt bound s start stop ↔ ∃ body after,
      span? (windowSize bound) (s.drop start) = some (body, after) ∧
        stop = start + body.length + 2 := by
  constructor
  · rintro ⟨before, body, after, rfl, rfl, rfl, hne, hbody, hsize⟩
    refine ⟨body, after, ?_, rfl⟩
    rw [List.drop_left, span?_eq_some_iff, windowSize_eq hbound]
    exact ⟨rfl, hne, hbody, Nat.lt_succ_of_le hsize⟩
  · rintro ⟨body, after, hspan, rfl⟩
    rw [span?_eq_some_iff, windowSize_eq hbound] at hspan
    obtain ⟨hs, hne, hbody, hsize⟩ := hspan
    have hstart : start ≤ s.length := by
      by_contra hlt
      rw [List.drop_eq_nil_of_le (by omega)] at hs
      cases hs
    exact ⟨s.take start, body, after, by rw [← hs, List.take_append_drop],
      (List.length_take_of_le hstart).symm, rfl, hne, hbody, Nat.le_of_lt_succ hsize⟩

/-- The fragments in which pieces start are those that characters settle in. -/
theorem settles_pieceStart {bound : UInt64} (hbound : bound.toNat < 2 ^ 63)
    (fragments : List (List Char)) :
    Settles bound fragments fun place => fragmentAt (fragments.map List.length)
      (pieceStart (pieces (windowSize bound) fragments.flatten) place) := by
  constructor
  · intro start stop place hspan hle hlt
    obtain ⟨body, after, hread, rfl⟩ := (isSpanAt_iff hbound).1 hspan
    rw [(pieceStart_pieces _ _ place).1 start body after hread hle hlt]
    refine holdsPlace_fragmentAt ?_
    by_contra hend
    rw [List.drop_eq_nil_of_le (by omega)] at hread
    cases hread
  · intro place hplace hnone
    rw [(pieceStart_pieces _ _ place).2 fun start body after hspan hle => ?_]
    · exact holdsPlace_fragmentAt hplace
    · by_contra hlt
      exact hnone _ _ ((isSpanAt_iff hbound).2 ⟨body, after, hspan, rfl⟩) ⟨hle, by omega⟩

/-! ### Gathering again -/

theorem deal_zero_cons (ps : List Piece) (sizes : List Nat) :
    deal ps (0 :: sizes) = [] :: deal ps sizes := by
  cases ps <;> rw [deal]

/-- Pieces that are whole in their fragments stay there. -/
theorem deal_flatten (groups : List (List Piece)) :
    deal groups.flatten (groups.map fun group => (group.flatMap Piece.text).length)
      = groups.map fun group => group.flatMap Piece.text := by
  induction groups with
  | nil => simp [deal]
  | cons group groups ih =>
    simp only [List.flatten_cons, List.map_cons]
    induction group with
    | nil => rw [List.nil_append, List.flatMap_nil, List.length_nil, deal_zero_cons, ih]
    | cons p group ihg =>
      have hpos := length_text_pos p
      obtain ⟨size, hsize⟩ : ∃ size, ((p :: group).flatMap Piece.text).length = size + 1 := by
        rw [List.flatMap_cons, List.length_append]
        exact ⟨p.text.length + (group.flatMap Piece.text).length - 1, by omega⟩
      have hroom : consume p.text.length ((size + 1) :: groups.map
          fun group => (group.flatMap Piece.text).length)
          = (group.flatMap Piece.text).length :: groups.map
            fun group => (group.flatMap Piece.text).length := by
        rw [← hsize, List.flatMap_cons, List.length_append, consume, if_pos (by omega),
          Nat.add_sub_cancel_left]
      rw [hsize, List.cons_append, deal, hroom, ihg, prepend, List.flatMap_cons]

theorem flatten_gather (window : Nat) (fragments : List (List Char)) :
    (gather window fragments).flatten = fragments.flatten := by
  obtain ⟨groups, hflat, -, hgather⟩ := exists_pieces_gather_eq window fragments
  rw [hgather, ← text_pieces window fragments.flatten, ← hflat, flatMap_flatten, List.flatMap_def]

theorem gather_gather (window : Nat) (fragments : List (List Char)) :
    gather window (gather window fragments) = gather window fragments := by
  obtain ⟨groups, hflat, -, hgather⟩ := exists_pieces_gather_eq window fragments
  rw [gather, flatten_gather, hgather, List.map_map, ← hflat]
  exact deal_flatten groups

theorem notMem_of_mem_gather {c : Char} {fragments : List (List Char)}
    (h : ∀ fragment ∈ fragments, c ∉ fragment) (window : Nat) :
    ∀ fragment ∈ gather window fragments, c ∉ fragment := by
  intro fragment hfragment hm
  have hflat := List.mem_flatten.2 ⟨fragment, hfragment, hm⟩
  rw [flatten_gather] at hflat
  obtain ⟨own, hown, hm⟩ := List.mem_flatten.1 hflat
  exact h own hown hm

/-- The contents of a gathered part are gathered, when they hold no markup. -/
theorem Markup.textContents_gatherPart (window : Nat) {s : List Char}
    (hangle : ∀ content ∈ Markup.textContents s, '<' ∉ content) :
    Markup.textContents (Markup.gatherPart window s) = gather window (Markup.textContents s) := by
  have hwoven := Markup.woven_withContents (length_gather window (Markup.textContents s))
  exact hwoven.textContents_eq (notMem_of_mem_gather hangle window)

/-! ### The law -/

/-- Each fragment gets the characters that settle in it. -/
theorem exists_settles_gather {bound : UInt64} (hbound : bound.toNat < 2 ^ 63)
    (fragments : List (List Char)) :
    ∃ owner : Nat → Nat, Settles bound fragments owner ∧ ∀ i < fragments.length,
      (gather (windowSize bound) fragments)[i]? = some (charsOf owner i fragments.flatten) := by
  refine ⟨_, settles_pieceStart hbound fragments, fun i hi => ?_⟩
  have hdeal := getElem?_deal (pieces (windowSize bound) fragments.flatten)
    (fragments.map List.length) (i := i) (by rwa [List.length_map])
  rwa [text_pieces] at hdeal

theorem changes_self (fragments : List (List Char)) :
    changes fragments fragments = List.replicate fragments.length false := by
  induction fragments with
  | nil => rfl
  | cons fragment fragments ih =>
    have hself : (fragment != fragment) = false := bne_self_eq_false fragment
    rw [changes, List.zipWith_cons_cons, hself, List.length_cons, List.replicate_succ, ← ih]
    rfl

theorem getElem?_changes {before after : List (List Char)} (h : after.length = before.length)
    {i : Nat} (hi : i < before.length) :
    (changes before after)[i]? = some (decide (after[i]? ≠ before[i]?)) := by
  have hi' : i < after.length := h ▸ hi
  rw [changes, List.getElem?_zipWith, List.getElem?_eq_getElem hi, List.getElem?_eq_getElem hi']
  simp [bne, beq_eq_decide, eq_comm]

/-- **Gathering places every character**: those of a brace span where the span starts, all others
where they were. It tells which fragments differ, and changes nothing when done again. -/
theorem gather_places {bound : UInt64} (hbound : bound.toNat < 2 ^ 63)
    (fragments : List (List Char)) :
    (∃ owner : Nat → Nat, Settles bound fragments owner ∧ ∀ i < fragments.length,
        (gather (windowSize bound) fragments)[i]? = some (charsOf owner i fragments.flatten)) ∧
      let after := gather (windowSize bound) fragments
      (after.length = fragments.length ∧ after.flatten = fragments.flatten) ∧
        ((changes fragments after).length = fragments.length ∧ ∀ i < fragments.length,
          (changes fragments after)[i]? = some (decide (after[i]? ≠ fragments[i]?))) ∧
        gather (windowSize bound) after = after ∧
        changes after (gather (windowSize bound) after)
          = List.replicate fragments.length false := by
  have hlength := length_gather (windowSize bound) fragments
  have hagain := gather_gather (windowSize bound) fragments
  refine ⟨exists_settles_gather hbound fragments, ⟨hlength, flatten_gather _ _⟩,
    ⟨?_, fun i hi => getElem?_changes hlength hi⟩, hagain, ?_⟩
  · rw [changes, List.length_zipWith, hlength, Nat.min_self]
  · rw [hagain, changes_self, hlength]

/-- A span over three fragments, beside braces that belong to none. -/
theorem gather_places_split :
    let fragments := ["a\x7bb".toList, [], "\x7b\x7d\x7bc".toList, "d".toList, "\x7de".toList]
    let after := ["a\x7bb".toList, [], "\x7b\x7d\x7bcd\x7d".toList, [], "e".toList]
    (256 : UInt64).toNat < 2 ^ 63 ∧ gather (windowSize 256) fragments = after ∧
      (∃ owner : Nat → Nat, Settles 256 fragments owner ∧
        ∀ i < fragments.length, after[i]? = some (charsOf owner i fragments.flatten)) ∧
      gather (windowSize 256) after = after := by
  intro fragments after
  have hbound : (256 : UInt64).toNat < 2 ^ 63 := by decide
  have hgather : gather (windowSize 256) fragments = after := by cbv
  obtain ⟨howner, -, -, hagain, -⟩ := gather_places hbound fragments
  rw [hgather] at howner hagain
  exact ⟨hbound, hgather, howner, hagain⟩

end MailMerge
