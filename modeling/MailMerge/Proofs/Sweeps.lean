import Mathlib.Data.List.Sort
import MailMerge.Proofs.Places

/-!
# What a sweep finds

A sweep of the bytes of a text finds the brace spans of the text as long as no window **wraps**
(`Sweep.spans_of_inRange`). A window wraps when the place of an opening brace and the bound together
pass the largest 64-bit word. With the largest bound every window wraps, and is empty, so that
nothing is found (`Sweep.spans_of_bound_eq`). With any other bound a window that wraps is reversed,
and the sweep fails (`Sweep.spans_of_wraps`).

A span is determined by where it starts, and spans are found from left to right. So two sweeps can
be compared by the spans that there are: a larger bound loses none (`Sweep.places_sublist`), and
bounds from the length of the text on find the same (`Sweep.places_eq_of_byteSize_le`).

Whatever is asked of a sweep changes nothing but its place (`Sweep.exists_seek_of_after`). So from
the place on where it was sent last, it finds all spans, one after the other, and then nothing any
more (`Sweep.next_finds`).
-/

namespace MailMerge

theorem toNat_min (a b : UInt64) : (min a b).toNat = min a.toNat b.toNat := by
  show (if a ≤ b then a else b).toNat = _
  rw [apply_ite UInt64.toNat, Nat.min_def]
  rfl

theorem toNat_max (a b : UInt64) : (max a b).toNat = max a.toNat b.toNat := by
  show (if a ≤ b then b else a).toNat = _
  rw [apply_ite UInt64.toNat, Nat.max_def]
  rfl

/-- Unless the bound is the largest word, the window is one byte more. -/
theorem windowSize_of_ne {bound : UInt64} (h : bound.toNat ≠ 2 ^ 64 - 1) :
    windowSize bound = max bound.toNat 1 + 1 := by
  have hbound := bound.toNat_lt
  rw [windowSize, UInt64.toNat_add, toNat_max, UInt64.toNat_one, Nat.mod_eq_of_lt (by omega)]

theorem windowSize_of_eq {bound : UInt64} (h : bound.toNat = 2 ^ 64 - 1) :
    windowSize bound = 0 := by
  rw [windowSize, UInt64.toNat_add, toNat_max, h]
  rfl

namespace Sweep

variable {sweep : Sweep} {start : Nat}

/-! ### Windows -/

/-- Where the window would stop that starts at a place, if words and texts had no end. -/
def reach (sweep : Sweep) (start : Nat) : Nat :=
  start + max sweep.bound.toNat 1 + 1

/-- Whether no window wraps, from the place of a sweep on. -/
def InRange (sweep : Sweep) : Prop :=
  ∀ opening, sweep.place ≤ opening → sweep.bytes[opening]? = some openByte →
    sweep.reach (opening + 1) < 2 ^ 64

theorem inRange_iff : sweep.InRange ↔ ∀ opening < sweep.bytes.length, sweep.place ≤ opening →
    sweep.bytes[opening]? = some openByte → sweep.reach (opening + 1) < 2 ^ 64 :=
  ⟨fun h opening _ hplace hbyte => h opening hplace hbyte, fun h opening hplace hbyte =>
    h opening (List.getElem?_eq_some_iff.1 hbyte).1 hplace hbyte⟩

instance : DecidablePred InRange :=
  fun _ => decidable_of_iff _ inRange_iff.symm

theorem windowStop_eq (hsize : sweep.bytes.length < 2 ^ 64) (hstart : start < 2 ^ 64) :
    sweep.windowStop start = min (sweep.reach start % 2 ^ 64) sweep.bytes.length := by
  rw [windowStop, toNat_min, UInt64.toNat_add, UInt64.toNat_add, toNat_max,
    UInt64.toNat_ofNat_of_lt' hstart, UInt64.toNat_ofNat_of_lt' hsize, Nat.mod_add_mod]
  rfl

/-- A window that does not wrap is not reversed. -/
theorem windowStop_of_lt (hsize : sweep.bytes.length < 2 ^ 64)
    (hreach : sweep.reach start < 2 ^ 64) :
    sweep.windowStop start = min (sweep.reach start) sweep.bytes.length := by
  have hstart : start < 2 ^ 64 := Nat.lt_of_le_of_lt (by rw [reach]; omega) hreach
  rw [windowStop_eq hsize hstart, Nat.mod_eq_of_lt hreach]

/-- A window that wraps stops as far before its start as the bound is from the largest word. -/
theorem windowStop_of_le (hsize : sweep.bytes.length < 2 ^ 64)
    (hstart : start ≤ sweep.bytes.length) (hreach : 2 ^ 64 ≤ sweep.reach start) :
    sweep.windowStop start + (2 ^ 64 - 1 - max sweep.bound.toNat 1) = start := by
  have hbound := sweep.bound.toNat_lt
  rw [windowStop_eq hsize (by omega)]
  rw [reach] at hreach ⊢
  rw [Nat.mod_eq_sub_mod hreach, Nat.mod_eq_of_lt (by omega)]
  omega

/-! ### The next span -/

/-- Whether something is the first span from the place of a sweep on, if there is one. -/
def IsFirst (sweep : Sweep) : Option (Nat × Nat) → Prop
  | none => ∀ start stop, sweep.place ≤ start → ¬IsSpan sweep.bound sweep.bytes start stop
  | some (first, last) => sweep.place ≤ first ∧ IsSpan sweep.bound sweep.bytes first last ∧
    ∀ start stop, sweep.place ≤ start → start < first →
      ¬IsSpan sweep.bound sweep.bytes start stop

/-- A brace behind the opening one is at the first of them or behind it. -/
theorem le_of_placeOf? {opening limit brace : Nat}
    (hbrace : placeOf? isBraceByte (opening + 1) limit sweep.bytes = some brace) {k : Nat}
    (hlt : opening < k) (hk : sweep.bytes[k]? = some openByte) : brace ≤ k := by
  by_contra hbefore
  exact absurd ((placeOf?_eq_some hbrace).2.2.2 k hlt (by omega) _ hk) (by decide)

section Passed

variable {opening place : Nat}
  (hopening : placeOf? (· == openByte) sweep.place sweep.bytes.length sweep.bytes = some opening)

include hopening

/-- What stands at the first opening brace. -/
theorem opening_of_placeOf? : sweep.bytes[opening]? = some openByte := by
  obtain ⟨-, -, ⟨b, hb, hopen⟩, -⟩ := placeOf?_eq_some hopening
  rw [hb, beq_iff_eq.1 hopen]

/-- No opening brace comes before the first. -/
theorem le_of_opening {k : Nat} (hplace : sweep.place ≤ k) (hk : sweep.bytes[k]? = some openByte) :
    opening ≤ k := by
  by_contra hlt
  exact absurd ((placeOf?_eq_some hopening).2.2.2 k hplace (by omega) _ hk) (by decide)

/-- No span is passed up to a place, if the first opening brace opens none and no other brace opens
one before that place. -/
theorem not_isSpan_of_passed
    (hfirst : ∀ stop, ¬IsSpan sweep.bound sweep.bytes opening stop)
    (hothers : ∀ k, opening < k → k < place → sweep.bytes[k]? ≠ some openByte)
    {stop : Nat} (hstart : sweep.place ≤ start) (hplace : start < place) :
    ¬IsSpan sweep.bound sweep.bytes start stop := by
  intro h
  have hle := le_of_opening hopening hstart h.opening
  rcases Nat.eq_or_lt_of_le hle with rfl | hlt
  · exact hfirst stop h
  · exact hothers start hlt hplace h.opening

/-- The search may go on behind the first opening brace, where no span has been passed. -/
theorem IsFirst.of_seek {found : Option (Nat × Nat)} (h : (sweep.seek place).IsFirst found)
    (hplace : opening < place) (hfirst : ∀ stop, ¬IsSpan sweep.bound sweep.bytes opening stop)
    (hothers : ∀ k, opening < k → k < place → sweep.bytes[k]? ≠ some openByte) :
    sweep.IsFirst found := by
  have hpassed : ∀ start stop, sweep.place ≤ start → start < place →
      ¬IsSpan sweep.bound sweep.bytes start stop := fun _ _ hstart hlt =>
    not_isSpan_of_passed hopening hfirst hothers hstart hlt
  cases found with
  | none =>
    intro start stop hstart
    rcases Nat.lt_or_ge start place with hlt | hge
    · exact hpassed start stop hstart hlt
    · exact h start stop hge
  | some span =>
    obtain ⟨hle, hspan, hbefore⟩ := h
    have hopen := (placeOf?_eq_some hopening).1
    refine ⟨Nat.le_trans (Nat.le_of_lt (Nat.lt_of_le_of_lt hopen hplace)) hle, hspan,
      fun start stop hstart hlt => ?_⟩
    rcases Nat.lt_or_ge start place with hlt' | hge
    · exact hpassed start stop hstart hlt'
    · exact hbefore start stop hge hlt

end Passed

theorem InRange.seek (h : sweep.InRange) {place : Nat} (hplace : sweep.place ≤ place) :
    (sweep.seek place).InRange :=
  fun opening hle => h opening (Nat.le_trans hplace hle)

/-- **The next span** is found as long as no window wraps. -/
theorem next_of_inRange (hsize : sweep.bytes.length < 2 ^ 64) (h : sweep.InRange) :
    ∃ found after, sweep.next = .ok (found, after) ∧ sweep.IsFirst found := by
  fun_induction next sweep with
  | case1 sweep hopening =>
    refine ⟨none, sweep, rfl, fun start stop hstart hspan => ?_⟩
    have hlt := (List.getElem?_eq_some_iff.1 hspan.opening).1
    exact absurd (placeOf?_eq_none hopening hstart hlt hspan.opening) (by decide)
  | case2 sweep opening hopening _ start stop hreversed =>
    have hbyte := opening_of_placeOf? hopening
    have hlt := (List.getElem?_eq_some_iff.1 hbyte).1
    have hreach := h opening (placeOf?_eq_some hopening).1 hbyte
    have hstop : stop = min (sweep.reach start) sweep.bytes.length := windowStop_of_lt hsize hreach
    rw [reach] at hstop
    omega
  | case3 sweep opening hopening _ start stop hstop brace hbrace _ hopen ih =>
    have hle := (placeOf?_eq_some hbrace).1
    have hplace := (placeOf?_eq_some hopening).1
    obtain ⟨found, after, hnext, hfirst⟩ := ih hsize (h.seek (by omega))
    refine ⟨found, after, hnext, hfirst.of_seek hopening hle (fun last hspan => ?_)
      fun k hk hlt hbyte => ?_⟩
    · obtain rfl := hspan.stop_eq_of_placeOf? hbrace
      exact absurd (hopen.symm.trans hspan.closing) (by decide)
    · exact absurd (le_of_placeOf? hbrace hk hbyte) (Nat.not_le.2 hlt)
  | case4 sweep opening hopening _ start stop hstop hbrace _ hclose ih =>
    have hplace := (placeOf?_eq_some hopening).1
    obtain ⟨found, after, hnext, hfirst⟩ := ih hsize (h.seek (by omega))
    refine ⟨found, after, hnext, hfirst.of_seek hopening (by omega) (fun last hspan => ?_)
      fun k hk hlt hbyte => ?_⟩
    · obtain rfl := hspan.stop_eq_of_placeOf? hbrace
      have := hspan.start_lt
      omega
    · obtain rfl : k = start := by omega
      exact hclose hbyte
  | case5 sweep opening hopening _ start stop hstop brace hbrace _ hclose hne =>
    obtain ⟨hle, hlt, ⟨b, hb, hbraced⟩, hbefore⟩ := placeOf?_eq_some hbrace
    have hplace := (placeOf?_eq_some hopening).1
    have hbyte := opening_of_placeOf? hopening
    have hstop : stop = min (sweep.reach start) sweep.bytes.length :=
      windowStop_of_lt hsize (h opening hplace hbyte)
    rw [reach] at hstop
    refine ⟨_, _, rfl, hplace, ⟨hbyte, ?_, fun k hk hlt => ?_, by omega, by omega⟩,
      fun k last hk hlt hspan => ?_⟩
    · rw [Nat.add_sub_cancel, hb, Option.some.injEq]
      rw [hb, Option.some.injEq] at hclose
      simpa [isBraceByte, hclose] using hbraced
    · have hnot := hbefore k hk hlt
      exact ⟨fun hk => absurd (hnot _ hk) (by decide), fun hk => absurd (hnot _ hk) (by decide)⟩
    · have := le_of_opening hopening hk hspan.opening
      omega
  | case6 sweep opening hopening _ start stop hstop hnone hend =>
    refine ⟨none, _, rfl, fun k last hk hspan => ?_⟩
    have hlast := hspan.stop_le
    have hlt := hspan.start_lt
    refine not_isSpan_of_passed hopening (fun last hspan => ?_) (fun k hk hlt hbyte => ?_) hk
      (show k < stop by omega) hspan
    · have := hspan.le_stop_of_placeOf? hnone
      have := hspan.stop_le
      omega
    · exact absurd (placeOf?_eq_none hnone hk hlt hbyte) (by decide)
  | case7 sweep opening hopening _ start stop hstop hnone hend ih =>
    have hplace := (placeOf?_eq_some hopening).1
    have hwindow : stop = min (sweep.reach start) sweep.bytes.length :=
      windowStop_of_lt hsize (h opening hplace (opening_of_placeOf? hopening))
    rw [reach] at hwindow
    obtain ⟨found, after, hnext, hfirst⟩ := ih hsize (h.seek (by omega))
    refine ⟨found, after, hnext, hfirst.of_seek hopening (Nat.lt_succ_self _)
      (fun last hspan => ?_) fun k hk hlt hbyte => ?_⟩
    · have := hspan.le_stop_of_placeOf? hnone
      have := hspan.size
      omega
    · omega

/-! ### Windows that wrap -/

/-- The window behind an opening brace, when it wraps, starts in the text. -/
theorem windowStop_of_wraps (hsize : sweep.bytes.length < 2 ^ 64) {opening : Nat}
    (hbyte : sweep.bytes[opening]? = some openByte)
    (hwraps : 2 ^ 64 ≤ sweep.reach (opening + 1)) :
    sweep.windowStop (opening + 1) + (2 ^ 64 - 1 - max sweep.bound.toNat 1) = opening + 1 :=
  windowStop_of_le hsize (List.getElem?_eq_some_iff.1 hbyte).1 hwraps

/-- With the largest bound every window is empty. -/
theorem windowStop_of_bound_eq (hsize : sweep.bytes.length < 2 ^ 64)
    (hbound : sweep.bound.toNat = 2 ^ 64 - 1) {opening : Nat}
    (hbyte : sweep.bytes[opening]? = some openByte) :
    sweep.windowStop (opening + 1) = opening + 1 := by
  have := windowStop_of_wraps hsize hbyte (by rw [reach]; omega)
  omega

/-- Where the window behind an opening brace stops. -/
structure WindowStops (sweep : Sweep) (opening : Nat) : Prop where
  /-- It stops where it should, unless the place of the brace and the bound together pass the
  largest word. -/
  fits : opening + 1 + max sweep.bound.toNat 1 + 1 < 2 ^ 64 →
    sweep.windowStop (opening + 1)
        = min (opening + 1 + max sweep.bound.toNat 1 + 1) sweep.bytes.length ∧
      opening + 1 ≤ sweep.windowStop (opening + 1)
  /-- When it wraps it is reversed, or empty when the bound is the largest word. -/
  wraps : 2 ^ 64 ≤ opening + 1 + max sweep.bound.toNat 1 + 1 →
    sweep.windowStop (opening + 1) ≤ opening + 1 ∧
      (sweep.windowStop (opening + 1) = opening + 1 ↔ sweep.bound.toNat = 2 ^ 64 - 1)

/-- **The window behind an opening brace** stops where it should, unless it wraps. -/
theorem windowStops (hsize : sweep.bytes.length < 2 ^ 64) {opening : Nat}
    (hbyte : sweep.bytes[opening]? = some openByte) : sweep.WindowStops opening := by
  have hlt := (List.getElem?_eq_some_iff.1 hbyte).1
  constructor
  case fits =>
    intro hreach
    rw [windowStop_of_lt hsize hreach, reach]
    exact ⟨rfl, by omega⟩
  case wraps =>
    intro hwraps
    have := windowStop_of_wraps hsize hbyte hwraps
    have := sweep.bound.toNat_lt
    omega

/-- With the largest bound no brace is found behind the opening one. -/
theorem placeOf?_ne_some_of_bound_eq (hsize : sweep.bytes.length < 2 ^ 64)
    (hbound : sweep.bound.toNat = 2 ^ 64 - 1) {opening brace : Nat}
    (hbyte : sweep.bytes[opening]? = some openByte) :
    placeOf? isBraceByte (opening + 1) (sweep.windowStop (opening + 1)) sweep.bytes
      ≠ some brace := by
  intro hbrace
  have hempty := windowStop_of_bound_eq hsize hbound hbyte
  have := placeOf?_eq_some hbrace
  omega

/-- With the largest bound no span is found. -/
theorem next_of_bound_eq (hsize : sweep.bytes.length < 2 ^ 64)
    (hbound : sweep.bound.toNat = 2 ^ 64 - 1) : ∃ after, sweep.next = .ok (none, after) := by
  fun_induction next sweep with
  | case1 | case6 => exact ⟨_, rfl⟩
  | case2 sweep opening hopening _ start stop hreversed =>
    have : stop = start := windowStop_of_bound_eq hsize hbound (opening_of_placeOf? hopening)
    omega
  | case3 sweep opening hopening _ start stop _ brace hbrace =>
    exact absurd hbrace
      (placeOf?_ne_some_of_bound_eq hsize hbound (opening_of_placeOf? hopening))
  | case4 sweep opening hopening _ start stop _ hbrace =>
    exact absurd hbrace
      (placeOf?_ne_some_of_bound_eq hsize hbound (opening_of_placeOf? hopening))
  | case5 sweep opening hopening _ start stop _ brace hbrace =>
    exact absurd hbrace
      (placeOf?_ne_some_of_bound_eq hsize hbound (opening_of_placeOf? hopening))
  | case7 _ _ _ _ _ _ _ _ _ ih => exact ih hsize hbound

/-- With any other bound, a window that wraps is reversed. So the window of the first opening brace
is, or the brace whose window wraps is another. -/
theorem lt_of_wraps (hsize : sweep.bytes.length < 2 ^ 64)
    (hbound : sweep.bound.toNat ≠ 2 ^ 64 - 1) {opening wrapping : Nat}
    (hopening : placeOf? (· == openByte) sweep.place sweep.bytes.length sweep.bytes = some opening)
    (hplace : sweep.place ≤ wrapping) (hbyte : sweep.bytes[wrapping]? = some openByte)
    (hwraps : 2 ^ 64 ≤ sweep.reach (wrapping + 1))
    (hstop : ¬sweep.windowStop (opening + 1) < opening + 1) : opening < wrapping := by
  refine Nat.lt_of_le_of_ne (le_of_opening hopening hplace hbyte) ?_
  rintro rfl
  have := windowStop_of_wraps hsize hbyte hwraps
  have := sweep.bound.toNat_lt
  omega

/-- Whether a search ends before a place: at a window that is reversed, or with a span. -/
def EndsBefore (place : Nat) : Except ReversedWindow (Option (Nat × Nat) × Sweep) → Prop
  | .error window => window.stop < window.start
  | .ok (none, _) => False
  | .ok (some (_, stop), _) => stop ≤ place

/-- No search gets past an opening brace whose window is reversed. -/
theorem endsBefore_next (hsize : sweep.bytes.length < 2 ^ 64)
    (hbound : sweep.bound.toNat ≠ 2 ^ 64 - 1) {wrapping : Nat} (hplace : sweep.place ≤ wrapping)
    (hbyte : sweep.bytes[wrapping]? = some openByte)
    (hwraps : 2 ^ 64 ≤ sweep.reach (wrapping + 1)) : EndsBefore wrapping sweep.next := by
  fun_induction next sweep with
  | case1 sweep hopening =>
    have hlt := (List.getElem?_eq_some_iff.1 hbyte).1
    exact absurd (placeOf?_eq_none hopening hplace hlt hbyte) (by decide)
  | case2 sweep opening hopening _ start stop hreversed => exact hreversed
  | case3 sweep opening hopening _ start stop hstop brace hbrace _ hopen ih =>
    have hlt := lt_of_wraps hsize hbound hopening hplace hbyte hwraps hstop
    exact ih hsize hbound (le_of_placeOf? hbrace hlt hbyte) hbyte hwraps
  | case4 sweep opening hopening _ start stop hstop hbrace _ hclose ih =>
    have hlt := lt_of_wraps hsize hbound hopening hplace hbyte hwraps hstop
    have hle := le_of_placeOf? hbrace hlt hbyte
    refine ih hsize hbound (Nat.lt_of_le_of_ne hle ?_) hbyte hwraps
    rintro rfl
    exact hclose hbyte
  | case5 sweep opening hopening _ start stop hstop brace hbrace _ hclose hne =>
    have hlt := lt_of_wraps hsize hbound hopening hplace hbyte hwraps hstop
    have hle := le_of_placeOf? hbrace hlt hbyte
    refine Nat.lt_of_le_of_ne hle ?_
    rintro rfl
    exact hclose hbyte
  | case6 sweep opening hopening _ start stop hstop hnone hend =>
    have hlt := lt_of_wraps hsize hbound hopening hplace hbyte hwraps hstop
    have hlast := (List.getElem?_eq_some_iff.1 hbyte).1
    exact absurd (placeOf?_eq_none hnone hlt (hend ▸ hlast) hbyte) (by decide)
  | case7 sweep opening hopening _ start stop hstop hnone hend ih =>
    have hlt := lt_of_wraps hsize hbound hopening hplace hbyte hwraps hstop
    exact ih hsize hbound hlt hbyte hwraps

/-! ### All spans -/

/-- Whether one span starts before another one, by their places. -/
def StartsBefore (a b : Nat × Nat) : Prop :=
  a.1 < b.1

instance : Std.Irrefl StartsBefore :=
  ⟨fun a => Nat.lt_irrefl a.1⟩

instance : Std.Antisymm StartsBefore :=
  ⟨fun _ _ h h' => absurd h (Nat.lt_asymm h')⟩

/-- What a sweep finds, unless it fails: all spans from its place on, from left to right. -/
structure Finds (sweep : Sweep) (spans : List (Nat × Nat)) : Prop where
  sorted : spans.Pairwise StartsBefore
  mem_iff : ∀ start stop, (start, stop) ∈ spans ↔
    sweep.place ≤ start ∧ IsSpan sweep.bound sweep.bytes start stop

/-- Where there is no span, none is found. -/
theorem IsFirst.finds_nil (h : sweep.IsFirst none) : sweep.Finds [] :=
  ⟨.nil, fun start stop => iff_of_false List.not_mem_nil fun hspan => h start stop hspan.1 hspan.2⟩

/-- Behind the first span the others are found. -/
theorem Finds.cons {first last : Nat} {spans : List (Nat × Nat)}
    (h : (sweep.seek last).Finds spans) (hfirst : sweep.IsFirst (some (first, last))) :
    sweep.Finds ((first, last) :: spans) := by
  obtain ⟨hplace, hspan, hbefore⟩ := hfirst
  have hlt : first < last := by
    have := hspan.start_lt
    omega
  have hmem : ∀ start stop, (start, stop) ∈ spans ↔
      last ≤ start ∧ IsSpan sweep.bound sweep.bytes start stop := h.mem_iff
  refine ⟨.cons (fun other hother => ?_) h.sorted, fun start stop => ?_⟩
  · exact Nat.lt_of_lt_of_le hlt ((hmem other.1 other.2).1 hother).1
  · rw [List.mem_cons, hmem, Prod.mk.injEq]
    constructor
    · rintro (⟨rfl, rfl⟩ | ⟨hstart, hspan'⟩)
      · exact ⟨hplace, hspan⟩
      · exact ⟨Nat.le_trans hplace (Nat.le_trans (Nat.le_of_lt hlt) hstart), hspan'⟩
    · rintro ⟨hstart, hspan'⟩
      rcases Nat.lt_trichotomy start first with hless | rfl | hmore
      · exact absurd hspan' (hbefore start stop hstart hless)
      · exact .inl ⟨rfl, hspan'.stop_eq hspan⟩
      · exact .inr ⟨hspan.stop_le_start hspan' hmore, hspan'⟩

/-- **A sweep finds the spans** as long as no window wraps. -/
theorem spans_of_inRange (hsize : sweep.bytes.length < 2 ^ 64) (h : sweep.InRange) :
    ∃ spans, sweep.spans = .ok spans ∧ sweep.Finds spans := by
  fun_induction spans sweep with
  | case1 sweep window hnext =>
    obtain ⟨found, after, hfound, -⟩ := next_of_inRange hsize h
    rw [hnext] at hfound
    cases hfound
  | case2 sweep after hnext =>
    obtain ⟨found, after', hfound, hfirst⟩ := next_of_inRange hsize h
    rw [hnext] at hfound
    cases hfound
    exact ⟨[], rfl, hfirst.finds_nil⟩
  | case3 sweep span after hnext _ ih =>
    obtain ⟨found, after', hfound, hfirst⟩ := next_of_inRange hsize h
    rw [hnext] at hfound
    cases hfound
    obtain ⟨hplace, hlt, -, rfl⟩ := of_next hnext
    obtain ⟨spans, hspans, hfinds⟩ := ih hsize (h.seek (by omega))
    exact ⟨span :: spans, by rw [hspans]; rfl, hfinds.cons hfirst⟩

/-- With the largest bound nothing is found. -/
theorem spans_of_bound_eq (hsize : sweep.bytes.length < 2 ^ 64)
    (hbound : sweep.bound.toNat = 2 ^ 64 - 1) : sweep.spans = .ok [] := by
  obtain ⟨after, hnext⟩ := next_of_bound_eq hsize hbound
  rw [spans]
  split
  · next h => rw [hnext] at h; cases h
  · rfl
  · next h => rw [hnext] at h; cases h

/-- **A sweep fails** when some window wraps, unless the bound is the largest one. -/
theorem spans_of_wraps (hsize : sweep.bytes.length < 2 ^ 64)
    (hbound : sweep.bound.toNat ≠ 2 ^ 64 - 1) (h : ¬sweep.InRange) :
    ∃ window, sweep.spans = .error window ∧ window.stop < window.start := by
  simp only [InRange, not_forall, Nat.not_lt] at h
  obtain ⟨wrapping, hplace, hbyte, hwraps⟩ := h
  fun_induction spans sweep with
  | case1 sweep window hnext =>
    have hends := endsBefore_next hsize hbound hplace hbyte hwraps
    rw [hnext] at hends
    exact ⟨window, rfl, hends⟩
  | case2 sweep after hnext =>
    have hends := endsBefore_next hsize hbound hplace hbyte hwraps
    rw [hnext] at hends
    exact hends.elim
  | case3 sweep span after hnext _ ih =>
    have hends := endsBefore_next hsize hbound hplace hbyte hwraps
    rw [hnext] at hends
    obtain ⟨-, -, -, rfl⟩ := of_next hnext
    obtain ⟨window, hwindow, hreversed⟩ := ih hsize hbound hends hbyte hwraps
    exact ⟨window, by rw [hwindow]; rfl, hreversed⟩

/-! ### Sweeps compared -/

namespace Finds

variable {sweep' : Sweep} {spans spans' : List (Nat × Nat)}

/-- What a sweep finds is determined by the spans that there are. -/
theorem eq_of_iff (h : sweep.Finds spans) (h' : sweep'.Finds spans')
    (hspan : ∀ start stop,
      (sweep.place ≤ start ∧ IsSpan sweep.bound sweep.bytes start stop) ↔
        sweep'.place ≤ start ∧ IsSpan sweep'.bound sweep'.bytes start stop) : spans = spans' :=
  h.sorted.eq_of_mem_iff h'.sorted fun span =>
    (h.mem_iff span.1 span.2).trans ((hspan span.1 span.2).trans (h'.mem_iff span.1 span.2).symm)

/-- A sweep finds no fewer spans, where there are no fewer. -/
theorem sublist (h : sweep.Finds spans) (h' : sweep'.Finds spans')
    (hspan : ∀ start stop, sweep.place ≤ start → IsSpan sweep.bound sweep.bytes start stop →
      sweep'.place ≤ start ∧ IsSpan sweep'.bound sweep'.bytes start stop) :
    spans.Sublist spans' := by
  refine List.sublist_of_subperm_of_pairwise
    (List.subperm_of_subset h.sorted.nodup fun span hmem => ?_) h.sorted h'.sorted
  obtain ⟨hplace, hin⟩ := (h.mem_iff span.1 span.2).1 hmem
  exact (h'.mem_iff span.1 span.2).2 (hspan span.1 span.2 hplace hin)

end Finds

/-! ### Sweeps of texts -/

/-- A window that does not wrap is not that of the largest bound. -/
theorem InRange.bound_ne (h : sweep.InRange) {opening : Nat} (hplace : sweep.place ≤ opening)
    (hbyte : sweep.bytes[opening]? = some openByte) : sweep.bound.toNat ≠ 2 ^ 64 - 1 := by
  have hreach := h opening hplace hbyte
  rw [reach] at hreach
  omega

section Encode

variable {bound bound' : UInt64} {place : Nat} {s : List Char}

/-- The spans of a text, by their places. -/
def places (spans : List (Found (List Char))) : List (Nat × Nat) :=
  spans.map fun span => (span.start, span.stop)

/-- The spans of a text are what a sweep of its bytes finds, as long as no window wraps. -/
theorem InRange.finds_places (h : (ofText s bound place).InRange) :
    (ofText s bound place).Finds (places (spansFrom (windowSize bound) place s)) := by
  constructor
  · rw [places, List.pairwise_map]
    refine (pairwise_spansFrom _ place s).imp_of_mem fun {a b} ha _ hab => ?_
    exact Nat.lt_of_lt_of_le (mem_spansFrom_iff.1 ha).1.start_lt_stop hab
  · intro start stop
    rw [places, List.mem_map]
    constructor
    · rintro ⟨span, hspan, he⟩
      cases he
      obtain ⟨hin, hplace⟩ := mem_spansFrom_iff.1 hspan
      have hne : bound.toNat ≠ 2 ^ 64 - 1 := h.bound_ne hplace hin.opening
      rw [windowSize_of_ne hne] at hin
      exact ⟨hplace, hin.isSpan⟩
    · rintro ⟨hplace, hspan⟩
      have hne : bound.toNat ≠ 2 ^ 64 - 1 := h.bound_ne hplace hspan.opening
      rw [windowSize_of_ne hne]
      obtain ⟨body, hin⟩ := isSpan_encode_iff.1 hspan
      exact ⟨_, mem_spansFrom_iff.2 ⟨hin, hplace⟩, rfl⟩

theorem spans_ofText (hsize : Text.byteSize s < 2 ^ 64) (h : (ofText s bound place).InRange) :
    (ofText s bound place).spans = .ok (places (spansFrom (windowSize bound) place s)) := by
  obtain ⟨spans, hspans, hfinds⟩ := spans_of_inRange (by rwa [ofText, Text.length_encode]) h
  rw [hspans, hfinds.eq_of_iff h.finds_places fun _ _ => Iff.rfl]

/-- With the largest bound a text has no spans. -/
theorem spansFrom_of_bound_eq (hbound : bound.toNat = 2 ^ 64 - 1) :
    spansFrom (windowSize bound) place s = [] := by
  rw [List.eq_nil_iff_forall_not_mem]
  intro span hspan
  obtain ⟨_, _, _, _, _, _, _, hsize⟩ := (mem_spansFrom_iff.1 hspan).1
  rw [windowSize_of_eq hbound] at hsize
  exact Nat.not_lt_zero _ hsize

/-- No window wraps with a smaller bound. -/
theorem InRange.of_le (h : (ofText s bound' place).InRange) (hle : bound.toNat ≤ bound'.toNat) :
    (ofText s bound place).InRange := by
  intro opening hplace hbyte
  have hreach : opening + 1 + max bound'.toNat 1 + 1 < 2 ^ 64 := h opening hplace hbyte
  show opening + 1 + max bound.toNat 1 + 1 < 2 ^ 64
  omega

/-- **A larger bound loses no span.** -/
theorem places_sublist (h : (ofText s bound' place).InRange) (hle : bound.toNat ≤ bound'.toNat) :
    (places (spansFrom (windowSize bound) place s)).Sublist
      (places (spansFrom (windowSize bound') place s)) := by
  have hmax : max bound.toNat 1 ≤ max bound'.toNat 1 := by omega
  refine (h.of_le hle).finds_places.sublist h.finds_places fun start stop hplace hspan => ?_
  exact ⟨hplace, hspan.of_size (Nat.le_trans hspan.size hmax)⟩

/-- **Bounds beyond the length of the text are alike.** -/
theorem places_eq_of_byteSize_le (h : (ofText s bound place).InRange)
    (h' : (ofText s bound' place).InRange) (hle : Text.byteSize s ≤ bound.toNat)
    (hle' : Text.byteSize s ≤ bound'.toNat) :
    places (spansFrom (windowSize bound) place s)
      = places (spansFrom (windowSize bound') place s) := by
  have hlength : ∀ {bound start stop}, IsSpan bound (Text.encode s) start stop →
      stop - start - 2 ≤ Text.byteSize s := by
    intro bound start stop hspan
    have := hspan.stop_le
    rw [Text.length_encode] at this
    omega
  refine h.finds_places.eq_of_iff h'.finds_places fun start stop => and_congr_right fun _ => ?_
  constructor
  · exact fun hspan => hspan.of_size ((hlength hspan).trans (hle'.trans (Nat.le_max_left _ _)))
  · exact fun hspan => hspan.of_size ((hlength hspan).trans (hle.trans (Nat.le_max_left _ _)))

end Encode

/-! ### Requests -/

/-- The sweep after some requests. -/
def after (sweep : Sweep) : List Scanner.Request → Except ReversedWindow Sweep
  | [] => .ok sweep
  | .seek place :: requests => (sweep.seek place).after requests
  | .next :: requests => sweep.next.bind fun found => found.2.after requests

/-- What is found next after so many spans have been asked for. -/
def answer (sweep : Sweep) (n : Nat) : Except ReversedWindow (Option (Nat × Nat)) :=
  (sweep.after (List.replicate n .next)).bind fun sweep => sweep.next.map Prod.fst

/-- A search goes to a later place, also when it finds nothing. -/
theorem exists_seek_of_next {found : Option (Nat × Nat)} {sweep' : Sweep}
    (h : sweep.next = .ok (found, sweep')) :
    ∃ place, sweep.place ≤ place ∧ sweep' = sweep.seek place := by
  fun_induction next sweep with
  | case1 =>
    cases h
    exact ⟨sweep'.place, Nat.le_refl _, rfl⟩
  | case2 => cases h
  | case3 sweep opening hopening _ _ _ _ brace hbrace _ _ ih =>
    have := placeOf?_eq_some hopening
    have := placeOf?_eq_some hbrace
    obtain ⟨place, (hle : brace ≤ place), rfl⟩ := ih h
    exact ⟨place, by omega, rfl⟩
  | case4 sweep opening hopening _ start _ _ _ _ _ ih =>
    have := placeOf?_eq_some hopening
    obtain ⟨place, (hle : start + 1 ≤ place), rfl⟩ := ih h
    exact ⟨place, by omega, rfl⟩
  | case5 sweep opening hopening _ _ _ _ brace hbrace =>
    have := placeOf?_eq_some hopening
    have := placeOf?_eq_some hbrace
    cases h
    exact ⟨brace + 1, by omega, rfl⟩
  | case6 sweep opening hopening =>
    have := placeOf?_eq_some hopening
    cases h
    exact ⟨sweep.bytes.length, by omega, rfl⟩
  | case7 sweep opening hopening _ start _ _ _ _ ih =>
    have := placeOf?_eq_some hopening
    obtain ⟨place, (hle : start ≤ place), rfl⟩ := ih h
    exact ⟨place, by omega, rfl⟩

/-- **The next span** is the first of those that the sweep finds; behind it the others are found. -/
theorem next_of_finds (hsize : sweep.bytes.length < 2 ^ 64) (h : sweep.InRange)
    {spans : List (Nat × Nat)} (hspans : sweep.Finds spans) :
    ∃ place, sweep.place ≤ place ∧ sweep.next = .ok (spans.head?, sweep.seek place) ∧
      (sweep.seek place).Finds spans.tail := by
  obtain ⟨found, sweep', hnext, hfirst⟩ := next_of_inRange hsize h
  obtain ⟨place, hplace, rfl⟩ := exists_seek_of_next hnext
  refine ⟨place, hplace, ?_⟩
  cases found with
  | none =>
    obtain rfl := hspans.eq_of_iff hfirst.finds_nil fun _ _ => Iff.rfl
    have hlater : (sweep.seek place).IsFirst none := fun start stop hstart =>
      hfirst start stop (Nat.le_trans hplace hstart)
    exact ⟨hnext, hlater.finds_nil⟩
  | some span =>
    obtain ⟨first, last⟩ := span
    obtain ⟨-, -, -, hseek⟩ := of_next hnext
    rw [hseek] at hnext ⊢
    obtain ⟨rest, -, hrest⟩ := @spans_of_inRange (sweep.seek last) hsize (hseek ▸ h.seek hplace)
    obtain rfl := hspans.eq_of_iff (hrest.cons hfirst) fun _ _ => Iff.rfl
    exact ⟨hnext, hrest⟩

/-- **The spans are found one after the other**, and then nothing any more. -/
theorem answer_eq (hsize : sweep.bytes.length < 2 ^ 64) (h : sweep.InRange)
    {spans : List (Nat × Nat)} (hspans : sweep.Finds spans) (n : Nat) :
    sweep.answer n = .ok spans[n]? := by
  induction n generalizing sweep spans with
  | zero =>
    obtain ⟨place, -, hnext, -⟩ := next_of_finds hsize h hspans
    rw [← List.head?_eq_getElem?]
    exact congrArg (Except.map Prod.fst) hnext
  | succ n ih =>
    obtain ⟨place, hplace, hnext, hrest⟩ := next_of_finds hsize h hspans
    have hbehind : sweep.answer (n + 1) = (sweep.seek place).answer n := by
      rw [answer, List.replicate_succ, after, hnext]
      rfl
    rw [hbehind, @ih (sweep.seek place) hsize (h.seek hplace) _ hrest, List.getElem?_tail]

/-- Requests change nothing but the place. -/
theorem exists_seek_of_after (hsize : sweep.bytes.length < 2 ^ 64) (h : (sweep.seek 0).InRange)
    (requests : List Scanner.Request) :
    ∃ place, sweep.after requests = .ok (sweep.seek place) := by
  induction requests generalizing sweep with
  | nil => exact ⟨sweep.place, rfl⟩
  | cons request requests ih =>
    cases request with
    | seek place => exact @ih (sweep.seek place) hsize h
    | next =>
      have hrange : sweep.InRange := h.seek (Nat.zero_le sweep.place)
      obtain ⟨found, sweep', hnext, -⟩ := next_of_inRange hsize hrange
      obtain ⟨place, -, rfl⟩ := exists_seek_of_next hnext
      rw [after, hnext]
      exact @ih (sweep.seek place) hsize h

/-- No window wraps in a text that a memory holds, unless the bound is beyond all such texts. -/
theorem inRange_of_lt {bound : UInt64} (hbound : bound.toNat < 2 ^ 63) {s : List Char}
    (hs : Text.byteSize s < 2 ^ 63) (place : Nat) : (ofText s bound place).InRange := by
  intro opening _ hbyte
  have hlt : opening < (Text.encode s).length := (List.getElem?_eq_some_iff.1 hbyte).1
  rw [Text.length_encode] at hlt
  show opening + 1 + max bound.toNat 1 + 1 < 2 ^ 64
  omega

/-- **The spans of a text are found**, whatever has been asked for before. From the place on where
the sweep was sent last it finds, from left to right and each once, the spans that the bytes of the
text hold there, and then nothing any more. A scanner finds the same spans. -/
theorem next_finds {bound : UInt64} (hbound : bound.toNat < 2 ^ 63) (text : List Char)
    (requests : List Scanner.Request) (place : Nat) :
    ∃ spans : List (Found (List Char)),
      (Text.byteSize text < 2 ^ 63 → ∃ sweep,
        (ofText text bound 0).after requests = .ok sweep ∧
          ∀ n, (sweep.seek place).answer n = .ok (places spans)[n]?) ∧
      (∀ n, (((Scanner.mk text (windowSize bound) 0).after Scanner.nextSpan requests).seek
        place).answer Scanner.nextSpan n = spans[n]?) ∧
      spans.Pairwise (fun a b => a.stop ≤ b.start) ∧
      ∀ start stop, (∃ span ∈ spans, span.start = start ∧ span.stop = stop) ↔
        place ≤ start ∧ IsSpan bound (Text.encode text) start stop := by
  refine ⟨spansFrom (windowSize bound) place text, fun htext => ?_, fun n => ?_,
    pairwise_spansFrom _ _ _, fun start stop => ?_⟩
  · have hsize : (Text.encode text).length < 2 ^ 64 := by
      rw [Text.length_encode]
      omega
    have hrange := inRange_of_lt hbound htext
    obtain ⟨place', hafter⟩ :=
      @exists_seek_of_after (ofText text bound 0) hsize (hrange 0) requests
    exact ⟨_, hafter, answer_eq hsize (hrange place) (hrange place).finds_places⟩
  · have hfind : ∀ scanner : Scanner, scanner.nextSpan
        = scanner.behind (spansFrom scanner.window scanner.place scanner.text) := fun _ => rfl
    rw [Scanner.seek_after hfind,
      Scanner.answer_eq hfind fun _ first rest h => @spansFrom_stop _ _ first _ [] rest h]
    rfl
  · rw [isSpan_encode_iff, ← windowSize_eq hbound]
    constructor
    · rintro ⟨span, hspan, rfl, rfl⟩
      obtain ⟨hin, hplace⟩ := mem_spansFrom_iff.1 hspan
      exact ⟨hplace, span.value, hin⟩
    · rintro ⟨hplace, body, hin⟩
      exact ⟨_, mem_spansFrom_iff.2 ⟨hin, hplace⟩, rfl, rfl⟩

/-- Spans between longer characters, behind an empty pair of braces and inside of a doubled one; the
place where the sweep is sent last lies inside of a character. -/
theorem next_finds_multibyte :
    let text := "é\x7bnaïve\x7d\x7b\x7d\x7b\x7bx\x7d\x7d".toList
    let requests : List Scanner.Request := [.next, .seek 12, .next, .next]
    let scanner :=
      ((Scanner.mk text (windowSize 6) 0).after Scanner.nextSpan requests).seek 1
    ((6 : UInt64).toNat < 2 ^ 63 ∧ Text.byteSize text < 2 ^ 63) ∧
      (∃ sweep, (ofText text 6 0).after requests = .ok sweep ∧
        (sweep.seek 1).answer 0 = .ok (some (2, 10)) ∧
        (sweep.seek 1).answer 1 = .ok (some (13, 16)) ∧ (sweep.seek 1).answer 2 = .ok none) ∧
      (scanner.answer Scanner.nextSpan 0 = some ⟨2, 10, "naïve".toList⟩ ∧
        scanner.answer Scanner.nextSpan 1 = some ⟨13, 16, ['x']⟩ ∧
        scanner.answer Scanner.nextSpan 2 = none) ∧
      IsSpan 6 (Text.encode text) 2 10 := by
  intro text requests scanner
  obtain ⟨spans, hsweep, hscanner, -, hspan⟩ :=
    next_finds (show (6 : UInt64).toNat < 2 ^ 63 by decide) text requests 1
  have h0 : scanner.answer Scanner.nextSpan 0 = some ⟨2, 10, "naïve".toList⟩ := by decide +kernel
  have h1 : scanner.answer Scanner.nextSpan 1 = some ⟨13, 16, ['x']⟩ := by decide +kernel
  have h2 : scanner.answer Scanner.nextSpan 2 = none := by decide +kernel
  obtain ⟨sweep, hafter, hanswer⟩ := hsweep (by decide)
  have hfirst : spans[0]? = some ⟨2, 10, "naïve".toList⟩ := (hscanner 0).symm.trans h0
  refine ⟨by decide, ⟨sweep, hafter, ?_, ?_, ?_⟩, ⟨h0, h1, h2⟩,
    ((hspan 2 10).1 ⟨_, List.mem_of_getElem? hfirst, rfl, rfl⟩).2⟩
  · rw [hanswer, places, List.getElem?_map, hfirst]
    rfl
  · rw [hanswer, places, List.getElem?_map, ← hscanner, h1]
    rfl
  · rw [hanswer, places, List.getElem?_map, ← hscanner, h2]
    rfl

end Sweep

end MailMerge
