import MailMerge.Text.Utf8

/-!
# Sweeping the bytes of a text

A sweep looks for brace spans in the bytes of a text as they lie in memory. It goes from one opening
brace to the next and searches a **window** behind each of them for another brace; a window that
reaches the end of the text and has none ends the sweep.

Where a window stops is reckoned in 64-bit words. The sum wraps when the bound on the length of a
span is close to the largest word: the window then stops where it starts, or even before. In the
last case it is **reversed**, and the sweep cannot go on.
-/

namespace MailMerge

/-- The byte of an opening brace. -/
def openByte : UInt8 := 0x7B

/-- The byte of a closing brace. -/
def closeByte : UInt8 := 0x7D

/-- Whether a byte is that of a brace. -/
def isBraceByte (b : UInt8) : Bool :=
  b == openByte || b == closeByte

/-- The first place from `start` on, before `stop`, of a byte that satisfies `p`. -/
def placeOf? (p : UInt8 → Bool) (start stop : Nat) (bytes : List UInt8) : Option Nat :=
  (((bytes.take stop).drop start).findIdx? p).map (start + ·)

theorem placeOf?_eq_some {p : UInt8 → Bool} {start stop place : Nat} {bytes : List UInt8}
    (h : placeOf? p start stop bytes = some place) :
    start ≤ place ∧ place < stop ∧ (∃ b, bytes[place]? = some b ∧ p b = true) ∧
      ∀ k, start ≤ k → k < place → ∀ b, bytes[k]? = some b → p b = false := by
  obtain ⟨offset, hoffset, rfl⟩ := Option.map_eq_some_iff.1 h
  obtain ⟨hlt, hp, hbefore⟩ := List.findIdx?_eq_some_iff_getElem.1 hoffset
  rw [List.length_drop, List.length_take] at hlt
  rw [List.getElem_drop, List.getElem_take] at hp
  refine ⟨Nat.le_add_right _ _, by omega, ⟨_, List.getElem?_eq_getElem _, hp⟩, ?_⟩
  intro k hstart hk b hb
  obtain ⟨i, rfl⟩ := Nat.exists_eq_add_of_le hstart
  have hi := hbefore i (by omega)
  rw [List.getElem_drop, List.getElem_take, Bool.not_eq_true] at hi
  rw [List.getElem?_eq_getElem (by omega), Option.some.injEq] at hb
  rwa [← hb]

theorem placeOf?_eq_none {p : UInt8 → Bool} {start stop : Nat} {bytes : List UInt8}
    (h : placeOf? p start stop bytes = none) {k : Nat} (hstart : start ≤ k) (hstop : k < stop)
    {b : UInt8} (hb : bytes[k]? = some b) : p b = false := by
  rw [placeOf?, Option.map_eq_none_iff, List.findIdx?_eq_none_iff] at h
  refine h b (List.mem_of_getElem? (i := k - start) ?_)
  rw [List.getElem?_drop, Nat.add_sub_cancel' hstart, List.getElem?_take_of_lt hstop, hb]

/-- A place in the bytes of a text, from which spans are looked for. -/
structure Sweep where
  bytes : List UInt8
  /-- The largest number of bytes between the braces of a span; zero counts as one. -/
  bound : UInt64
  place : Nat
  deriving Repr

/-- A window that stops before it starts. -/
structure ReversedWindow where
  start : Nat
  stop : Nat
  deriving DecidableEq, Repr

namespace Sweep

/-- The sweep of a text from a place on. -/
def ofText (s : List Char) (bound : UInt64) (place : Nat) : Sweep :=
  ⟨Text.encode s, bound, place⟩

/-- The same sweep at another place. -/
def seek (sweep : Sweep) (place : Nat) : Sweep :=
  { sweep with place }

/-- Where the window behind an opening brace stops that starts at `start`. The window has a byte
more than the bound, so that a closing brace right behind a text of that length is still seen. -/
def windowStop (sweep : Sweep) (start : Nat) : Nat :=
  (min (.ofNat start + max sweep.bound 1 + 1) (.ofNat sweep.bytes.length) : UInt64).toNat

/-- The next brace span, by the places where it starts and stops, and the sweep behind it. -/
def next (sweep : Sweep) : Except ReversedWindow (Option (Nat × Nat) × Sweep) :=
  match hopening : placeOf? (· == openByte) sweep.place sweep.bytes.length sweep.bytes with
  | none => .ok (none, sweep)
  | some opening =>
    have := placeOf?_eq_some hopening
    let start := opening + 1
    let stop := sweep.windowStop start
    if stop < start then .error ⟨start, stop⟩
    else
      match hbrace : placeOf? isBraceByte start stop sweep.bytes with
      | some brace =>
        have := placeOf?_eq_some hbrace
        if sweep.bytes[brace]? = some openByte then next (sweep.seek brace)
        else if brace = start then next (sweep.seek (brace + 1))
        else .ok (some (opening, brace + 1), sweep.seek (brace + 1))
      | none =>
        if stop = sweep.bytes.length then .ok (none, sweep.seek sweep.bytes.length)
        else next (sweep.seek start)
termination_by sweep.bytes.length - sweep.place
decreasing_by
  all_goals
    simp only [seek]
    omega

/-- A span that is found lies behind the place, and the sweep goes on behind the span. -/
theorem of_next {sweep after : Sweep} {start stop : Nat}
    (h : sweep.next = .ok (some (start, stop), after)) :
    sweep.place ≤ start ∧ start < stop ∧ stop ≤ sweep.bytes.length ∧ after = sweep.seek stop := by
  -- wherever the search goes on, it is behind the place
  have later : ∀ {sweep : Sweep} {place : Nat}, sweep.place ≤ place →
      (sweep.seek place).place ≤ start ∧ start < stop ∧ stop ≤ sweep.bytes.length ∧
        after = (sweep.seek place).seek stop →
      sweep.place ≤ start ∧ start < stop ∧ stop ≤ sweep.bytes.length ∧ after = sweep.seek stop :=
    fun hplace h => ⟨Nat.le_trans hplace h.1, h.2⟩
  fun_induction next sweep with
  | case1 => cases h
  | case2 => cases h
  | case3 sweep opening _ _ _ _ _ brace _ _ _ ih => exact later (by omega) (ih h)
  | case4 sweep opening _ _ _ _ _ _ _ _ ih => exact later (by omega) (ih h)
  | case5 sweep opening _ _ _ _ _ brace _ hbrace =>
    obtain ⟨hstart, -, ⟨b, hb, -⟩, -⟩ := hbrace
    have := (List.getElem?_eq_some_iff.1 hb).1
    cases h
    exact ⟨by omega, by omega, by omega, rfl⟩
  | case6 => cases h
  | case7 sweep opening _ _ _ _ _ _ _ ih => exact later (by omega) (ih h)

/-- The brace spans from the place of a sweep on, by the places where they start and stop. -/
def spans (sweep : Sweep) : Except ReversedWindow (List (Nat × Nat)) :=
  match h : sweep.next with
  | .error window => .error window
  | .ok (none, _) => .ok []
  | .ok (some span, after) =>
    have := of_next h
    after.spans.map (span :: ·)
termination_by sweep.bytes.length - sweep.place
decreasing_by
  obtain ⟨hplace, hlt, hle, rfl⟩ := this
  simp only [seek]
  omega

end Sweep

end MailMerge
