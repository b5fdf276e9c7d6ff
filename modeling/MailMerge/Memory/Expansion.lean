import MailMerge.Expansion.Template
import MailMerge.Memory.Markup
import MailMerge.Memory.Scanner

/-!
# Expansion in memory

Each pass scans a text from tag to tag. A `cursor` stands behind what has been dealt with: when
something comes in place of a tag, or of all from a tag up to a place behind it, the text between
the cursor and the tag is cut out, and the scan goes on from the place behind (`passFrom`). What
comes of a tag is looked up by its place, since bodies and branches are cut out of the same text.

The table pass edits its text in place. A round replaces a row, or removes a mark, and the next one
scans the new text from the place behind (`tableRound`).
-/

namespace MailMerge.Memory

/-! ### Passes -/

/-- What comes of a tag. -/
inductive Outcome (tag : Found Tag) where
  /-- The tag stays as it is, and something is noted. -/
  | keep (notes : List Warning)
  /-- Something comes in place of all from the tag up to a place behind it. -/
  | put (e : Expansion) (stop : Nat) (le : tag.stop ≤ stop)

/-- What comes of a text from the cursor on when each tag that the sweep finds has an outcome;
`placed` pictures come before. -/
def passFrom (outcome : Nat → (tag : Found Tag) → Except Fault (Outcome tag)) (s : List Char)
    (placed cursor : Nat) (sweep : Sweep) : Except Fault Expansion :=
  match h : nextTag s sweep with
  | .error fault => .error fault
  | .ok (none, _) => (sliceFrom cursor s).map .literal
  | .ok (some tag, after) =>
    have := of_nextTag h
    match outcome placed tag with
    | .error fault => .error fault
    | .ok (.keep notes) =>
      (passFrom outcome s placed cursor after).map ({ warnings := notes } ++ ·)
    | .ok (.put e stop _) => do
      let front ← slice cursor tag.start s
      let rest ← passFrom outcome s (placed + e.images.length) stop (after.seek stop)
      return .literal front ++ (e ++ rest)
termination_by sweep.bytes.length - sweep.place
decreasing_by
  all_goals
    obtain ⟨hplace, hlt, hle, rfl⟩ := this
    simp only [Sweep.seek]
    omega

/-- What comes of a text when each of its tags has an outcome. -/
def pass (bound : UInt64) (outcome : Nat → (tag : Found Tag) → Except Fault (Outcome tag))
    (s : List Char) : Except Fault Expansion :=
  passFrom outcome s 0 0 (Sweep.ofText s bound 0)

/-! ### Repetition -/

/-- What comes of a text for one item. -/
def expandFields (options : Options) (of : Repetition) (owner : String) (item : Value)
    (s : List Char) : Except Fault Expansion :=
  pass options.maxTokenLength
    (fun _ tag =>
      let replaced := Outcome.put (expandField options of owner item (.tag tag.value)) tag.stop
        (Nat.le_refl _)
      match tag.value with
      | .simple _ => .ok replaced
      | .table _ => .ok (if of = .table then replaced else .keep [])
      | _ => .ok (.keep []))
    s

/-- What comes of a text that is repeated for the list under a name, with the counts for it. -/
def expandItems (data : DataTree) (options : Options) (of : Repetition) (name : String)
    (counts : Stats) (s : List Char) : Except Fault Expansion :=
  match listFor data of name with
  | .error w => .ok (.warning w)
  | .ok items => do
    let copies ← (items.filter fun item => !item.isNull).mapM fun item =>
      expandFields options of name item s
    return { stats := counts } ++ .join copies

/-! ### Loops -/

/-- What comes of the opening tag of a loop. -/
def loopOutcome (data : DataTree) (options : Options) (s : List Char) (name : String)
    (tag : Found Tag) : Except Fault (Outcome tag) :=
  match h : findClose name s (Sweep.ofText s options.maxTokenLength tag.stop) with
  | .error fault => .error fault
  | .ok none => .ok (.keep [.unclosedLoop name])
  | .ok (some closing) => do
    let body ← slice tag.stop closing.start s
    let e ← expandItems data options .loop name { loops := 1 } body
    return .put e closing.stop
      (Nat.le_trans (of_findClose h).1 (Nat.le_of_lt (of_findClose h).2.1))

/-- What comes of a text when its loops are resolved. -/
def expandLoops (data : DataTree) (options : Options) (s : List Char) : Except Fault Expansion :=
  pass options.maxTokenLength
    (fun _ tag =>
      match tag.value with
      | .loopOpen name => loopOutcome data options s name tag
      | _ => .ok (.keep []))
    s

/-! ### Conditionals -/

/-- The branch of a conditional that is chosen. -/
def branch (holds : Bool) (opening : Found Tag) (parting : Option (Found Tag))
    (closing : Found Tag) (s : List Char) : Except Fault (List Char) :=
  match holds, parting with
  | true, some parting => slice opening.stop parting.start s
  | true, none => slice opening.stop closing.start s
  | false, some parting => slice parting.stop closing.start s
  | false, none => .ok []

theorem byteSize_lt_of_branch {holds : Bool} {opening closing : Found Tag}
    {parting : Option (Found Tag)} {s r : List Char}
    (h : branch holds opening parting closing s = .ok r)
    (hparting : ∀ p ∈ parting, p.start < Text.byteSize s)
    (hclosing : closing.start < Text.byteSize s) : Text.byteSize r < Text.byteSize s := by
  have hslice {start stop : Nat} (h : slice start stop s = .ok r) (hstop : stop < Text.byteSize s) :
      Text.byteSize r < Text.byteSize s := by
    obtain ⟨a, c, -, -, rfl⟩ := of_slice h
    omega
  unfold branch at h
  split at h
  · exact hslice h (hparting _ rfl)
  · exact hslice h hclosing
  · exact hslice h hclosing
  · cases h
    exact Nat.zero_lt_of_lt hclosing

/-- What comes of the opening tag of a conditional, when a shorter text is resolved by `resolve`. -/
def conditionalOutcome (data : DataTree) (options : Options) (s : List Char)
    (resolve : (r : List Char) → Text.byteSize r < Text.byteSize s → Except Fault Expansion)
    (name : String) (tag : Found Tag) : Except Fault (Outcome tag) :=
  match h : findBranches name s [] none (Sweep.ofText s options.maxTokenLength tag.stop) with
  | .error fault => .error fault
  | .ok none => .ok (.keep [.unclosedConditional name])
  | .ok (some (parting, closing)) =>
    have hfound := of_findBranches h fun p hp => absurd hp (Option.not_mem_none p)
    match hbranch : branch (holds data name) tag parting closing s with
    | .error fault => .error fault
    | .ok chosen =>
      have hlt : Text.byteSize chosen < Text.byteSize s := by
        rw [Sweep.length_bytes_ofText] at hfound
        exact byteSize_lt_of_branch hbranch hfound.1
          (Nat.lt_of_lt_of_le hfound.2.2.1 hfound.2.2.2)
      (resolve chosen hlt).map fun e =>
        .put ({ stats := { conditionals := 1 } } ++ e) closing.stop
          (Nat.le_trans hfound.2.1 (Nat.le_of_lt hfound.2.2.1))

/-- What comes of a text when its conditionals are resolved. -/
def expandConditionals (data : DataTree) (options : Options) (s : List Char) :
    Except Fault Expansion :=
  pass options.maxTokenLength
    (fun _ tag =>
      match tag.value with
      | .condOpen name =>
        conditionalOutcome data options s (fun r _ => expandConditionals data options r) name tag
      | _ => .ok (.keep []))
    s
termination_by Text.byteSize s

/-! ### Table rows -/

/-- The row around a mark that starts and stops at the given places. -/
def rowAround (start stop : Nat) (bytes : List UInt8) : Except Fault (Option Stretch) := do
  let rowStart ← rowStart start bytes
  let rowStop ← rowStop stop bytes
  match rowStart, rowStop with
  | some start, some stop => return some ⟨start, stop⟩
  | _, _ => return none

/-- Resolves the first mark of a row that starts at a place or behind: what is noted about it, the
text afterwards, and the place behind what comes of it. -/
def tableRound (data : DataTree) (options : Options) (s : List Char) (place : Nat) :
    Except Fault (Option (Expansion × List Char × Nat)) := do
  match ← findMark s (Sweep.ofText s options.maxTokenLength place) with
  | none => return none
  | some mark =>
    match ← rowAround mark.start mark.stop (Text.encode s) with
    | none =>
      let s' ← replace mark.start mark.stop [] s
      return some (.warning (.outsideRow mark.value), s', mark.start)
    | some row =>
      let text ← slice row.start row.stop s
      let e ← expandItems data options .table mark.value { tables := 1 } text
      let s' ← replace row.start row.stop e.text s
      return some (e.withoutText, s', row.start + Text.byteSize e.text)

theorem le_of_mem_placesOf {p bytes : List UInt8} {start place : Nat}
    (h : place ∈ placesOf p start bytes) : start ≤ place := by
  induction bytes generalizing start with
  | nil => cases h
  | cons b bytes ih =>
    rw [placesOf] at h
    split at h
    · rcases List.mem_cons.1 h with rfl | h
      · exact Nat.le_refl _
      · exact Nat.le_of_succ_le (ih h)
    · exact Nat.le_of_succ_le (ih h)

theorem lt_of_rowTag? {place stop : Nat} {bytes : List UInt8}
    (h : rowTag? place bytes = .ok (some (.closes stop))) : place < stop := by
  rw [rowTag?] at h
  split at h
  · obtain ⟨angle?, hangle, h⟩ := bind_eq_ok.1 h
    cases angle? with
    | none => cases h
    | some angle =>
      obtain ⟨second, -, h⟩ := bind_eq_ok.1 h
      obtain ⟨first, -, h⟩ := bind_eq_ok.1 h
      split at h
      · cases h
        exact Nat.lt_succ_of_le (of_findFrom hangle).1
      split at h
      · obtain ⟨last, -, h⟩ := bind_eq_ok.1 h
        split at h
        · cases h
        · obtain ⟨start, -, h⟩ := bind_eq_ok.1 h
          cases h
      · cases h
  · cases h

theorem le_of_unmatchedClosing? {bytes : List UInt8} {depth stop place : Nat} {places : List Nat}
    (h : unmatchedClosing? bytes depth places = .ok (some stop))
    (hplaces : ∀ p ∈ places, place ≤ p) : place ≤ stop := by
  induction places generalizing depth with
  | nil => cases h
  | cons p places ih =>
    obtain ⟨hp, hplaces⟩ := List.forall_mem_cons.1 hplaces
    obtain ⟨tag?, htag, h⟩ := bind_eq_ok.1 h
    cases tag? with
    | none => exact ih h hplaces
    | some tag =>
      cases tag with
      | opens start => exact ih h hplaces
      | closes stop' =>
        dsimp only at h
        split at h
        · cases h
          exact Nat.le_trans hp (Nat.le_of_lt (lt_of_rowTag? htag))
        · obtain ⟨depth', -, h⟩ := bind_eq_ok.1 h
          exact ih h hplaces

/-- The row around a mark stops behind the mark. -/
theorem le_of_rowAround {start stop : Nat} {bytes : List UInt8} {row : Stretch}
    (h : rowAround start stop bytes = .ok (some row)) : stop ≤ row.stop := by
  obtain ⟨rowStart?, -, h⟩ := bind_eq_ok.1 h
  obtain ⟨rowStop?, hstop, h⟩ := bind_eq_ok.1 h
  obtain ⟨rest, -, hstop⟩ := bind_eq_ok.1 hstop
  cases rowStart? with
  | none => cases h
  | some rowStart =>
    cases rowStop? with
    | none => cases h
    | some rowStop =>
      cases h
      exact le_of_unmatchedClosing? hstop fun p hp => le_of_mem_placesOf hp

/-- A round leaves less text to be scanned. -/
theorem lt_of_tableRound {data : DataTree} {options : Options} {s s' : List Char}
    {place place' : Nat} {note : Expansion}
    (h : tableRound data options s place = .ok (some (note, s', place'))) :
    Text.byteSize s' - place' < Text.byteSize s - place := by
  obtain ⟨mark?, hmark, h⟩ := bind_eq_ok.1 h
  cases mark? with
  | none => cases h
  | some mark =>
    obtain ⟨hplace, hlt, hle⟩ := of_findMark hmark
    rw [Sweep.length_bytes_ofText] at hle
    have hplace : place ≤ mark.start := hplace
    obtain ⟨row?, hrow, h⟩ := bind_eq_ok.1 h
    cases row? with
    | none =>
      obtain ⟨r, hr, h⟩ := bind_eq_ok.1 h
      cases h
      obtain ⟨a, b, c, rfl, ha, hb, rfl⟩ := of_replace hr
      simp only [Text.byteSize_append, Text.byteSize_nil] at *
      omega
    | some row =>
      have hstop := le_of_rowAround hrow
      obtain ⟨text, -, h⟩ := bind_eq_ok.1 h
      obtain ⟨e, -, h⟩ := bind_eq_ok.1 h
      obtain ⟨r, hr, h⟩ := bind_eq_ok.1 h
      cases h
      obtain ⟨a, b, c, rfl, ha, hb, rfl⟩ := of_replace hr
      simp only [Text.byteSize_append] at *
      omega

/-- What comes of a text when the rows of the marks are resolved that start at a place or behind. -/
def expandTablesFrom (data : DataTree) (options : Options) (s : List Char) (place : Nat) :
    Except Fault Expansion :=
  match h : tableRound data options s place with
  | .error fault => .error fault
  | .ok none => .ok (.literal s)
  | .ok (some (note, s', place')) =>
    have := lt_of_tableRound h
    (expandTablesFrom data options s' place').map (note ++ ·)
termination_by Text.byteSize s - place

/-- What comes of a text when its marked table rows are resolved. -/
def expandTables (data : DataTree) (options : Options) (s : List Char) : Except Fault Expansion :=
  expandTablesFrom data options s 0

/-! ### Placeholders -/

/-- What comes of a text when its placeholders are resolved. -/
def expandPlaceholders (data : DataTree) (options : Options) (s : List Char) :
    Except Fault Expansion :=
  pass options.maxTokenLength
    (fun placed tag =>
      match tag.value with
      | .simple name =>
        .ok (.put (expandPlaceholder data options placed name) tag.stop (Nat.le_refl _))
      | _ => .ok (.keep []))
    s

/-- What comes of a template. -/
def expand (data : DataTree) (options : Options) (template : List Char) :
    Except Fault Expansion := do
  let looped ← expandLoops data options template
  let decided ← expandConditionals data options looped.text
  let tabled ← expandTables data options decided.text
  let filled ← expandPlaceholders data options tabled.text
  return looped.withoutText ++ decided.withoutText ++ tabled.withoutText ++ filled

end MailMerge.Memory
