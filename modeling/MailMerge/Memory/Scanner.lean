import MailMerge.Expansion.Conditional
import MailMerge.Memory.Text
import MailMerge.Template.Scanner
import MailMerge.Template.Sweep

/-!
# Scanning in memory

A sweep finds brace spans by their places. What stands between the braces is cut out of the text and
is a tag or not; a scan skips the spans that are none. Each tag that is found lies in the text
behind the place of the sweep, and the sweep goes on behind the tag (`of_nextTag`).
-/

namespace MailMerge

@[simp]
theorem Sweep.length_bytes_ofText (s : List Char) (bound : UInt64) (place : Nat) :
    (ofText s bound place).bytes.length = Text.byteSize s :=
  Text.length_encode s

namespace Memory

/-- What comes of a sweep, which fails where a window is reversed. -/
def ofSweep {α : Type} : Except ReversedWindow α → Except Fault α
  | .error window => .error (.reversed window.start window.stop)
  | .ok a => .ok a

/-- Reads a tag from the text between its braces. -/
def readTag (inner : List Char) : Except Fault (Option Tag) :=
  let named (make : String → Tag) := (sliceFrom 1 inner).map fun name => (Tag.name? name).map make
  match (Text.encode inner).head? with
  | none => .ok none
  | some b =>
    if b = '#'.toUInt8 then named .loopOpen
    else if b = '?'.toUInt8 then named .condOpen
    else if b = '/'.toUInt8 then named .close
    else if b = ':'.toUInt8 then .ok (if inner = ":else".toList then some .otherwise else none)
    else
      match Text.after? Tag.tableWord inner with
      | some name => .ok ((Tag.name? name).map .table)
      | none => .ok ((Tag.name? inner).map .simple)

/-- The next tag of a text, and the sweep behind it. -/
def nextTag (s : List Char) (sweep : Sweep) : Except Fault (Option (Found Tag) × Sweep) :=
  match h : sweep.next with
  | .error window => .error (.reversed window.start window.stop)
  | .ok (none, after) => .ok (none, after)
  | .ok (some (start, stop), after) => do
    have := Sweep.of_next h
    let inner ← slice (start + 1) (← sub stop 1) s
    match ← readTag inner with
    | some tag => return (some ⟨start, stop, tag⟩, after)
    | none => nextTag s after
termination_by sweep.bytes.length - sweep.place
decreasing_by
  obtain ⟨hplace, hlt, hle, rfl⟩ := this
  simp only [Sweep.seek]
  omega

/-- A tag that is found lies behind the place, and the scan goes on behind the tag. -/
theorem of_nextTag {s : List Char} {sweep after : Sweep} {tag : Found Tag}
    (h : nextTag s sweep = .ok (some tag, after)) :
    sweep.place ≤ tag.start ∧ tag.start < tag.stop ∧ tag.stop ≤ sweep.bytes.length ∧
      after = sweep.seek tag.stop := by
  fun_induction nextTag s sweep with
  | case1 => cases h
  | case2 => cases h
  | case3 sweep start stop behind hnext this ih =>
    obtain ⟨last, -, h⟩ := bind_eq_ok.1 h
    obtain ⟨inner, -, h⟩ := bind_eq_ok.1 h
    obtain ⟨tag?, -, h⟩ := bind_eq_ok.1 h
    cases tag? with
    | some t =>
      cases h
      exact this
    | none =>
      obtain ⟨hplace, hlt, hle, rfl⟩ := this
      obtain ⟨hplace', hlt', hle', hafter⟩ := ih h
      have hbehind : stop ≤ tag.start := hplace'
      exact ⟨by omega, hlt', hle', hafter⟩

/-! ### Searches for tags -/

/-- The nearest closing tag of a name. -/
def findClose (name : String) (s : List Char) (sweep : Sweep) :
    Except Fault (Option (Found Tag)) :=
  match h : nextTag s sweep with
  | .error fault => .error fault
  | .ok (none, _) => .ok none
  | .ok (some tag, after) =>
    have := of_nextTag h
    if tag.value = .close name then .ok (some tag) else findClose name s after
termination_by sweep.bytes.length - sweep.place
decreasing_by
  obtain ⟨hplace, hlt, hle, rfl⟩ := this
  simp only [Sweep.seek]
  omega

theorem of_findClose {name : String} {s : List Char} {sweep : Sweep} {tag : Found Tag}
    (h : findClose name s sweep = .ok (some tag)) :
    sweep.place ≤ tag.start ∧ tag.start < tag.stop ∧ tag.stop ≤ sweep.bytes.length := by
  fun_induction findClose name s sweep with
  | case1 => cases h
  | case2 => cases h
  | case3 sweep found after hnext this hclose =>
    cases h
    exact ⟨this.1, this.2.1, this.2.2.1⟩
  | case4 sweep found after hnext this hclose ih =>
    obtain ⟨hplace, hlt, hle, rfl⟩ := this
    obtain ⟨hplace', hlt', hle'⟩ := ih h
    have hbehind : found.stop ≤ tag.start := hplace'
    exact ⟨by omega, hlt', hle'⟩

/-- The tag that parts a conditional, if there is one, and the closing tag of its name. The names in
`opened` are those of the conditionals that are open, the innermost first; `parting` is what has
been found of the first. -/
def findBranches (name : String) (s : List Char) (opened : List String)
    (parting : Option (Found Tag)) (sweep : Sweep) :
    Except Fault (Option (Option (Found Tag) × Found Tag)) :=
  match h : nextTag s sweep with
  | .error fault => .error fault
  | .ok (none, _) => .ok none
  | .ok (some tag, after) =>
    have := of_nextTag h
    if tag.value = .close name then .ok (some (parting, tag))
    else if tag.value = .otherwise ∧ opened = [] ∧ parting = none then
      findBranches name s opened (some tag) after
    else findBranches name s (nest opened (.tag tag.value)) parting after
termination_by sweep.bytes.length - sweep.place
decreasing_by
  all_goals
    obtain ⟨hplace, hlt, hle, rfl⟩ := this
    simp only [Sweep.seek]
    omega

theorem of_findBranches {name : String} {s : List Char} {opened : List String}
    {parting parting' : Option (Found Tag)} {sweep : Sweep} {tag : Found Tag}
    (h : findBranches name s opened parting sweep = .ok (some (parting', tag)))
    (hparting : ∀ p ∈ parting, p.start < sweep.bytes.length) :
    (∀ p ∈ parting', p.start < sweep.bytes.length) ∧ sweep.place ≤ tag.start ∧
      tag.start < tag.stop ∧ tag.stop ≤ sweep.bytes.length := by
  fun_induction findBranches name s opened parting sweep with
  | case1 => cases h
  | case2 => cases h
  | case3 opened parting sweep found after hnext this =>
    cases h
    exact ⟨hparting, this.1, this.2.1, this.2.2.1⟩
  | case4 opened parting sweep found after hnext this hclose hfirst ih =>
    obtain ⟨hplace, hlt, hle, rfl⟩ := this
    have hfound : ∀ p ∈ some found, p.start < sweep.bytes.length := by
      rintro p hp
      cases hp
      exact Nat.lt_of_lt_of_le hlt hle
    obtain ⟨hparting', hplace', hlt', hle'⟩ := ih h hfound
    have hbehind : found.stop ≤ tag.start := hplace'
    exact ⟨hparting', by omega, hlt', hle'⟩
  | case5 opened parting sweep found after hnext this hclose hother ih =>
    obtain ⟨hplace, hlt, hle, rfl⟩ := this
    obtain ⟨hparting', hplace', hlt', hle'⟩ := ih h hparting
    have hbehind : found.stop ≤ tag.start := hplace'
    exact ⟨hparting', by omega, hlt', hle'⟩

/-- The next mark of a table row, with the name in it. -/
def findMark (s : List Char) (sweep : Sweep) : Except Fault (Option (Found String)) :=
  match h : nextTag s sweep with
  | .error fault => .error fault
  | .ok (none, _) => .ok none
  | .ok (some tag, after) =>
    have := of_nextTag h
    match tag.value with
    | .table name => .ok (some ⟨tag.start, tag.stop, name⟩)
    | _ => findMark s after
termination_by sweep.bytes.length - sweep.place
decreasing_by
  obtain ⟨hplace, hlt, hle, rfl⟩ := this
  simp only [Sweep.seek]
  omega

theorem of_findMark {s : List Char} {sweep : Sweep} {mark : Found String}
    (h : findMark s sweep = .ok (some mark)) :
    sweep.place ≤ mark.start ∧ mark.start < mark.stop ∧ mark.stop ≤ sweep.bytes.length := by
  fun_induction findMark s sweep with
  | case1 => cases h
  | case2 => cases h
  | case3 sweep found after hnext this =>
    cases h
    exact ⟨this.1, this.2.1, this.2.2.1⟩
  | case4 sweep found after hnext this hmark ih =>
    obtain ⟨hplace, hlt, hle, rfl⟩ := this
    obtain ⟨hplace', hlt', hle'⟩ := ih h
    have hbehind : found.stop ≤ mark.start := hplace'
    exact ⟨by omega, hlt', hle'⟩

end Memory

end MailMerge
