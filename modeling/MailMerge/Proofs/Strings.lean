import MailMerge.Expansion.Repeat
import MailMerge.Proofs.Tokens

/-!
# The characters that data put into a text

What a placeholder puts into a text is the text of a scalar. When no string of the data holds a
brace, no such text does (`braceFree_of_scalarText?`), so it cannot become part of a tag; when
texts are escaped, none holds an angle bracket (`angleFree_of_scalarText?`), so it cannot become
part of markup.

`Value.HasString` says that a string stands somewhere in a value, at any depth.
-/

namespace MailMerge

/-! ### Strings in data -/

/-- A string stands somewhere in a value. -/
inductive Value.HasString (s : String) : Value → Prop where
  | here : HasString s (.string s)
  | item {items : List Value} {v : Value} (hv : v ∈ items) (h : HasString s v) :
    HasString s (.list items)
  | field {fields : Fields Value} {key : String} {v : Value} (hv : (key, v) ∈ fields.entries)
    (h : HasString s v) : HasString s (.map fields)

/-- No string in a value holds a brace. -/
def Value.BraceFree (v : Value) : Prop :=
  ∀ s : String, v.HasString s → MailMerge.BraceFree s.toList

/-- No string in the data holds a brace. -/
def DataTree.BraceFree (data : DataTree) : Prop :=
  Value.BraceFree (.map data)

theorem Fields.mem_of_get? {α : Type} {fields : Fields α} {key : String} {v : α}
    (h : fields.get? key = some v) : (key, v) ∈ fields.entries := by
  obtain ⟨⟨k, w⟩, hf, rfl⟩ := Option.map_eq_some_iff.1 h
  have hk : k = key := by simpa using List.find?_some hf
  subst hk
  exact List.mem_of_find?_eq_some hf

namespace Value

theorem braceFree_string {s : String} :
    BraceFree (.string s) ↔ MailMerge.BraceFree s.toList := by
  constructor
  · exact fun h => h s .here
  · rintro h t ⟨⟩
    exact h

theorem braceFree_list {items : List Value} :
    BraceFree (.list items) ↔ ∀ v ∈ items, v.BraceFree := by
  constructor
  · exact fun h v hv s hs => h s (.item hv hs)
  · rintro h s (_ | ⟨hv, hs⟩)
    exact h _ hv s hs

theorem braceFree_map {fields : Fields Value} :
    BraceFree (.map fields) ↔ ∀ field ∈ fields.entries, BraceFree field.2 := by
  constructor
  · exact fun h field hv s hs => h s (.field hv hs)
  · rintro h s (_ | _ | ⟨hv, hs⟩)
    exact h _ hv s hs

theorem braceFree_null : BraceFree .null := nofun

theorem braceFree_bool {b : Bool} : BraceFree (.bool b) := nofun

end Value

namespace Value.BraceFree

theorem of_get? {fields : Fields Value} (h : BraceFree (.map fields)) {key : String} {v : Value}
    (hv : fields.get? key = some v) : v.BraceFree :=
  fun s hs => h s (.field (Fields.mem_of_get? hv) hs)

theorem of_mem {items : List Value} (h : BraceFree (.list items)) {v : Value} (hv : v ∈ items) :
    v.BraceFree :=
  fun s hs => h s (.item hv hs)

theorem of_field? {v w : Value} (h : v.BraceFree) {name : String} (hw : v.field? name = some w) :
    w.BraceFree := by
  cases v with
  | map fields => exact of_get? h hw
  | _ => cases hw

end Value.BraceFree

/-! ### The text of a number -/

/-- Characters that the text of a number is made of. -/
def isNumeric (c : Char) : Bool :=
  c.isAlphanum || c == '.' || c == '-'

theorem isNumeric_decimalDigits {n : Nat} : ∀ c ∈ decimalDigits n, isNumeric c = true := by
  intro c hc
  have hd : c.isDigit = true := Nat.isDigit_of_mem_toDigits (by omega) (by omega) hc
  simp [isNumeric, Char.isAlphanum, hd]

theorem isNumeric_integerText {n : Int} : ∀ c ∈ integerText n, isNumeric c = true := by
  intro c hc
  unfold integerText at hc
  split at hc
  · rcases List.mem_cons.1 hc with rfl | hc
    · decide
    · exact isNumeric_decimalDigits c hc
  · exact isNumeric_decimalDigits c hc

theorem isNumeric_replicate {n : Nat} : ∀ c ∈ List.replicate n '0', isNumeric c = true := by
  intro c hc
  rw [List.eq_of_mem_replicate hc]
  decide

theorem isNumeric_decimalText (d : Decimal) : ∀ c ∈ d.text, isNumeric c = true := by
  have hdigits := isNumeric_decimalDigits (n := d.digits)
  have htake : ∀ k, ∀ c ∈ (decimalDigits d.digits).take k, isNumeric c = true :=
    fun k c hc => hdigits c (List.mem_of_mem_take hc)
  have hdrop : ∀ k, ∀ c ∈ (decimalDigits d.digits).drop k, isNumeric c = true :=
    fun k c hc => hdigits c (List.mem_of_mem_drop hc)
  unfold Decimal.text
  dsimp only
  split
  · simp only [List.forall_mem_append]
    exact ⟨⟨hdigits, isNumeric_replicate⟩, by decide⟩
  split
  · simp only [List.forall_mem_append, List.forall_mem_cons]
    exact ⟨htake _, by decide, hdrop _⟩
  split
  · simp only [List.forall_mem_append]
    exact ⟨⟨by decide, isNumeric_replicate⟩, hdigits⟩
  · simp only [List.forall_mem_append, List.forall_mem_cons]
    refine ⟨⟨htake _, ?_⟩, by decide, isNumeric_integerText⟩
    split
    · simp
    · simp only [List.forall_mem_cons]
      exact ⟨by decide, hdrop _⟩

theorem isNumeric_numberText (x : Float) : ∀ c ∈ numberText x, isNumeric c = true := by
  have hsigned : ∀ (negative : Bool) (s : List Char), (∀ c ∈ s, isNumeric c = true) →
      ∀ c ∈ if negative then '-' :: s else s, isNumeric c = true := by
    intro negative s hs
    split
    · simp only [List.forall_mem_cons]
      exact ⟨by decide, hs⟩
    · exact hs
  unfold numberText
  split
  · decide
  · split <;> decide
  · next negative significand exponent _ =>
    dsimp only
    cases (whole? significand exponent).filter (· < wholeBound) with
    | none => exact hsigned _ _ (isNumeric_decimalText _)
    | some n =>
      cases n with
      | zero => exact (by decide : ∀ c ∈ ['0'], isNumeric c = true)
      | succ n => exact hsigned _ _ isNumeric_decimalDigits

theorem isBrace_of_isNumeric {c : Char} (h : isNumeric c = true) : isBrace c = false := by
  rw [Bool.eq_false_iff]
  intro hb
  simp only [isBrace, Bool.or_eq_true, beq_iff_eq] at hb
  rcases hb with rfl | rfl <;> revert h <;> decide

/-! ### The text of a scalar -/

/-- The text of a scalar is that of a string in it, or is made of the characters of numbers. -/
theorem mem_of_text? {v : Value} {s : List Char} (hs : v.text? = some s) {c : Char} (hc : c ∈ s) :
    isNumeric c = true ∨ ∃ t : String, v.HasString t ∧ c ∈ t.toList := by
  cases v with
  | bool b =>
    left
    cases b <;> cases hs <;> revert c <;> decide
  | number x =>
    cases hs
    exact Or.inl (isNumeric_numberText x c hc)
  | string t =>
    cases hs
    exact Or.inr ⟨t, .here, hc⟩
  | null | list | map | image => cases hs

/-- A character that is written is the character itself, or stands in an entity. -/
theorem mem_escape {s : List Char} {c : Char} (h : c ∈ Markup.escape s) :
    (c ∈ s ∧ Markup.entityName? c = none) ∨ c ∈ "&amplgtquos;".toList := by
  obtain ⟨d, hd, hc⟩ := List.mem_flatMap.1 h
  unfold Markup.escapeChar at hc
  split at hc
  · next name hname =>
    right
    have hnames : ∀ c ∈ '&' :: (name ++ [';']), c ∈ "&amplgtquos;".toList := by
      unfold Markup.entityName? at hname
      repeat' split at hname
      all_goals cases hname
      all_goals decide
    exact hnames c hc
  · next hnone =>
    rw [List.mem_singleton] at hc
    subst hc
    exact Or.inl ⟨hd, hnone⟩

/-- What is put into a text is made of the characters of strings, numbers and entities. -/
theorem mem_of_scalarText? {options : Options} {v : Value} {s : List Char}
    (hs : options.scalarText? v = some s) {c : Char} (hc : c ∈ s) :
    isNumeric c = true ∨ c ∈ "&amplgtquos;".toList ∨
      ∃ t : String, v.HasString t ∧ c ∈ t.toList := by
  rw [Options.scalarText?_eq] at hs
  split at hs
  · obtain ⟨t, ht, rfl⟩ := Option.map_eq_some_iff.1 hs
    rcases mem_escape hc with ⟨hc, -⟩ | hc
    · exact (mem_of_text? ht hc).imp_right Or.inr
    · exact Or.inr (Or.inl hc)
  · exact (mem_of_text? hs hc).imp_right Or.inr

theorem plain_of_mem_entity {c : Char} (h : c ∈ "&amplgtquos;".toList) :
    isBrace c = false ∧ c ≠ '<' ∧ c ≠ '>' :=
  (by decide : ∀ c ∈ "&amplgtquos;".toList, isBrace c = false ∧ c ≠ '<' ∧ c ≠ '>') c h

/-- What is put into a text for a value without braces has no braces. -/
theorem braceFree_of_scalarText? {options : Options} {v : Value} (h : v.BraceFree) {s : List Char}
    (hs : options.scalarText? v = some s) : BraceFree s := by
  intro c hc
  rcases mem_of_scalarText? hs hc with hc | hc | ⟨t, ht, hc⟩
  · exact isBrace_of_isNumeric hc
  · exact (plain_of_mem_entity hc).1
  · exact h t ht c hc

/-- A text without angle brackets. -/
def AngleFree (s : List Char) : Prop :=
  ∀ c ∈ s, c ≠ '<' ∧ c ≠ '>'

theorem angleFree_escape (s : List Char) : AngleFree (Markup.escape s) := by
  intro c hc
  rcases mem_escape hc with ⟨-, hnone⟩ | hc
  · constructor <;> rintro rfl <;> cases hnone
  · exact (plain_of_mem_entity hc).2

/-- What is put into a text has no angle brackets, when texts are escaped. -/
theorem angleFree_of_scalarText? {options : Options} (ho : options.escapeValues = true) {v : Value}
    {s : List Char} (hs : options.scalarText? v = some s) : AngleFree s := by
  rw [Options.scalarText?_eq, if_pos ho] at hs
  obtain ⟨t, -, rfl⟩ := Option.map_eq_some_iff.1 hs
  exact angleFree_escape t

end MailMerge
