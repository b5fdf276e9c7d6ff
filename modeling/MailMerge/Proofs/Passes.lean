import MailMerge.Expansion.Template
import MailMerge.Proofs.Strings

/-!
# The passes, step by step

What each pass does at the first token of a list, as equations, and what it does to a stretch of
plain characters. Expansions of adjoining texts form a monoid under `++`, so what comes of a whole
list is put together from what comes of its parts.
-/

namespace MailMerge

/-! ### Expansions of adjoining texts -/

@[simp]
theorem Stats.placeholders_add (a b : Stats) :
    (a + b).placeholders = a.placeholders + b.placeholders := rfl

@[simp]
theorem Stats.loops_add (a b : Stats) : (a + b).loops = a.loops + b.loops := rfl

@[simp]
theorem Stats.conditionals_add (a b : Stats) :
    (a + b).conditionals = a.conditionals + b.conditionals := rfl

@[simp]
theorem Stats.tables_add (a b : Stats) : (a + b).tables = a.tables + b.tables := rfl

@[simp]
theorem Stats.images_add (a b : Stats) : (a + b).images = a.images + b.images := rfl

theorem Stats.ext' {a b : Stats} (h₁ : a.placeholders = b.placeholders) (h₂ : a.loops = b.loops)
    (h₃ : a.conditionals = b.conditionals) (h₄ : a.tables = b.tables)
    (h₅ : a.images = b.images) : a = b := by
  cases a
  cases b
  simp_all

theorem Stats.add_assoc (a b c : Stats) : a + b + c = a + (b + c) := by
  apply Stats.ext' <;> simp [Nat.add_assoc]

@[simp]
theorem Stats.zero_add (a : Stats) : ({} : Stats) + a = a := by
  apply Stats.ext' <;> simp

@[simp]
theorem Stats.add_zero (a : Stats) : a + ({} : Stats) = a := by
  apply Stats.ext' <;> simp

namespace Expansion

theorem ext' {a b : Expansion} (h₁ : a.text = b.text) (h₂ : a.warnings = b.warnings)
    (h₃ : a.stats = b.stats) (h₄ : a.images = b.images) : a = b := by
  cases a
  cases b
  simp_all

theorem append_assoc (a b c : Expansion) : a ++ b ++ c = a ++ (b ++ c) := by
  apply ext' <;> simp [Stats.add_assoc]

@[simp]
theorem empty_append (a : Expansion) : ({} : Expansion) ++ a = a := by
  apply ext' <;> simp

@[simp]
theorem append_empty (a : Expansion) : a ++ ({} : Expansion) = a := by
  apply ext' <;> simp

@[simp]
theorem literal_nil : literal [] = {} := rfl

theorem literal_append (s r : List Char) : literal (s ++ r) = literal s ++ literal r := by
  apply ext' <;> simp [literal]

@[simp]
theorem text_literal (s : List Char) : (literal s).text = s := rfl

@[simp]
theorem warnings_literal (s : List Char) : (literal s).warnings = [] := rfl

@[simp]
theorem stats_literal (s : List Char) : (literal s).stats = {} := rfl

@[simp]
theorem images_literal (s : List Char) : (literal s).images = [] := rfl

@[simp]
theorem text_warning (w : Warning) : (warning w).text = [] := rfl

@[simp]
theorem warnings_warning (w : Warning) : (warning w).warnings = [w] := rfl

@[simp]
theorem stats_warning (w : Warning) : (warning w).stats = {} := rfl

@[simp]
theorem images_warning (w : Warning) : (warning w).images = [] := rfl

/-- What has no text may stand on either side of one. -/
theorem literal_append_comm {e : Expansion} (h : e.text = []) (s : List Char) :
    literal s ++ e = e ++ literal s := by
  apply ext' <;> simp [h]

@[simp]
theorem withoutText_literal (s : List Char) : (literal s).withoutText = {} := rfl

@[simp]
theorem withoutText_append (a b : Expansion) :
    (a ++ b).withoutText = a.withoutText ++ b.withoutText := rfl

theorem join_map {α : Type} (f : α → List Char) (g : α → List Warning) (xs : List α) :
    join (xs.map fun x => { text := f x, warnings := g x })
      = { text := xs.flatMap f, warnings := xs.flatMap g } := by
  induction xs with
  | nil => rfl
  | cons x xs ih =>
    rw [List.map_cons, join, ih]
    apply ext' <;> simp

end Expansion

/-! ### Repetition -/

/-- The items of the list under a name, without those that are `null`; there are none when the data
have no list there. -/
def itemsOf (data : DataTree) (name : String) : List Value :=
  match data.get? name with
  | some (.list items) => items.filter fun item => !item.isNull
  | _ => []

/-- The text of a field of an item, empty when the field is missing or no scalar. -/
def fieldText (options : Options) (item : Value) (name : String) : List Char :=
  ((item.field? name).bind options.scalarText?).getD []

/-- What a token becomes in a copy for an item. -/
def fieldTokens (options : Options) (of : Repetition) (item : Value) : Token → List Token
  | .tag (.simple name) => (fieldText options item name).map .char
  | .tag (.table name) => if of = .table then [] else [.tag (.table name)]
  | t => [t]

/-- What is noted about a token in a copy for an item. -/
def fieldWarnings (options : Options) (owner : String) (item : Value) : Token → List Warning
  | .tag (.simple name) =>
    match item.field? name with
    | none => []
    | some v =>
      if (options.scalarText? v).isSome then [] else [.fieldNotText owner name v.typeName]
  | _ => []

section Repetition

variable (options : Options) (of : Repetition) (owner : String)

theorem expandField_eq (v : Value) (t : Token) :
    expandField options of owner v t =
      { text := (fieldTokens options of v t).flatMap Token.text
        warnings := fieldWarnings options owner v t } := by
  cases t with
  | char c => rfl
  | tag t =>
    cases t with
    | simple name =>
      simp only [expandField, fieldTokens, fieldWarnings, fieldText, flatMap_text_map_tokenChar]
      cases hf : v.field? name with
      | none => rfl
      | some w =>
        cases ht : options.scalarText? w <;> simp [ht, Expansion.literal, Expansion.warning]
    | table name =>
      simp only [expandField, fieldTokens]
      split <;> simp [Token.text, fieldWarnings, Expansion.literal]
    | _ => simp [expandField, fieldTokens, fieldWarnings, Token.text, Expansion.literal]

/-- What comes of a text that is repeated: a copy for each item. -/
theorem expandItems_eq (template : List Token) (items : List Value) :
    expandItems options of owner template items =
      { text := ((items.filter fun item => !item.isNull).flatMap fun v =>
          template.flatMap (fieldTokens options of v)).flatMap Token.text
        warnings := (items.filter fun item => !item.isNull).flatMap fun v =>
          template.flatMap (fieldWarnings options owner v) } := by
  have hfields : ∀ v, expandFields options of owner v template =
      { text := (template.flatMap (fieldTokens options of v)).flatMap Token.text
        warnings := template.flatMap (fieldWarnings options owner v) } := by
    intro v
    rw [expandFields, funext (expandField_eq options of owner v), Expansion.join_map,
      List.flatMap_assoc]
  simp only [expandItems, hfields, Expansion.join_map, List.flatMap_assoc]

theorem expandFields_map_char_append (v : Value) (s : List Char) (ts : List Token) :
    expandFields options of owner v (s.map .char ++ ts)
      = .literal s ++ expandFields options of owner v ts := by
  induction s with
  | nil => exact (Expansion.empty_append _).symm
  | cons c s ih =>
    have hcons : expandFields options of owner v (.char c :: (s.map .char ++ ts))
        = .literal [c] ++ expandFields options of owner v (s.map .char ++ ts) := rfl
    rw [List.map_cons, List.cons_append, hcons, ih, ← Expansion.append_assoc,
      ← Expansion.literal_append]
    rfl

theorem flatMap_fieldTokens_map_char (v : Value) (s : List Char) :
    (s.map Token.char).flatMap (fieldTokens options of v) = s.map .char := by
  induction s with
  | nil => rfl
  | cons c s ih =>
    rw [List.map_cons, List.flatMap_cons, ih]
    rfl

end Repetition

/-- The text of a loop: a copy of its body for each item. -/
theorem text_expandLoop (data : DataTree) (options : Options) (name : String) (body : List Token) :
    (expandLoop data options name body).text =
      ((itemsOf data name).flatMap fun v =>
        body.flatMap (fieldTokens options .loop v)).flatMap Token.text := by
  simp only [expandLoop, listFor, itemsOf]
  cases data.get? name with
  | none => rfl
  | some v =>
    cases v with
    | list items =>
      cases items with
      | nil => rfl
      | cons item items => simp [expandItems_eq]
    | _ => rfl

theorem braceFree_fieldText {options : Options} {v : Value} (h : v.BraceFree) (name : String) :
    BraceFree (fieldText options v name) := by
  unfold fieldText
  cases hw : (v.field? name).bind options.scalarText? with
  | none => exact braceFree_nil
  | some s =>
    obtain ⟨w, hf, hs⟩ := Option.bind_eq_some_iff.1 hw
    exact braceFree_of_scalarText? (h.of_field? hf) hs

theorem braceFree_of_mem_itemsOf {data : DataTree} (h : data.BraceFree) {name : String}
    {v : Value} (hv : v ∈ itemsOf data name) : v.BraceFree := by
  unfold itemsOf at hv
  split at hv
  · next items hd => exact (Value.BraceFree.of_get? h hd).of_mem (List.mem_filter.1 hv).1
  · cases hv

/-! ### Closing tags -/

theorem closedBy?_cons_of_ne {name : String} {t : Token} (h : t ≠ .tag (.close name))
    (ts : List Token) :
    closedBy? name (t :: ts) = (closedBy? name ts).map fun (body, rest) => (t :: body, rest) := by
  rw [closedBy?, if_neg h]

theorem closedBy?_append {name : String} {ts : List Token} (h : .tag (.close name) ∉ ts)
    (us : List Token) :
    closedBy? name (ts ++ us)
      = (closedBy? name us).map fun found => (ts ++ found.1, found.2) := by
  induction ts with
  | nil => cases h : closedBy? name us <;> simp [h]
  | cons t ts ih =>
    rw [List.mem_cons, not_or] at h
    rw [List.cons_append, closedBy?_cons_of_ne (Ne.symm h.1), ih h.2]
    cases closedBy? name us <;> rfl

/-- The nearest closing tag is found where none stands before it. -/
theorem closedBy?_eq_some {name : String} {ts : List Token} (h : .tag (.close name) ∉ ts)
    (us : List Token) : closedBy? name (ts ++ .tag (.close name) :: us) = some (ts, us) := by
  rw [closedBy?_append h]
  simp [closedBy?]

/-! ### Loops -/

section Loops

variable {data : DataTree} {options : Options}

@[simp]
theorem expandLoops_nil : expandLoops data options [] = {} := by
  rw [expandLoops]

theorem expandLoops_cons {t : Token} (h : ∀ name, t ≠ .tag (.loopOpen name)) (ts : List Token) :
    expandLoops data options (t :: ts) = .literal t.text ++ expandLoops data options ts := by
  rw [expandLoops]
  intro name ht
  exact h name ht

theorem expandLoops_closed {name : String} {ts body after : List Token}
    (h : closedBy? name ts = some (body, after)) :
    expandLoops data options (.tag (.loopOpen name) :: ts)
      = expandLoop data options name body ++ expandLoops data options after := by
  rw [expandLoops]
  split
  · next h' =>
    rw [h] at h'
    cases h'
    rfl
  · next h' => simp [h] at h'

theorem expandLoops_unclosed {name : String} {ts : List Token} (h : closedBy? name ts = none) :
    expandLoops data options (.tag (.loopOpen name) :: ts)
      = .literal (Tag.loopOpen name).text ++ .warning (.unclosedLoop name)
        ++ expandLoops data options ts := by
  rw [expandLoops]
  split
  · next h' => simp [h] at h'
  · rfl

theorem expandLoops_map_char_append (s : List Char) (ts : List Token) :
    expandLoops data options (s.map .char ++ ts) = .literal s ++ expandLoops data options ts := by
  induction s with
  | nil => simp
  | cons c s ih =>
    rw [List.map_cons, List.cons_append, expandLoops_cons (by simp), ih,
      ← Expansion.append_assoc, ← Expansion.literal_append]
    rfl

end Loops

/-! ### Conditionals -/

theorem branches_map_char_append (opened : List String) (s : List Char) (ts : List Token) :
    branches opened (s.map .char ++ ts)
      = (s.map .char ++ (branches opened ts).1, (branches opened ts).2) := by
  induction s with
  | nil => rfl
  | cons c s ih => simp [branches, nest, ih]

theorem branches_sublist (opened : List String) (ts : List Token) :
    (branches opened ts).1.Sublist ts ∧ ((branches opened ts).2.getD []).Sublist ts := by
  induction ts generalizing opened with
  | nil => exact ⟨.slnil, .slnil⟩
  | cons t ts ih =>
    rw [branches]
    split
    · exact ⟨List.nil_sublist _, List.sublist_cons_self _ _⟩
    · obtain ⟨hyes, hno⟩ := ih (nest opened t)
      exact ⟨hyes.cons_cons t, hno.cons t⟩

theorem chosen_sublist (holds : Bool) (ts : List Token) : (chosen holds ts).Sublist ts := by
  unfold chosen
  cases holds with
  | true => exact (branches_sublist [] ts).1
  | false => exact (branches_sublist [] ts).2

theorem mem_of_mem_chosen {holds : Bool} {ts : List Token} {t : Token}
    (h : t ∈ chosen holds ts) : t ∈ ts :=
  (chosen_sublist holds ts).subset h

section Conditionals

variable {data : DataTree}

@[simp]
theorem expandConditionals_nil : expandConditionals data [] = {} := by
  rw [expandConditionals]

theorem expandConditionals_cons {t : Token} (h : ∀ name, t ≠ .tag (.condOpen name))
    (ts : List Token) :
    expandConditionals data (t :: ts) = .literal t.text ++ expandConditionals data ts := by
  rw [expandConditionals]
  intro name ht
  exact h name ht

theorem expandConditionals_closed {name : String} {ts body after : List Token}
    (h : closedBy? name ts = some (body, after)) :
    expandConditionals data (.tag (.condOpen name) :: ts)
      = { stats := { conditionals := 1 } }
        ++ expandConditionals data (chosen (holds data name) body)
        ++ expandConditionals data after := by
  rw [expandConditionals]
  split
  · next h' =>
    rw [h] at h'
    cases h'
    rfl
  · next h' => simp [h] at h'

theorem expandConditionals_unclosed {name : String} {ts : List Token}
    (h : closedBy? name ts = none) :
    expandConditionals data (.tag (.condOpen name) :: ts)
      = .literal (Tag.condOpen name).text ++ .warning (.unclosedConditional name)
        ++ expandConditionals data ts := by
  rw [expandConditionals]
  split
  · next h' => simp [h] at h'
  · rfl

theorem expandConditionals_map_char_append (s : List Char) (ts : List Token) :
    expandConditionals data (s.map .char ++ ts)
      = .literal s ++ expandConditionals data ts := by
  induction s with
  | nil => simp
  | cons c s ih =>
    rw [List.map_cons, List.cons_append, expandConditionals_cons (by simp), ih,
      ← Expansion.append_assoc, ← Expansion.literal_append]
    rfl

end Conditionals

/-! ### Table rows -/

/-- Whether a token marks a row. -/
def Token.isMark : Token → Bool
  | .tag (.table _) => true
  | _ => false

theorem Token.exists_of_isMark {t : Token} (h : t.isMark = true) :
    ∃ name, t = .tag (.table name) := by
  unfold isMark at h
  split at h
  · exact ⟨_, rfl⟩
  · cases h

/-- Where no tag marks a row, no token does. -/
theorem isMark_eq_false_of_notMem {ts : List Token} (h : ∀ name, .tag (.table name) ∉ ts) :
    ∀ t ∈ ts, t.isMark = false := by
  intro t ht
  rw [Bool.eq_false_iff]
  intro hmark
  obtain ⟨name, rfl⟩ := t.exists_of_isMark hmark
  exact h name ht

theorem Token.ne_table_of_isMark {t : Token} (h : t.isMark = false) (name : String) :
    t ≠ .tag (.table name) := by
  rintro rfl
  cases h

theorem firstMark?_cons {t : Token} (h : t.isMark = false) (ts : List Token) :
    firstMark? (t :: ts) = (firstMark? ts).map fun (before, name) => (t.text ++ before, name) := by
  rw [firstMark?]
  exact t.ne_table_of_isMark h

theorem firstMark?_map_char_append (s : List Char) (ts : List Token) :
    firstMark? (s.map .char ++ ts)
      = (firstMark? ts).map fun (before, name) => (s ++ before, name) := by
  induction s with
  | nil => simp
  | cons c s ih =>
    rw [List.map_cons, List.cons_append, firstMark?_cons rfl, ih, Option.map_map]
    rfl

theorem firstMark?_eq_none {ts : List Token} (h : ∀ t ∈ ts, t.isMark = false) :
    firstMark? ts = none := by
  induction ts with
  | nil => rfl
  | cons t ts ih =>
    rw [List.forall_mem_cons] at h
    rw [firstMark?_cons h.1, ih h.2]
    rfl

section Tables

variable {data : DataTree} {options : Options}

theorem expandTablesFrom_of_none {done rest : List Char}
    (h : tableRound data options done rest = none) :
    expandTablesFrom data options done rest = .literal (done ++ rest) := by
  rw [expandTablesFrom]
  split
  · rfl
  · next h' => simp [h] at h'

theorem expandTablesFrom_of_some {done rest done' rest' : List Char} {note : Expansion}
    (h : tableRound data options done rest = some (note, done', rest')) :
    expandTablesFrom data options done rest
      = note ++ expandTablesFrom data options done' rest' := by
  rw [expandTablesFrom]
  split
  · next h' => simp [h] at h'
  · next h' =>
    rw [h] at h'
    cases h'
    rfl

/-- A text without marks of table rows stays as it is. -/
theorem expandTables_of_no_mark {s : List Char}
    (h : ∀ t ∈ tokens options.window s, t.isMark = false) :
    expandTables data options s = .literal s := by
  rw [expandTables, expandTablesFrom_of_none, List.nil_append]
  rw [tableRound, firstMark?_eq_none h]

end Tables

/-! ### Placeholders -/

theorem Fields.getEntry?_eq {α : Type} (fields : Fields α) (key : String) :
    fields.getEntry? key = (fields.get? key).map fun v => (key, v) := by
  cases h : fields.getEntry? key with
  | none => simp [Fields.get?, h]
  | some entry =>
    obtain ⟨k, v⟩ := entry
    have hk : k = key := by simpa using List.find?_some h
    simp [Fields.get?, h, hk]

/-- What comes of a placeholder for a value, when `placed` pictures come before. -/
def expandValue (options : Options) (placed : Nat) (name : String) : Value → Expansion
  | .image image =>
    { text := marker placed
      warnings := image.rejected.toList.map fun rejected =>
        .extensionReplaced name rejected image.extension
      stats := { images := 1 }
      images := [⟨marker placed, name, image⟩] }
  | value =>
    match options.scalarText? value with
    | some text => { text, stats := { placeholders := 1 } }
    | none => if value.isNull then {} else .warning (.notText name value.typeName)

section Placeholders

variable {data : DataTree} {options : Options} {placed : Nat}

theorem expandPlaceholder_eq (data : DataTree) (options : Options) (placed : Nat)
    (name : String) :
    expandPlaceholder data options placed name
      = (data.get? name).elim {} (expandValue options placed name) := by
  rw [expandPlaceholder, Fields.getEntry?_eq]
  cases data.get? name with
  | none => rfl
  | some v => cases v <;> rfl

theorem expandPlaceholders_cons {t : Token} (h : ∀ name, t ≠ .tag (.simple name))
    (ts : List Token) :
    expandPlaceholders data options placed (t :: ts)
      = .literal t.text ++ expandPlaceholders data options placed ts := by
  rw [expandPlaceholders]
  intro name ht
  exact h name ht

theorem expandPlaceholders_map_char_append (s : List Char) (ts : List Token) :
    expandPlaceholders data options placed (s.map .char ++ ts)
      = .literal s ++ expandPlaceholders data options placed ts := by
  induction s with
  | nil => simp
  | cons c s ih =>
    rw [List.map_cons, List.cons_append, expandPlaceholders_cons (by simp), ih,
      ← Expansion.append_assoc, ← Expansion.literal_append]
    rfl

end Placeholders

/-! ### All passes -/

/-- What comes of a template, pass by pass, when what each pass leaves is read back and marks no
rows. -/
theorem expand_of_read {data : DataTree} {options : Options} {s : List Char}
    {looped decided : List Token}
    (hloops : (expandLoops data options (tokens options.window s)).text
      = looped.flatMap Token.text)
    (hlooped : tokens options.window (looped.flatMap Token.text) = looped)
    (hconds : (expandConditionals data looped).text = decided.flatMap Token.text)
    (hdecided : tokens options.window (decided.flatMap Token.text) = decided)
    (hmark : ∀ t ∈ decided, t.isMark = false) :
    expand data options s = (expandLoops data options (tokens options.window s)).withoutText
      ++ (expandConditionals data looped).withoutText
      ++ expandPlaceholders data options 0 decided := by
  have htables : expandTables data options (decided.flatMap Token.text)
      = .literal (decided.flatMap Token.text) :=
    expandTables_of_no_mark (by rwa [hdecided])
  simp only [expand, hloops, hlooped, hconds, htables, Expansion.text_literal, hdecided,
    Expansion.withoutText_literal, Expansion.append_empty]

end MailMerge
