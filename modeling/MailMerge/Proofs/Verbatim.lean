import MailMerge.Proofs.Spelled

/-!
# Which strings are put out as they are

Placeholders are resolved last, and what they stand for is never read again. What loops put into a
text is read again by the passes behind, so a string in a field of an item is put out as it is only
when it is harmless. `emitted_iff` says so exactly, for all templates and data that do not add to
the string, and for the loop that does nothing but put out a field.

Strings without braces are harmless (`harmless_of_braceFree`), and so are strings that look like
JSON objects, since blanks and quotation marks stand in no tag (`harmless_of_opensNoTag`).
-/

namespace MailMerge

/-! ### Where no loop can be read -/

section NoLoops

variable {options : Options}

theorem eq_simple_of_fits {window : Nat} (h : window ≤ 2) {t : Tag} (ht : t.Fits window) :
    ∃ name, t = .simple name := by
  have hsize := ht.size
  have hname : ∀ name : String, isIdentifier name.toList = true →
      0 < Text.byteSize name.toList := by
    intro name hid
    cases hs : name.toList with
    | nil => exact absurd hs (ne_nil_of_isIdentifier hid)
    | cons c s =>
      have := c.utf8Size_pos
      rw [Text.byteSize_cons]
      omega
  cases t with
  | simple name => exact ⟨name, rfl⟩
  | otherwise =>
    have hword : Text.byteSize Tag.otherwise.inner = 5 := rfl
    omega
  | table name =>
    have hword : Text.byteSize Tag.tableWord = 6 := rfl
    rw [Tag.inner, Text.byteSize_append] at hsize
    omega
  | loopOpen name | condOpen name | close name =>
    have hpos := hname name ht.named
    have hmark : ('#' : Char).utf8Size = 1 ∧ ('?' : Char).utf8Size = 1 ∧
        ('/' : Char).utf8Size = 1 :=
      ⟨rfl, rfl, rfl⟩
    rw [Tag.inner, Text.byteSize_cons] at hsize
    omega

/-- With placeholders only, no string in a field gets into the text. -/
theorem fieldsEmitted_of_window_le (h : options.window ≤ 2) (s : String) :
    FieldsEmitted options s := by
  intro template data key place name t hs _ _ _
  have hsimple : ∀ t, .tag t ∈ tokens options.window template → ∃ name, t = .simple name :=
    fun t ht => eq_simple_of_fits h (fits_of_mem_tokens ht)
  -- each pass but the last one leaves the template as it is
  have hloops : ∀ data : DataTree,
      (expandLoops data options (tokens options.window template)).text = template := by
    intro data
    have hnone : ∀ name, .tag (.loopOpen name) ∉ tokens options.window template :=
      fun name hm => by simpa using hsimple _ hm
    have happend : (expandLoops data options (tokens options.window template ++ [])).text = _ :=
      text_expandLoops_append hnone []
    rwa [List.append_nil, expandLoops_nil, List.append_nil, text_tokens] at happend
  have hconditional : ¬HasConditional (tokens options.window template) := by
    rintro ⟨name, us, vs, he, -⟩
    have hm : .tag (.condOpen name) ∈ tokens options.window template := by
      rw [he]
      exact List.mem_append.2 (Or.inr List.mem_cons_self)
    simpa using hsimple _ hm
  have hmark : ∀ t ∈ tokens options.window template, t.isMark = false := by
    refine isMark_eq_false_of_notMem fun name hm => ?_
    simpa using hsimple _ hm
  have hplaced : ∀ placed ts, expandPlaceholders ((Leaf.field key place name).put t data) options
      placed ts = expandPlaceholders data options placed ts := by
    intro placed ts
    induction ts generalizing placed with
    | nil => rfl
    | cons u ts ih =>
      by_cases hu : ∃ other, u = .tag (.simple other)
      · obtain ⟨other, rfl⟩ := hu
        simp only [expandPlaceholders, expandPlaceholder_put hs, ih]
      · have hne : ∀ other, u ≠ .tag (.simple other) := fun other he => hu ⟨other, he⟩
        rw [expandPlaceholders_cons hne, expandPlaceholders_cons hne, ih]
  have hsame : (expand ((Leaf.field key place name).put t data) options template).text
      = (expand data options template).text := by
    simp only [text_expand_eq_settled, hloops, settled,
      text_expandConditionals_tokens _ hconditional,
      expandTables_of_no_mark hmark, Expansion.text_literal, hplaced]
  refine Leaf.emitted_of_sameBut ⟨(expand data options template).text.map some, ?_, ?_⟩
  · rw [fill_map_some]
  · rw [fill_map_some, hsame]

/-- **Which strings in fields are emitted**: the harmless ones, when loops can be read at all. -/
theorem fieldsEmitted_iff (options : Options) (s : String) :
    FieldsEmitted options s ↔
      (2 < options.window → Harmless options.window (options.written s)) := by
  constructor
  · exact fun h hwindow => harmless_of_fieldsEmitted hwindow h
  · intro h
    rcases Nat.lt_or_ge 2 options.window with hwindow | hwindow
    · exact fun template data key place name t hs ht _ hclear =>
        emitted_field hs (h hwindow) ht hclear
    · exact fieldsEmitted_of_window_le hwindow s

end NoLoops

/-! ### Strings with braces that are harmless -/

/-- Each opening brace is followed by a character that stands in no tag. -/
def OpensNoTag : List Char → Prop
  | [] => True
  | c :: s => (c = '{' → s.head?.any Tag.isSeparator = true) ∧ OpensNoTag s

instance instDecidableOpensNoTag : (s : List Char) → Decidable (OpensNoTag s)
  | [] => isTrue trivial
  | _ :: s =>
    have := instDecidableOpensNoTag s
    inferInstanceAs (Decidable (_ ∧ _))

theorem OpensNoTag.append {s r : List Char} (hs : OpensNoTag s) (hr : OpensNoTag r) :
    OpensNoTag (s ++ r) := by
  induction s with
  | nil => exact hr
  | cons c s ih =>
    refine ⟨fun hc => ?_, ih hs.2⟩
    have hhead := hs.1 hc
    cases s with
    | nil => cases hhead
    | cons d s => exact hhead

theorem OpensNoTag.of_append {s r : List Char} (h : OpensNoTag (s ++ r)) : OpensNoTag r := by
  induction s with
  | nil => exact h
  | cons c s ih => exact ih h.2

/-- Braces before blanks, quotation marks and the like do no harm. -/
theorem harmless_of_opensNoTag {window : Nat} {w : List Char} (hw : OpensNoTag w) :
    Harmless window w := by
  intro context hcontext t ht
  obtain ⟨a, rest, he⟩ := exists_append_of_mem_tokens ht
  have hfits := fits_of_mem_tokens ht
  -- the first character behind an opening brace comes with it, from the same copy
  have hfill : OpensNoTag (fill w context) := by
    clear he ht
    induction context with
    | nil => trivial
    | cons o context ih =>
      have ih := ih fun c hc => hcontext c (List.mem_cons_of_mem _ hc)
      cases o with
      | none => exact hw.append ih
      | some c =>
        have hc := (ne_brace (hcontext c List.mem_cons_self)).1
        exact ⟨fun he => absurd he hc, ih⟩
  rw [he] at hfill
  have hopen : OpensNoTag (t.text ++ rest) := hfill.of_append
  cases hinner : t.inner with
  | nil => exact absurd hinner (Tag.inner_ne_nil hfits.named)
  | cons c s =>
    have htext : t.text ++ rest = '{' :: c :: (s ++ '}' :: rest) := by
      simp [Tag.text, hinner]
    rw [htext] at hopen
    have hc : Tag.isSeparator c = false :=
      Tag.isSeparator_of_mem_text hfits.named (by simp [Tag.text, hinner])
    have hsep : Tag.isSeparator c = true := hopen.1 rfl
    rw [hc] at hsep
    cases hsep

/-! ### Which strings are put out as they are -/

/-- Whether `{#key}{name}{/key}` comes to a string, when it stands in that field of the one item of
the list, whatever other data there are. -/
def LoopEmits (options : Options) (key name s : String) : Prop :=
  ∀ data : DataTree, data.get? key = some (.list [.map ⟨[(name, .string s)]⟩]) →
    (expand data options (loopOver key name)).text = options.written s

/-- **Which strings are put out as they are.** Strings under keys are, whatever the template and the
data. Strings in fields of items are when they are harmless, and only then, whatever the template
and the data that do not add to them. A loop that does nothing but put out a field comes to the
string when its written form is quiet, and only then when texts are escaped. -/
theorem emitted_iff (options : Options) (s : String) :
    (∀ (template : List Char) (data : DataTree) (key t : String),
      (Leaf.entry key).string? data = some s →
        (Value.string t).isTruthy = (Value.string s).isTruthy →
          (Leaf.entry key).Emitted options template data s t) ∧
      (FieldsEmitted options s ↔
        (2 < options.window → Harmless options.window (options.written s))) ∧
      ∀ key name : String, (Tag.loopOpen key).Fits options.window →
        (Tag.simple name).Fits options.window →
          (Quiet (tokens options.window (options.written s)) → LoopEmits options key name s) ∧
            (options.escapeValues = true → LoopEmits options key name s →
              Quiet (tokens options.window (options.written s))) := by
  refine ⟨fun template data key t hs htruthy => emitted_entry hs htruthy,
    fieldsEmitted_iff options s, fun key name hkey hname => ⟨fun hquiet data hdata => ?_,
      fun hescape hemits => ?_⟩⟩
  · rw [text_expand_loopOver hkey hname hdata, settled_eq data hquiet]
  · refine Classical.byContradiction fun hloud => ?_
    have hangle : '<' ∉ options.written s :=
      fun hm => (angleFree_written hescape s _ hm).1 rfl
    have hdata : (singleField key name s).get? key
        = some (.list [.map ⟨[(name, .string s)]⟩]) := by
      rw [get?_singleField, if_pos rfl]
    have hlt := length_settled_lt text_expandPlaceholder_singleField (Or.inl hangle :
      Rowless (singleField key name s) options _) hloud
    rw [← text_expand_loopOver hkey hname hdata, hemits _ hdata] at hlt
    exact Nat.lt_irrefl _ hlt

/-- A string with braces, in a template that puts it into table rows and loops. -/
theorem emitted_iff_object :
    let options : Options := {}
    let template := "<w:tr>{table:k}{f}</w:tr>\x7b#k\x7d[\x7bf\x7d]\x7b/k\x7d".toList
    let s := "\x7b \"a\": 1 \x7d"
    let data := singleField "k" "f" s
    let leaf : Leaf := .field "k" 0 "f"
    (Harmless options.window (options.written s) ∧ leaf.string? data = some s ∧
        BraceFree "T".toList ∧ (Value.string "T").isTruthy = (Value.string s).isTruthy ∧
        leaf.Clear options template data "T") ∧
      leaf.Emitted options template data s "T" ∧
      (expand data options template).text
        = "<w:tr>\x7b &quot;a&quot;: 1 \x7d</w:tr>[\x7b &quot;a&quot;: 1 \x7d]".toList := by
  intro options template s data leaf
  have hharmless : Harmless options.window (options.written s) := harmless_of_opensNoTag (by decide)
  have hleaf : leaf.string? data = some s := by decide
  have hfree : BraceFree "T".toList := by decide
  have htruthy : (Value.string "T").isTruthy = (Value.string s).isTruthy := by decide
  have hclear : leaf.Clear options template data "T" := by
    refine ⟨by decide +kernel, fun _ _ _ _ hne hr => absurd (string?_singleField hr).1 hne,
      Or.inr ⟨by decide +kernel, fun _ _ _ u _ => angleFree_written rfl u,
        angleFree_written rfl "T"⟩⟩
  exact ⟨⟨hharmless, hleaf, hfree, htruthy, hclear⟩,
    (emitted_iff options s).2.1.2 (fun _ => hharmless) template data "k" 0 "f" "T" hleaf hfree
      htruthy hclear, by decide +kernel⟩

/-- A placeholder in a string is read as one: a loop does not come to the string, nor is it put back
by replacing another string that comes out as it is. -/
theorem not_emitted_placeholder :
    let options : Options := {}
    let data := singleField "k" "f" "{a}"
    ¬LoopEmits options "k" "f" "{a}" ∧
      (expand data options (loopOver "k" "f")).text = [] ∧
      (expand ((Leaf.field "k" 0 "f").put "T" data) options (loopOver "k" "f")).text = ['T'] ∧
      replaceAll 'T' [] (options.written "{a}") ['T'] = "{a}".toList := by
  intro options data
  have hout : (expand data options (loopOver "k" "f")).text = [] := by decide +kernel
  refine ⟨fun h => ?_, hout, by decide +kernel, by decide +kernel⟩
  have hwritten := h data (by rw [get?_singleField, if_pos rfl])
  rw [hout] at hwritten
  exact absurd hwritten (by decide)

end MailMerge
