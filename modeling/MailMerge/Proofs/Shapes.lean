import MailMerge.Proofs.Leaf

/-!
# Data of one shape

Two values have one **shape** when they are of one kind, count the same in conditions, and differ in
nothing but the texts of strings and numbers: maps have the same keys, in any order, lists the same
length, and pictures are equal (`Value.SameShape`).

When texts are escaped and hold no braces, what data put into a template is **character data**: it
has no braces and no angle brackets, and so it never becomes part of a tag or of markup. The passes
then decide the same for two trees of one shape, and mark off the same rows, although each pass
reads what the one before has put in. What comes of a template has the same markup for both, and the
same is noted about it; only character data differ (`markupTags_expand`).
-/

namespace MailMerge

open Markup

/-! ### Shapes -/

/-- Two values differ in nothing but the texts of strings and numbers, and count the same in
conditions. -/
inductive Value.SameShape : Value → Value → Prop
  | null : SameShape .null .null
  | bool (b : Bool) : SameShape (.bool b) (.bool b)
  | number {x y : Float} (h : (Value.number x).isTruthy = (Value.number y).isTruthy) :
    SameShape (.number x) (.number y)
  | string {s t : String} (h : (Value.string s).isTruthy = (Value.string t).isTruthy) :
    SameShape (.string s) (.string t)
  | list {items items' : List Value} (h : List.Forall₂ SameShape items items') :
    SameShape (.list items) (.list items')
  | map {fields fields' : Fields Value}
    (h : ∀ key, Option.Rel SameShape (fields.get? key) (fields'.get? key)) :
    SameShape (.map fields) (.map fields')
  | image (image : Image) : SameShape (.image image) (.image image)

/-- Two trees of data have one shape. -/
def DataTree.SameShape (data data' : DataTree) : Prop :=
  Value.SameShape (.map data) (.map data')

/-- Entries with the same keys and related values lead to related values. -/
theorem rel_get? {α : Type} {R : α → α → Prop} {fields fields' : Fields α}
    (keys : fields.entries.map Prod.fst = fields'.entries.map Prod.fst)
    (values : List.Forall₂ R (fields.entries.map Prod.snd) (fields'.entries.map Prod.snd))
    (key : String) : Option.Rel R (fields.get? key) (fields'.get? key) := by
  obtain ⟨entries⟩ := fields
  obtain ⟨entries'⟩ := fields'
  simp only [Fields.get?, Fields.getEntry?] at keys values ⊢
  induction entries generalizing entries' with
  | nil =>
    cases entries' with
    | nil => exact .none
    | cons => cases keys
  | cons entry entries ih =>
    cases entries' with
    | nil => cases keys
    | cons entry' entries' =>
      obtain ⟨k, v⟩ := entry
      obtain ⟨k', v'⟩ := entry'
      simp only [List.map_cons, List.cons.injEq] at keys
      obtain ⟨rfl, keys⟩ := keys
      cases values with
      | cons hv values =>
        by_cases hk : k = key
        · simpa [hk] using Option.Rel.some hv
        · simpa [hk] using ih entries' keys values

namespace Value.SameShape

variable {v w : Value}

theorem isNull (h : SameShape v w) : v.isNull = w.isNull := by
  cases h <;> rfl

theorem typeName (h : SameShape v w) : v.typeName = w.typeName := by
  cases h <;> rfl

theorem isTruthy (h : SameShape v w) : v.isTruthy = w.isTruthy := by
  cases h with
  | number h => exact h
  | string h => exact h
  | list h => cases h <;> rfl
  | null | bool | map | image => rfl

theorem field? (h : SameShape v w) (name : String) :
    Option.Rel SameShape (v.field? name) (w.field? name) := by
  cases h with
  | map h => exact h name
  | null | bool | number | string | list | image => exact .none

/-- Both values have a text, or neither has. -/
theorem scalarText? (h : SameShape v w) (options : Options) :
    (options.scalarText? v = none ∧ options.scalarText? w = none) ∨
      ∃ a b, options.scalarText? v = some a ∧ options.scalarText? w = some b := by
  have htext : (v.text? = none ∧ w.text? = none) ∨ ∃ a b, v.text? = some a ∧ w.text? = some b := by
    cases h with
    | null | list | map | image => exact Or.inl ⟨rfl, rfl⟩
    | number | string => exact Or.inr ⟨_, _, rfl, rfl⟩
    | bool b => cases b <;> exact Or.inr ⟨_, _, rfl, rfl⟩
  unfold Options.scalarText?
  rcases htext with ⟨hv, hw⟩ | ⟨a, b, hv, hw⟩
  · left
    split <;> simp [hv, hw]
  · right
    split <;> simp [hv, hw]

end Value.SameShape

theorem DataTree.SameShape.get? {data data' : DataTree} (h : data.SameShape data')
    (key : String) : Option.Rel Value.SameShape (data.get? key) (data'.get? key) :=
  Value.SameShape.field? h key

/-! ### Texts that differ in character data -/

/-- A text without braces and without angle brackets. -/
structure IsCharacterData (s : List Char) : Prop where
  braceFree : BraceFree s
  angleFree : AngleFree s

/-- Markup and tags are the same in both texts, and tags stand in character data, which may
differ. -/
def differingData (window : Nat) : Alignment Bool where
  here := false
  tag t := t.Fits window
  block p q a b :=
    (p = false ∧ q = false ∧ IsCharacterData a ∧ IsCharacterData b) ∨
      ∃ c, a = [c] ∧ b = [c] ∧ markupMove p (some c) q

section DifferingData

variable {window : Nat} {p q : Bool} {us vs : List Token}

theorem block_differingData {a b : List Char} (ha : IsCharacterData a) (hb : IsCharacterData b) :
    (differingData window).block false false a b :=
  Or.inl ⟨rfl, rfl, ha, hb⟩

/-- All braces of both texts belong to tags. -/
theorem Aligned.proper (h : Aligned (differingData window) p q us vs) :
    (∀ t ∈ us, t.Proper window) ∧ ∀ t ∈ vs, t.Proper window := by
  have hchars : ∀ {a : List Char}, BraceFree a → ∀ t ∈ a.map Token.char, t.Proper window := by
    intro a ha
    rw [List.forall_mem_map]
    exact ha
  induction h with
  | nil => simp
  | tag ht _ ih =>
    rw [List.forall_mem_cons, List.forall_mem_cons]
    exact ⟨⟨ht, ih.1⟩, ht, ih.2⟩
  | block hab _ ih =>
    rw [List.forall_mem_append, List.forall_mem_append]
    rcases hab with ⟨-, -, ha, hb⟩ | ⟨c, rfl, rfl, hc⟩
    · exact ⟨⟨hchars ha.braceFree, ih.1⟩, hchars hb.braceFree, ih.2⟩
    · have hfree : BraceFree [c] := by
        intro d hd
        rw [List.mem_singleton.1 hd]
        exact isBrace_of_markupMove hc
      exact ⟨⟨hchars hfree, ih.1⟩, hchars hfree, ih.2⟩

/-- Both texts are read back. -/
theorem Aligned.tokens_differingData (h : Aligned (differingData window) p q us vs) :
    tokens window (us.flatMap Token.text) = us ∧ tokens window (vs.flatMap Token.text) = vs :=
  ⟨tokens_flatMap_text h.proper.1, tokens_flatMap_text h.proper.2⟩

theorem sharesMarkup_differingData : SharesMarkup window (differingData window) where
  here := rfl
  tag ht := ht
  block := by
    rintro p q a b (⟨hp, hq, ha, hb⟩ | ⟨c, rfl, rfl, hc⟩)
    · exact Or.inl
        ⟨hp, hq, fun hm => (ha.angleFree _ hm).1 rfl, fun hm => (hb.angleFree _ hm).1 rfl⟩
    · exact Or.inr ⟨c, rfl, rfl, markupMove_some hc⟩
  read h := by
    rw [h.tokens_differingData.1, h.tokens_differingData.2]
    exact ⟨rfl, rfl⟩

/-- A template whose braces belong to tags in character data stands beside itself. -/
theorem TagsInCharacterData.aligned_self {ts : List Token} (h : TagsInCharacterData false ts)
    (hproper : ∀ t ∈ ts, t.Proper window) :
    ∃ q, Aligned (differingData window) false q ts ts := by
  obtain ⟨q, hq⟩ : ∃ q, Aligned (inCharacterData window [] []) false q ts ts := h.aligned hproper
  refine ⟨q, hq.map id rfl (fun _ ht => ht) ?_⟩
  rintro p q a b ⟨o, ho, rfl, rfl⟩
  cases o with
  | some c => exact Or.inr ⟨c, rfl, rfl, ho⟩
  | none =>
    cases p with
    | true => exact absurd ho id
    | false =>
      obtain rfl : q = false := ho
      have hnil : IsCharacterData [] := ⟨braceFree_nil, nofun⟩
      exact block_differingData hnil hnil

end DifferingData

/-! ### Data of one shape come out alike -/

section Data

variable {options : Options} {v w : Value}

theorem isCharacterData_of_scalarText? (hescape : options.escapeValues = true) (hv : v.BraceFree)
    {a : List Char} (ha : options.scalarText? v = some a) : IsCharacterData a :=
  ⟨braceFree_of_scalarText? hv ha, angleFree_of_scalarText? hescape ha⟩

theorem isCharacterData_marker (n : Nat) : IsCharacterData (marker n) := by
  have hdigit : ∀ c, isNumeric c = true → isBrace c = false ∧ c ≠ '<' ∧ c ≠ '>' := by
    intro c hc
    refine ⟨isBrace_of_isNumeric hc, ?_, ?_⟩ <;> rintro rfl <;> revert hc <;> decide
  have hplain : ∀ c ∈ marker n, isBrace c = false ∧ c ≠ '<' ∧ c ≠ '>' := by
    simp only [marker, List.forall_mem_cons, List.forall_mem_append]
    exact ⟨by decide, ⟨by decide, fun c hc => hdigit c (isNumeric_decimalDigits c hc)⟩, by decide,
      nofun⟩
  exact ⟨fun c hc => (hplain c hc).1, fun c hc => (hplain c hc).2⟩

/-- Items of one shape come out alike. -/
theorem Value.SameShape.itemsAlike (h : SameShape v w) (hescape : options.escapeValues = true)
    (hv : v.BraceFree) (hw : w.BraceFree) :
    ItemsAlike (differingData options.window) options v w := by
  refine ⟨h.isNull, fun of owner name => alike_expandField ?_ of owner⟩
  have hfield := h.field? name
  revert hfield
  cases hu : v.field? name <;> cases hu' : w.field? name
  all_goals
    intro hfield
    cases hfield
  · exact Or.inl ⟨rfl, rfl⟩
  · next u u' hshape =>
    refine Or.inr ⟨u, u', rfl, rfl, ?_⟩
    rcases hshape.scalarText? options with ⟨ha, hb⟩ | ⟨a, b, ha, hb⟩
    · exact Or.inl ⟨ha, hb, hshape.typeName⟩
    · exact Or.inr ⟨a, b, ha, hb, .of_block (block_differingData
        (isCharacterData_of_scalarText? hescape (hv.of_field? hu) ha)
        (isCharacterData_of_scalarText? hescape (hw.of_field? hu') hb))⟩

theorem itemsAlike_of_sameShape {items items' : List Value}
    (h : List.Forall₂ Value.SameShape items items') (hescape : options.escapeValues = true)
    (hfree : ∀ v ∈ items, v.BraceFree) (hfree' : ∀ v ∈ items', v.BraceFree) :
    List.Forall₂ (ItemsAlike (differingData options.window) options) items items' := by
  induction h with
  | nil => exact .nil
  | cons hvw _ ih =>
    rw [List.forall_mem_cons] at hfree hfree'
    exact .cons (hvw.itemsAlike hescape hfree.1 hfree'.1) (ih hfree.2 hfree'.2)

theorem expandValue_of_text {placed : Nat} {name : String} {a : List Char}
    (ha : options.scalarText? v = some a) :
    expandValue options placed name v = { text := a, stats := { placeholders := 1 } } := by
  cases v with
  | image => simp [Options.scalarText?, Value.text?] at ha
  | null | bool | number | string | list | map => simp only [expandValue, ha]

theorem expandValue_of_no_text {placed : Nat} {name : String} (hv : ∀ i, v ≠ .image i)
    (ha : options.scalarText? v = none) :
    expandValue options placed name v
      = if v.isNull then {} else .warning (.notText name v.typeName) := by
  cases v with
  | image i => exact absurd rfl (hv i)
  | null | bool | number | string | list | map => simp only [expandValue, ha]

/-- Placeholders for values of one shape come out alike. -/
theorem Value.SameShape.alike_expandValue (h : SameShape v w)
    (hescape : options.escapeValues = true) (hv : v.BraceFree) (hw : w.BraceFree) (placed : Nat)
    (name : String) :
    Alike (differingData options.window) false false (expandValue options placed name v)
      (expandValue options placed name w) := by
  rcases h.scalarText? options with ⟨ha, hb⟩ | ⟨a, b, ha, hb⟩
  · cases h with
    | image i =>
      have hmarker := isCharacterData_marker placed
      exact ⟨(Alike.block (block_differingData hmarker hmarker)).text, rfl⟩
    | null | bool =>
      rw [expandValue_of_no_text (by simp) ha]
      exact .of_text_eq_nil _ (by split <;> rfl)
    | number | string | list | map =>
      rw [expandValue_of_no_text (by simp) ha, expandValue_of_no_text (by simp) hb]
      exact .of_text_eq_nil _ rfl
  · rw [expandValue_of_text ha, expandValue_of_text hb]
    have ha := isCharacterData_of_scalarText? hescape hv ha
    have hb := isCharacterData_of_scalarText? hescape hw hb
    exact ⟨(Alike.block (block_differingData ha hb)).text, rfl⟩

variable {data data' : DataTree}

/-- Trees of one shape come out alike. -/
theorem DataTree.SameShape.dataAlike (h : data.SameShape data')
    (hescape : options.escapeValues = true) (hfree : data.BraceFree) (hfree' : data'.BraceFree) :
    DataAlike (differingData options.window) options data data' := by
  refine ⟨fun name => ?_, fun of name => ?_⟩
  · have hget := h.get? name
    unfold holds
    revert hget
    cases data.get? name <;> cases data'.get? name
    all_goals
      intro hget
      cases hget
    · rfl
    · next hshape => exact hshape.isTruthy
  · have hget := h.get? name
    unfold listFor
    revert hget
    cases hv : data.get? name <;> cases hw : data'.get? name
    all_goals
      intro hget
      cases hget
    · exact .error _
    · next hshape =>
      have hv := Value.BraceFree.of_get? hfree hv
      have hw := Value.BraceFree.of_get? hfree' hw
      cases hshape with
      | list hitems =>
        have halike := itemsAlike_of_sameShape hitems hescape (Value.braceFree_list.1 hv)
          (Value.braceFree_list.1 hw)
        -- both lists are empty, or neither is
        cases halike with
        | nil => exact .error _
        | cons hfirst hrest => exact .ok (.cons hfirst hrest)
      | null | bool | number | string | map | image => exact .error _

theorem DataTree.SameShape.alike_expandPlaceholder (h : data.SameShape data')
    (hescape : options.escapeValues = true) (hfree : data.BraceFree) (hfree' : data'.BraceFree)
    (placed : Nat) (name : String) :
    Alike (differingData options.window) false false
      (expandPlaceholder data options placed name)
      (expandPlaceholder data' options placed name) := by
  rw [expandPlaceholder_eq, expandPlaceholder_eq]
  have hget := h.get? name
  revert hget
  cases hv : data.get? name <;> cases hw : data'.get? name
  all_goals
    intro hget
    cases hget
  · exact .of_text_eq_nil _ rfl
  · next hshape =>
    exact hshape.alike_expandValue hescape (Value.BraceFree.of_get? hfree hv)
      (Value.BraceFree.of_get? hfree' hw) placed name

/-- Two expansions of a template against trees of one shape are alike. -/
theorem DataTree.SameShape.alike_expand (h : data.SameShape data')
    (hescape : options.escapeValues = true) (hfree : data.BraceFree) (hfree' : data'.BraceFree)
    {s : List Char} {q : Bool} (hs : Aligned (differingData options.window) false q
      (tokens options.window s) (tokens options.window s)) :
    Alike (differingData options.window) false q (expand data options s)
      (expand data' options s) := by
  have hdata := h.dataAlike hescape hfree hfree'
  -- what a pass leaves is read back exactly, so that the texts stay side by side
  have hlooped := hs.expandLoops hdata
  obtain ⟨us, vs, hus, hu, hv⟩ := hlooped.text
  have hdecided := hus.expandConditionals hdata.condition
  obtain ⟨us', vs', hus', hu', hv'⟩ := hdecided.text
  have htabled := sharesMarkup_differingData.expandTables hdata hus'
  obtain ⟨us'', vs'', hus'', hu'', hv''⟩ := htabled.text
  have hfilled := hus''.expandPlaceholders (h.alike_expandPlaceholder hescape hfree hfree') 0
  unfold expand
  simp only [hu, hv, hus.tokens_differingData, hu', hv', hu'', hv'', hus''.tokens_differingData]
  rw [hlooped.withoutText, hdecided.withoutText, htabled.withoutText]
  exact (Alike.of_text_eq_nil false rfl).append hfilled

end Data

/-! ### Markup -/

/-- The markup tags of a text, in order: what stands between an opening angle bracket and the next
closing one. When a tag is open at the start of the text, what stands of it before is given, from
right to left. -/
def markupTags (opened : Option (List Char)) : List Char → List (List Char)
  | [] => []
  | c :: s =>
    match opened with
    | none => markupTags (if c = '<' then some [] else none) s
    | some body =>
      if c = '>' then body.reverse :: markupTags none s else markupTags (some (c :: body)) s

theorem markupTags_append_of_notMem {a : List Char} (h : '<' ∉ a) (s : List Char) :
    markupTags none (a ++ s) = markupTags none s := by
  induction a with
  | nil => rfl
  | cons c a ih =>
    rw [List.mem_cons, not_or] at h
    rw [List.cons_append, markupTags, if_neg (Ne.symm h.1)]
    exact ih h.2

/-- Texts that differ in character data have the same markup tags. -/
theorem Aligned.markupTags_eq {window : Nat} {p q : Bool} {us vs : List Token}
    (h : Aligned (differingData window) p q us vs) {opened : Option (List Char)}
    (hopened : opened.isSome = p) :
    markupTags opened (us.flatMap Token.text) = markupTags opened (vs.flatMap Token.text) := by
  induction h generalizing opened with
  | nil => rfl
  | @tag q t us vs ht _ ih =>
    obtain rfl : opened = none := by simpa [differingData] using hopened
    have hangle := notMem_tagText ht
    rw [List.flatMap_cons, List.flatMap_cons, Token.text, markupTags_append_of_notMem hangle,
      markupTags_append_of_notMem hangle]
    exact ih rfl
  | block hab _ ih =>
    rw [flatMap_text_map_char_append, flatMap_text_map_char_append]
    rcases sharesMarkup_differingData.block hab with ⟨rfl, rfl, ha, hb⟩ | ⟨c, rfl, rfl, -, rfl⟩
    · obtain rfl : opened = none := by simpa using hopened
      rw [markupTags_append_of_notMem ha, markupTags_append_of_notMem hb]
      exact ih rfl
    · subst hopened
      cases opened with
      | none =>
        simp only [List.singleton_append, markupTags]
        refine ih ?_
        by_cases hc : c = '<' <;> simp [inMarkup, hc]
      | some body =>
        simp only [List.singleton_append, markupTags]
        by_cases hc : c = '>'
        · rw [if_pos hc, if_pos hc, ih (by simp [inMarkup, hc])]
        · rw [if_neg hc, if_neg hc]
          exact ih (by simp [inMarkup, hc])

/-- **Data cannot change the markup.** When all braces of a template belong to tags in character
data, and texts are escaped and hold no braces, the template has the same markup tags, the same
counts, the same pictures and the same warnings for two trees of data of one shape. -/
theorem markupTags_expand {options : Options} {data data' : DataTree} {s : List Char}
    (hbraces : BracesInTags options.window s)
    (hdata : TagsInCharacterData false (tokens options.window s))
    (hescape : options.escapeValues = true) (hfree : data.BraceFree) (hfree' : data'.BraceFree)
    (hshape : data.SameShape data') :
    markupTags none (expand data options s).text = markupTags none (expand data' options s).text ∧
      (expand data options s).stats = (expand data' options s).stats ∧
      (expand data options s).images = (expand data' options s).images ∧
      (expand data options s).warnings = (expand data' options s).warnings := by
  obtain ⟨q, hq⟩ := hdata.aligned_self (proper_of_bracesInTags hbraces)
  have halike := hshape.alike_expand hescape hfree hfree' hq
  obtain ⟨us, vs, huv, hu, hv⟩ := halike.text
  have hnote := halike.withoutText
  refine ⟨?_, congrArg (fun e => e.stats) hnote, congrArg (fun e => e.images) hnote,
    congrArg (fun e => e.warnings) hnote⟩
  rw [hu, hv]
  exact huv.markupTags_eq rfl

theorem markupTags_expand_rows :
    let s := "<w:tr><w:t>\x7btable:r\x7d\x7bn\x7d</w:t></w:tr>".toList
      ++ "<w:p>\x7b?ok\x7d\x7bx\x7d\x7b/ok\x7d</w:p>".toList
    let options : Options := {}
    let data : DataTree :=
      ⟨[("ok", .bool true), ("r", .list [.map ⟨[("n", .string "<w:tr>")]⟩, .null]),
        ("x", .string "A & B")]⟩
    let data' : DataTree :=
      ⟨[("ok", .bool true), ("r", .list [.map ⟨[("n", .string "1")]⟩, .null]),
        ("x", .string "</w:p>")]⟩
    (BracesInTags options.window s ∧ TagsInCharacterData false (tokens options.window s) ∧
      options.escapeValues = true ∧ data.BraceFree ∧ data'.BraceFree ∧ data.SameShape data') ∧
      markupTags none (expand data options s).text
        = markupTags none (expand data' options s).text ∧
      (expand data options s).stats = (expand data' options s).stats ∧
      (expand data options s).images = (expand data' options s).images ∧
      (expand data options s).warnings = (expand data' options s).warnings := by
  intro s options data data'
  let chars : String → List Token := fun s => s.toList.map .char
  let ts : List Token :=
    chars "<w:tr><w:t>" ++ [.tag (.table "r"), .tag (.simple "n")] ++ chars "</w:t></w:tr><w:p>"
      ++ [.tag (.condOpen "ok"), .tag (.simple "x"), .tag (.close "ok")] ++ chars "</w:p>"
  have hproper : ∀ t ∈ ts, t.Proper options.window := by decide
  have hs : s = ts.flatMap Token.text := by decide
  have hbraces : BracesInTags options.window s := hs ▸ bracesInTags_flatMap_text hproper
  have hdata : TagsInCharacterData false (tokens options.window s) := by
    rw [hs, tokens_flatMap_text hproper]
    decide
  have hfree : data.BraceFree ∧ data'.BraceFree := by
    simp only [data, data', DataTree.BraceFree, Value.braceFree_map, List.forall_mem_cons,
      Value.braceFree_list, Value.braceFree_string, Value.braceFree_null, Value.braceFree_bool,
      List.not_mem_nil, false_implies, implies_true]
    decide
  have hrow : Value.SameShape (.map ⟨[("n", .string "<w:tr>")]⟩) (.map ⟨[("n", .string "1")]⟩) :=
    .map (rel_get? rfl (.cons (.string (by decide)) .nil))
  have hshape : data.SameShape data' :=
    .map (rel_get? rfl (.cons (.bool true) (.cons (.list (.cons hrow (.cons .null .nil)))
      (.cons (.string (by decide)) .nil))))
  exact ⟨⟨hbraces, hdata, rfl, hfree.1, hfree.2, hshape⟩,
    markupTags_expand hbraces hdata rfl hfree.1 hfree.2 hshape⟩

end MailMerge
