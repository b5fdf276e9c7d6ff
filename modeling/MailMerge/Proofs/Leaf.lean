import MailMerge.Proofs.RowAlignment

/-!
# Strings in data, one replaced by another

A **leaf** is a place in the data from which a string gets into a text: under a key of its own, for
a placeholder, or in a field of an item of a list, for a loop or a table row. A string is
**emitted** when, with another string in its leaf, the text that comes of a template is the same,
but for the other string in place of the first one (`Leaf.Emitted`).

Placeholders are resolved last, so strings under keys are always emitted (`emitted_entry`). What
loops and rows put into the text is read again by the passes that follow. A string in a field is
emitted when it is harmless and nothing around it helps it to become part of a tag or of markup
(`emitted_field`).
-/

namespace MailMerge

/-- The text of a string as it is put into a template. -/
def Options.written (options : Options) (s : String) : List Char :=
  if options.escapeValues then Markup.escape s.toList else s.toList

theorem scalarText?_string (options : Options) (s : String) :
    options.scalarText? (.string s) = some (options.written s) := by
  rw [Options.scalarText?_eq, Options.written]
  split <;> rfl

theorem scalarText?_list (options : Options) (items : List Value) :
    options.scalarText? (.list items) = none := by
  unfold Options.scalarText?
  split <;> rfl

theorem braceFree_written {options : Options} {s : String} (h : BraceFree s.toList) :
    BraceFree (options.written s) :=
  braceFree_of_scalarText? (Value.braceFree_string.2 h) (scalarText?_string options s)

theorem angleFree_written {options : Options} (h : options.escapeValues = true) (s : String) :
    AngleFree (options.written s) :=
  angleFree_of_scalarText? h (scalarText?_string options s)

/-! ### Leaves -/

/-- A place in the data from which a string can get into a text. -/
inductive Leaf where
  /-- Under a key. -/
  | entry (key : String)
  /-- In a field of the item at a place of the list under a key. -/
  | field (key : String) (place : Nat) (name : String)
  deriving DecidableEq, Repr

namespace Leaf

/-- The string at a leaf. -/
def string? (data : DataTree) : Leaf → Option String
  | entry key =>
    match data.get? key with
    | some (.string s) => some s
    | _ => none
  | field key place name =>
    match data.get? key with
    | some (.list items) =>
      match items[place]?.bind fun item => item.field? name with
      | some (.string s) => some s
      | _ => none
    | _ => none

/-- The data with another string at a leaf. -/
def put (t : String) (data : DataTree) : Leaf → DataTree
  | entry key => data.insert key (.string t)
  | field key place name =>
    match data.get? key with
    | some (.list items) =>
      match items[place]? with
      | some (.map fields) =>
        data.insert key (.list (items.set place (.map (fields.insert name (.string t)))))
      | _ => data
    | _ => data

variable {data : DataTree} {s t key name : String} {place : Nat}

theorem string?_entry_eq_some : (entry key).string? data = some s ↔
    data.get? key = some (.string s) := by
  unfold string?
  dsimp only
  split
  · next r h => simp [h]
  · next h =>
    simp only [reduceCtorEq, false_iff]
    exact h s

theorem string?_field_eq_some : (field key place name).string? data = some s ↔
    ∃ items fields, data.get? key = some (.list items) ∧ items[place]? = some (.map fields) ∧
      fields.get? name = some (.string s) := by
  constructor
  · intro h
    unfold string? at h
    dsimp only at h
    split at h
    · next items hlist =>
      split at h
      · next r hfield =>
        obtain rfl := Option.some.inj h
        obtain ⟨item, hitem, hfield⟩ := Option.bind_eq_some_iff.1 hfield
        cases item with
        | map fields => exact ⟨items, fields, hlist, hitem, hfield⟩
        | null | bool | number | string | list | image => cases hfield
      · cases h
    · cases h
  · rintro ⟨items, fields, hlist, hitem, hfield⟩
    simp [string?, hlist, hitem, Value.field?, hfield]

theorem get?_put {items : List Value} {fields : Fields Value}
    (hlist : data.get? key = some (.list items)) (hitem : items[place]? = some (.map fields))
    (other : String) :
    ((field key place name).put t data).get? other
      = if key = other then some (.list (items.set place (.map (fields.insert name (.string t)))))
        else data.get? other := by
  have hput : (field key place name).put t data
      = data.insert key (.list (items.set place (.map (fields.insert name (.string t))))) := by
    simp [put, hlist, hitem]
  rw [hput, Fields.get?_insert]

/-- The text that comes of a template for a string at a leaf, and for another one, differs only
where they are put; so with the other one replaced by the first, when it begins with a character
that occurs nowhere else, the two are the same. -/
def Emitted (options : Options) (template : List Char) (data : DataTree) (leaf : Leaf)
    (s t : String) : Prop :=
  ∃ context,
    (expand data options template).text = fill (options.written s) context ∧
    (expand (leaf.put t data) options template).text = fill (options.written t) context ∧
    ∀ c p, options.written t = c :: p → some c ∉ context →
      replaceAll c p (options.written s) (expand (leaf.put t data) options template).text
        = (expand data options template).text

theorem emitted_of_sameBut {options : Options} {template : List Char} {leaf : Leaf}
    (h : SameBut (options.written s) (options.written t) (expand data options template).text
      (expand (leaf.put t data) options template).text) :
    leaf.Emitted options template data s t := by
  obtain ⟨context, hs, ht⟩ := h
  refine ⟨context, hs, ht, fun c p hwritten hfresh => ?_⟩
  rw [hs, ht, hwritten, replaceAll_fill hfresh]

end Leaf

/-! ### Strings under keys -/

section Entries

variable {data data' : DataTree} {options : Options}

theorem expandLoops_congr {ts : List Token}
    (h : ∀ name, .tag (.loopOpen name) ∈ ts →
      listFor data .loop name = listFor data' .loop name) :
    expandLoops data options ts = expandLoops data' options ts := by
  fun_induction expandLoops data options ts with
  | case1 => rw [expandLoops_nil]
  | case2 name rest body after hclosed _ ih =>
    have hafter : ∀ t ∈ after, t ∈ .tag (.loopOpen name) :: rest := fun t ht => by
      rw [eq_append_of_closedBy? hclosed]
      exact .tail _ (List.mem_append_right _ (.tail _ ht))
    rw [expandLoops_closed hclosed, ih fun name' ht => h name' (hafter _ ht), expandLoop,
      expandLoop, h name List.mem_cons_self]
  | case3 name rest hclosed ih =>
    rw [expandLoops_unclosed hclosed, ih fun name' ht => h name' (.tail _ ht)]
  | case4 t rest hne ih =>
    rw [expandLoops_cons (fun name he => hne name he), ih fun name ht => h name (.tail _ ht)]

theorem expandConditionals_congr {ts : List Token}
    (h : ∀ name, .tag (.condOpen name) ∈ ts → holds data name = holds data' name) :
    expandConditionals data ts = expandConditionals data' ts := by
  fun_induction expandConditionals data ts with
  | case1 => rw [expandConditionals_nil]
  | case2 name rest body after hclosed _ _ ihc iha =>
    have hmem : ∀ t, t ∈ chosen (holds data name) body ∨ t ∈ after →
        t ∈ .tag (.condOpen name) :: rest := by
      intro t ht
      rw [eq_append_of_closedBy? hclosed]
      exact .tail _ (List.mem_append.2 (ht.imp mem_of_mem_chosen (List.mem_cons_of_mem _)))
    rw [expandConditionals_closed hclosed, ihc fun name' ht => h name' (hmem _ (.inl ht)),
      iha fun name' ht => h name' (hmem _ (.inr ht)), h name List.mem_cons_self]
  | case3 name rest hclosed ih =>
    rw [expandConditionals_unclosed hclosed, ih fun name' ht => h name' (.tail _ ht)]
  | case4 t rest hne ih =>
    rw [expandConditionals_cons (fun name he => hne name he),
      ih fun name ht => h name (.tail _ ht)]

theorem tableRound_congr {rest : List Char}
    (h : ∀ between name, firstMark? (tokens options.window rest) = some (between, name) →
      listFor data .table name = listFor data' .table name) (done : List Char) :
    tableRound data options done rest = tableRound data' options done rest := by
  unfold tableRound
  cases hfirst : firstMark? (tokens options.window rest) with
  | none => rfl
  | some found =>
    obtain ⟨between, name⟩ := found
    simp only [expandRow, h between name hfirst]

theorem expandTablesFrom_congr (h : ∀ name, listFor data .table name = listFor data' .table name)
    (done rest : List Char) :
    expandTablesFrom data options done rest = expandTablesFrom data' options done rest := by
  fun_induction expandTablesFrom data options done rest with
  | case1 done rest hnone =>
    rw [tableRound_congr fun _ name _ => h name] at hnone
    rw [expandTablesFrom_of_none hnone]
  | case2 done rest note done' rest' hsome _ ih =>
    rw [tableRound_congr fun _ name _ => h name] at hsome
    rw [expandTablesFrom_of_some hsome, ih]

/-- **A string under a key is emitted**, in every template and with whatever data around it, when
another one counts the same in conditions. -/
theorem emitted_entry {template : List Char} {key s t : String}
    (hs : (Leaf.entry key).string? data = some s)
    (htruthy : (Value.string t).isTruthy = (Value.string s).isTruthy) :
    (Leaf.entry key).Emitted options template data s t := by
  rw [Leaf.string?_entry_eq_some] at hs
  have hget : ∀ name, ((Leaf.entry key).put t data).get? name
      = if key = name then some (.string t) else data.get? name :=
    fun name => Fields.get?_insert data key name _
  have hlist : ∀ of name, listFor data of name = listFor ((Leaf.entry key).put t data) of name := by
    intro of name
    unfold listFor
    rw [hget]
    by_cases hname : key = name
    · subst hname
      simp only [hs, if_true]
      rfl
    · rw [if_neg hname]
  have hholds : ∀ name, holds data name = holds ((Leaf.entry key).put t data) name := by
    intro name
    unfold holds
    rw [hget]
    by_cases hname : key = name
    · subst hname
      simp only [hs, if_true, Option.any_some, htruthy]
    · rw [if_neg hname]
  have hvalues : ∀ placed name, Alike (anywhere (options.written s) (options.written t)) () ()
      (expandPlaceholder data options placed name)
      (expandPlaceholder ((Leaf.entry key).put t data) options placed name) := by
    intro placed name
    rw [expandPlaceholder_eq, expandPlaceholder_eq, hget]
    by_cases hname : key = name
    · subst hname
      simp only [hs, if_true, Option.elim_some, expandValue, scalarText?_string]
      have hblock : (anywhere (options.written s) (options.written t)).block () ()
          (options.written s) (options.written t) := ⟨none, trivial, rfl, rfl⟩
      exact ⟨(Alike.block hblock).text, rfl⟩
    · rw [if_neg hname]
      exact alike_anywhere_self _
  -- the passes before the last one do not see the string
  apply Leaf.emitted_of_sameBut
  simp only [expand, expandLoops_congr fun name _ => hlist .loop name,
    expandConditionals_congr fun name _ => hholds name, expandTables,
    expandTablesFrom_congr (hlist .table), Expansion.text_append, Expansion.withoutText,
    List.nil_append]
  obtain ⟨us, vs, halign, hu, hv⟩ :=
    ((aligned_anywhere_self _).expandPlaceholders hvalues 0).text
  rw [hu, hv]
  exact halign.sameBut

end Entries

/-! ### Strings in fields -/

theorem forall₂_set {α : Type} {R : α → α → Prop} {xs : List α} {i : Nat} {x y : α}
    (hx : xs[i]? = some x) (hxy : R x y) (hself : ∀ j z, j ≠ i → xs[j]? = some z → R z z) :
    List.Forall₂ R xs (xs.set i y) := by
  induction xs generalizing i with
  | nil => cases hx
  | cons z xs ih =>
    cases i with
    | zero =>
      obtain rfl : z = x := by simpa using hx
      refine .cons hxy (List.forall₂_same.2 fun z hz => ?_)
      obtain ⟨j, hj⟩ := List.mem_iff_getElem?.1 hz
      exact hself (j + 1) z (by omega) (by simpa using hj)
    | succ i =>
      refine .cons (hself 0 z (by omega) rfl) (ih (by simpa using hx) fun j z hj hz => ?_)
      exact hself (j + 1) z (by omega) (by simpa using hz)

/-- Characters that values other than strings are written with. -/
def isScalarChar (c : Char) : Bool :=
  isNumeric c || "&amplgtquos;".toList.contains c

theorem isScalarChar_of_scalarText? {options : Options} {v : Value} (hv : ∀ s, v ≠ .string s)
    {a : List Char} (ha : options.scalarText? v = some a) : ∀ c ∈ a, isScalarChar c = true := by
  have htext : ∀ b, v.text? = some b → ∀ c ∈ b, isNumeric c = true := by
    intro b hb
    cases v with
    | string s => exact absurd rfl (hv s)
    | bool b => cases b <;> cases hb <;> decide
    | number x =>
      cases hb
      exact isNumeric_numberText x
    | null | list | map | image => cases hb
  intro c hc
  rw [isScalarChar, Bool.or_eq_true, List.contains_iff_mem]
  rw [Options.scalarText?_eq] at ha
  split at ha
  · obtain ⟨b, hb, rfl⟩ := Option.map_eq_some_iff.1 ha
    exact (mem_escape hc).imp (fun h => htext b hb c h.1) id
  · exact Or.inl (htext a ha c hc)

section Fields

variable {σ : Type} {here : σ} {tag : Tag → Prop} {move : σ → Option Char → σ → Prop}
  {options : Options} {data : DataTree} {key name s t : String} {place : Nat}

/-- What other fields put into a text may stand around the string at a leaf. -/
structure Fitting (here : σ) (move : σ → Option Char → σ → Prop) (options : Options)
    (data : DataTree) (leaf : Leaf) : Prop where
  hole : move here none here
  scalar : ∀ c, isScalarChar c = true → move here (some c) here
  others : ∀ key place name u, .field key place name ≠ leaf →
    (Leaf.field key place name).string? data = some u →
      ∀ c ∈ options.written u, move here (some c) here

variable {w w' : List Char}

theorem aligned_chars {a : List Char} (h : ∀ c ∈ a, move here (some c) here) :
    Aligned (holed here tag move w w') here here (a.map .char) (a.map .char) := by
  induction a with
  | nil => exact .nil _
  | cons c a ih =>
    rw [List.forall_mem_cons] at h
    exact .block (a := [c]) (b := [c]) ⟨some c, h.1, rfl, rfl⟩ (ih h.2)

/-- Fields come out alike when both are missing, or have no text and are of one kind, or have texts
that stand side by side. -/
theorem alike_expandField {A : Alignment σ} {v v' : Value}
    (h : (v.field? name = none ∧ v'.field? name = none) ∨
      ∃ u u', v.field? name = some u ∧ v'.field? name = some u' ∧
        ((options.scalarText? u = none ∧ options.scalarText? u' = none ∧ u.typeName = u'.typeName) ∨
          ∃ a a', options.scalarText? u = some a ∧ options.scalarText? u' = some a' ∧
            Aligned A A.here A.here (a.map .char) (a'.map .char)))
    (of : Repetition) (owner : String) :
    Alike A A.here A.here (expandField options of owner v (.tag (.simple name)))
      (expandField options of owner v' (.tag (.simple name))) := by
  simp only [expandField]
  rcases h with ⟨hu, hu'⟩ | ⟨u, u', hu, hu', ⟨ha, ha', hkind⟩ | ⟨a, a', ha, ha', halign⟩⟩
  · rw [hu, hu']
    exact .of_text_eq_nil _ rfl
  · simp only [hu, hu', ha, ha', hkind]
    exact .of_text_eq_nil _ rfl
  · simp only [hu, hu', ha, ha']
    exact ⟨⟨_, _, halign, (flatMap_text_map_tokenChar a).symm,
      (flatMap_text_map_tokenChar a').symm⟩, rfl⟩

theorem field_alike_self {v : Value} (hfit : ∀ u, v.field? name = some u → ∀ a,
      options.scalarText? u = some a → ∀ c ∈ a, move here (some c) here) (of : Repetition)
    (owner : String) :
    Alike (holed here tag move w w') here here
      (expandField options of owner v (.tag (.simple name)))
      (expandField options of owner v (.tag (.simple name))) := by
  refine alike_expandField ?_ of owner
  cases hu : v.field? name with
  | none => exact Or.inl ⟨rfl, rfl⟩
  | some u =>
    refine Or.inr ⟨u, u, rfl, rfl, ?_⟩
    cases ha : options.scalarText? u with
    | none => exact Or.inl ⟨rfl, rfl, rfl⟩
    | some a => exact Or.inr ⟨a, a, rfl, rfl, aligned_chars (hfit u hu a ha)⟩

/-- What a field other than the leaf puts into a text. -/
theorem Fitting.of_scalarText? {leaf : Leaf} (hfit : Fitting here move options data leaf)
    {key name : String} {place : Nat} (hne : .field key place name ≠ leaf) {items : List Value}
    (hlist : data.get? key = some (.list items)) {item u : Value}
    (hitem : items[place]? = some item) (hu : item.field? name = some u) {a : List Char}
    (ha : options.scalarText? u = some a) :
    ∀ c ∈ a, move here (some c) here := by
  intro c hc
  by_cases hstring : ∃ r, u = .string r
  · obtain ⟨r, rfl⟩ := hstring
    rw [scalarText?_string] at ha
    obtain rfl := Option.some.inj ha
    refine hfit.others key place name r hne ?_ c hc
    simp [Leaf.string?, hlist, hitem, hu]
  · exact hfit.scalar c
      (isScalarChar_of_scalarText? (fun r hr => hstring ⟨r, hr⟩) ha c hc)

theorem list_of_listFor {of : Repetition} {items : List Value}
    (h : listFor data of name = .ok items) : data.get? name = some (.list items) := by
  unfold listFor at h
  split at h
  all_goals cases h
  assumption

/-- An item without the leaf comes out alike. -/
theorem Fitting.itemsAlike {leaf : Leaf} (hfit : Fitting here move options data leaf)
    (hne : ∀ name, .field key place name ≠ leaf) {items : List Value} {item : Value}
    (hlist : data.get? key = some (.list items)) (hitem : items[place]? = some item) :
    ItemsAlike (holed here tag move w w') options item item :=
  ⟨rfl, fun of owner field => field_alike_self
    (fun _ hu _ ha => hfit.of_scalarText? (hne field) hlist hitem hu ha) of owner⟩

/-- The item with the leaf comes out alike. -/
theorem Fitting.itemsAlike_insert (hfit : Fitting here move options data (.field key place name))
    {items : List Value} {fields : Fields Value} (hlist : data.get? key = some (.list items))
    (hitem : items[place]? = some (.map fields)) (hfield : fields.get? name = some (.string s)) :
    ItemsAlike (holed here tag move (options.written s) (options.written t)) options
      (.map fields) (.map (fields.insert name (.string t))) := by
  refine ⟨rfl, fun of owner field => ?_⟩
  by_cases hname : name = field
  · subst hname
    have hblock : (holed here tag move (options.written s) (options.written t)).block here here
        (options.written s) (options.written t) := ⟨none, hfit.hole, rfl, rfl⟩
    have hold : (Value.map fields).field? name = some (.string s) := hfield
    have hnew : (Value.map (fields.insert name (.string t))).field? name = some (.string t) := by
      rw [Value.field?, Fields.get?_insert, if_pos rfl]
    exact alike_expandField (Or.inr ⟨_, _, hold, hnew, Or.inr ⟨_, _,
      scalarText?_string options s, scalarText?_string options t, .of_block hblock⟩⟩) of owner
  · have hsame : (Value.map (fields.insert name (.string t))).field? field
        = (Value.map fields).field? field := by
      rw [Value.field?, Value.field?, Fields.get?_insert, if_neg hname]
    have hne : Leaf.field key place field ≠ .field key place name := by
      rintro ⟨⟩
      exact hname rfl
    have halike : Alike (holed here tag move (options.written s) (options.written t)) here here
        (expandField options of owner (.map fields) (.tag (.simple field)))
        (expandField options of owner (.map fields) (.tag (.simple field))) :=
      field_alike_self (fun _ hu _ ha => hfit.of_scalarText? hne hlist hitem hu ha) of owner
    simp only [expandField, hsame] at halike ⊢
    exact halike

/-- The data before and after the string at a leaf is replaced come out alike. -/
theorem Fitting.dataAlike_put (hfit : Fitting here move options data (.field key place name))
    (hs : (Leaf.field key place name).string? data = some s) :
    DataAlike (holed here tag move (options.written s) (options.written t)) options data
      ((Leaf.field key place name).put t data) := by
  obtain ⟨items, fields, hlist, hitem, hfield⟩ := Leaf.string?_field_eq_some.1 hs
  have hget : ∀ other, ((Leaf.field key place name).put t data).get? other
      = if key = other then some (.list (items.set place (.map (fields.insert name (.string t)))))
        else data.get? other := Leaf.get?_put hlist hitem
  refine ⟨fun other => ?_, fun of other => ?_⟩
  · unfold holds
    rw [hget]
    by_cases hother : key = other
    · subst hother
      -- the list keeps its length, and so the condition its truth
      have hempty : (items.set place (.map (fields.insert name (.string t)))).isEmpty
          = items.isEmpty := by
        rw [Bool.eq_iff_iff, List.isEmpty_iff, List.isEmpty_iff, List.set_eq_nil_iff]
      simp only [hlist, if_true, Option.any_some, Value.isTruthy, hempty]
    · rw [if_neg hother]
  · by_cases hother : key = other
    · subst hother
      -- only the item with the leaf has changed
      have hset : List.Forall₂
          (ItemsAlike (holed here tag move (options.written s) (options.written t)) options) items
          (items.set place (.map (fields.insert name (.string t)))) :=
        forall₂_set hitem (hfit.itemsAlike_insert hlist hitem hfield) fun j z hj hz =>
          hfit.itemsAlike (fun field he => hj (Leaf.field.inj he).2.1) hlist hz
      unfold listFor
      rw [hget, if_pos rfl, hlist]
      revert hset
      generalize items.set place _ = items'
      intro hset
      cases hset with
      | nil => exact .error _
      | cons hfirst hrest => exact .ok (.cons hfirst hrest)
    · have hsame : listFor ((Leaf.field key place name).put t data) of other
          = listFor data of other := by
        unfold listFor
        rw [hget, if_neg hother]
      rw [hsame]
      cases hlist' : listFor data of other with
      | error e => exact .error e
      | ok items' =>
        refine .ok (List.forall₂_same.2 fun item hm => ?_)
        obtain ⟨j, hj⟩ := List.mem_iff_getElem?.1 hm
        exact hfit.itemsAlike (fun field he => hother (Leaf.field.inj he).1.symm)
          (list_of_listFor hlist') hj

/-- No placeholder stands for a string in a field. -/
theorem expandPlaceholder_put (hs : (Leaf.field key place name).string? data = some s)
    (placed : Nat) (other : String) :
    expandPlaceholder ((Leaf.field key place name).put t data) options placed other
      = expandPlaceholder data options placed other := by
  obtain ⟨items, fields, hlist, hitem, -⟩ := Leaf.string?_field_eq_some.1 hs
  rw [expandPlaceholder_eq, expandPlaceholder_eq, Leaf.get?_put hlist hitem]
  by_cases hother : key = other
  · subst hother
    simp only [hlist, if_true, Option.elim_some, expandValue, scalarText?_list]
    rfl
  · rw [if_neg hother]

/-! ### Conditions on what stands around a string -/

/-- Whether tags stand in character data, and no markup in markup. -/
def TagsInCharacterData (inside : Bool) : List Token → Prop
  | [] => True
  | .tag _ :: ts => inside = false ∧ TagsInCharacterData false ts
  | .char c :: ts =>
    (inside = true → c ≠ '<') ∧ TagsInCharacterData (Markup.inMarkup inside [c]) ts

instance instDecidableTagsInCharacterData (inside : Bool) :
    (ts : List Token) → Decidable (TagsInCharacterData inside ts)
  | [] => isTrue trivial
  | .tag _ :: ts =>
    have := instDecidableTagsInCharacterData false ts
    inferInstanceAs (Decidable (_ ∧ _))
  | .char c :: ts =>
    have := instDecidableTagsInCharacterData (Markup.inMarkup inside [c]) ts
    inferInstanceAs (Decidable (_ ∧ _))

/-- What must hold around a string at a leaf: all braces of the template belong to tags, and no
other string in a field has braces. When the template marks table rows, its tags must stand in
character data as well, and what is written for strings in fields must have no angle brackets. -/
structure Leaf.Clear (options : Options) (template : List Char) (data : DataTree) (leaf : Leaf)
    (t : String) : Prop where
  braces : BracesInTags options.window template
  others : ∀ key place name u, .field key place name ≠ leaf →
    (Leaf.field key place name).string? data = some u → BraceFree u.toList
  rows : (∀ t ∈ tokens options.window template, t.isMark = false) ∨
    TagsInCharacterData false (tokens options.window template) ∧
      (∀ key place name u, (Leaf.field key place name).string? data = some u →
        AngleFree (options.written u)) ∧ AngleFree (options.written t)

theorem aligned_unmarked {window : Nat} {ts : List Token} (h : ∀ t ∈ ts, t.Proper window)
    (hmark : ∀ t ∈ ts, t.isMark = false) :
    Aligned (holed () (fun t => t.Fits window ∧ (Token.tag t).isMark = false)
      (fun _ o _ => ∀ c, o = some c → isBrace c = false) w w') () () ts ts := by
  induction ts with
  | nil => exact .nil ()
  | cons t ts ih =>
    rw [List.forall_mem_cons] at h hmark
    have ih := ih h.2 hmark.2
    cases t with
    | tag t => exact .tag ⟨h.1, hmark.1⟩ ih
    | char c =>
      refine .block (a := [c]) (b := [c]) ⟨some c, ?_, rfl, rfl⟩ ih
      rintro d ⟨⟩
      exact h.1

theorem TagsInCharacterData.aligned {window : Nat} {ts : List Token} {inside : Bool}
    (hdata : TagsInCharacterData inside ts) (h : ∀ t ∈ ts, t.Proper window) :
    ∃ q, Aligned (inCharacterData window w w') inside q ts ts := by
  induction ts generalizing inside with
  | nil => exact ⟨inside, .nil inside⟩
  | cons t ts ih =>
    rw [List.forall_mem_cons] at h
    cases t with
    | tag t =>
      obtain ⟨rfl, hdata⟩ := hdata
      obtain ⟨q, hq⟩ := ih hdata h.2
      exact ⟨q, .tag h.1 hq⟩
    | char c =>
      obtain ⟨q, hq⟩ := ih hdata.2 h.2
      have hmove : markupMove inside (some c) (Markup.inMarkup inside [c]) := by
        cases inside <;> exact ⟨h.1, hdata.1, rfl⟩
      exact ⟨q, .block (a := [c]) (b := [c]) ⟨some c, hmove, rfl, rfl⟩ hq⟩

theorem isBrace_of_isScalarChar {c : Char} (h : isScalarChar c = true) : isBrace c = false := by
  rw [isScalarChar, Bool.or_eq_true, List.contains_iff_mem] at h
  rcases h with h | h
  · exact isBrace_of_isNumeric h
  · exact (plain_of_mem_entity h).1

theorem ne_angle_of_isScalarChar {c : Char} (h : isScalarChar c = true) : c ≠ '<' := by
  rintro rfl
  revert h
  decide

/-- Rows that are not marked stay as they are. -/
theorem alike_expandTables_unmarked {data' : DataTree} {us vs : List Token} {p q : σ}
    (hw : Harmless options.window w) (hw' : Harmless options.window w')
    (htag : ∀ t, tag t → t.Fits options.window ∧ (Token.tag t).isMark = false)
    (hmove : ∀ {p c q}, move p (some c) q → isBrace c = false)
    (h : Aligned (holed here tag move w w') p q us vs) :
    Alike (holed here tag move w w') p q (expandTables data options (us.flatMap Token.text))
      (expandTables data' options (vs.flatMap Token.text)) := by
  obtain ⟨hreadu, hreadv⟩ := h.spellLoops_tokens hw hw' (fun t ht => (htag t ht).1) hmove
  have hmark : ∀ ts : List Token, (∀ t, .tag t ∈ ts → tag t) →
      spellLoops (tokens options.window (ts.flatMap Token.text)) = spellLoops ts →
      ∀ t ∈ tokens options.window (ts.flatMap Token.text), t.isMark = false := by
    intro ts hts hread
    refine isMark_eq_false_of_notMem fun name hm => ?_
    rw [← tag_mem_spellLoops (by simp), hread, tag_mem_spellLoops (by simp)] at hm
    exact Bool.noConfusion (htag _ (hts _ hm)).2
  rw [expandTables_of_no_mark (hmark us (fun t ht => h.tag_of_mem (Or.inl ht)) hreadu),
    expandTables_of_no_mark (hmark vs (fun t ht => h.tag_of_mem (Or.inr ht)) hreadv)]
  exact ⟨⟨us, vs, h, rfl, rfl⟩, rfl⟩

end Fields

/-- **A harmless string in a field is emitted**, in a template and with data around it that do not
add to it. -/
theorem emitted_field {options : Options} {template : List Char} {data : DataTree}
    {key name s t : String} {place : Nat} (hs : (Leaf.field key place name).string? data = some s)
    (hharmless : Harmless options.window (options.written s)) (ht : BraceFree t.toList)
    (hclear : (Leaf.field key place name).Clear options template data t) :
    (Leaf.field key place name).Emitted options template data s t := by
  have hproper := proper_of_bracesInTags hclear.braces
  have hharmless' : Harmless options.window (options.written t) :=
    harmless_of_braceFree (braceFree_written ht)
  have hvalues : ∀ placed other,
      Alike (anywhere (options.written s) (options.written t)) () ()
        (expandPlaceholder data options placed other)
        (expandPlaceholder ((Leaf.field key place name).put t data) options placed other) := by
    intro placed other
    rw [expandPlaceholder_put hs]
    exact alike_anywhere_self _
  apply Leaf.emitted_of_sameBut
  rcases hclear.rows with hmark | ⟨hdata, hangle, hangle'⟩
  · -- no row is marked, so it does not matter where markup stands
    have hfit : Fitting () (fun _ o _ => ∀ c, o = some c → isBrace c = false) options data
        (.field key place name) := by
      refine ⟨nofun, ?_, ?_⟩
      · rintro c hc d ⟨⟩
        exact isBrace_of_isScalarChar hc
      · rintro key' place' name' u hne hu c hc d ⟨⟩
        exact braceFree_written (hclear.others key' place' name' u hne hu) c hc
    exact sameBut_expand hharmless hharmless' (fun t ht => ht.1) (fun h => h _ rfl)
      (aligned_unmarked hproper hmark) (hfit.dataAlike_put hs)
      (alike_expandTables_unmarked hharmless hharmless' (fun t ht => ht) (fun h => h _ rfl)) hvalues
  · -- both texts have the same markup, so that rows are found at the same places
    have hfit : Fitting false markupMove options data (.field key place name) := by
      have hmove : ∀ c, isBrace c = false → c ≠ '<' → markupMove false (some c) false := by
        intro c hc hne
        refine ⟨hc, nofun, ?_⟩
        simpa [Markup.inMarkup] using hne
      refine ⟨rfl, fun c hc => ?_, fun key' place' name' u hne hu c hc => ?_⟩
      · exact hmove c (isBrace_of_isScalarChar hc) (ne_angle_of_isScalarChar hc)
      · exact hmove c (braceFree_written (hclear.others key' place' name' u hne hu) c hc)
          (hangle key' place' name' u hu c hc).1
    have halike : DataAlike
        (inCharacterData options.window (options.written s) (options.written t)) options data
        ((Leaf.field key place name).put t data) := hfit.dataAlike_put hs
    obtain ⟨q, hq⟩ : ∃ q, Aligned
        (inCharacterData options.window (options.written s) (options.written t)) false q
        (tokens options.window template) (tokens options.window template) := hdata.aligned hproper
    exact sameBut_expand hharmless hharmless' (fun t ht => ht) isBrace_of_markupMove hq halike
      (fun h => h.expandTables hharmless hharmless' (hangle key place name s hs) hangle' halike)
      hvalues

end MailMerge
