import MailMerge.Proofs.Shrinking

/-!
# Strings that spell tags

A string in a field that is not harmless spells a tag, with copies of itself and texts without
braces (`exists_tag_of_not_harmless`); two copies with a text between suffice. Whatever tag it is,
unless one that opens a loop, there is a template in which it is resolved: alone if it is a
placeholder, a mark of a row or a closed conditional, else with the other half of a conditional
around it. What comes of that template is too short for the string to be emitted
(`harmless_of_fieldsEmitted`).
-/

namespace MailMerge

/-! ### Copies that spell a tag -/

section Copies

variable {window : Nat} {w : List Char}

/-- What closes a tag stands in a copy, behind a text without braces. -/
theorem exists_closing (hw : ¬BraceFree w) {context : List (Option Char)}
    (hcontext : ∀ c, some c ∈ context → isBrace c = false) {e rest : List Char}
    (he : BraceFree e) (h : fill w context = e ++ '}' :: rest) :
    ∃ m e' r, e = m ++ e' ∧ w = e' ++ '}' :: r := by
  induction context generalizing e with
  | nil => simp at h
  | cons o context ih =>
    have ih := @ih fun c hc => hcontext c (List.mem_cons_of_mem _ hc)
    cases o with
    | some c =>
      cases e with
      | nil =>
        obtain rfl : c = '}' := (List.cons.inj h).1
        exact absurd (hcontext '}' List.mem_cons_self) (by decide)
      | cons d e =>
        obtain ⟨m, e', r, rfl, hr⟩ := ih (braceFree_cons.1 he).2 (List.cons.inj h).2
        exact ⟨d :: m, e', r, rfl, hr⟩
    | none =>
      rcases List.append_eq_append_iff.1 (show w ++ fill w context = e ++ '}' :: rest from h) with
        ⟨u, rfl, -⟩ | ⟨u, hu, hrest⟩
      · exact absurd (braceFree_append.1 he).1 hw
      · cases u with
        | nil =>
          rw [List.append_nil] at hu
          exact absurd (hu ▸ he) hw
        | cons d u =>
          obtain ⟨rfl, -⟩ := List.cons.inj hrest
          exact ⟨[], e, u, rfl, hu⟩

/-- A tag that copies of a text spell is spelled by two of them, or by one. -/
theorem exists_spelled {t : Tag} (ht : t.Fits window) {context : List (Option Char)}
    (hcontext : ∀ c, some c ∈ context → isBrace c = false) {a rest : List Char}
    (h : fill w context = a ++ (t.text ++ rest)) :
    ∃ m, BraceFree m ∧ .tag t ∈ tokens window (w ++ (m ++ w)) := by
  have hread : ∀ m x y, w ++ (m ++ w) = x ++ (t.text ++ y) →
      .tag t ∈ tokens window (w ++ (m ++ w)) := by
    intro m x y hxy
    rw [hxy, tokens_append_text_append ht]
    exact List.mem_append.2 (Or.inr List.mem_cons_self)
  induction context generalizing a with
  | nil => simp [Tag.text] at h
  | cons o context ih =>
    have hrest : ∀ c, some c ∈ context → isBrace c = false :=
      fun c hc => hcontext c (List.mem_cons_of_mem _ hc)
    cases o with
    | some c =>
      cases a with
      | nil =>
        obtain rfl : c = '{' := (List.cons.inj h).1
        exact absurd (hcontext '{' List.mem_cons_self) (by decide)
      | cons d a => exact ih hrest (List.cons.inj h).2
    | none =>
      rcases List.append_eq_append_iff.1
        (show w ++ fill w context = a ++ (t.text ++ rest) from h) with ⟨u, -, hu⟩ | ⟨u, hw, hu⟩
      · exact ih hrest hu
      rcases List.append_eq_append_iff.1 hu with ⟨e, hspan, -⟩ | ⟨e, hspan, hfill⟩
      · -- the tag lies in this copy
        exact ⟨[], braceFree_nil, hread [] a (e ++ w) (by simp [hw, hspan])⟩
      cases u with
      | nil => exact ih hrest (a := []) (by rw [hfill, hspan]; rfl)
      | cons d u =>
        obtain ⟨rfl, -⟩ := List.cons.inj hspan
        rcases List.eq_nil_or_concat e with rfl | ⟨e, d, rfl⟩
        · exact ⟨[], braceFree_nil, hread [] a w (by simp [hw, hspan])⟩
        -- the tag begins in this copy and ends in a later one
        have hinner : t.inner ++ ['}'] = (u ++ e) ++ [d] := by simpa [Tag.text] using hspan
        obtain ⟨hbody, hd⟩ := List.append_inj' hinner rfl
        obtain rfl : '}' = d := by simpa using hd
        have hfree := hbody ▸ Tag.braceFree_inner ht.named
        have hbrace : ¬BraceFree w := by
          intro hbrace
          exact absurd (hbrace '{' (by simp [hw])) (by decide)
        obtain ⟨m, e', r, rfl, hr⟩ := exists_closing hbrace hrest (braceFree_append.1 hfree).2
          (by simpa using hfill)
        refine ⟨m, (braceFree_append.1 (braceFree_append.1 hfree).2).1, hread m a r ?_⟩
        calc w ++ (m ++ w) = (a ++ '{' :: u) ++ (m ++ (e' ++ '}' :: r)) := by rw [← hw, ← hr]
          _ = a ++ (t.text ++ r) := by simp [Tag.text, hbody]

/-- A text that is not harmless spells a tag, other than the opening of a loop, between two copies.
-/
theorem exists_tag_of_not_harmless (h : ¬Harmless window w) :
    ∃ m t, BraceFree m ∧ .tag t ∈ tokens window (w ++ (m ++ w)) ∧ ∀ name, t ≠ .loopOpen name := by
  refine Classical.byContradiction fun hno => h fun context hcontext t ht => ?_
  refine Classical.byContradiction fun hloop => hno ?_
  obtain ⟨a, rest, hfill⟩ := exists_append_of_mem_tokens ht
  obtain ⟨m, hm, hspelled⟩ := exists_spelled (fits_of_mem_tokens ht) hcontext hfill
  exact ⟨m, t, hm, hspelled, fun name he => hloop ⟨name, he⟩⟩

end Copies

/-! ### A loop over one item -/

section Loop

variable {data : DataTree} {options : Options}

theorem text_expandLoops_append {us : List Token} (hu : ∀ name, .tag (.loopOpen name) ∉ us)
    (ts : List Token) :
    (expandLoops data options (us ++ ts)).text
      = us.flatMap Token.text ++ (expandLoops data options ts).text := by
  induction us with
  | nil => rfl
  | cons u us ih =>
    have hhead : ∀ name, u ≠ .tag (.loopOpen name) := by
      rintro name rfl
      exact hu name List.mem_cons_self
    rw [List.cons_append, expandLoops_cons hhead, Expansion.text_append,
      ih fun name hm => hu name (List.mem_cons_of_mem _ hm), List.flatMap_cons, List.append_assoc]
    rfl

/-- A loop gives way to the copy of its body for the one item. -/
theorem text_expandLoops_loop {key : String} {item : Value} (hitems : itemsOf data key = [item])
    {us body vs : List Token} (hu : ∀ name, .tag (.loopOpen name) ∉ us)
    (hv : ∀ name, .tag (.loopOpen name) ∉ vs) (hbody : .tag (.close key) ∉ body) :
    (expandLoops data options
        (us ++ .tag (.loopOpen key) :: (body ++ .tag (.close key) :: vs))).text =
      us.flatMap Token.text ++ ((body.flatMap (fieldTokens options .loop item)).flatMap Token.text
        ++ vs.flatMap Token.text) := by
  have hvs : (expandLoops data options (vs ++ [])).text = _ := text_expandLoops_append hv []
  rw [List.append_nil, expandLoops_nil] at hvs
  rw [text_expandLoops_append hu, expandLoops_closed (closedBy?_eq_some hbody _),
    Expansion.text_append, text_expandLoop, hitems, hvs]
  simp

/-- Data that hold one list of one item with one field. -/
def singleField (key name s : String) : DataTree :=
  ⟨[(key, .list [.map ⟨[(name, .string s)]⟩])]⟩

variable {key name s : String}

theorem get?_singleField (other : String) : (singleField key name s).get? other
    = if key = other then some (.list [.map ⟨[(name, .string s)]⟩]) else none := by
  unfold singleField Fields.get? Fields.getEntry?
  by_cases h : key = other <;> simp [h]

/-- The copy of a field for the one item. -/
theorem fieldTokens_single (of : Repetition) :
    fieldTokens options of (.map ⟨[(name, .string s)]⟩) (.tag (.simple name))
      = (options.written s).map .char := by
  simp [fieldTokens, fieldText, Value.field?, Fields.get?, Fields.getEntry?, scalarText?_string]

theorem itemsOf_single (h : data.get? key = some (.list [.map ⟨[(name, .string s)]⟩])) :
    itemsOf data key = [.map ⟨[(name, .string s)]⟩] := by
  simp [itemsOf, h, Value.isNull]

theorem text_expandPlaceholder_singleField (placed : Nat) (other : String) :
    (expandPlaceholder (singleField key name s) options placed other).text = [] := by
  rw [expandPlaceholder_eq, get?_singleField]
  split
  · simp only [Option.elim_some, expandValue, scalarText?_list]
    rfl
  · rfl

/-- The template `{#key}{name}{/key}`. -/
def loopOver (key name : String) : List Char :=
  (Tag.loopOpen key).text ++ ((Tag.simple name).text ++ (Tag.close key).text)

theorem fits_close (h : (Tag.loopOpen key).Fits options.window) :
    (Tag.close key).Fits options.window :=
  ⟨h.named, h.size⟩

/-- In a loop over one item, what is read behind the loops is the string itself. -/
theorem text_expand_loopOver (hkey : (Tag.loopOpen key).Fits options.window)
    (hname : (Tag.simple name).Fits options.window)
    (h : data.get? key = some (.list [.map ⟨[(name, .string s)]⟩])) :
    (expand data options (loopOver key name)).text
      = settled data options (options.written s) := by
  have hread : tokens options.window (loopOver key name)
      = [.tag (.loopOpen key), .tag (.simple name), .tag (.close key)] := by
    have hclose : (Tag.close key).text = (Tag.close key).text ++ [] := by simp
    rw [loopOver, tokens_text_append hkey, tokens_text_append hname, hclose,
      tokens_text_append (fits_close hkey), tokens_nil]
  have hbody : .tag (.close key) ∉ [Token.tag (.simple name)] := by simp
  have hnone : ∀ other, .tag (.loopOpen other) ∉ ([] : List Token) := fun _ => List.not_mem_nil
  have hloops : (expandLoops data options _).text = _ :=
    text_expandLoops_loop (itemsOf_single h) hnone hnone hbody
  simp only [List.nil_append, List.flatMap_nil, List.append_nil, List.flatMap_cons,
    fieldTokens_single, flatMap_text_map_tokenChar, List.cons_append] at hloops
  rw [text_expand_eq_settled, hread, hloops]

end Loop

/-! ### A string twice in a text -/

/-- Whether a string in a field is emitted, in all templates and with all data around it that do not
add to it. -/
def FieldsEmitted (options : Options) (s : String) : Prop :=
  ∀ (template : List Char) (data : DataTree) (key : String) (place : Nat) (name t : String),
    (Leaf.field key place name).string? data = some s → BraceFree t.toList →
      (Value.string t).isTruthy = (Value.string s).isTruthy →
        (Leaf.field key place name).Clear options template data t →
          (Leaf.field key place name).Emitted options template data s t

/-- A loop that puts a field into the text twice, with a text between, among other tokens. -/
def twice (key name : String) (m : List Char) (us vs : List Token) : List Token :=
  us ++ .tag (.loopOpen key) ::
    ((.tag (.simple name) :: (m.map .char ++ [.tag (.simple name)])) ++ .tag (.close key) :: vs)

section Twice

variable {options : Options} {key name s t : String} {m : List Char} {us vs : List Token}

/-- The text behind the loops, with the string put in twice. -/
theorem text_expand_twice (hproper : ∀ t ∈ twice key name m us vs, t.Proper options.window)
    (hu : ∀ other, .tag (.loopOpen other) ∉ us) (hv : ∀ other, .tag (.loopOpen other) ∉ vs) :
    (expand (singleField key name s) options ((twice key name m us vs).flatMap Token.text)).text
      = settled (singleField key name s) options (us.flatMap Token.text
        ++ ((options.written s ++ (m ++ options.written s)) ++ vs.flatMap Token.text)) := by
  have hitems : itemsOf (singleField key name s) key = [.map ⟨[(name, .string s)]⟩] :=
    itemsOf_single (by rw [get?_singleField, if_pos rfl])
  have hbody : .tag (.close key) ∉
      Token.tag (.simple name) :: (m.map .char ++ [.tag (.simple name)]) := by
    simp
  have hcopy : ((Token.tag (.simple name) :: (m.map .char ++ [.tag (.simple name)])).flatMap
      (fieldTokens options .loop (.map ⟨[(name, .string s)]⟩))).flatMap Token.text
      = options.written s ++ (m ++ options.written s) := by
    simp only [List.flatMap_cons, List.flatMap_nil, List.append_nil, fieldTokens_single,
      flatMap_fieldTokens_map_char, List.flatMap_append, flatMap_text_map_tokenChar]
  rw [text_expand_eq_settled, tokens_flatMap_text hproper, twice,
    text_expandLoops_loop hitems hu hv hbody, hcopy]

theorem string?_singleField {key' name' r : String} {place : Nat}
    (h : (Leaf.field key' place name').string? (singleField key name s) = some r) :
    Leaf.field key' place name' = .field key 0 name ∧ r = s := by
  obtain ⟨items, fields, hlist, hitem, hfield⟩ := Leaf.string?_field_eq_some.1 h
  rw [get?_singleField] at hlist
  split at hlist
  · next hkey =>
    cases hlist
    cases place with
    | succ place => simp at hitem
    | zero =>
      cases hitem
      simp only [Fields.get?, Fields.getEntry?] at hfield
      by_cases hname : name = name'
      · subst hkey hname
        simp only [List.find?_cons_of_pos, BEq.rfl, Option.map_some, Option.some.injEq,
          Value.string.injEq] at hfield
        exact ⟨rfl, hfield.symm⟩
      · simp [hname] at hfield
  · cases hlist

theorem put_singleField :
    (Leaf.field key 0 name).put t (singleField key name s) = singleField key name t := by
  have hget : (singleField key name s).get? key = some (.list [.map ⟨[(name, .string s)]⟩]) := by
    rw [get?_singleField, if_pos rfl]
  simp only [Leaf.put, hget]
  simp [singleField, Fields.insert, Fields.insertEntry]

/-- In a context that is filled, copies count alike. -/
theorem exists_length_fill (context : List (Option Char)) :
    ∃ a b : Nat, ∀ w : List Char, (fill w context).length = a + b * w.length := by
  induction context with
  | nil => exact ⟨0, 0, by simp⟩
  | cons o context ih =>
    obtain ⟨a, b, h⟩ := ih
    cases o with
    | none =>
      refine ⟨a, b + 1, fun w => ?_⟩
      rw [fill_cons, List.length_append, h, filled, Nat.add_mul]
      omega
    | some c =>
      refine ⟨a + 1, b, fun w => ?_⟩
      rw [fill_cons, List.length_append, h, filled, List.length_singleton]
      omega

theorem written_replicate (options : Options) (n : Nat) :
    options.written (String.ofList (List.replicate n 'x')) = List.replicate n 'x' := by
  have hescape : Markup.escape (List.replicate n 'x') = List.replicate n 'x' := by
    induction n with
    | zero => rfl
    | succ n ih =>
      rw [List.replicate_succ, Markup.escape, List.flatMap_cons, ← Markup.escape, ih]
      rfl
  unfold Options.written
  rw [String.toList_ofList, hescape, ite_self]

theorem isTruthy_string (h : ∀ r ∈ ["", "false", "0"], s ≠ r) :
    (Value.string s).isTruthy = true := by
  simp only [List.forall_mem_cons] at h
  simp [Value.isTruthy, h]

theorem isTruthy_of_not_braceFree (h : ¬BraceFree s.toList) :
    (Value.string s).isTruthy = true := by
  refine isTruthy_string fun r hr => ?_
  rintro rfl
  exact h ((by decide : ∀ r ∈ ["", "false", "0"], BraceFree r.toList) s hr)

theorem isTruthy_replicate (n : Nat) :
    (Value.string (String.ofList (List.replicate (n + 1) 'x'))).isTruthy = true := by
  refine isTruthy_string fun r hr he => ?_
  have hhead := (by decide : ∀ r ∈ ["", "false", "0"], r.toList.head? ≠ some 'x') r hr
  rw [← he, String.toList_ofList, List.replicate_succ] at hhead
  exact hhead rfl

theorem braceFree_between {w : List Char} (hw : BraceFree w) (hm : BraceFree m) :
    BraceFree (w ++ (m ++ w)) := by
  simp only [braceFree_append]
  exact ⟨hw, hm, hw⟩

/-- When all strings without braces come through, and `s` comes out shorter than it should, no
context is filled by both. -/
theorem not_fieldsEmitted (hs : ¬BraceFree s.toList)
    (hproper : ∀ t ∈ twice key name m us vs, t.Proper options.window)
    (hmark : ∀ t ∈ us ++ vs, t.isMark = false) {n : Nat}
    (hfree : ∀ u : String, BraceFree u.toList →
      (expand (singleField key name u) options
        ((twice key name m us vs).flatMap Token.text)).text.length
        = n + 2 * (options.written u).length)
    (hshort : (expand (singleField key name s) options
        ((twice key name m us vs).flatMap Token.text)).text.length
        < n + 2 * (options.written s).length) : ¬FieldsEmitted options s := by
  intro hemitted
  obtain ⟨l, hl⟩ : ∃ l, l = n + 2 * (options.written s).length := ⟨_, rfl⟩
  have hfreet : BraceFree (String.ofList (List.replicate (l + 1) 'x')).toList := by
    rw [String.toList_ofList]
    intro c hc
    rw [List.eq_of_mem_replicate hc]
    decide
  have hread := tokens_flatMap_text hproper
  have hleaf : (Leaf.field key 0 name).string? (singleField key name s) = some s :=
    Leaf.string?_field_eq_some.2 ⟨_, _, by rw [get?_singleField, if_pos rfl], rfl,
      by simp [Fields.get?, Fields.getEntry?]⟩
  have hclear : (Leaf.field key 0 name).Clear options
      ((twice key name m us vs).flatMap Token.text) (singleField key name s)
      (String.ofList (List.replicate (l + 1) 'x')) := by
    refine ⟨bracesInTags_flatMap_text hproper,
      fun _ _ _ _ hne hr => absurd (string?_singleField hr).1 hne, Or.inl fun t ht => ?_⟩
    rw [hread] at ht
    simp only [twice, List.mem_append, List.mem_cons, List.mem_map, List.not_mem_nil,
      or_false] at ht hmark
    rcases ht with ht | rfl | (rfl | ⟨c, -, rfl⟩ | rfl) | rfl | ht
    · exact hmark t (Or.inl ht)
    · rfl
    · rfl
    · rfl
    · rfl
    · rfl
    · exact hmark t (Or.inr ht)
  obtain ⟨context, hout, hout', -⟩ := hemitted _ _ _ _ _ _ hleaf hfreet
    (by rw [isTruthy_of_not_braceFree hs, isTruthy_replicate]) hclear
  obtain ⟨a, b, hfill⟩ := exists_length_fill context
  have hlength := hfree _ hfreet
  rw [put_singleField] at hout'
  rw [hout', hfill, written_replicate, List.length_replicate] at hlength
  rw [hout, hfill] at hshort
  -- a long string shows that the context has two holes, and `n` characters besides
  obtain _ | _ | _ | b := b
  · omega
  · omega
  · omega
  · have := Nat.mul_le_mul_right (l + 1) (by omega : 3 ≤ b + 1 + 1 + 1)
    omega

end Twice

/-! ### Every other tag makes a difference -/

section Harm

variable {options : Options}

/-- A name for a list that is as long as fits, so that no mark of a row has it. -/
def longName (window : Nat) : String :=
  String.ofList (List.replicate (window - 2) 'k')

theorem byteSize_replicate (n : Nat) : Text.byteSize (List.replicate n 'k') = n := by
  induction n with
  | zero => rfl
  | succ n ih =>
    have hk : ('k' : Char).utf8Size = 1 := rfl
    rw [List.replicate_succ, Text.byteSize_cons, ih, hk]
    omega

theorem fits_longName {window : Nat} (h : 2 < window) :
    (Tag.loopOpen (longName window)).Fits window := by
  refine ⟨?_, ?_⟩
  · obtain ⟨n, hn⟩ : ∃ n, window - 2 = n + 1 := ⟨window - 3, by omega⟩
    show isIdentifier (longName window).toList = true
    rw [longName, String.toList_ofList, hn, isIdentifier, Bool.and_eq_true, List.all_eq_true]
    refine ⟨rfl, fun c hc => ?_⟩
    rw [List.eq_of_mem_replicate hc]
    decide
  · have hhash : ('#' : Char).utf8Size = 1 := rfl
    rw [Tag.inner, longName, String.toList_ofList, Text.byteSize_cons, byteSize_replicate, hhash]
    omega

/-- No mark of a row that fits has items in these data. -/
theorem rowless_singleField (h : 2 < options.window) (name s : String) (r : List Char) :
    Rowless (singleField (longName options.window) name s) options r := by
  refine Or.inr fun other row hfits => ?_
  have hne : longName options.window ≠ other := by
    rintro rfl
    have hsize := hfits.size
    rw [Tag.inner, Text.byteSize_append, longName, String.toList_ofList,
      byteSize_replicate] at hsize
    have hword : Text.byteSize Tag.tableWord = 6 := rfl
    omega
  rw [expandRow_eq, tableProblem?, get?_singleField, if_neg hne]
  rfl

theorem tokens_map_tag_append {window : Nat} {us vs : List Tag} (hu : ∀ t ∈ us, t.Fits window)
    (hv : ∀ t ∈ vs, t.Fits window) (s : List Char) :
    tokens window ((us.map Token.tag).flatMap Token.text
        ++ (s ++ (vs.map Token.tag).flatMap Token.text))
      = us.map .tag ++ (tokens window s ++ vs.map .tag) := by
  have hproper : ∀ ts : List Tag, (∀ t ∈ ts, t.Fits window) →
      ∀ t ∈ ts.map Token.tag, t.Proper window := by
    intro ts hts t ht
    obtain ⟨t, htag, rfl⟩ := List.mem_map.1 ht
    exact hts t htag
  rw [tokens_flatMap_text_append (hproper us hu)]
  cases vs with
  | nil => simp
  | cons t vs =>
    rw [List.forall_mem_cons] at hv
    rw [List.map_cons, List.flatMap_cons, Token.text, tokens_append_text_append hv.1,
      tokens_flatMap_text (hproper vs hv.2)]

/-- What conditionals leave is all there is to settle. -/
theorem settled_eq_of_conditionals {data : DataTree} {s r : List Char}
    (h : (expandConditionals data (tokens options.window s)).text = r)
    (hr : Quiet (tokens options.window r)) : settled data options s = r := by
  have hsame := settled_eq data hr
  rw [settled, text_expandConditionals_tokens data hr.conditional] at hsame
  rw [settled, h, hsame]

/-- Tags that only close, or only open conditionals, are of no consequence. -/
theorem quiet_of_tags {ts : List Token}
    (h : (∀ t, .tag t ∈ ts → ∃ name, t = .close name) ∨
      ∀ t, .tag t ∈ ts → ∃ name, t = .condOpen name) : Quiet ts := by
  have hother : ∀ t, .tag t ∈ ts → ∃ name, t = .close name ∨ t = .condOpen name := by
    intro t ht
    rcases h with h | h
    · exact (h t ht).imp fun _ => Or.inl
    · exact (h t ht).imp fun _ => Or.inr
  refine ⟨fun name hm => ?_, fun name hm => ?_, ?_⟩
  · simpa using hother _ hm
  · simpa using hother _ hm
  · rintro ⟨name, us, vs, rfl, hclose⟩
    have hopen : .tag (.condOpen name) ∈ us ++ .tag (.condOpen name) :: vs :=
      List.mem_append.2 (Or.inr List.mem_cons_self)
    have hclose' : .tag (.close name) ∈ us ++ .tag (.condOpen name) :: vs :=
      List.mem_append.2 (Or.inr (List.mem_cons_of_mem _ hclose))
    rcases h with h | h
    · simpa using h _ hopen
    · simpa using h _ hclose'

theorem quiet_map_char (s : List Char) : Quiet (s.map .char) :=
  quiet_of_tags (Or.inl fun t ht => by simp at ht)

section Contexts

variable (hwindow : 2 < options.window) {s : String} {m : List Char} (hm : BraceFree m)
  {us vs : List Tag} (hu : ∀ t ∈ us, t.Fits options.window) (hv : ∀ t ∈ vs, t.Fits options.window)

include hwindow hm hu hv

theorem proper_twice : ∀ t ∈ twice (longName options.window) "f" m (us.map .tag) (vs.map .tag),
    t.Proper options.window := by
  have hlong := fits_longName hwindow
  have hfield : (Tag.simple "f").Fits options.window :=
    ⟨rfl, Nat.lt_of_lt_of_le (by decide : Text.byteSize (Tag.simple "f").inner < 3) hwindow⟩
  intro t ht
  simp only [twice, List.mem_append, List.mem_cons, List.mem_map, List.not_mem_nil,
    or_false] at ht
  rcases ht with ⟨t, ht, rfl⟩ | rfl | (rfl | ⟨c, hc, rfl⟩ | rfl) | rfl | ⟨t, ht, rfl⟩
  · exact hu t ht
  · exact hlong
  · exact hfield
  · exact hm c hc
  · exact hfield
  · exact fits_close hlong
  · exact hv t ht

/-- A string is not emitted when, with copies of it in a text, a tag is resolved that would not be
with characters in their place. -/
theorem not_fieldsEmitted_of_not_quiet (hs : ¬BraceFree s.toList)
    (hplain : ∀ t ∈ us ++ vs, (∀ name, t ≠ .loopOpen name) ∧ (Token.tag t).isMark = false)
    (hfree : ∀ r : List Char, Quiet (us.map .tag ++ (r.map .char ++ vs.map .tag)))
    (hloud : ¬Quiet (us.map .tag ++ (tokens options.window
      (options.written s ++ (m ++ options.written s)) ++ vs.map .tag))) :
    ¬FieldsEmitted options s := by
  have hproper := proper_twice hwindow hm hu hv
  have hloop : ∀ (ts : List Tag), (∀ t ∈ ts, t ∈ us ++ vs) →
      ∀ name, .tag (.loopOpen name) ∉ ts.map Token.tag := by
    intro ts hts name hmem
    obtain ⟨t, ht, he⟩ := List.mem_map.1 hmem
    exact (hplain t (hts t ht)).1 name (Token.tag.inj he)
  have htext : ∀ u : String,
      (expand (singleField (longName options.window) "f" u) options _).text = _ :=
    fun u => text_expand_twice hproper (hloop us fun t ht => List.mem_append.2 (Or.inl ht))
      (hloop vs fun t ht => List.mem_append.2 (Or.inr ht))
  refine not_fieldsEmitted (n := ((us.map Token.tag).flatMap Token.text).length
    + (m.length + ((vs.map Token.tag).flatMap Token.text).length)) hs hproper ?_ ?_ ?_
  · intro t ht
    rw [← List.map_append] at ht
    obtain ⟨tag, htag, rfl⟩ := List.mem_map.1 ht
    exact (hplain tag htag).2
  · intro u hfreeu
    have hbrace : BraceFree (options.written u ++ (m ++ options.written u)) :=
      braceFree_between (braceFree_written hfreeu) hm
    rw [htext, settled_eq]
    · simp only [List.length_append]
      omega
    · rw [tokens_map_tag_append hu hv, tokens_of_braceFree hbrace]
      exact hfree _
  · rw [← tokens_map_tag_append hu hv] at hloud
    -- something is taken away, and nothing is put in its place
    have hlt := length_settled_lt text_expandPlaceholder_singleField
      (rowless_singleField hwindow "f" s _) hloud
    rw [htext]
    simp only [List.length_append] at hlt ⊢
    omega

end Contexts

theorem length_branches_lt_of_otherwise {ts : List Token}
    (hopen : ∀ name, .tag (.condOpen name) ∉ ts) (hother : .tag .otherwise ∈ ts) :
    ((branches [] ts).1.flatMap Token.text).length < (ts.flatMap Token.text).length := by
  induction ts with
  | nil => cases hother
  | cons t ts ih =>
    rw [branches]
    split
    · next h =>
      rw [List.flatMap_cons, h.2]
      simp [Token.text, Tag.text]
    · next h =>
      have hnest : nest [] t = [] := by
        unfold nest
        split
        · next name => exact absurd List.mem_cons_self (hopen name)
        · simp
        · rfl
      have hne : Token.tag .otherwise ≠ t := fun he => h ⟨rfl, he.symm⟩
      have hlt := ih (fun name hm => hopen name (List.mem_cons_of_mem _ hm))
        ((List.mem_cons.1 hother).resolve_left hne)
      rw [hnest, List.flatMap_cons, List.flatMap_cons, List.length_append, List.length_append]
      omega

/-- A conditional that is chosen, around a text without its closing tag. -/
theorem text_expandConditionals_around {data : DataTree} {key : String} {r : List Char}
    (hkey : (Tag.loopOpen key).Fits options.window) (hholds : holds data key = true)
    (hclose : .tag (.close key) ∉ tokens options.window r) :
    (expandConditionals data (tokens options.window
        ((Tag.condOpen key).text ++ (r ++ (Tag.close key).text)))).text
      = (expandConditionals data (branches [] (tokens options.window r)).1).text := by
  have hopen : (Tag.condOpen key).Fits options.window := ⟨hkey.named, hkey.size⟩
  have hread : tokens options.window (r ++ (Tag.close key).text)
      = tokens options.window r ++ [.tag (.close key)] := by
    have hcut := tokens_append_text_append (fits_close hkey) r []
    rwa [List.append_nil, tokens_nil] at hcut
  rw [tokens_text_append hopen, hread, expandConditionals_closed (closedBy?_eq_some hclose []),
    hholds, Expansion.text_append, Expansion.text_append, expandConditionals_nil]
  exact List.append_nil _

/-- A string is not emitted when a `{:else}` in it parts a conditional around it. -/
theorem not_fieldsEmitted_of_otherwise (hwindow : 2 < options.window) {s : String} {m : List Char}
    (hm : BraceFree m) (hs : ¬BraceFree s.toList)
    (hopen : ∀ name, .tag (.condOpen name)
      ∉ tokens options.window (options.written s ++ (m ++ options.written s)))
    (hclose : ∀ name, .tag (.close name)
      ∉ tokens options.window (options.written s ++ (m ++ options.written s)))
    (hother : .tag .otherwise
      ∈ tokens options.window (options.written s ++ (m ++ options.written s))) :
    ¬FieldsEmitted options s := by
  -- the loop stands in a conditional that holds, and `{:else}` cuts off what follows
  have hlong := fits_longName hwindow
  have hu : ∀ t ∈ [Tag.condOpen (longName options.window)], t.Fits options.window := by
    exact List.forall_mem_singleton.2 ⟨hlong.named, hlong.size⟩
  have hv : ∀ t ∈ [Tag.close (longName options.window)], t.Fits options.window := by
    exact List.forall_mem_singleton.2 (fits_close hlong)
  have hproper := proper_twice hwindow hm hu hv
  have hholds : ∀ u, holds (singleField (longName options.window) "f" u)
      (longName options.window) = true := by
    intro u
    rw [holds, get?_singleField, if_pos rfl]
    rfl
  have htext : ∀ u, (expand (singleField (longName options.window) "f" u) options _).text = _ :=
    fun u => text_expand_twice hproper (by simp) (by simp)
  refine not_fieldsEmitted (n := m.length) hs hproper (by simp [Token.isMark]) ?_ ?_
  · intro u hfreeu
    have hbrace : BraceFree (options.written u ++ (m ++ options.written u)) :=
      braceFree_between (braceFree_written hfreeu) hm
    have hread : tokens options.window (options.written u ++ (m ++ options.written u)) = _ :=
      tokens_of_braceFree hbrace
    have hbranch := branches_map_char_append [] (options.written u ++ (m ++ options.written u)) []
    rw [List.append_nil] at hbranch
    have hconds := text_expandConditionals_around hlong (hholds u)
      (by rw [hread]; simp : .tag (.close _) ∉ tokens options.window _)
    have hquiet := quiet_map_char (options.written u ++ (m ++ options.written u))
    rw [hread, hbranch, branches, List.append_nil,
      text_expandConditionals_of_not _ hquiet.conditional, flatMap_text_map_tokenChar] at hconds
    rw [htext]
    simp only [List.map_cons, List.map_nil, List.flatMap_cons, List.flatMap_nil, List.append_nil,
      Token.text]
    rw [settled_eq_of_conditionals hconds (hread ▸ hquiet)]
    simp only [List.length_append]
    omega
  · -- the branch ends at the first `{:else}` of the string
    have hsub := settled_sublist text_expandPlaceholder_singleField
      (rowless_singleField hwindow "f" s ((Tag.condOpen (longName options.window)).text
        ++ ((options.written s ++ (m ++ options.written s))
        ++ (Tag.close (longName options.window)).text)))
    rw [text_expandConditionals_around hlong (hholds s) (hclose _)] at hsub
    have hle := (hsub.trans (expandConditionals_sublist _ _)).length_le
    have hlt := length_branches_lt_of_otherwise hopen hother
    rw [text_tokens] at hlt
    rw [htext]
    simp only [List.map_cons, List.map_nil, List.flatMap_cons, List.flatMap_nil, List.append_nil,
      Token.text, List.length_append] at hle hlt ⊢
    omega

/-- A string that is not harmless is not emitted in some template. -/
theorem harmless_of_fieldsEmitted (hwindow : 2 < options.window) {s : String}
    (h : FieldsEmitted options s) : Harmless options.window (options.written s) := by
  refine Classical.byContradiction fun hharm => ?_
  have hs : ¬BraceFree s.toList :=
    fun hfree => hharm (harmless_of_braceFree (braceFree_written hfree))
  obtain ⟨m, t, hm, ht, hloop⟩ := exists_tag_of_not_harmless hharm
  have hnone : ∀ t ∈ ([] : List Tag), t.Fits options.window := by simp
  have hfits : ∀ {t}, .tag t ∈ tokens options.window
      (options.written s ++ (m ++ options.written s)) → t.Fits options.window := fits_of_mem_tokens
  by_cases hquiet : Quiet (tokens options.window (options.written s ++ (m ++ options.written s)))
  · by_cases hopen : ∃ name, .tag (.condOpen name)
      ∈ tokens options.window (options.written s ++ (m ++ options.written s))
    · -- a closing tag behind the loop closes a conditional of the string
      obtain ⟨name, hname⟩ := hopen
      have hv : ∀ t ∈ [Tag.close name], t.Fits options.window := by
        exact List.forall_mem_singleton.2 ⟨(hfits hname).named, (hfits hname).size⟩
      refine not_fieldsEmitted_of_not_quiet hwindow hm hnone hv hs (by simp [Token.isMark])
        (fun r => quiet_of_tags (Or.inl fun t ht => ⟨name, by simpa using ht⟩))
        (fun hloud => hloud.conditional ?_) h
      obtain ⟨as, bs, hsplit⟩ := List.append_of_mem hname
      exact ⟨name, as, bs ++ [.tag (.close name)], by simp [hsplit], by simp⟩
    by_cases hclose : ∃ name, .tag (.close name)
      ∈ tokens options.window (options.written s ++ (m ++ options.written s))
    · -- a closing tag of the string closes a conditional before the loop
      obtain ⟨name, hname⟩ := hclose
      have hu : ∀ t ∈ [Tag.condOpen name], t.Fits options.window := by
        exact List.forall_mem_singleton.2 ⟨(hfits hname).named, (hfits hname).size⟩
      refine not_fieldsEmitted_of_not_quiet hwindow hm hu hnone hs (by simp [Token.isMark])
        (fun r => quiet_of_tags (Or.inr fun t ht => ⟨name, by simpa using ht⟩))
        (fun hloud => hloud.conditional ?_) h
      exact ⟨name, [], _, rfl, by simpa using hname⟩
    · refine not_fieldsEmitted_of_otherwise hwindow hm hs (fun name hn => hopen ⟨name, hn⟩)
        (fun name hn => hclose ⟨name, hn⟩) ?_ h
      cases t with
      | otherwise => exact ht
      | simple name => exact absurd ht (hquiet.simple name)
      | table name => exact absurd ht (hquiet.table name)
      | loopOpen name => exact absurd rfl (hloop name)
      | condOpen name => exact absurd ⟨name, ht⟩ hopen
      | close name => exact absurd ⟨name, ht⟩ hclose
  · refine not_fieldsEmitted_of_not_quiet hwindow hm hnone hnone hs (by simp) (fun r => ?_) ?_ h
    · simpa using quiet_map_char r
    · simpa using hquiet

end Harm

end MailMerge
