import MailMerge.Proofs.NestedRows
import MailMerge.Proofs.Pictures
import MailMerge.Proofs.Rounds
import MailMerge.Proofs.Shapes

/-!
# Tags that are left over

A text **holds only** some tags when every brace in it belongs to a tag, and all its tags are among
them (`HoldsOnly`). Such texts can be put together, and cut at every character that stands in no
tag, so all passes go from such texts to such texts, when the data bring no braces of their own. It
does not matter whether blocks are nested or closed, or where rows start and stop.

No pass brings tags that were not there before. The table pass leaves no mark of a row behind,
since a row that is copied loses its marks, and the next round goes on behind it
(`HoldsOnly.expandTables`). The pass for placeholders leaves none of those
(`HoldsOnly.expandPlaceholders`). So only tags of loops and conditionals can be left over from a
template (`expand_leaves_blocks`).
-/

namespace MailMerge

/-! ### Texts that hold only some tags -/

/-- A character that is no brace, or one of some tags, which fits. -/
def Token.IsAmong (window : Nat) (P : Tag → Prop) : Token → Prop
  | char c => isBrace c = false
  | tag t => t.Fits window ∧ P t

/-- A tag that marks no row. -/
def Tag.IsUnmarked (t : Tag) : Prop :=
  ∀ name, t ≠ .table name

/-- Every brace of a text belongs to a tag, and its tags are among those that are given. -/
def HoldsOnly (window : Nat) (P : Tag → Prop) (s : List Char) : Prop :=
  ∀ t ∈ tokens window s, t.IsAmong window P

section HoldsOnly

variable {window : Nat} {P Q : Tag → Prop} {s r : List Char} {ts us : List Token}

theorem Token.IsAmong.proper {t : Token} (h : t.IsAmong window P) : t.Proper window := by
  cases t with
  | char c => exact h
  | tag t => exact h.1

theorem Token.IsAmong.mono (hPQ : ∀ t, P t → Q t) {t : Token} (h : t.IsAmong window P) :
    t.IsAmong window Q := by
  cases t with
  | char c => exact h
  | tag t => exact ⟨h.1, hPQ t h.2⟩

theorem isAmong_of_braceFree (h : BraceFree s) :
    ∀ t ∈ s.map Token.char, t.IsAmong window P :=
  List.forall_mem_map.2 h

namespace HoldsOnly

theorem mono (hPQ : ∀ t, P t → Q t) (h : HoldsOnly window P s) : HoldsOnly window Q s :=
  fun t ht => (h t ht).mono hPQ

/-- The text of a list of such tokens. -/
theorem of_tokens (h : ∀ t ∈ ts, t.IsAmong window P) :
    HoldsOnly window P (ts.flatMap Token.text) := by
  rwa [HoldsOnly, tokens_flatMap_text fun t ht => (h t ht).proper]

theorem of_token {t : Token} (h : t.IsAmong window P) : HoldsOnly window P t.text := by
  have hall : ∀ u ∈ [t], u.IsAmong window P := by
    rw [List.forall_mem_singleton]
    exact h
  simpa using of_tokens hall

theorem of_braceFree (h : BraceFree s) : HoldsOnly window P s := by
  rw [← flatMap_text_map_tokenChar s]
  exact of_tokens (isAmong_of_braceFree h)

theorem append (hs : HoldsOnly window P s) (hr : HoldsOnly window P r) :
    HoldsOnly window P (s ++ r) := by
  rw [← text_tokens window s, ← text_tokens window r, ← List.flatMap_append]
  exact of_tokens (List.forall_mem_append.2 ⟨hs, hr⟩)

/-- A text can be cut at a character that stands in no tag. -/
theorem append_cons_iff {d : Char} (hd : Tag.isSeparator d = true) :
    HoldsOnly window P (s ++ d :: r) ↔ HoldsOnly window P s ∧ HoldsOnly window P r := by
  have hbrace : (Token.char d).IsAmong window P := by
    simp only [Tag.isSeparator, Bool.and_eq_true, Bool.not_eq_true'] at hd
    exact hd.1.1.1.1.1
  rw [HoldsOnly, tokens_append_separator hd, List.forall_mem_append, List.forall_mem_cons]
  exact and_congr_right fun _ => and_iff_right hbrace

/-- A text can be cut at a written tag. -/
theorem append_text_append_iff {t : Tag} (ht : t.Fits window) :
    HoldsOnly window P (s ++ (t.text ++ r)) ↔
      HoldsOnly window P s ∧ P t ∧ HoldsOnly window P r := by
  rw [HoldsOnly, tokens_append_text_append ht, List.forall_mem_append, List.forall_mem_cons]
  exact and_congr_right fun _ => and_congr_left fun _ => and_iff_right ht

end HoldsOnly

end HoldsOnly

/-- A text holds only its own tags, if every brace in it belongs to one. -/
theorem BracesInTags.holdsOnly {window : Nat} {s : List Char} (h : BracesInTags window s) :
    HoldsOnly window (fun t => .tag t ∈ tokens window s) s := by
  intro t ht
  cases t with
  | char c => exact h c ht
  | tag t => exact ⟨fits_of_mem_tokens ht, ht⟩

/-! ### Copies for items -/

section Passes

variable {P : Tag → Prop} {data : DataTree} {options : Options} {s : List Char} {ts : List Token}

/-- In a copy for an item there are no tags that were not there before; and if a row is copied,
there are no marks of rows. -/
theorem isAmong_fieldTokens {v : Value} (hv : v.BraceFree) (of : Repetition) {t : Token}
    (ht : t.IsAmong options.window P) :
    ∀ u ∈ fieldTokens options of v t,
      u.IsAmong options.window fun t => P t ∧ (of = .table → t.IsUnmarked) := by
  cases t with
  | char c => exact List.forall_mem_singleton.2 ht
  | tag t =>
    obtain ⟨hfits, hP⟩ := ht
    cases t with
    | simple name => exact isAmong_of_braceFree (braceFree_fieldText hv name)
    | table name =>
      rw [fieldTokens]
      split
      · exact fun u hu => absurd hu List.not_mem_nil
      · next hof =>
        rw [List.forall_mem_singleton]
        exact ⟨hfits, hP, fun h => absurd h hof⟩
    | loopOpen | condOpen | close | otherwise =>
      exact List.forall_mem_singleton.2 ⟨hfits, hP, fun _ _ => Tag.noConfusion⟩

/-- Copies for the items of a list in the data. -/
theorem holdsOnly_items (hdata : data.BraceFree) (of : Repetition) (name : String)
    (hts : ∀ t ∈ ts, t.IsAmong options.window P) :
    HoldsOnly options.window (fun t => P t ∧ (of = .table → t.IsUnmarked))
      (((itemsOf data name).flatMap fun v =>
        ts.flatMap (fieldTokens options of v)).flatMap Token.text) := by
  refine .of_tokens fun u hu => ?_
  obtain ⟨v, hv, hu⟩ := List.mem_flatMap.1 hu
  obtain ⟨t, ht, hu⟩ := List.mem_flatMap.1 hu
  exact isAmong_fieldTokens (braceFree_of_mem_itemsOf hdata hv) of (hts t ht) u hu

/-! ### The passes -/

/-- The loop pass brings no other tags. -/
theorem HoldsOnly.expandLoops (hdata : data.BraceFree)
    (hts : ∀ t ∈ ts, t.IsAmong options.window P) :
    HoldsOnly options.window P (expandLoops data options ts).text := by
  fun_induction MailMerge.expandLoops data options ts with
  | case1 => exact .of_braceFree braceFree_nil
  | case2 name rest body after hclosed _ ih =>
    rw [List.forall_mem_cons, eq_append_of_closedBy? hclosed, List.forall_mem_append,
      List.forall_mem_cons] at hts
    obtain ⟨-, hbody, -, hafter⟩ := hts
    rw [Expansion.text_append, text_expandLoop]
    exact ((holdsOnly_items hdata .loop name hbody).mono fun t ht => ht.1).append (ih hafter)
  | case3 name rest hclosed ih =>
    rw [List.forall_mem_cons] at hts
    rw [Expansion.text_append, Expansion.text_append, Expansion.text_warning, List.append_nil]
    exact (HoldsOnly.of_token hts.1).append (ih hts.2)
  | case4 t rest hne ih =>
    rw [List.forall_mem_cons] at hts
    exact (HoldsOnly.of_token hts.1).append (ih hts.2)

variable (data) in
/-- The pass for conditionals brings no other tags. -/
theorem HoldsOnly.expandConditionals (hts : ∀ t ∈ ts, t.IsAmong options.window P) :
    HoldsOnly options.window P (expandConditionals data ts).text := by
  fun_induction MailMerge.expandConditionals data ts with
  | case1 => exact .of_braceFree braceFree_nil
  | case2 name rest body after hclosed _ _ ihc iha =>
    rw [List.forall_mem_cons, eq_append_of_closedBy? hclosed, List.forall_mem_append,
      List.forall_mem_cons] at hts
    obtain ⟨-, hbody, -, hafter⟩ := hts
    rw [Expansion.text_append, Expansion.text_append, List.nil_append]
    exact (ihc fun t ht => hbody t (mem_of_mem_chosen ht)).append (iha hafter)
  | case3 name rest hclosed ih =>
    rw [List.forall_mem_cons] at hts
    rw [Expansion.text_append, Expansion.text_append, Expansion.text_warning, List.append_nil]
    exact (HoldsOnly.of_token hts.1).append (ih hts.2)
  | case4 t rest hne ih =>
    rw [List.forall_mem_cons] at hts
    exact (HoldsOnly.of_token hts.1).append (ih hts.2)

/-- Without marks a text holds only tags that mark no row. -/
theorem HoldsOnly.unmarked (h : HoldsOnly options.window P s)
    (hmark : ∀ t ∈ tokens options.window s, t.isMark = false) :
    HoldsOnly options.window (fun t => P t ∧ t.IsUnmarked) s := by
  intro t ht
  have hP := h t ht
  cases t with
  | char c => exact hP
  | tag t =>
    refine ⟨hP.1, hP.2, ?_⟩
    rintro name rfl
    cases hmark _ ht

/-- A round goes on with a text before it without marks, and brings no other tags. -/
theorem HoldsOnly.tableRound (hdata : data.BraceFree) {done rest done' rest' : List Char}
    {note : Expansion}
    (hdone : HoldsOnly options.window (fun t => P t ∧ t.IsUnmarked) done)
    (hrest : HoldsOnly options.window P rest)
    (h : tableRound data options done rest = some (note, done', rest')) :
    note.text = [] ∧ HoldsOnly options.window (fun t => P t ∧ t.IsUnmarked) done' ∧
      HoldsOnly options.window P rest' := by
  obtain ⟨between, name, after, rfl, hfits, hmark, hcases⟩ := tableRound_cases h
  obtain ⟨hbetween, hP, hafter⟩ := (append_text_append_iff hfits).1 hrest
  have hbefore := hdone.append (hbetween.unmarked hmark)
  obtain ⟨rfl, rfl, rfl⟩ | ⟨front, row₁, row₂, hfront, rfl, -, rfl, rfl⟩ := hcases
  · exact ⟨rfl, hbefore, hafter⟩
  · rw [hfront, append_cons_iff (by decide)] at hbefore
    rw [append_cons_iff (by decide)] at hafter
    obtain ⟨hfront', hrow₁⟩ := hbefore
    refine ⟨rfl, hfront'.append ?_, hafter.2⟩
    -- the row holds the mark, too
    have hrow : HoldsOnly options.window P
        ('<' :: row₁ ++ (Tag.table name).text ++ (row₂ ++ ['>'])) := by
      rw [List.append_assoc, append_text_append_iff hfits, ← List.nil_append ('<' :: row₁),
        append_cons_iff (by decide), append_cons_iff (by decide)]
      have hnil : HoldsOnly options.window P [] := .of_braceFree braceFree_nil
      exact ⟨⟨hnil, hrow₁.mono fun t ht => ht.1⟩, hP, hafter.1, hnil⟩
    rw [expandRow_eq]
    cases tableProblem? data name with
    | some w => exact .of_braceFree braceFree_nil
    | none => exact (holdsOnly_items hdata .table name hrow).mono fun t ht => ⟨ht.1, ht.2 rfl⟩

/-- **The table pass leaves no mark of a row** behind, and brings no other tags. -/
theorem HoldsOnly.expandTables (hdata : data.BraceFree) (h : HoldsOnly options.window P s) :
    HoldsOnly options.window (fun t => P t ∧ t.IsUnmarked) (expandTables data options s).text := by
  suffices hfrom : ∀ done rest,
      HoldsOnly options.window (fun t => P t ∧ t.IsUnmarked) done →
      HoldsOnly options.window P rest →
      HoldsOnly options.window (fun t => P t ∧ t.IsUnmarked)
        (expandTablesFrom data options done rest).text from
    hfrom [] s (.of_braceFree braceFree_nil) h
  intro done rest hdone hrest
  fun_induction expandTablesFrom data options done rest with
  | case1 done rest hround => exact hdone.append (hrest.unmarked (isMark_of_tableRound hround))
  | case2 done rest note done' rest' hround _ ih =>
    obtain ⟨hnote, hdone', hrest'⟩ := hdone.tableRound hdata hrest hround
    rw [Expansion.text_append, hnote, List.nil_append]
    exact ih hdone' hrest'

/-- What comes of a placeholder has no braces. -/
theorem braceFree_expandPlaceholder (hdata : data.BraceFree) (placed : Nat) (name : String) :
    BraceFree (expandPlaceholder data options placed name).text := by
  rw [expandPlaceholder_eq]
  cases hget : data.get? name with
  | none => exact braceFree_nil
  | some v =>
    have hv := hdata.of_get? hget
    rw [Option.elim_some]
    cases v with
    | image => exact (isCharacterData_marker placed).braceFree
    | null | bool | number | string | list | map =>
      simp only [expandValue]
      split
      · next s hs => exact braceFree_of_scalarText? hv hs
      · split <;> exact braceFree_nil

/-- **The pass for placeholders leaves none of them** behind, and brings no other tags. -/
theorem HoldsOnly.expandPlaceholders (hdata : data.BraceFree) (placed : Nat)
    (hts : ∀ t ∈ ts, t.IsAmong options.window P) :
    HoldsOnly options.window (fun t => P t ∧ ∀ name, t ≠ .simple name)
      (expandPlaceholders data options placed ts).text := by
  induction ts generalizing placed with
  | nil => exact .of_braceFree braceFree_nil
  | cons t ts ih =>
    rw [List.forall_mem_cons] at hts
    by_cases hsimple : ∃ name, t = .tag (.simple name)
    · obtain ⟨name, rfl⟩ := hsimple
      rw [MailMerge.expandPlaceholders, Expansion.text_append]
      exact (HoldsOnly.of_braceFree (braceFree_expandPlaceholder hdata placed name)).append
        (ih _ hts.2)
    · rw [expandPlaceholders_cons fun name ht => hsimple ⟨name, ht⟩, Expansion.text_append]
      refine (HoldsOnly.of_token ?_).append (ih placed hts.2)
      cases t with
      | char c => exact hts.1
      | tag t => exact ⟨hts.1.1, hts.1.2, fun name ht => hsimple ⟨name, congrArg _ ht⟩⟩

end Passes

/-- The kinds of tags that neither mark rows nor are placeholders. -/
theorem Tag.isBlock_of_ne {t : Tag} (hsimple : ∀ name, t ≠ .simple name)
    (htable : ∀ name, t ≠ .table name) : t.IsBlock := by
  cases t with
  | simple name => exact hsimple name rfl
  | table name => exact htable name rfl
  | loopOpen | condOpen | close | otherwise => trivial

/-- **Only tags of blocks are left over**, and they have been in the template before. However badly
its blocks and rows are nested, every brace that comes of a template belongs to a tag of a loop or a
conditional in it, when this holds of the template and the data bring no braces. -/
theorem expand_leaves_blocks {data : DataTree} {options : Options} {s : List Char}
    (hdata : data.BraceFree) (hs : BracesInTags options.window s) :
    BracesInTags options.window (expand data options s).text ∧
      ∀ t, .tag t ∈ tokens options.window (expand data options s).text →
        t.IsBlock ∧ .tag t ∈ tokens options.window s := by
  have hlooped := HoldsOnly.expandLoops hdata hs.holdsOnly
  have hdecided := HoldsOnly.expandConditionals data hlooped
  have htabled := hdecided.expandTables hdata
  have hfilled := HoldsOnly.expandPlaceholders hdata 0 htabled
  have htext : (expand data options s).text = _ := text_expand data options s
  rw [htext]
  refine ⟨fun c hc => hfilled _ hc, fun t ht => ?_⟩
  obtain ⟨-, ⟨hmem, htable⟩, hsimple⟩ := hfilled _ ht
  exact ⟨Tag.isBlock_of_ne hsimple htable, hmem⟩

/-- A loop and a conditional that are not closed, a branch and an end of none, and a row that is not
closed either. -/
theorem expand_leaves_blocks_malformed :
    let s := "\x7b#open\x7d<w:tr>\x7btable:rows\x7d\x7bn\x7d\x7b?c\x7d</w:tr>".toList
      ++ "\x7b#rows\x7d[\x7bn\x7d]\x7b/rows\x7d</w:tr>\x7b:else\x7d\x7b/d\x7d".toList
      ++ "<w:tr>\x7btable:out\x7d\x7bname\x7d".toList
    let data : DataTree :=
      ⟨[("rows", .list [.map ⟨[("n", .string "1")]⟩, .null, .map ⟨[]⟩]), ("name", .string "<A>")]⟩
    let options : Options := {}
    (data.BraceFree ∧ BracesInTags options.window s) ∧
      (expand data options s).text
          = "\x7b#open\x7d<w:tr>1\x7b?c\x7d</w:tr><w:tr>\x7b?c\x7d</w:tr>[1][]".toList
            ++ "</w:tr>\x7b:else\x7d\x7b/d\x7d<w:tr>&lt;A&gt;".toList ∧
      BracesInTags options.window (expand data options s).text ∧
      ∀ t, .tag t ∈ tokens options.window (expand data options s).text →
        t.IsBlock ∧ .tag t ∈ tokens options.window s := by
  intro s data options
  have hdata : data.BraceFree := by
    simp only [data, DataTree.BraceFree, Value.braceFree_map, List.forall_mem_cons,
      Value.braceFree_list, Value.braceFree_string, Value.braceFree_null,
      List.not_mem_nil, false_implies, implies_true]
    decide
  have hs : BracesInTags options.window s := by decide +kernel
  exact ⟨⟨hdata, hs⟩, by decide +kernel, expand_leaves_blocks hdata hs⟩

end MailMerge
