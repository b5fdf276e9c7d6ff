import MailMerge.Proofs.Bounds

/-!
# What a template can disclose

Data are looked up under the names that stand in tags, and each pass finds its tags in the text that
the one before has left. So what comes of a template depends on the data under the names in all of
these texts, and on nothing else (`expand_congr`).

Where every brace of the template belongs to a tag and the data bring no braces of their own, these
texts hold no tags but those of the template, however badly its blocks and rows are nested. Then the
names in the template say what it can disclose (`expand_of_agree`).
-/

namespace MailMerge

/-- The name in a tag. -/
def Tag.key? : Tag → Option String
  | simple name | loopOpen name | condOpen name | close name | table name => some name
  | otherwise => none

/-- The name in a token. -/
def Token.key? : Token → Option String
  | tag t => t.key?
  | char _ => none

/-- Two trees of data have the same under each name in a tag of a text. -/
def Agree (window : Nat) (data data' : DataTree) (s : List Char) : Prop :=
  ∀ t, .tag t ∈ tokens window s → ∀ name ∈ t.key?, data.get? name = data'.get? name

section Agree

variable {data data' : DataTree} {options : Options} {s r : List Char}

theorem listFor_congr {name : String} (h : data.get? name = data'.get? name) (of : Repetition) :
    listFor data of name = listFor data' of name := by
  rw [listFor, listFor, h]

namespace Agree

variable {window : Nat}

/-- The tags at the end of a text are tags of the text. -/
theorem of_append (h : Agree window data data' (s ++ r)) : Agree window data data' r := by
  intro t ht
  obtain ⟨a, b, hr⟩ := exists_append_of_mem_tokens ht
  refine h t ?_
  rw [hr, ← List.append_assoc, tokens_append_text_append (fits_of_mem_tokens ht)]
  exact List.mem_append_right _ List.mem_cons_self

theorem expandLoops (h : Agree window data data' s) :
    expandLoops data options (tokens window s) = expandLoops data' options (tokens window s) :=
  expandLoops_congr fun name ht => listFor_congr (h _ ht name rfl) .loop

theorem expandConditionals (h : Agree window data data' s) :
    expandConditionals data (tokens window s) = expandConditionals data' (tokens window s) :=
  expandConditionals_congr fun name ht => by rw [holds, holds, h _ ht name rfl]

theorem tableRound {done rest : List Char} (h : Agree options.window data data' (done ++ rest)) :
    tableRound data options done rest = tableRound data' options done rest := by
  refine tableRound_congr (fun between name hfirst => ?_) done
  obtain ⟨before, after, hts, -⟩ := eq_append_of_firstMark? hfirst
  have hmem : .tag (.table name) ∈ tokens options.window rest := by simp [hts]
  exact listFor_congr (h.of_append _ hmem name rfl) .table

/-- The table pass looks up the names in the texts of its rounds. -/
theorem expandTablesFrom {done rest : List Char}
    (h : ∀ s ∈ tableTexts data options done rest, Agree options.window data data' s) :
    expandTablesFrom data options done rest = expandTablesFrom data' options done rest := by
  fun_induction tableTexts data options done rest with
  | case1 done rest hround =>
    have hround' := (List.forall_mem_singleton.1 h).tableRound
    rw [expandTablesFrom_of_none hround, expandTablesFrom_of_none (hround'.symm.trans hround)]
  | case2 done rest note done' rest' hround _ ih =>
    obtain ⟨hfirst, hrest⟩ := List.forall_mem_cons.1 h
    rw [expandTablesFrom_of_some hround,
      expandTablesFrom_of_some (hfirst.tableRound.symm.trans hround), ih hrest]

theorem expandPlaceholders (h : Agree window data data' s) (placed : Nat) :
    expandPlaceholders data options placed (tokens window s)
      = expandPlaceholders data' options placed (tokens window s) := by
  have hts : ∀ name, .tag (.simple name) ∈ tokens window s → data.get? name = data'.get? name :=
    fun name ht => h _ ht name rfl
  generalize tokens window s = ts at hts
  induction ts generalizing placed with
  | nil => rfl
  | cons t ts ih =>
    have ih := fun placed => ih placed fun name ht => hts name (.tail _ ht)
    by_cases hsimple : ∃ name, t = .tag (.simple name)
    · obtain ⟨name, rfl⟩ := hsimple
      simp only [MailMerge.expandPlaceholders, expandPlaceholder_eq, hts name List.mem_cons_self,
        ih]
    · have hne : ∀ name, t ≠ .tag (.simple name) := fun name ht => hsimple ⟨name, ht⟩
      rw [expandPlaceholders_cons hne, expandPlaceholders_cons hne, ih]

end Agree

/-- **An expansion depends on the data under the names** in the texts in which tags are looked for,
and on no other data. -/
theorem expand_congr {template : List Char}
    (h : ∀ s ∈ scannedTexts data options template, Agree options.window data data' s) :
    expand data options template = expand data' options template := by
  obtain ⟨htemplate, h⟩ := List.forall_mem_cons.1 h
  obtain ⟨hlooped, h⟩ := List.forall_mem_cons.1 h
  obtain ⟨hrounds, h⟩ := List.forall_mem_append.1 h
  have htabled := List.forall_mem_singleton.1 h
  have htables := Agree.expandTablesFrom hrounds
  rw [expandTables] at htabled
  simp only [expand, expandTables, ← htemplate.expandLoops, ← hlooped.expandConditionals,
    ← htables, htabled.expandPlaceholders]

end Agree

/-- **A template discloses only what is under the names in its tags.** Where every brace of a
template belongs to a tag, two trees of data give the same text, warnings, counts and pictures when
they agree on these names and no string in the data holds a brace. How the blocks and rows of the
template are nested, and whether they are closed, does not matter. -/
theorem expand_of_agree {data data' : DataTree} {options : Options} {template : List Char}
    (hdata : data.BraceFree) (hbraces : BracesInTags options.window template)
    (hagree : Agree options.window data data' template) :
    expand data options template = expand data' options template := by
  refine expand_congr fun s hs t ht => ?_
  exact hagree t (hbraces.holdsOnly.scannedTexts hdata s hs (.tag t) ht).2

/-- Blocks that cross each other, and one that is not closed; the data differ under a key that the
template does not name, and in one of its fields. -/
theorem expand_of_agree_crossed :
    let template := "\x7b#open\x7d\x7b?a\x7d\x7b#rows\x7d[\x7bn\x7d]\x7b?c\x7d\x7b/a\x7d".toList
      ++ "\x7b/rows\x7d<w:tr>\x7btable:rows\x7d\x7bn\x7d</w:tr>\x7b:else\x7d\x7b/c\x7d".toList
    let data : DataTree := ⟨[("a", .bool true), ("c", .bool true),
      ("rows", .list [.map ⟨[("n", .string "<1>")]⟩, .null, .map ⟨[]⟩])]⟩
    let data' := data.insert "secret" (.map ⟨[("n", .string "\x7bn\x7d")]⟩)
    let options : Options := {}
    (data.BraceFree ∧ BracesInTags options.window template ∧
        Agree options.window data data' template) ∧
      (expand data options template).text
          = "\x7b#open\x7d[&lt;1&gt;]\x7b?c\x7d[]\x7b/a\x7d".toList
            ++ "<w:tr>&lt;1&gt;</w:tr><w:tr></w:tr>".toList ∧
      expand data options template = expand data' options template := by
  intro template data data' options
  have hdata : data.BraceFree := by
    simp only [data, DataTree.BraceFree, Value.braceFree_map, List.forall_mem_cons,
      Value.braceFree_list, Value.braceFree_string, Value.braceFree_null, Value.braceFree_bool,
      List.not_mem_nil, false_implies, implies_true]
    decide
  have hbraces : BracesInTags options.window template := by decide +kernel
  have hnames : ∀ u ∈ tokens options.window template, u.key? ≠ some "secret" := by
    decide +kernel
  have hagree : Agree options.window data data' template := by
    intro t ht name hname
    rw [Fields.get?_insert, if_neg]
    rintro rfl
    exact hnames _ ht hname
  exact ⟨⟨hdata, hbraces, hagree⟩, by decide +kernel, expand_of_agree hdata hbraces hagree⟩

end MailMerge
