import MailMerge.Proofs.Passes

/-!
# Pictures in expansions

Only placeholders place pictures. A picture that is placed is the value of the data under its key,
which is the name in a tag (`Placement.IsFrom`).
-/

namespace MailMerge

/-- A picture that is placed under its key in the data. -/
structure Placement.IsFrom (data : DataTree) (p : Placement) : Prop where
  named : isIdentifier p.key.toList = true
  found : data.get? p.key = some (.image p.image)

/-- No pictures are placed, and none are counted. -/
structure Expansion.Pictureless (e : Expansion) : Prop where
  images : e.images = []
  count : e.stats.images = 0

/-! ### The passes in front place none -/

namespace Expansion.Pictureless

theorem empty : Pictureless {} :=
  ⟨rfl, rfl⟩

theorem literal (s : List Char) : Pictureless (.literal s) :=
  ⟨rfl, rfl⟩

theorem warning (w : Warning) : Pictureless (.warning w) :=
  ⟨rfl, rfl⟩

theorem append {a b : Expansion} (ha : a.Pictureless) (hb : b.Pictureless) :
    (a ++ b).Pictureless where
  images := by rw [images_append, ha.images, hb.images, List.nil_append]
  count := by rw [stats_append, Stats.images_add, ha.count, hb.count]

theorem withoutText {e : Expansion} (h : e.Pictureless) : e.withoutText.Pictureless :=
  ⟨h.images, h.count⟩

end Expansion.Pictureless

section Passes

open Expansion

variable (data : DataTree) (options : Options)

theorem pictureless_expandItems (of : Repetition) (owner : String) (template : List Token)
    (items : List Value) : (expandItems options of owner template items).Pictureless := by
  rw [expandItems_eq]
  exact ⟨rfl, rfl⟩

theorem pictureless_expandLoops (ts : List Token) : (expandLoops data options ts).Pictureless := by
  have hloop : ∀ name body, (expandLoop data options name body).Pictureless := by
    intro name body
    rw [expandLoop]
    cases listFor data .loop name with
    | error w => exact .warning w
    | ok items => exact .append ⟨rfl, rfl⟩ (pictureless_expandItems options _ name _ items)
  induction ts using expandLoops.induct with
  | case1 =>
    rw [expandLoops_nil]
    exact .empty
  | case2 name rest body after hclosed _ ih =>
    rw [expandLoops_closed hclosed]
    exact (hloop name body).append ih
  | case3 name rest hclosed ih =>
    rw [expandLoops_unclosed hclosed]
    exact ((Pictureless.literal _).append (.warning _)).append ih
  | case4 t rest hne ih =>
    rw [expandLoops_cons hne]
    exact (Pictureless.literal _).append ih

theorem pictureless_expandConditionals (ts : List Token) :
    (expandConditionals data ts).Pictureless := by
  induction ts using expandConditionals.induct data with
  | case1 =>
    rw [expandConditionals_nil]
    exact .empty
  | case2 name rest body after hclosed _ _ ihc iha =>
    rw [expandConditionals_closed hclosed]
    exact (Pictureless.append ⟨rfl, rfl⟩ ihc).append iha
  | case3 name rest hclosed ih =>
    rw [expandConditionals_unclosed hclosed]
    exact ((Pictureless.literal _).append (.warning _)).append ih
  | case4 t rest hne ih =>
    rw [expandConditionals_cons hne]
    exact (Pictureless.literal _).append ih

theorem pictureless_expandTables (s : List Char) : (expandTables data options s).Pictureless := by
  have hrow : ∀ name row, (expandRow data options name row).Pictureless := by
    intro name row
    rw [expandRow]
    cases listFor data .table name with
    | error w => exact .warning w
    | ok items => exact .append ⟨rfl, rfl⟩ (pictureless_expandItems options _ name _ items)
  have hround : ∀ {done rest note done' rest'},
      tableRound data options done rest = some (note, done', rest') → note.Pictureless := by
    intro done rest note done' rest' h
    rw [tableRound] at h
    split at h
    · cases h
    · dsimp only at h
      split at h <;> cases h
      · exact (hrow _ _).withoutText
      · exact .warning _
  have hfrom : ∀ done rest, (expandTablesFrom data options done rest).Pictureless := by
    intro done rest
    induction done, rest using expandTablesFrom.induct data options with
    | case1 done rest h =>
      rw [expandTablesFrom_of_none h]
      exact .literal _
    | case2 done rest note done' rest' h _ ih =>
      rw [expandTablesFrom_of_some h]
      exact (hround h).append ih
  exact hfrom [] s

/-- The text that the passes in front leave for the placeholders. -/
def unfilled (s : List Char) : List Char :=
  let looped := (expandLoops data options (tokens options.window s)).text
  let decided := (expandConditionals data (tokens options.window looped)).text
  (expandTables data options decided).text

/-- The text of an expansion, its pictures and their count are those of its last pass. -/
theorem exists_expand_eq (s : List Char) :
    ∃ e : Expansion, e.Pictureless ∧ e.text = [] ∧ expand data options s =
      e ++ expandPlaceholders data options 0 (tokens options.window (unfilled data options s)) :=
  ⟨_, ((pictureless_expandLoops data options _).withoutText.append
    (pictureless_expandConditionals data _).withoutText).append
      (pictureless_expandTables data options _).withoutText, rfl, rfl⟩

theorem images_expand (s : List Char) : (expand data options s).images =
    (expandPlaceholders data options 0
      (tokens options.window (unfilled data options s))).images := by
  obtain ⟨e, he, -, heq⟩ := exists_expand_eq data options s
  rw [heq, images_append, he.images, List.nil_append]

theorem text_expand (s : List Char) : (expand data options s).text =
    (expandPlaceholders data options 0 (tokens options.window (unfilled data options s))).text := by
  obtain ⟨e, -, he, heq⟩ := exists_expand_eq data options s
  rw [heq, text_append, he, List.nil_append]

theorem count_expand (s : List Char) : (expand data options s).stats.images =
    (expandPlaceholders data options 0
      (tokens options.window (unfilled data options s))).stats.images := by
  obtain ⟨e, he, -, heq⟩ := exists_expand_eq data options s
  rw [heq, stats_append, Stats.images_add, he.count, Nat.zero_add]

end Passes

/-! ### Placeholders place pictures of the data -/

section Placeholders

variable {data : DataTree} {options : Options}

theorem isFrom_of_mem_expandPlaceholder {placed : Nat} {name : String} {p : Placement}
    (hname : isIdentifier name.toList = true)
    (h : p ∈ (expandPlaceholder data options placed name).images) : p.IsFrom data := by
  rw [expandPlaceholder_eq] at h
  cases hget : data.get? name with
  | none => simp [hget] at h
  | some v =>
    rw [hget, Option.elim_some] at h
    cases v with
    | image picture =>
      obtain rfl := List.mem_singleton.1 h
      exact ⟨hname, hget⟩
    | null | bool | number | string | list | map =>
      simp only [expandValue] at h
      split at h
      · cases h
      · split at h <;> cases h

theorem isFrom_of_mem_expandPlaceholders {placed : Nat} {ts : List Token} {p : Placement}
    (hts : ∀ t, .tag t ∈ ts → t.IsNamed)
    (h : p ∈ (expandPlaceholders data options placed ts).images) : p.IsFrom data := by
  induction ts generalizing placed with
  | nil => cases h
  | cons t ts ih =>
    have hrest : ∀ t, .tag t ∈ ts → t.IsNamed := fun u hu => hts u (List.mem_cons_of_mem _ hu)
    by_cases hsimple : ∃ name, t = .tag (.simple name)
    · obtain ⟨name, rfl⟩ := hsimple
      rw [expandPlaceholders, Expansion.images_append, List.mem_append] at h
      rcases h with h | h
      · exact isFrom_of_mem_expandPlaceholder (hts (.simple name) List.mem_cons_self) h
      · exact ih hrest h
    · rw [expandPlaceholders_cons fun name ht => hsimple ⟨name, ht⟩, Expansion.images_append,
        Expansion.images_literal, List.nil_append] at h
      exact ih hrest h

theorem isFrom_of_mem_expand {s : List Char} {p : Placement}
    (h : p ∈ (expand data options s).images) : p.IsFrom data := by
  rw [images_expand] at h
  exact isFrom_of_mem_expandPlaceholders (fun t ht => (fits_of_mem_tokens ht).named) h

end Placeholders

end MailMerge
