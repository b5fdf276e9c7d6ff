import MailMerge.Proofs.Passes

/-!
# Templates as trees

A template that is meant well is a **tree**: a list of literals, placeholders, loops and
conditionals, the last two with lists of their own. `Tree.print` writes a tree as tokens, and
`Tree.eval` says what it stands for, by recursion on the tree. A tree is **nested** when no loop
stands in a loop and no block stands where its closing tag could be taken for another one.

The main statement is `text_expand_print`: expanding what is printed gives what the tree stands for.
The four passes read each other's output, so the proof goes through two lists of tokens in between:
`looped`, where loops have given way to copies of their bodies, and `decided`, where conditionals
have given way to their branches. Each pass turns the text of one into the text of the next, and
both are read back from their text because nothing in them puts a brace outside of a tag.
-/

namespace MailMerge

/-- A list of nodes of a template: nothing, or a node and those that follow it. -/
inductive Tree where
  | nil
  /-- Plain text. -/
  | literal (s : List Char) (rest : Tree)
  /-- A placeholder, `{name}`. -/
  | simple (name : String) (rest : Tree)
  /-- A loop, `{#name}…{/name}`. -/
  | loop (name : String) (body rest : Tree)
  /-- A conditional with one branch, `{?name}…{/name}`. -/
  | cond (name : String) (yes rest : Tree)
  /-- A conditional with two branches, `{?name}…{:else}…{/name}`. -/
  | either (name : String) (yes no rest : Tree)
  deriving DecidableEq, Repr

namespace Tree

/-- The tokens of a tree. -/
def print : Tree → List Token
  | nil => []
  | literal s rest => s.map .char ++ rest.print
  | simple name rest => .tag (.simple name) :: rest.print
  | loop name body rest =>
    .tag (.loopOpen name) :: (body.print ++ .tag (.close name) :: rest.print)
  | cond name yes rest =>
    .tag (.condOpen name) :: (yes.print ++ .tag (.close name) :: rest.print)
  | either name yes no rest =>
    .tag (.condOpen name) ::
      (yes.print ++ .tag .otherwise :: (no.print ++ .tag (.close name) :: rest.print))

/-- The text of a tree. -/
def text (tree : Tree) : List Char :=
  tree.print.flatMap Token.text

/-- The names of the conditionals in a tree, at any depth. -/
def conditions : Tree → List String
  | nil => []
  | literal _ rest | simple _ rest => rest.conditions
  | loop _ body rest => body.conditions ++ rest.conditions
  | cond name yes rest => name :: (yes.conditions ++ rest.conditions)
  | either name yes no rest => name :: (yes.conditions ++ no.conditions ++ rest.conditions)

/-- No loop stands in the tree, at any depth. -/
def LoopFree : Tree → Prop
  | nil => True
  | literal _ rest | simple _ rest => rest.LoopFree
  | loop _ _ _ => False
  | cond _ yes rest => yes.LoopFree ∧ rest.LoopFree
  | either _ yes no rest => yes.LoopFree ∧ no.LoopFree ∧ rest.LoopFree

/-- In a loop stands no loop, and no conditional of its name; in a conditional stands no conditional
of its name. -/
def Nested : Tree → Prop
  | nil => True
  | literal _ rest | simple _ rest => rest.Nested
  | loop name body rest =>
    body.LoopFree ∧ name ∉ body.conditions ∧ body.Nested ∧ rest.Nested
  | cond name yes rest => name ∉ yes.conditions ∧ yes.Nested ∧ rest.Nested
  | either name yes no rest =>
    name ∉ yes.conditions ∧ name ∉ no.conditions ∧ yes.Nested ∧ no.Nested ∧ rest.Nested

/-- A nested tree that can be written: names are identifiers, the text between the braces of a tag
takes at most `limit` bytes, and literals have no braces. -/
structure WellFormed (limit : Nat) (tree : Tree) : Prop where
  nested : tree.Nested
  tags : ∀ t : Tag, .tag t ∈ tree.print → t.IsNamed ∧ Text.byteSize t.inner ≤ limit
  literals : ∀ c, .char c ∈ tree.print → isBrace c = false

end Tree

/-! ### What a tree stands for -/

/-- Whether a picture stands under a name. -/
def isPicture (data : DataTree) (name : String) : Bool :=
  match data.get? name with
  | some (.image _) => true
  | _ => false

/-- The text of a placeholder, when `placed` pictures come before: the marker of a picture, or the
text of a scalar, or nothing. -/
def placeholderText (data : DataTree) (options : Options) (placed : Nat) (name : String) :
    List Char :=
  if isPicture data name then marker placed
  else ((data.get? name).bind options.scalarText?).getD []

namespace Tree

/-- The number of pictures that a tree places. -/
def pictures (data : DataTree) : Tree → Nat
  | nil => 0
  | literal _ rest => rest.pictures data
  | simple name rest => (if isPicture data name then 1 else 0) + rest.pictures data
  | loop _ _ rest => rest.pictures data
  | cond name yes rest =>
    (if holds data name then yes.pictures data else 0) + rest.pictures data
  | either name yes no rest =>
    (if holds data name then yes.pictures data else no.pictures data) + rest.pictures data

/-- What a tree stands for, when `placed` pictures come before. Inside a loop, placeholders are
fields of the item. -/
def eval (data : DataTree) (options : Options) (item : Option Value) (placed : Nat) :
    Tree → List Char
  | nil => []
  | literal s rest => s ++ rest.eval data options item placed
  | simple name rest =>
    match item with
    | some v => fieldText options v name ++ rest.eval data options item placed
    | none =>
      placeholderText data options placed name
        ++ rest.eval data options item (placed + if isPicture data name then 1 else 0)
  | loop name body rest =>
    ((itemsOf data name).flatMap fun v => body.eval data options (some v) placed)
      ++ rest.eval data options item placed
  | cond name yes rest =>
    if holds data name then
      yes.eval data options item placed
        ++ rest.eval data options item (placed + yes.pictures data)
    else rest.eval data options item placed
  | either name yes no rest =>
    if holds data name then
      yes.eval data options item placed
        ++ rest.eval data options item (placed + yes.pictures data)
    else
      no.eval data options item placed
        ++ rest.eval data options item (placed + no.pictures data)

end Tree

/-! ### Loops give way to copies -/

namespace Tree

variable {data : DataTree} {options : Options}

/-- The tokens of a tree in which copies stand in place of loops. -/
def looped (data : DataTree) (options : Options) (item : Option Value) : Tree → List Token
  | nil => []
  | literal s rest => s.map .char ++ rest.looped data options item
  | simple name rest =>
    (match item with
      | some v => (fieldText options v name).map .char
      | none => [.tag (.simple name)]) ++ rest.looped data options item
  | loop name body rest =>
    ((itemsOf data name).flatMap fun v => body.looped data options (some v))
      ++ rest.looped data options item
  | cond name yes rest =>
    .tag (.condOpen name) ::
      (yes.looped data options item ++ .tag (.close name) :: rest.looped data options item)
  | either name yes no rest =>
    .tag (.condOpen name) ::
      (yes.looped data options item ++ .tag .otherwise ::
        (no.looped data options item ++ .tag (.close name) :: rest.looped data options item))

/-- In a tree without loops, the copy for an item is made token by token. -/
theorem looped_some {tree : Tree} (h : tree.LoopFree) (v : Value) :
    tree.looped data options (some v) = tree.print.flatMap (fieldTokens options .loop v) := by
  induction tree with
  | nil => rfl
  | literal s rest ih => simp [looped, print, flatMap_fieldTokens_map_char, ih h]
  | simple name rest ih => simp [looped, print, fieldTokens, ih h]
  | loop name body rest => exact absurd h id
  | cond name yes rest ihy ihr => simp [looped, print, fieldTokens, ihy h.1, ihr h.2]
  | either name yes no rest ihy ihn ihr =>
    simp [looped, print, fieldTokens, ihy h.1, ihn h.2.1, ihr h.2.2]

/-- Closing tags in a printed tree without loops close conditionals. -/
theorem mem_conditions_of_print {tree : Tree} (h : tree.LoopFree) {name : String}
    (hm : .tag (.close name) ∈ tree.print) : name ∈ tree.conditions := by
  induction tree with
  | nil => cases hm
  | literal s rest ih => exact ih h (by simpa [print] using hm)
  | simple n rest ih => exact ih h (by simpa [print] using hm)
  | loop n body rest => exact absurd h id
  | cond n yes rest ihy ihr =>
    simp only [print, List.mem_cons, List.mem_append, reduceCtorEq, Token.tag.injEq,
      Tag.close.injEq, false_or] at hm
    simp only [conditions, List.mem_cons, List.mem_append]
    rcases hm with hm | rfl | hm
    · exact Or.inr (Or.inl (ihy h.1 hm))
    · exact Or.inl rfl
    · exact Or.inr (Or.inr (ihr h.2 hm))
  | either n yes no rest ihy ihn ihr =>
    simp only [print, List.mem_cons, List.mem_append, reduceCtorEq, Token.tag.injEq,
      Tag.close.injEq, false_or] at hm
    simp only [conditions, List.mem_cons, List.mem_append]
    rcases hm with hm | hm | rfl | hm
    · exact Or.inr (Or.inl (Or.inl (ihy h.1 hm)))
    · exact Or.inr (Or.inl (Or.inr (ihn h.2.1 hm)))
    · exact Or.inl rfl
    · exact Or.inr (Or.inr (ihr h.2.2 hm))

end Tree

namespace Tree

variable {data : DataTree} {options : Options}

/-- The loop pass puts copies in place of loops. -/
theorem text_expandLoops_print {tree : Tree} (h : tree.Nested) (ts : List Token) :
    (expandLoops data options (tree.print ++ ts)).text =
      (tree.looped data options none).flatMap Token.text ++ (expandLoops data options ts).text := by
  induction tree generalizing ts with
  | nil => simp [print, looped]
  | literal s rest ih =>
    rw [print, List.append_assoc, expandLoops_map_char_append, Expansion.text_append, ih h]
    simp [looped, flatMap_text_map_tokenChar]
  | simple name rest ih =>
    rw [print, List.cons_append, expandLoops_cons (by simp), Expansion.text_append, ih h]
    simp [looped]
  | loop name body rest ihb ihr =>
    obtain ⟨hfree, hname, -, hrest⟩ := h
    -- no conditional of the body has the name of the loop, so the first closing tag is its own
    have hclose : .tag (.close name) ∉ body.print :=
      fun hm => hname (mem_conditions_of_print hfree hm)
    rw [print, List.cons_append, List.append_assoc, List.cons_append,
      expandLoops_closed (closedBy?_eq_some hclose _), Expansion.text_append, text_expandLoop,
      ihr hrest]
    simp [looped, looped_some hfree]
  | cond name yes rest ihy ihr =>
    rw [print, List.cons_append, List.append_assoc, List.cons_append,
      expandLoops_cons (by simp), Expansion.text_append, ihy h.2.1, expandLoops_cons (by simp),
      Expansion.text_append, ihr h.2.2]
    simp [looped]
  | either name yes no rest ihy ihn ihr =>
    obtain ⟨-, -, hyes, hno, hrest⟩ := h
    rw [print, List.cons_append, List.append_assoc, List.cons_append, List.append_assoc,
      List.cons_append, expandLoops_cons (by simp), Expansion.text_append, ihy hyes,
      expandLoops_cons (by simp), Expansion.text_append, ihn hno, expandLoops_cons (by simp),
      Expansion.text_append, ihr hrest]
    simp [looped]

/-! ### Conditionals give way to their branches -/

/-- The tokens of a tree in which copies stand in place of loops and chosen branches in place of
conditionals. -/
def decided (data : DataTree) (options : Options) (item : Option Value) : Tree → List Token
  | nil => []
  | literal s rest => s.map .char ++ rest.decided data options item
  | simple name rest =>
    (match item with
      | some v => (fieldText options v name).map .char
      | none => [.tag (.simple name)]) ++ rest.decided data options item
  | loop name body rest =>
    ((itemsOf data name).flatMap fun v => body.decided data options (some v))
      ++ rest.decided data options item
  | cond name yes rest =>
    (if holds data name then yes.decided data options item else [])
      ++ rest.decided data options item
  | either name yes no rest =>
    (if holds data name then yes.decided data options item else no.decided data options item)
      ++ rest.decided data options item

/-- Closing tags among the tokens close conditionals of the tree. -/
theorem mem_conditions_of_looped {tree : Tree} {item : Option Value} {name : String}
    (hm : .tag (.close name) ∈ tree.looped data options item) : name ∈ tree.conditions := by
  induction tree generalizing item with
  | nil => cases hm
  | literal s rest ih => exact ih (by simpa [looped] using hm)
  | simple n rest ih => cases item <;> exact ih (by simpa [looped] using hm)
  | loop n body rest ihb ihr =>
    simp only [looped, List.mem_append, List.mem_flatMap] at hm
    rw [conditions, List.mem_append]
    rcases hm with ⟨v, -, hm⟩ | hm
    · exact Or.inl (ihb hm)
    · exact Or.inr (ihr hm)
  | cond n yes rest ihy ihr =>
    simp only [looped, List.mem_cons, List.mem_append, reduceCtorEq, Token.tag.injEq,
      Tag.close.injEq, false_or] at hm
    simp only [conditions, List.mem_cons, List.mem_append]
    rcases hm with hm | rfl | hm
    · exact Or.inr (Or.inl (ihy hm))
    · exact Or.inl rfl
    · exact Or.inr (Or.inr (ihr hm))
  | either n yes no rest ihy ihn ihr =>
    simp only [looped, List.mem_cons, List.mem_append, reduceCtorEq, Token.tag.injEq,
      Tag.close.injEq, false_or] at hm
    simp only [conditions, List.mem_cons, List.mem_append]
    rcases hm with hm | hm | rfl | hm
    · exact Or.inr (Or.inl (Or.inl (ihy hm)))
    · exact Or.inr (Or.inl (Or.inr (ihn hm)))
    · exact Or.inl rfl
    · exact Or.inr (Or.inr (ihr hm))

end Tree

/-- Tokens that leave the conditionals around them as they are: every conditional that they open
they close again, and each `{:else}` among them belongs to one of those. -/
def Enclosed (ts : List Token) : Prop :=
  ∀ (opened : List String) (us : List Token),
    branches opened (ts ++ us) = (ts ++ (branches opened us).1, (branches opened us).2)

namespace Enclosed

theorem nil : Enclosed [] :=
  fun _ _ => rfl

theorem append {ts us : List Token} (ht : Enclosed ts) (hu : Enclosed us) :
    Enclosed (ts ++ us) := by
  intro opened vs
  rw [List.append_assoc, ht, hu, List.append_assoc]

theorem flatMap {α : Type} {l : List α} {f : α → List Token} (h : ∀ a ∈ l, Enclosed (f a)) :
    Enclosed (l.flatMap f) := by
  induction l with
  | nil => exact nil
  | cons a l ih =>
    exact (h a List.mem_cons_self).append (ih fun b hb => h b (List.mem_cons_of_mem _ hb))

theorem map_char (s : List Char) : Enclosed (s.map .char) := by
  intro opened us
  induction s with
  | nil => rfl
  | cons c s ih => simp [branches, nest, ih]

theorem simple (name : String) : Enclosed [.tag (.simple name)] := by
  intro opened us
  simp [branches, nest]

theorem cond (name : String) {ts : List Token} (h : Enclosed ts) :
    Enclosed (.tag (.condOpen name) :: (ts ++ [.tag (.close name)])) := by
  intro opened us
  simp [branches, nest, h _ _]

theorem either (name : String) {ts us : List Token} (ht : Enclosed ts) (hu : Enclosed us) :
    Enclosed (.tag (.condOpen name) ::
      (ts ++ .tag .otherwise :: (us ++ [.tag (.close name)]))) := by
  intro opened vs
  simp [branches, nest, ht _ _, hu _ _]

/-- A conditional without `{:else}` has one branch. -/
theorem chosen_eq {ts : List Token} (h : Enclosed ts) (b : Bool) :
    chosen b ts = if b then ts else [] := by
  have hb := h [] []
  rw [List.append_nil] at hb
  simp [chosen, hb, branches]

/-- The first `{:else}` that belongs to no conditional inside parts the branches. -/
theorem chosen_otherwise_eq {ts us : List Token} (ht : Enclosed ts) (b : Bool) :
    chosen b (ts ++ .tag .otherwise :: us) = if b then ts else us := by
  have hb := ht [] (.tag .otherwise :: us)
  simp [chosen, hb, branches]

end Enclosed

namespace Tree

variable {data : DataTree} {options : Options}

theorem enclosed_looped (tree : Tree) (item : Option Value) :
    Enclosed (tree.looped data options item) := by
  induction tree generalizing item with
  | nil => exact .nil
  | literal s rest ih => exact (Enclosed.map_char s).append (ih item)
  | simple name rest ih =>
    cases item with
    | none => exact (Enclosed.simple name).append (ih none)
    | some v => exact (Enclosed.map_char _).append (ih (some v))
  | loop name body rest ihb ihr =>
    exact (Enclosed.flatMap fun v _ => ihb (some v)).append (ihr item)
  | cond name yes rest ihy ihr =>
    have h := (Enclosed.cond name (ihy item)).append (ihr item)
    simpa [looped] using h
  | either name yes no rest ihy ihn ihr =>
    have h := (Enclosed.either name (ihy item) (ihn item)).append (ihr item)
    simpa [looped] using h

/-- The conditional pass puts branches in place of conditionals. -/
theorem text_expandConditionals_looped {tree : Tree} (h : tree.Nested) (item : Option Value)
    (ts : List Token) :
    (expandConditionals data (tree.looped data options item ++ ts)).text =
      (tree.decided data options item).flatMap Token.text
        ++ (expandConditionals data ts).text := by
  induction tree generalizing item ts with
  | nil => simp [looped, decided]
  | literal s rest ih =>
    rw [looped, List.append_assoc, expandConditionals_map_char_append, Expansion.text_append,
      ih h]
    simp [decided, flatMap_text_map_tokenChar]
  | simple name rest ih =>
    cases item with
    | none =>
      rw [looped, List.append_assoc, List.singleton_append, expandConditionals_cons (by simp),
        Expansion.text_append, ih h]
      simp [decided]
    | some v =>
      rw [looped, List.append_assoc, expandConditionals_map_char_append, Expansion.text_append,
        ih h]
      simp [decided, flatMap_text_map_tokenChar]
  | loop name body rest ihb ihr =>
    obtain ⟨-, -, hbody, hrest⟩ := h
    rw [looped, decided, List.append_assoc, List.flatMap_append, List.append_assoc,
      ← ihr hrest]
    -- the copies of the body give way to their branches one by one
    induction itemsOf data name with
    | nil => rfl
    | cons v vs ih =>
      rw [List.flatMap_cons, List.append_assoc, ihb hbody, ih]
      simp
  | cond name yes rest ihy ihr =>
    obtain ⟨hname, hyes, hrest⟩ := h
    -- no conditional inside has the same name, so the first closing tag is its own
    have hclose : .tag (.close name) ∉ yes.looped data options item :=
      fun hm => hname (mem_conditions_of_looped hm)
    have hy := ihy hyes item []
    rw [List.append_nil] at hy
    rw [looped, List.cons_append, List.append_assoc, List.cons_append,
      expandConditionals_closed (closedBy?_eq_some hclose _),
      (enclosed_looped yes item).chosen_eq, Expansion.text_append, Expansion.text_append,
      ihr hrest, decided]
    split <;> simp [hy]
  | either name yes no rest ihy ihn ihr =>
    obtain ⟨hname, hname', hyes, hno, hrest⟩ := h
    have hclose : .tag (.close name) ∉
        yes.looped data options item ++ .tag .otherwise :: no.looped data options item := by
      simp only [List.mem_append, List.mem_cons, reduceCtorEq, Token.tag.injEq, false_or, not_or]
      exact ⟨fun hm => hname (mem_conditions_of_looped hm),
        fun hm => hname' (mem_conditions_of_looped hm)⟩
    have hy := ihy hyes item []
    have hn := ihn hno item []
    rw [List.append_nil] at hy hn
    have hsplit : (either name yes no rest).looped data options item ++ ts =
        .tag (.condOpen name) ::
          ((yes.looped data options item ++ .tag .otherwise :: no.looped data options item)
            ++ .tag (.close name) :: (rest.looped data options item ++ ts)) := by
      simp [looped]
    rw [hsplit, expandConditionals_closed (closedBy?_eq_some hclose _),
      (enclosed_looped yes item).chosen_otherwise_eq, Expansion.text_append,
      Expansion.text_append, ihr hrest, decided]
    split <;> simp [hy, hn]

/-! ### Reading the lists in between -/

/-- What stands in a branch that is chosen stood in the conditional. -/
theorem mem_looped_of_decided {tree : Tree} {item : Option Value} {t : Token}
    (h : t ∈ tree.decided data options item) : t ∈ tree.looped data options item := by
  induction tree generalizing item with
  | nil => cases h
  | literal s rest ih =>
    rw [decided, List.mem_append] at h
    rw [looped, List.mem_append]
    exact h.imp_right ih
  | simple name rest ih =>
    cases item <;> exact List.mem_append.2 ((List.mem_append.1 h).imp_right ih)
  | loop name body rest ihb ihr =>
    rw [decided, List.mem_append, List.mem_flatMap] at h
    rw [looped, List.mem_append, List.mem_flatMap]
    exact h.imp (fun ⟨v, hv, hm⟩ => ⟨v, hv, ihb hm⟩) ihr
  | cond name yes rest ihy ihr =>
    rw [decided, List.mem_append] at h
    simp only [looped, List.mem_cons, List.mem_append]
    rcases h with h | h
    · split at h
      · exact Or.inr (Or.inl (ihy h))
      · cases h
    · exact Or.inr (Or.inr (Or.inr (ihr h)))
  | either name yes no rest ihy ihn ihr =>
    rw [decided, List.mem_append] at h
    simp only [looped, List.mem_cons, List.mem_append]
    rcases h with h | h
    · split at h
      · exact Or.inr (Or.inl (ihy h))
      · exact Or.inr (Or.inr (Or.inr (Or.inl (ihn h))))
    · exact Or.inr (Or.inr (Or.inr (Or.inr (Or.inr (ihr h)))))

/-- Apart from what the tree prints, only characters of the data stand among the tokens. -/
theorem mem_print_of_looped {tree : Tree} {item : Option Value} (hd : data.BraceFree)
    (hi : ∀ v, item = some v → v.BraceFree) {t : Token}
    (ht : t ∈ tree.looped data options item) :
    t ∈ tree.print ∨ ∃ c, t = .char c ∧ isBrace c = false := by
  have hfield : ∀ v name, v.BraceFree → t ∈ (fieldText options v name).map Token.char →
      ∃ c, t = .char c ∧ isBrace c = false := by
    intro v name hv hm
    obtain ⟨c, hc, rfl⟩ := List.mem_map.1 hm
    exact ⟨c, rfl, braceFree_fieldText hv name c hc⟩
  induction tree generalizing item with
  | nil => cases ht
  | literal s rest ih =>
    rw [looped, List.mem_append] at ht
    rw [print, List.mem_append]
    rcases ht with ht | ht
    · exact Or.inl (Or.inl ht)
    · exact (ih hi ht).imp_left Or.inr
  | simple name rest ih =>
    cases item with
    | none =>
      rcases List.mem_append.1 ht with ht | ht
      · exact Or.inl (List.mem_cons.2 (Or.inl (List.mem_singleton.1 ht)))
      · exact (ih hi ht).imp_left (List.mem_cons_of_mem _)
    | some v =>
      rcases List.mem_append.1 ht with ht | ht
      · exact Or.inr (hfield v name (hi v rfl) ht)
      · exact (ih hi ht).imp_left (List.mem_cons_of_mem _)
  | loop name body rest ihb ihr =>
    simp only [looped, List.mem_append, List.mem_flatMap] at ht
    simp only [print, List.mem_cons, List.mem_append]
    rcases ht with ⟨v, hv, ht⟩ | ht
    · refine (ihb ?_ ht).imp_left fun h => Or.inr (Or.inl h)
      rintro w ⟨⟩
      exact braceFree_of_mem_itemsOf hd hv
    · exact (ihr hi ht).imp_left fun h => Or.inr (Or.inr (Or.inr h))
  | cond name yes rest ihy ihr =>
    simp only [looped, List.mem_cons, List.mem_append] at ht
    simp only [print, List.mem_cons, List.mem_append]
    rcases ht with ht | ht | ht | ht
    · exact Or.inl (Or.inl ht)
    · exact (ihy hi ht).imp_left fun h => Or.inr (Or.inl h)
    · exact Or.inl (Or.inr (Or.inr (Or.inl ht)))
    · exact (ihr hi ht).imp_left fun h => Or.inr (Or.inr (Or.inr h))
  | either name yes no rest ihy ihn ihr =>
    simp only [looped, List.mem_cons, List.mem_append] at ht
    simp only [print, List.mem_cons, List.mem_append]
    rcases ht with ht | ht | ht | ht | ht | ht
    · exact Or.inl (Or.inl ht)
    · exact (ihy hi ht).imp_left fun h => Or.inr (Or.inl h)
    · exact Or.inl (Or.inr (Or.inr (Or.inl ht)))
    · exact (ihn hi ht).imp_left fun h => Or.inr (Or.inr (Or.inr (Or.inl h)))
    · exact Or.inl (Or.inr (Or.inr (Or.inr (Or.inr (Or.inl ht)))))
    · exact (ihr hi ht).imp_left fun h => Or.inr (Or.inr (Or.inr (Or.inr (Or.inr h))))

/-- A tree marks no rows of tables. -/
theorem table_notMem_print (tree : Tree) (name : String) : .tag (.table name) ∉ tree.print := by
  induction tree with
  | nil => simp [print]
  | literal s rest ih => simp [print, ih]
  | simple n rest ih => simp [print, ih]
  | loop n body rest ihb ihr => simp [print, ihb, ihr]
  | cond n yes rest ihy ihr => simp [print, ihy, ihr]
  | either n yes no rest ihy ihn ihr => simp [print, ihy, ihn, ihr]

/-! ### Placeholders give way to values -/

/-- In a tree without loops, everything in the copy for an item is decided. -/
theorem decided_some {tree : Tree} (h : tree.LoopFree) (v : Value) (placed : Nat) :
    tree.decided data options (some v) = (tree.eval data options (some v) placed).map .char := by
  induction tree generalizing placed with
  | nil => rfl
  | literal s rest ih => simp [decided, eval, ih h placed]
  | simple name rest ih => simp [decided, eval, ih h placed]
  | loop name body rest => exact absurd h id
  | cond name yes rest ihy ihr =>
    rw [decided, eval]
    split
    · rw [List.map_append, ← ihy h.1 placed, ← ihr h.2]
    · rw [List.nil_append, ihr h.2 placed]
  | either name yes no rest ihy ihn ihr =>
    rw [decided, eval]
    split
    · rw [List.map_append, ← ihy h.1 placed, ← ihr h.2.2]
    · rw [List.map_append, ← ihn h.2.1 placed, ← ihr h.2.2]

end Tree

theorem text_expandPlaceholder (data : DataTree) (options : Options) (placed : Nat)
    (name : String) :
    (expandPlaceholder data options placed name).text
      = placeholderText data options placed name := by
  rw [expandPlaceholder_eq, placeholderText, isPicture]
  cases data.get? name with
  | none => rfl
  | some v =>
    cases v with
    | image => rfl
    | _ =>
      simp only [Option.elim_some, Option.bind_some, expandValue]
      split
      · next h => rw [h]; rfl
      · next h => rw [h]; split <;> rfl

theorem length_images_expandPlaceholder (data : DataTree) (options : Options) (placed : Nat)
    (name : String) :
    (expandPlaceholder data options placed name).images.length
      = if isPicture data name then 1 else 0 := by
  rw [expandPlaceholder_eq, isPicture]
  cases data.get? name with
  | none => rfl
  | some v =>
    cases v with
    | image => rfl
    | _ =>
      simp only [Option.elim_some, expandValue]
      split
      · rfl
      · split <;> rfl

namespace Tree

theorem text_expandPlaceholders_decided {tree : Tree} (h : tree.Nested) (placed : Nat)
    (ts : List Token) :
    (expandPlaceholders data options placed (tree.decided data options none ++ ts)).text =
      tree.eval data options none placed
        ++ (expandPlaceholders data options (placed + tree.pictures data) ts).text := by
  induction tree generalizing placed ts with
  | nil => simp [decided, eval, pictures]
  | literal s rest ih =>
    rw [decided, List.append_assoc, expandPlaceholders_map_char_append, Expansion.text_append,
      ih h]
    simp [eval, pictures]
  | simple name rest ih =>
    rw [decided, List.append_assoc, List.singleton_append, expandPlaceholders,
      Expansion.text_append, text_expandPlaceholder, length_images_expandPlaceholder, ih h]
    simp [eval, pictures, Nat.add_assoc]
  | loop name body rest ihb ihr =>
    obtain ⟨hfree, -, -, hrest⟩ := h
    have hcopies : (itemsOf data name).flatMap (fun v => body.decided data options (some v)) =
        ((itemsOf data name).flatMap fun v =>
          body.eval data options (some v) placed).map .char := by
      rw [List.map_flatMap]
      simp only [decided_some hfree _ placed]
    rw [decided, hcopies, List.append_assoc, expandPlaceholders_map_char_append,
      Expansion.text_append, ihr hrest]
    simp [eval, pictures]
  | cond name yes rest ihy ihr =>
    obtain ⟨-, hyes, hrest⟩ := h
    rw [decided, eval, pictures]
    split
    · rw [List.append_assoc, ihy hyes, ihr hrest, List.append_assoc, Nat.add_assoc]
    · rw [List.nil_append, ihr hrest, Nat.zero_add]
  | either name yes no rest ihy ihn ihr =>
    obtain ⟨-, -, hyes, hno, hrest⟩ := h
    rw [decided, eval, pictures]
    split
    · rw [List.append_assoc, ihy hyes, ihr hrest, List.append_assoc, Nat.add_assoc]
    · rw [List.append_assoc, ihn hno, ihr hrest, List.append_assoc, Nat.add_assoc]

/-- The tags of a well-formed tree fit the window. -/
theorem WellFormed.proper {tree : Tree} {options : Options}
    (hlen : options.maxTokenLength.toNat < 2 ^ 63)
    (h : tree.WellFormed (max options.maxTokenLength.toNat 1)) :
    ∀ t ∈ tree.print, t.Proper options.window := by
  intro t ht
  cases t with
  | char c => exact h.literals c ht
  | tag t =>
    obtain ⟨hnamed, hsize⟩ := h.tags t ht
    refine ⟨hnamed, ?_⟩
    rw [Options.window, windowSize_eq hlen]
    omega

end Tree

/-- **Expanding a printed tree gives what the tree stands for.** -/
theorem text_expand_print {tree : Tree} {data : DataTree} {options : Options}
    (hlen : options.maxTokenLength.toNat < 2 ^ 63)
    (htree : tree.WellFormed (max options.maxTokenLength.toNat 1)) (hdata : data.BraceFree) :
    (expand data options tree.text).text = tree.eval data options none 0 := by
  have hprint := htree.proper hlen
  have hlooped : ∀ t ∈ tree.looped data options none,
      t ∈ tree.print ∨ ∃ c, t = .char c ∧ isBrace c = false :=
    fun t ht => Tree.mem_print_of_looped hdata (by simp) ht
  have hproper : ∀ t ∈ tree.looped data options none, t.Proper options.window := by
    intro t ht
    rcases hlooped t ht with h | ⟨c, rfl, hc⟩
    · exact hprint t h
    · exact hc
  have hproper' : ∀ t ∈ tree.decided data options none, t.Proper options.window :=
    fun t ht => hproper t (Tree.mem_looped_of_decided ht)
  have hmark : ∀ t ∈ tree.decided data options none, t.isMark = false := by
    refine isMark_eq_false_of_notMem fun name ht => ?_
    rcases hlooped _ (Tree.mem_looped_of_decided ht) with h | ⟨c, hc, -⟩
    · exact tree.table_notMem_print name h
    · cases hc
  -- the text between two passes is read as the tokens that the pass before has left
  have hloops : (expandLoops data options (tokens options.window tree.text)).text
      = (tree.looped data options none).flatMap Token.text := by
    rw [Tree.text, tokens_flatMap_text hprint]
    simpa using Tree.text_expandLoops_print htree.nested []
  have hconds : (expandConditionals data (tree.looped data options none)).text
      = (tree.decided data options none).flatMap Token.text := by
    simpa using Tree.text_expandConditionals_looped htree.nested none []
  have hvalues : (expandPlaceholders data options 0 (tree.decided data options none)).text
      = tree.eval data options none 0 := by
    simpa [expandPlaceholders] using Tree.text_expandPlaceholders_decided htree.nested 0 []
  rw [expand_of_read hloops (tokens_flatMap_text hproper) hconds (tokens_flatMap_text hproper')
    hmark, Expansion.text_append, hvalues]
  rfl

/-- A loop over two tasks and one that is `null`, with a conditional in its body, and a
placeholder. -/
theorem text_expand_print_tasks :
    let tree : Tree :=
      .loop "tasks"
        (.literal ['['] (.simple "title"
          (.either "show" (.literal ['!'] .nil) (.literal ['?'] .nil) (.literal [']'] .nil))))
        (.simple "name" .nil)
    let data : DataTree :=
      ⟨[("name", .string "Amy"), ("show", .bool true), ("tasks", .list
        [.map ⟨[("title", .string "A")]⟩, .null, .map ⟨[("title", .string "B")]⟩])]⟩
    ((256 : UInt64).toNat < 2 ^ 63 ∧ tree.WellFormed (max (256 : UInt64).toNat 1)
        ∧ data.BraceFree) ∧
      tree.text = "\x7b#tasks\x7d[\x7btitle\x7d\x7b?show\x7d!\x7b:else\x7d?\x7b/show\x7d]".toList
        ++ "\x7b/tasks\x7d\x7bname\x7d".toList ∧
      (expand data {} tree.text).text = "[A!][B!]Amy".toList := by
  intro tree data
  have hlen : (256 : UInt64).toNat < 2 ^ 63 := by decide
  have htree : tree.WellFormed (max (256 : UInt64).toNat 1) := by
    refine ⟨by simp [tree, Tree.Nested, Tree.LoopFree, Tree.conditions], fun t ht => ?_,
      fun c hc => ?_⟩
    · simp only [tree, Tree.print, List.map_cons, List.map_nil, List.cons_append, List.nil_append,
        List.mem_cons, Token.tag.injEq, reduceCtorEq, List.not_mem_nil, false_or, or_false] at ht
      rcases ht with rfl | rfl | rfl | rfl | rfl | rfl | rfl <;> decide
    · simp only [tree, Tree.print, List.map_cons, List.map_nil, List.cons_append, List.nil_append,
        List.mem_cons, Token.char.injEq, reduceCtorEq, List.not_mem_nil, false_or, or_false] at hc
      rcases hc with rfl | rfl | rfl | rfl <;> decide
  have hdata : data.BraceFree := by
    simp only [data, DataTree.BraceFree, Value.braceFree_map, List.forall_mem_cons,
      Value.braceFree_list, Value.braceFree_string, Value.braceFree_bool, Value.braceFree_null,
      List.not_mem_nil, false_implies, implies_true]
    decide
  refine ⟨⟨hlen, htree, hdata⟩, by decide, ?_⟩
  exact (@text_expand_print tree data {} hlen htree hdata).trans (by decide)

end MailMerge
