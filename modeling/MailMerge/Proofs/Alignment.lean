import Mathlib.Data.List.Forall2
import MailMerge.Proofs.Passes

/-!
# Two texts side by side

Two templates that hold the same tags, with other characters between them, or two runs of one
template on data that differ in some strings, go through the passes side by side: the same blocks
are closed, the same branches are chosen, the same number of copies is made. An `Alignment` says
which characters may stand side by side. Both texts are read from left to right with a common
**state**, so that what is allowed may depend on what came before; tags stand in one state only,
and so every block of tags leads from that state to itself and can be copied or dropped.

Each pass turns aligned texts into aligned texts, with the same warnings, counts and pictures
(`Alike`), when the data are alike: `Aligned.expandLoops`, `Aligned.expandConditionals`,
`Aligned.expandPlaceholders`.
-/

namespace MailMerge

/-- What may stand side by side in two texts, by the states before and after. -/
structure Alignment (σ : Type) where
  /-- The state in which tags stand. -/
  here : σ
  /-- The tags that both texts may hold. -/
  tag : Tag → Prop
  /-- The characters that lead from one state to another. -/
  block : σ → σ → List Char → List Char → Prop

variable {σ : Type}

/-- Two lists of tokens stand side by side, from one state to another. -/
inductive Aligned (A : Alignment σ) : σ → σ → List Token → List Token → Prop
  | nil (p : σ) : Aligned A p p [] []
  | tag {q : σ} {t : Tag} {us vs : List Token} (ht : A.tag t) (h : Aligned A A.here q us vs) :
    Aligned A A.here q (.tag t :: us) (.tag t :: vs)
  | block {p p' q : σ} {a b : List Char} {us vs : List Token} (hab : A.block p p' a b)
    (h : Aligned A p' q us vs) : Aligned A p q (a.map .char ++ us) (b.map .char ++ vs)

namespace Aligned

variable {A : Alignment σ} {p q r : σ} {us vs : List Token}

theorem append {us' vs' : List Token} (h : Aligned A p q us vs) (h' : Aligned A q r us' vs') :
    Aligned A p r (us ++ us') (vs ++ vs') := by
  induction h with
  | nil => exact h'
  | tag ht _ ih => exact .tag ht (ih h')
  | block hab _ ih =>
    rw [List.append_assoc, List.append_assoc]
    exact .block hab (ih h')

theorem of_block {a b : List Char} (h : A.block p q a b) :
    Aligned A p q (a.map .char) (b.map .char) := by
  have hnil := block h (.nil q)
  rwa [List.append_nil, List.append_nil] at hnil

theorem tag_of_mem (h : Aligned A p q us vs) {t : Tag} (ht : .tag t ∈ us ∨ .tag t ∈ vs) :
    A.tag t := by
  induction h with
  | nil => simp at ht
  | tag htag _ ih =>
    simp only [List.mem_cons, Token.tag.injEq] at ht
    rcases ht with (rfl | ht) | (rfl | ht)
    · exact htag
    · exact ih (Or.inl ht)
    · exact htag
    · exact ih (Or.inr ht)
  | block _ _ ih =>
    simp only [List.mem_append, List.mem_map, reduceCtorEq, and_false, exists_false,
      false_or] at ht
    exact ih ht

/-- More may stand side by side, in fewer states. -/
theorem map {τ : Type} {B : Alignment τ} (f : σ → τ) (h : Aligned A p q us vs)
    (here : f A.here = B.here) (tag : ∀ t, A.tag t → B.tag t)
    (block : ∀ p q a b, A.block p q a b → B.block (f p) (f q) a b) :
    Aligned B (f p) (f q) us vs := by
  induction h with
  | nil p => exact .nil (f p)
  | tag ht _ ih =>
    rw [here] at ih ⊢
    exact .tag (tag _ ht) ih
  | block hab _ ih => exact .block (block _ _ _ _ hab) ih

/-- The same blocks are closed. -/
theorem closedBy? (h : Aligned A p q us vs) (name : String) :
    (MailMerge.closedBy? name us = none ∧ MailMerge.closedBy? name vs = none) ∨
      ∃ body after body' after',
        MailMerge.closedBy? name us = some (body, after) ∧
          MailMerge.closedBy? name vs = some (body', after') ∧
          Aligned A p A.here body body' ∧ Aligned A A.here q after after' := by
  have hchars : ∀ (a : List Char) (ts : List Token), MailMerge.closedBy? name (a.map .char ++ ts)
      = (MailMerge.closedBy? name ts).map fun found => (a.map .char ++ found.1, found.2) :=
    fun a ts => closedBy?_append (by simp) ts
  induction h with
  | nil => exact Or.inl ⟨rfl, rfl⟩
  | @tag q t us vs ht h ih =>
    -- the same tags stand in both lists, so the same one is the first that closes
    by_cases hclose : t = .close name
    · subst hclose
      exact Or.inr ⟨[], us, [], vs, by simp [MailMerge.closedBy?], by simp [MailMerge.closedBy?],
        .nil _, h⟩
    · have hne : Token.tag t ≠ .tag (.close name) := by simpa using hclose
      rw [closedBy?_cons_of_ne hne, closedBy?_cons_of_ne hne]
      rcases ih with ⟨hu, hv⟩ | ⟨body, after, body', after', hu, hv, hbody, hafter⟩
      · exact Or.inl ⟨by rw [hu, Option.map_none], by rw [hv, Option.map_none]⟩
      · exact Or.inr ⟨_, _, _, _, by rw [hu, Option.map_some], by rw [hv, Option.map_some],
          .tag ht hbody, hafter⟩
  | block hab h ih =>
    rw [hchars, hchars]
    rcases ih with ⟨hu, hv⟩ | ⟨body, after, body', after', hu, hv, hbody, hafter⟩
    · exact Or.inl ⟨by rw [hu, Option.map_none], by rw [hv, Option.map_none]⟩
    · exact Or.inr ⟨_, _, _, _, by rw [hu, Option.map_some], by rw [hv, Option.map_some],
        .block hab hbody, hafter⟩

/-- The same `{:else}` parts the branches. -/
theorem branches (h : Aligned A p q us vs) (opened : List String) :
    ((branches opened us).2 = none ∧ (branches opened vs).2 = none ∧
        Aligned A p q (branches opened us).1 (branches opened vs).1) ∨
      ∃ no no', (branches opened us).2 = some no ∧ (branches opened vs).2 = some no' ∧
        Aligned A p A.here (branches opened us).1 (branches opened vs).1 ∧
          Aligned A A.here q no no' := by
  induction h generalizing opened with
  | nil p => exact Or.inl ⟨rfl, rfl, .nil p⟩
  | @tag q t us vs ht h ih =>
    by_cases hparts : opened = [] ∧ Token.tag t = .tag .otherwise
    · simp only [MailMerge.branches, hparts, and_self, if_true]
      exact Or.inr ⟨us, vs, rfl, rfl, .nil _, h⟩
    · simp only [MailMerge.branches, hparts, if_false]
      rcases ih (nest opened (.tag t)) with ⟨hu, hv, hyes⟩ | ⟨no, no', hu, hv, hyes, hno⟩
      · exact Or.inl ⟨hu, hv, .tag ht hyes⟩
      · exact Or.inr ⟨no, no', hu, hv, .tag ht hyes, hno⟩
  | block hab h ih =>
    rw [branches_map_char_append, branches_map_char_append]
    rcases ih opened with ⟨hu, hv, hyes⟩ | ⟨no, no', hu, hv, hyes, hno⟩
    · exact Or.inl ⟨hu, hv, .block hab hyes⟩
    · exact Or.inr ⟨no, no', hu, hv, .block hab hyes, hno⟩

/-- The same branch is chosen. -/
theorem chosen (h : Aligned A A.here A.here us vs) (b : Bool) :
    Aligned A A.here A.here (chosen b us) (chosen b vs) := by
  simp only [MailMerge.chosen]
  rcases h.branches [] with ⟨hu, hv, hyes⟩ | ⟨no, no', hu, hv, hyes, hno⟩
  · cases b with
    | true => exact hyes
    | false => simpa [hu, hv] using .nil A.here
  · cases b with
    | true => exact hyes
    | false => simpa [hu, hv] using hno

end Aligned

/-! ### Alike expansions -/

/-- Two expansions are alike: their texts stand side by side, and all else is the same. -/
structure Alike (A : Alignment σ) (p q : σ) (e f : Expansion) : Prop where
  text : ∃ us vs, Aligned A p q us vs ∧ e.text = us.flatMap Token.text ∧
    f.text = vs.flatMap Token.text
  withoutText : e.withoutText = f.withoutText

namespace Alike

variable {A : Alignment σ} {p q r : σ} {e f e' f' : Expansion}

theorem append (h : Alike A p q e f) (h' : Alike A q r e' f') :
    Alike A p r (e ++ e') (f ++ f') := by
  obtain ⟨us, vs, huv, hu, hv⟩ := h.text
  obtain ⟨us', vs', huv', hu', hv'⟩ := h'.text
  refine ⟨⟨us ++ us', vs ++ vs', huv.append huv', ?_, ?_⟩, ?_⟩
  · rw [Expansion.text_append, hu, hu', List.flatMap_append]
  · rw [Expansion.text_append, hv, hv', List.flatMap_append]
  · rw [Expansion.withoutText_append, Expansion.withoutText_append, h.withoutText, h'.withoutText]

theorem of_text_eq_nil (p : σ) (h : e.text = []) : Alike A p p e e :=
  ⟨⟨[], [], .nil p, by rw [h]; rfl, by rw [h]; rfl⟩, rfl⟩

theorem tag {t : Tag} (ht : A.tag t) :
    Alike A A.here A.here (.literal t.text) (.literal t.text) :=
  ⟨⟨[.tag t], [.tag t], .tag ht (.nil _), by simp [Token.text], by simp [Token.text]⟩, rfl⟩

theorem block {a b : List Char} (h : A.block p q a b) :
    Alike A p q (.literal a) (.literal b) :=
  ⟨⟨_, _, .of_block h, (flatMap_text_map_tokenChar a).symm, (flatMap_text_map_tokenChar b).symm⟩,
    rfl⟩

end Alike

/-! ### Alike data -/

/-- Two items come out alike: both are `null` or none is, and so do their fields. -/
structure ItemsAlike (A : Alignment σ) (options : Options) (v w : Value) : Prop where
  isNull : v.isNull = w.isNull
  field : ∀ of owner name, Alike A A.here A.here
    (expandField options of owner v (.tag (.simple name)))
    (expandField options of owner w (.tag (.simple name)))

/-- Two lists come out alike: both are missing, for the same reason, or their items come out
alike. -/
inductive ListsAlike (A : Alignment σ) (options : Options) :
    Except Warning (List Value) → Except Warning (List Value) → Prop
  | error (w : Warning) : ListsAlike A options (.error w) (.error w)
  | ok {items items' : List Value} (h : List.Forall₂ (ItemsAlike A options) items items') :
    ListsAlike A options (.ok items) (.ok items')

/-- Loops and conditionals come out alike. -/
structure DataAlike (A : Alignment σ) (options : Options) (data data' : DataTree) : Prop where
  condition : ∀ name, holds data name = holds data' name
  list : ∀ of name, ListsAlike A options (listFor data of name) (listFor data' of name)

namespace Aligned

variable {A : Alignment σ} {options : Options} {p q : σ} {us vs : List Token}

/-- Copies for items that come out alike are alike. -/
theorem expandFields (h : Aligned A p q us vs) (of : Repetition) (owner : String) {v w : Value}
    (hvw : ItemsAlike A options v w) :
    Alike A p q (expandFields options of owner v us) (expandFields options of owner w vs) := by
  induction h with
  | nil p => exact .of_text_eq_nil p rfl
  | @tag q t us vs ht h ih =>
    refine Alike.append ?_ ih
    cases t with
    | simple name => exact hvw.field of owner name
    | table name =>
      simp only [expandField]
      split
      · exact .of_text_eq_nil _ rfl
      · exact .tag ht
    | loopOpen | condOpen | close | otherwise => exact .tag ht
  | block hab h ih =>
    rw [expandFields_map_char_append, expandFields_map_char_append]
    exact (Alike.block hab).append ih

theorem expandItems_cons (of : Repetition) (owner : String) (ts : List Token) (v : Value)
    (items : List Value) :
    expandItems options of owner ts (v :: items) =
      (if v.isNull then {} else MailMerge.expandFields options of owner v ts)
        ++ expandItems options of owner ts items := by
  cases hv : v.isNull with
  | true => simp [expandItems, hv]
  | false =>
    simp only [expandItems, hv, Bool.not_false, List.filter_cons_of_pos, List.map_cons]
    rfl

/-- Repeated texts are alike. -/
theorem expandItems (h : Aligned A A.here A.here us vs) (of : Repetition) (owner : String)
    {items items' : List Value} (hitems : List.Forall₂ (ItemsAlike A options) items items') :
    Alike A A.here A.here (expandItems options of owner us items)
      (expandItems options of owner vs items') := by
  induction hitems with
  | nil => exact .of_text_eq_nil _ rfl
  | @cons v w items items' hvw _ ih =>
    rw [expandItems_cons, expandItems_cons, hvw.isNull]
    refine Alike.append ?_ ih
    split
    · exact .of_text_eq_nil _ rfl
    · exact h.expandFields of owner hvw

section Passes

variable {data data' : DataTree}

theorem expandLoop (h : Aligned A A.here A.here us vs) (hdata : DataAlike A options data data')
    (name : String) :
    Alike A A.here A.here (expandLoop data options name us) (expandLoop data' options name vs) := by
  unfold MailMerge.expandLoop
  have hlist := hdata.list .loop name
  revert hlist
  cases listFor data .loop name <;> cases listFor data' .loop name
  all_goals
    intro hlist
    cases hlist
  · exact .of_text_eq_nil _ rfl
  · next hitems =>
    exact (Alike.of_text_eq_nil _ rfl).append (h.expandItems .loop name hitems)

/-- The loop pass keeps texts side by side. -/
theorem expandLoops (h : Aligned A p q us vs) (hdata : DataAlike A options data data') :
    Alike A p q (expandLoops data options us) (expandLoops data' options vs) := by
  -- what follows a loop is shorter, but no part of the derivation
  suffices hlength : ∀ n {p q : σ} {us vs : List Token}, Aligned A p q us vs → us.length ≤ n →
      Alike A p q (MailMerge.expandLoops data options us)
        (MailMerge.expandLoops data' options vs) from hlength us.length h (Nat.le_refl _)
  intro n
  induction n using Nat.strongRecOn with
  | ind n ihn =>
    intro p q us vs h hn
    induction h with
    | nil p =>
      rw [expandLoops_nil, expandLoops_nil]
      exact .of_text_eq_nil p rfl
    | block hab h ih =>
      rw [expandLoops_map_char_append, expandLoops_map_char_append]
      refine (Alike.block hab).append (ih ?_)
      rw [List.length_append] at hn
      omega
    | @tag q t us vs ht h ih =>
      rw [List.length_cons] at hn
      by_cases hopen : ∃ name, t = .loopOpen name
      · obtain ⟨name, rfl⟩ := hopen
        rcases h.closedBy? name with ⟨hu, hv⟩ | ⟨body, after, body', after', hu, hv, hbody, hafter⟩
        · rw [expandLoops_unclosed hu, expandLoops_unclosed hv]
          exact ((Alike.tag ht).append (.of_text_eq_nil _ rfl)).append (ih (by omega))
        · rw [expandLoops_closed hu, expandLoops_closed hv]
          have hlt := length_lt_of_closedBy? hu
          exact (hbody.expandLoop hdata name).append
            (ihn after.length (by omega) hafter (Nat.le_refl _))
      · have hne : ∀ name, Token.tag t ≠ .tag (.loopOpen name) :=
          fun name he => hopen ⟨name, Token.tag.inj he⟩
        rw [expandLoops_cons hne, expandLoops_cons hne]
        exact (Alike.tag ht).append (ih (by omega))

/-- The conditional pass keeps texts side by side. -/
theorem expandConditionals (h : Aligned A p q us vs)
    (hdata : ∀ name, holds data name = holds data' name) :
    Alike A p q (expandConditionals data us) (expandConditionals data' vs) := by
  -- a branch and what follows the conditional are shorter, but no part of the derivation
  suffices hlength : ∀ n {p q : σ} {us vs : List Token}, Aligned A p q us vs → us.length ≤ n →
      Alike A p q (MailMerge.expandConditionals data us)
        (MailMerge.expandConditionals data' vs) from hlength us.length h (Nat.le_refl _)
  intro n
  induction n using Nat.strongRecOn with
  | ind n ihn =>
    intro p q us vs h hn
    induction h with
    | nil p =>
      rw [expandConditionals_nil, expandConditionals_nil]
      exact .of_text_eq_nil p rfl
    | block hab h ih =>
      rw [expandConditionals_map_char_append, expandConditionals_map_char_append]
      refine (Alike.block hab).append (ih ?_)
      rw [List.length_append] at hn
      omega
    | @tag q t us vs ht h ih =>
      rw [List.length_cons] at hn
      by_cases hopen : ∃ name, t = .condOpen name
      · obtain ⟨name, rfl⟩ := hopen
        rcases h.closedBy? name with ⟨hu, hv⟩ | ⟨body, after, body', after', hu, hv, hbody, hafter⟩
        · rw [expandConditionals_unclosed hu, expandConditionals_unclosed hv]
          exact ((Alike.tag ht).append (.of_text_eq_nil _ rfl)).append (ih (by omega))
        · rw [expandConditionals_closed hu, expandConditionals_closed hv, ← hdata name]
          have hlt := length_lt_of_closedBy? hu
          have hltc := length_chosen_lt hu (holds data name)
          exact ((Alike.of_text_eq_nil _ rfl).append
            (ihn _ (by omega) (hbody.chosen (holds data name)) (Nat.le_refl _))).append
              (ihn _ (by omega) hafter (Nat.le_refl _))
      · have hne : ∀ name, Token.tag t ≠ .tag (.condOpen name) :=
          fun name he => hopen ⟨name, Token.tag.inj he⟩
        rw [expandConditionals_cons hne, expandConditionals_cons hne]
        exact (Alike.tag ht).append (ih (by omega))

/-- The placeholder pass keeps texts side by side. -/
theorem expandPlaceholders (h : Aligned A p q us vs)
    (hdata : ∀ placed name, Alike A A.here A.here (expandPlaceholder data options placed name)
      (expandPlaceholder data' options placed name)) (placed : Nat) :
    Alike A p q (expandPlaceholders data options placed us)
      (expandPlaceholders data' options placed vs) := by
  induction h generalizing placed with
  | nil p => exact .of_text_eq_nil p rfl
  | block hab h ih =>
    rw [expandPlaceholders_map_char_append, expandPlaceholders_map_char_append]
    exact (Alike.block hab).append (ih placed)
  | @tag q t us vs ht h ih =>
    by_cases hsimple : ∃ name, t = .simple name
    · obtain ⟨name, rfl⟩ := hsimple
      have himages : (expandPlaceholder data options placed name).images
          = (expandPlaceholder data' options placed name).images :=
        congrArg (fun e => e.images) (hdata placed name).withoutText
      simp only [MailMerge.expandPlaceholders]
      rw [← himages]
      exact (hdata placed name).append (ih _)
    · have hne : ∀ name, Token.tag t ≠ .tag (.simple name) :=
        fun name he => hsimple ⟨name, Token.tag.inj he⟩
      rw [expandPlaceholders_cons hne, expandPlaceholders_cons hne]
      exact (Alike.tag ht).append (ih placed)

end Passes

end Aligned

end MailMerge
