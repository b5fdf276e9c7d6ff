import MailMerge.Proofs.Passes

/-!
# The borders of conditionals

A border `{:else}` in the body of a conditional is its own when no other conditional that is opened
and closed in the body **encloses** it, and the first such border should part the body (`Parted`).

`branches` reads the body once, from left to right, and keeps the names of the conditionals that are
open on a stack. It cannot know which of them will be closed: one that never is stays on the stack,
and hides the borders behind it. So a body is parted as it should be exactly when what stands in
front of its own border is **settled**: whatever is opened there is closed there, the last one first
(`branches_parted_iff`). At a border that is enclosed the body is never parted.
-/

namespace MailMerge

/-! ### Borders -/

/-- A conditional is opened in `before`, and its closing tag stands in `after`. -/
def Encloses (before after : List Token) : Prop :=
  ∃ front name between, before = front ++ .tag (.condOpen name) :: between ∧
    .tag (.close name) ∉ between ∧ .tag (.close name) ∈ after

/-- The border that belongs to a body itself: the first one that no conditional in it encloses. -/
structure IsBorder (body yes no : List Token) : Prop where
  split : body = yes ++ .tag .otherwise :: no
  own : ¬Encloses yes no
  first : ∀ {yes' no'}, body = yes' ++ .tag .otherwise :: no' → yes'.length < yes.length →
    Encloses yes' no'

/-- A body is parted at its own border, or stays whole when it has none. -/
def Parted (body yes : List Token) : Option (List Token) → Prop
  | some no => IsBorder body yes no
  | none => yes = body ∧ ∀ yes' no', body = yes' ++ .tag .otherwise :: no' → Encloses yes' no'

/-- Where there is a border that nothing encloses, there is a first one. -/
theorem exists_isBorder {body yes no : List Token} (h : body = yes ++ .tag .otherwise :: no)
    (hown : ¬Encloses yes no) : ∃ yes' no', IsBorder body yes' no' ∧ yes'.length ≤ yes.length := by
  induction hn : yes.length using Nat.strongRecOn generalizing yes no with
  | ind n ih =>
    subst hn
    by_cases hfirst : ∀ {yes' no'}, body = yes' ++ .tag .otherwise :: no' →
        yes'.length < yes.length → Encloses yes' no'
    · exact ⟨yes, no, ⟨h, hown, hfirst⟩, Nat.le_refl _⟩
    · simp only [not_forall] at hfirst
      obtain ⟨yes₁, no₁, h₁, hlt, hown₁⟩ := hfirst
      obtain ⟨yes', no', hborder, hle⟩ := ih yes₁.length hlt h₁ hown₁ rfl
      exact ⟨yes', no', hborder, Nat.le_trans hle (Nat.le_of_lt hlt)⟩

theorem IsBorder.unique {body yes no yes' no' : List Token} (h : IsBorder body yes no)
    (h' : IsBorder body yes' no') : yes = yes' := by
  have hsame := h.split.symm.trans h'.split
  rcases Nat.lt_trichotomy yes.length yes'.length with hlt | heq | hlt
  · exact absurd (h'.first h.split hlt) h.own
  · exact (List.append_inj hsame heq).1
  · exact absurd (h.first h'.split hlt) h'.own

/-! ### The names on the stack -/

/-- Whatever is opened in a list of tokens is closed in it, and so is what is opened in between.
Closing tags that close nothing do not matter. -/
inductive Settled : List Token → Prop
  | nil : Settled []
  | cons {t : Token} {ts : List Token} (ht : ∀ name, t ≠ .tag (.condOpen name)) (h : Settled ts) :
    Settled (t :: ts)
  | closed {name : String} {body rest : List Token} (hbody : Settled body) (hrest : Settled rest) :
    Settled (.tag (.condOpen name) :: (body ++ .tag (.close name) :: rest))

section Nest

variable {name : String} {t : Token} {ts : List Token} {opened : List String}

theorem nest_nil (ht : ∀ name, t ≠ .tag (.condOpen name)) : nest [] t = [] := by
  unfold nest
  split
  · next name => exact absurd rfl (ht name)
  · rfl
  · rfl

/-- A name stays at the bottom of the stack until its closing tag is read with nothing above it. -/
theorem nest_concat (h : ¬(opened = [] ∧ t = .tag (.close name))) :
    nest (opened ++ [name]) t = nest opened t ++ [name] := by
  cases t with
  | char c => rfl
  | tag t =>
    cases t with
    | close other =>
      cases opened with
      | nil =>
        have hne : name ≠ other := by
          rintro rfl
          exact h ⟨rfl, rfl⟩
        simp [nest, hne]
      | cons top opened =>
        by_cases htop : top = other <;> simp [nest, htop]
    | simple | loopOpen | condOpen | otherwise | table => rfl

/-- A name stays on the stack until its closing tag is read. -/
theorem mem_nest (h : t ≠ .tag (.close name)) (hname : name ∈ opened) : name ∈ nest opened t := by
  cases t with
  | char c => exact hname
  | tag t =>
    cases t with
    | condOpen other => exact List.mem_cons_of_mem _ hname
    | close other =>
      cases opened with
      | nil => cases hname
      | cons top opened =>
        by_cases htop : top = other
        · subst htop
          have hne : name ≠ top := by
            rintro rfl
            exact h rfl
          have hrest := (List.mem_cons.1 hname).resolve_left hne
          simpa [nest] using hrest
        · simpa [nest, htop] using hname
    | simple | loopOpen | otherwise | table => exact hname

theorem mem_foldl_nest (h : .tag (.close name) ∉ ts) (hname : name ∈ opened) :
    name ∈ ts.foldl nest opened := by
  induction ts generalizing opened with
  | nil => exact hname
  | cons t ts ih =>
    rw [List.mem_cons, not_or] at h
    exact ih h.2 (mem_nest (Ne.symm h.1) hname)

/-- The name of a conditional that encloses a place is on the stack there. -/
theorem Encloses.foldl_nest_ne {yes no : List Token} (h : Encloses yes no) :
    yes.foldl nest opened ≠ [] := by
  obtain ⟨front, name, between, rfl, hbetween, -⟩ := h
  rw [List.foldl_append, List.foldl_cons]
  exact List.ne_nil_of_mem (mem_foldl_nest hbetween List.mem_cons_self)

/-- A name at the bottom of the stack changes nothing above it, and may be gone in the end. -/
theorem foldl_nest_concat (ts : List Token) (opened : List String) (name : String) :
    ts.foldl nest (opened ++ [name]) = ts.foldl nest opened ++ [name] ∨
      ts.foldl nest (opened ++ [name]) = ts.foldl nest opened := by
  induction ts generalizing opened with
  | nil => exact Or.inl rfl
  | cons t ts ih =>
    rw [List.foldl_cons, List.foldl_cons]
    by_cases hlast : opened = [] ∧ t = .tag (.close name)
    · obtain ⟨rfl, rfl⟩ := hlast
      right
      simp [nest]
    · rw [nest_concat hlast]
      exact ih _

/-- A name that leaves the bottom of the stack is closed where everything above it is. -/
theorem exists_of_foldl_nest_concat (h : ts.foldl nest (opened ++ [name]) = []) :
    ∃ body rest, ts = body ++ .tag (.close name) :: rest ∧ body.foldl nest opened = [] ∧
      rest.foldl nest [] = [] := by
  induction ts generalizing opened with
  | nil => simp at h
  | cons t ts ih =>
    rw [List.foldl_cons] at h
    by_cases hlast : opened = [] ∧ t = .tag (.close name)
    · obtain ⟨rfl, rfl⟩ := hlast
      refine ⟨[], ts, rfl, rfl, ?_⟩
      simpa [nest] using h
    · rw [nest_concat hlast] at h
      obtain ⟨body, rest, rfl, hbody, hrest⟩ := ih h
      exact ⟨t :: body, rest, rfl, hbody, hrest⟩

/-- **The stack is empty** behind tokens that are settled, and only there. -/
theorem foldl_nest_eq_nil_iff : ts.foldl nest [] = [] ↔ Settled ts := by
  constructor
  · intro h
    induction hn : ts.length using Nat.strongRecOn generalizing ts with
    | ind n ih =>
      subst hn
      cases ts with
      | nil => exact .nil
      | cons t ts =>
        rw [List.foldl_cons] at h
        by_cases hopen : ∃ name, t = .tag (.condOpen name)
        · obtain ⟨name, rfl⟩ := hopen
          replace h : ts.foldl nest ([] ++ [name]) = [] := h
          obtain ⟨body, rest, rfl, hbody, hrest⟩ := exists_of_foldl_nest_concat h
          simp only [List.length_cons, List.length_append] at ih
          exact .closed (ih body.length (by omega) hbody rfl) (ih rest.length (by omega) hrest rfl)
        · have ht : ∀ name, t ≠ .tag (.condOpen name) := fun name he => hopen ⟨name, he⟩
          rw [nest_nil ht] at h
          exact .cons ht (ih ts.length (Nat.lt_succ_self _) h rfl)
  · intro h
    induction h with
    | nil => rfl
    | cons ht _ ih => rw [List.foldl_cons, nest_nil ht, ih]
    | @closed name body rest _ _ ihbody ihrest =>
      have hbody := foldl_nest_concat body [] name
      rw [ihbody, List.nil_append] at hbody
      have hopen : nest [] (.tag (.condOpen name)) = [name] := rfl
      rw [List.foldl_cons, hopen, List.foldl_append, List.foldl_cons]
      rcases hbody with h | h <;> rw [h] <;> simpa [nest] using ihrest

/-- A list is parted at the first border where the stack is empty. -/
theorem branches_eq_some {no : List Token} (h : (branches opened ts).2 = some no) :
    ts = (branches opened ts).1 ++ .tag .otherwise :: no ∧
      (branches opened ts).1.foldl nest opened = [] ∧
      ∀ {yes' no'}, ts = yes' ++ .tag .otherwise :: no' →
        yes'.length < (branches opened ts).1.length → yes'.foldl nest opened ≠ [] := by
  induction ts generalizing opened with
  | nil => cases h
  | cons t ts ih =>
    rw [branches] at h ⊢
    split at h
    · next hborder =>
      obtain ⟨rfl, rfl⟩ := hborder
      obtain rfl := Option.some.inj h
      rw [if_pos ⟨rfl, rfl⟩]
      exact ⟨rfl, rfl, fun _ hlt => absurd hlt (Nat.not_lt_zero _)⟩
    · next hborder =>
      rw [if_neg hborder]
      obtain ⟨hts, hempty, hfirst⟩ := ih h
      refine ⟨congrArg (t :: ·) hts, hempty, fun {yes' no'} hsplit hlt => ?_⟩
      cases yes' with
      | nil =>
        obtain ⟨rfl, -⟩ := List.cons.inj hsplit
        exact fun hopened => hborder ⟨hopened, rfl⟩
      | cons u yes' =>
        obtain ⟨rfl, hrest⟩ := List.cons.inj hsplit
        exact hfirst hrest (Nat.lt_of_succ_lt_succ hlt)

/-- A list stays whole when the stack is empty at no border. -/
theorem branches_eq_none (h : (branches opened ts).2 = none) :
    (branches opened ts).1 = ts ∧
      ∀ {yes' no'}, ts = yes' ++ .tag .otherwise :: no' → yes'.foldl nest opened ≠ [] := by
  induction ts generalizing opened with
  | nil => exact ⟨rfl, fun hsplit => absurd hsplit (by simp)⟩
  | cons t ts ih =>
    rw [branches] at h ⊢
    split at h
    · cases h
    · next hborder =>
      rw [if_neg hborder]
      obtain ⟨hts, hnone⟩ := ih h
      refine ⟨congrArg (t :: ·) hts, fun {yes' no'} hsplit => ?_⟩
      cases yes' with
      | nil =>
        obtain ⟨rfl, -⟩ := List.cons.inj hsplit
        exact fun hopened => hborder ⟨hopened, rfl⟩
      | cons u yes' =>
        obtain ⟨rfl, hrest⟩ := List.cons.inj hsplit
        exact hnone hrest

end Nest

/-! ### Bodies that are parted -/

/-- The body of a block holds no closing tag of its name. -/
theorem close_notMem_body {name : String} {ts body after : List Token}
    (h : closedBy? name ts = some (body, after)) : .tag (.close name) ∉ body := by
  induction ts generalizing body with
  | nil => cases h
  | cons t ts ih =>
    by_cases ht : t = .tag (.close name)
    · rw [closedBy?, if_pos ht] at h
      cases h
      exact List.not_mem_nil
    · rw [closedBy?_cons_of_ne ht] at h
      obtain ⟨⟨front, rest⟩, hfound, he⟩ := Option.map_eq_some_iff.1 h
      cases he
      rw [List.mem_cons, not_or]
      exact ⟨Ne.symm ht, ih hfound⟩

/-- A body is parted as it should be when what stands in front of its own border is settled. -/
theorem parted_iff_settled (body : List Token) :
    Parted body (branches [] body).1 (branches [] body).2 ↔
      ∀ yes no, IsBorder body yes no → Settled yes := by
  cases h : (branches [] body).2 with
  | some no =>
    obtain ⟨hsplit, hempty, hfirst⟩ := branches_eq_some h
    constructor
    · intro hborder yes' no' hborder'
      rw [← hborder.unique hborder']
      exact foldl_nest_eq_nil_iff.1 hempty
    · intro hsettled
      refine ⟨hsplit, fun hencloses => hencloses.foldl_nest_ne hempty, fun hsplit' hlt => ?_⟩
      -- a border in front would be the own one, and the stack empty there
      by_contra hown
      obtain ⟨yes, no', hborder, hle⟩ := exists_isBorder hsplit' hown
      exact hfirst hborder.split (Nat.lt_of_le_of_lt hle hlt)
        (foldl_nest_eq_nil_iff.2 (hsettled yes no' hborder))
  | none =>
    obtain ⟨hwhole, hnone⟩ := branches_eq_none h
    constructor
    · rintro ⟨-, hall⟩ yes no hborder
      exact absurd (hall yes no hborder.split) hborder.own
    · intro hsettled
      refine ⟨hwhole, fun yes' no' hsplit => ?_⟩
      by_contra hown
      obtain ⟨yes, no, hborder, -⟩ := exists_isBorder hsplit hown
      exact hnone hborder.split (foldl_nest_eq_nil_iff.2 (hsettled yes no hborder))

/-- **Which border parts a conditional.** The body of a conditional reaches up to the next closing
tag of its name. It is never parted at a border that another conditional in it encloses. It is
parted at its own border, or stays whole without one, exactly when all that is opened in front of
that border is closed there, the last one first. -/
theorem branches_parted_iff {window : Nat} {text : List Char} {front ts body after : List Token}
    {name : String} (htext : tokens window text = front ++ .tag (.condOpen name) :: ts)
    (hclosed : closedBy? name ts = some (body, after)) :
    (text = front.flatMap Token.text ++ ((Tag.condOpen name).text ++ (body.flatMap Token.text
        ++ ((Tag.close name).text ++ after.flatMap Token.text))) ∧ .tag (.close name) ∉ body) ∧
      (∀ no, (branches [] body).2 = some no →
        body = (branches [] body).1 ++ .tag .otherwise :: no ∧
          ¬Encloses (branches [] body).1 no) ∧
      (Parted body (branches [] body).1 (branches [] body).2 ↔
        ∀ yes no, IsBorder body yes no → Settled yes) := by
  refine ⟨⟨?_, close_notMem_body hclosed⟩, fun no hno => ?_, parted_iff_settled body⟩
  · rw [← text_tokens window text, htext, eq_append_of_closedBy? hclosed]
    simp [Token.text]
  · obtain ⟨hsplit, hempty, -⟩ := branches_eq_some hno
    exact ⟨hsplit, fun hencloses => hencloses.foldl_nest_ne hempty⟩

/-- A conditional in front of the border, with one in it, and one behind it. -/
theorem branches_parted_iff_nested :
    let yes := [.tag (.condOpen "b"), .tag (.condOpen "c"), .tag .otherwise, .tag (.close "c"),
      .tag (.close "b"), .char '1']
    let no := [.tag (.condOpen "b"), .tag .otherwise, .tag (.close "b")]
    let body := yes ++ .tag .otherwise :: no
    let text := "\x7b?a\x7d\x7b?b\x7d\x7b?c\x7d\x7b:else\x7d\x7b/c\x7d\x7b/b\x7d1".toList
      ++ "\x7b:else\x7d\x7b?b\x7d\x7b:else\x7d\x7b/b\x7d\x7b/a\x7d\x7b/a\x7d".toList
    (tokens (windowSize 256) text
          = [] ++ .tag (.condOpen "a") :: (body ++ [.tag (.close "a"), .tag (.close "a")]) ∧
        closedBy? "a" (body ++ [.tag (.close "a"), .tag (.close "a")])
          = some (body, [.tag (.close "a")])) ∧
      branches [] body = (yes, some no) ∧ ¬Encloses yes no ∧
      (Parted body yes (some no) ↔ ∀ yes no, IsBorder body yes no → Settled yes) := by
  intro yes no body text
  have htext : tokens (windowSize 256) text
      = [] ++ .tag (.condOpen "a") :: (body ++ [.tag (.close "a"), .tag (.close "a")]) := by
    decide +kernel
  have hclosed : closedBy? "a" (body ++ [.tag (.close "a"), .tag (.close "a")])
      = some (body, [.tag (.close "a")]) := by decide
  obtain ⟨-, hown, hparted⟩ := branches_parted_iff htext hclosed
  exact ⟨⟨htext, hclosed⟩, by decide, (hown no (by decide)).2, hparted⟩

/-- A conditional that is not closed hides the border behind it: the body stays whole, and nothing
is left of it where the condition does not hold. -/
theorem not_parted_unclosed :
    let body := [.tag (.condOpen "b"), .tag .otherwise, .char 'x']
    let text := "\x7b?a\x7d\x7b?b\x7d\x7b:else\x7dx\x7b/a\x7d".toList
    tokens (windowSize 256) text = .tag (.condOpen "a") :: (body ++ [.tag (.close "a")]) ∧
      closedBy? "a" (body ++ [.tag (.close "a")]) = some (body, []) ∧
      IsBorder body [.tag (.condOpen "b")] [.char 'x'] ∧ branches [] body = (body, none) ∧
      ¬Parted body (branches [] body).1 (branches [] body).2 ∧
      (expand ⟨[]⟩ {} text).text = [] := by
  intro body text
  have hborder : IsBorder body [.tag (.condOpen "b")] [.char 'x'] := by
    refine ⟨rfl, ?_, fun {yes' no'} hsplit hlt => ?_⟩
    · rintro ⟨front, name, between, -, -, hclose⟩
      simp at hclose
    · obtain rfl : yes' = [] := List.eq_nil_of_length_eq_zero (Nat.lt_one_iff.1 hlt)
      exact absurd (List.cons.inj hsplit).1 (by decide)
  have hbranches : branches [] body = (body, none) := by decide
  refine ⟨by decide +kernel, by decide, hborder, hbranches, ?_, by decide +kernel⟩
  rw [hbranches]
  rintro ⟨-, hall⟩
  exact hborder.own (hall _ _ hborder.split)

end MailMerge
