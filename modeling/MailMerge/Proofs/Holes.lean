import MailMerge.Proofs.Alignment
import MailMerge.Proofs.Spelling

/-!
# Texts with holes

A **context** is a text with holes. Two texts are the same but for `w` in the one and `w'` in the
other when both fill one context (`SameBut`); then the one is the other with `w'` replaced by `w`,
as long as `w'` is told apart from the rest by its first character (`replaceAll_fill`).

A text is **harmless** when copies of it, among characters that are no braces, are never read as
part of a tag, except of one that opens a loop. When harmless texts stand in the holes, what is read
back between two passes is what the pass before has left, but for the spelling of such tags
(`Aligned.spellLoops_tokens`). So two runs on data that put different harmless texts into the same
places stay side by side, through all passes (`sameBut_expand`).
-/

namespace MailMerge

/-! ### Contexts -/

/-- What stands at a place of a context: its character, or `w` in a hole. -/
def filled (w : List Char) : Option Char → List Char
  | some c => [c]
  | none => w

/-- The text of a context with `w` in its holes. -/
def fill (w : List Char) (context : List (Option Char)) : List Char :=
  context.flatMap (filled w)

@[simp]
theorem fill_nil (w : List Char) : fill w [] = [] := rfl

@[simp]
theorem fill_cons (w : List Char) (o : Option Char) (context : List (Option Char)) :
    fill w (o :: context) = filled w o ++ fill w context := rfl

@[simp]
theorem fill_append (w : List Char) (a b : List (Option Char)) :
    fill w (a ++ b) = fill w a ++ fill w b :=
  List.flatMap_append

@[simp]
theorem fill_map_some (w s : List Char) : fill w (s.map some) = s := by
  induction s with
  | nil => rfl
  | cons c s ih => rw [List.map_cons, fill_cons, ih, filled, List.singleton_append]

/-- Two texts fill one context, with `w` and with `w'`. -/
def SameBut (w w' s s' : List Char) : Prop :=
  ∃ context, s = fill w context ∧ s' = fill w' context

theorem length_lt_of_after?_cons {c d : Char} {p s rest : List Char}
    (h : Text.after? (c :: p) (d :: s) = some rest) : rest.length < (d :: s).length := by
  rw [Text.eq_append_of_after? h, List.length_append, List.length_cons]
  omega

/-- Puts `r` in place of each occurrence of `c :: p`, from left to right. -/
def replaceAll (c : Char) (p r : List Char) (s : List Char) : List Char :=
  match s with
  | [] => []
  | d :: s =>
    match h : Text.after? (c :: p) (d :: s) with
    | some rest =>
      have := length_lt_of_after?_cons h
      r ++ replaceAll c p r rest
    | none => d :: replaceAll c p r s
termination_by s.length
decreasing_by
  · exact this
  · exact Nat.lt_succ_self _

/-- What is filled in can be replaced, when its first character occurs nowhere else. -/
theorem replaceAll_fill {c : Char} {context : List (Option Char)} (h : some c ∉ context)
    (p r : List Char) : replaceAll c p r (fill (c :: p) context) = fill r context := by
  induction context with
  | nil => rw [fill_nil, fill_nil, replaceAll]
  | cons o context ih =>
    rw [List.mem_cons, not_or] at h
    have ih := ih h.2
    cases o with
    | none =>
      -- in a hole the search finds all of it, elsewhere not even its first character
      have hafter : Text.after? (c :: p) (c :: (p ++ fill (c :: p) context))
          = some (fill (c :: p) context) := Text.after?_append (c :: p) _
      rw [fill_cons, fill_cons, filled, filled, List.cons_append, replaceAll]
      split
      · next rest h' =>
        obtain rfl : fill (c :: p) context = rest := Option.some.inj (hafter.symm.trans h')
        rw [ih]
      · next h' =>
        rw [hafter] at h'
        cases h'
    | some d =>
      have hd : c ≠ d := fun hcd => h.1 (by rw [hcd])
      have hafter : Text.after? (c :: p) (d :: fill (c :: p) context) = none := by
        rw [Text.after?, if_neg hd]
      rw [fill_cons, fill_cons, filled, filled, List.singleton_append, List.singleton_append,
        replaceAll]
      split
      · next h' =>
        rw [hafter] at h'
        cases h'
      · rw [ih]

/-! ### Harmless texts -/

/-- In no text whose other characters are no braces, copies of `w` are read as part of a tag, except
of one that opens a loop. -/
def Harmless (window : Nat) (w : List Char) : Prop :=
  ∀ context : List (Option Char), (∀ c, some c ∈ context → isBrace c = false) →
    ∀ t, .tag t ∈ tokens window (fill w context) → ∃ name, t = .loopOpen name

theorem braceFree_fill {w : List Char} (hw : BraceFree w) {context : List (Option Char)}
    (h : ∀ c, some c ∈ context → isBrace c = false) : BraceFree (fill w context) := by
  intro c hc
  obtain ⟨o, ho, hc⟩ := List.mem_flatMap.1 hc
  cases o with
  | none => exact hw c hc
  | some d =>
    obtain rfl : c = d := by simpa [filled] using hc
    exact h c ho

theorem tokens_of_braceFree {window : Nat} {s : List Char} (h : BraceFree s) :
    tokens window s = s.map .char := by
  simpa using tokens_braceFree_append h []

/-- Without braces, nothing is read as part of a tag. -/
theorem harmless_of_braceFree {window : Nat} {w : List Char} (hw : BraceFree w) :
    Harmless window w := by
  intro context hcontext t ht
  rw [tokens_of_braceFree (braceFree_fill hw hcontext)] at ht
  simp at ht

/-- Harmless texts are read as characters, once tags that open loops are spelled out. -/
theorem Harmless.spellLoops_tokens {window : Nat} {w : List Char} (hw : Harmless window w)
    {context : List (Option Char)} (h : ∀ c, some c ∈ context → isBrace c = false) :
    spellLoops (tokens window (fill w context)) = (fill w context).map .char := by
  rw [spellLoops_eq_map_char (hw context h), text_tokens]

/-! ### Two runs that fill the same holes -/

variable {σ : Type}

/-- Texts that fill one context, and the same tags in between. A place of the context may lead from
one state to another. -/
def holed (here : σ) (tag : Tag → Prop) (move : σ → Option Char → σ → Prop) (w w' : List Char) :
    Alignment σ where
  here := here
  tag := tag
  block p q a b := ∃ o, move p o q ∧ a = filled w o ∧ b = filled w' o

section Holed

variable {here p q : σ} {tag : Tag → Prop} {move : σ → Option Char → σ → Prop}
  {w w' : List Char} {us vs : List Token}

/-- Texts side by side are the same but for what is filled in. -/
theorem Aligned.sameBut (h : Aligned (holed here tag move w w') p q us vs) :
    SameBut w w' (us.flatMap Token.text) (vs.flatMap Token.text) := by
  induction h with
  | nil => exact ⟨[], rfl, rfl⟩
  | @tag q t us vs _ _ ih =>
    obtain ⟨context, hu, hv⟩ := ih
    refine ⟨t.text.map some ++ context, ?_, ?_⟩
    · rw [List.flatMap_cons, hu, fill_append, fill_map_some]
      rfl
    · rw [List.flatMap_cons, hv, fill_append, fill_map_some]
      rfl
  | block hab _ ih =>
    obtain ⟨o, -, rfl, rfl⟩ := hab
    obtain ⟨context, hu, hv⟩ := ih
    refine ⟨o :: context, ?_, ?_⟩
    · rw [flatMap_text_map_char_append, hu, fill_cons]
    · rw [flatMap_text_map_char_append, hv, fill_cons]

/-- Both texts are read back, but for the spelling of tags that open loops. -/
theorem Aligned.spellLoops_tokens {window : Nat} (hw : Harmless window w)
    (hw' : Harmless window w') (htag : ∀ t, tag t → t.Fits window)
    (hmove : ∀ {p c q}, move p (some c) q → isBrace c = false)
    (h : Aligned (holed here tag move w w') p q us vs) :
    spellLoops (tokens window (us.flatMap Token.text)) = spellLoops us ∧
      spellLoops (tokens window (vs.flatMap Token.text)) = spellLoops vs := by
  -- what stands before the next tag is read as a whole, since a tag may reach from hole to hole
  suffices hbefore : ∀ context : List (Option Char), (∀ c, some c ∈ context → isBrace c = false) →
      spellLoops (tokens window (fill w context ++ us.flatMap Token.text))
          = (fill w context).map .char ++ spellLoops us ∧
        spellLoops (tokens window (fill w' context ++ vs.flatMap Token.text))
          = (fill w' context).map .char ++ spellLoops vs by
    simpa using hbefore [] (by simp)
  induction h with
  | nil =>
    intro context hcontext
    simp only [List.flatMap_nil, List.append_nil, spellLoops_nil]
    exact ⟨hw.spellLoops_tokens hcontext, hw'.spellLoops_tokens hcontext⟩
  | @tag q t us vs ht _ ih =>
    intro context hcontext
    obtain ⟨hu, hv⟩ := ih [] (by simp)
    simp only [fill_nil, List.nil_append, List.map_nil] at hu hv
    have hcut : ∀ s, tokens window (s ++ (t.text ++ us.flatMap Token.text))
        = tokens window s ++ .tag t :: tokens window (us.flatMap Token.text) :=
      fun s => tokens_append_text_append (htag t ht) s _
    have hcut' : ∀ s, tokens window (s ++ (t.text ++ vs.flatMap Token.text))
        = tokens window s ++ .tag t :: tokens window (vs.flatMap Token.text) :=
      fun s => tokens_append_text_append (htag t ht) s _
    simp only [List.flatMap_cons, Token.text, hcut, hcut', spellLoops_append, spellLoops_cons, hu,
      hv, hw.spellLoops_tokens hcontext, hw'.spellLoops_tokens hcontext, and_self]
  | block hab _ ih =>
    intro context hcontext
    obtain ⟨o, ho, rfl, rfl⟩ := hab
    have hnext : ∀ c, some c ∈ context ++ [o] → isBrace c = false := by
      intro c hc
      rcases List.mem_append.1 hc with hc | hc
      · exact hcontext c hc
      · rw [← List.mem_singleton.1 hc] at ho
        exact hmove ho
    have ih := ih (context ++ [o]) hnext
    simp only [fill_append, fill_cons, fill_nil, List.append_nil, List.append_assoc,
      List.map_append] at ih
    simp only [flatMap_text_map_char_append, spellLoops_append, spellLoops_map_char]
    exact ih

/-- Whatever stands around the holes. -/
def anywhere (w w' : List Char) : Alignment Unit :=
  holed () (fun _ => True) (fun _ _ _ => True) w w'

theorem Aligned.anywhere (h : Aligned (holed here tag move w w') p q us vs) :
    Aligned (anywhere w w') () () us vs :=
  h.map (fun _ => ()) rfl (fun _ _ => trivial) fun _ _ _ _ ⟨o, _, hab⟩ => ⟨o, trivial, hab⟩

theorem aligned_anywhere_self (ts : List Token) :
    Aligned (MailMerge.anywhere w w') () () ts ts := by
  induction ts with
  | nil => exact .nil ()
  | cons t ts ih =>
    cases t with
    | tag t => exact .tag trivial ih
    | char c => exact .block (a := [c]) (b := [c]) ⟨some c, trivial, rfl, rfl⟩ ih

theorem alike_anywhere_self (e : Expansion) : Alike (MailMerge.anywhere w w') () () e e :=
  ⟨⟨_, _, aligned_anywhere_self (e.text.map .char), (flatMap_text_map_tokenChar _).symm,
    (flatMap_text_map_tokenChar _).symm⟩, rfl⟩

/-- **Two runs on alike data, with harmless texts in the same holes.** -/
theorem sameBut_expand {data data' : DataTree} {options : Options} {s : List Char}
    (hw : Harmless options.window w) (hw' : Harmless options.window w')
    (htag : ∀ t, tag t → t.Fits options.window)
    (hmove : ∀ {p c q}, move p (some c) q → isBrace c = false)
    (hs : Aligned (holed here tag move w w') here q (tokens options.window s)
      (tokens options.window s))
    (hdata : DataAlike (holed here tag move w w') options data data')
    (htables : ∀ {us vs}, Aligned (holed here tag move w w') here q us vs →
      Alike (holed here tag move w w') here q
        (expandTables data options (us.flatMap Token.text))
        (expandTables data' options (vs.flatMap Token.text)))
    (hvalues : ∀ placed name, Alike (MailMerge.anywhere w w') () ()
      (expandPlaceholder data options placed name) (expandPlaceholder data' options placed name)) :
    SameBut w w' (expand data options s).text (expand data' options s).text := by
  -- each pass leaves texts side by side, which are read back but for the spelling of loops
  obtain ⟨us, vs, hloops, hus, hvs⟩ := (hs.expandLoops hdata).text
  obtain ⟨hreadu, hreadv⟩ := hloops.spellLoops_tokens hw hw' htag hmove
  obtain ⟨us', vs', hconds, hus', hvs'⟩ := (hloops.expandConditionals hdata.condition).text
  obtain ⟨us'', vs'', hrows, hus'', hvs''⟩ := (htables hconds).text
  obtain ⟨hreadu'', hreadv''⟩ := hrows.spellLoops_tokens hw hw' htag hmove
  obtain ⟨us₃, vs₃, hplaced, hus₃, hvs₃⟩ := (hrows.anywhere.expandPlaceholders hvalues 0).text
  simp only [expand, Expansion.text_append, Expansion.withoutText, List.nil_append, hus, hvs,
    expandConditionals_of_spellLoops_eq hreadu, expandConditionals_of_spellLoops_eq hreadv, hus',
    hvs', hus'', hvs'', expandPlaceholders_of_spellLoops_eq hreadu'',
    expandPlaceholders_of_spellLoops_eq hreadv'', hus₃, hvs₃]
  exact hplaced.sameBut

end Holed

end MailMerge
