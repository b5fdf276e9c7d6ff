import MailMerge.Proofs.Tokens
import MailMerge.Template.Gather

/-!
# Text elements with other contents

Where the text elements of a text are does not depend on what they hold, as long as their contents
have no angle bracket `<`. A text **leads** into an element when it ends with an opening tag and
everything before is read as before, whatever follows (`Leads`). A text is **woven** from a skeleton
and contents when it is made of such leads, the contents and closing tags (`Woven`): then its text
elements have these contents (`Woven.textContents_eq`). Putting new contents into the elements of a
text gives a woven text (`woven_withContents`).
-/

namespace MailMerge.Markup

/-! ### What starts at a place -/

theorem start_eq_plain_iff {s : List Char} :
    start s = .plain ↔ ∀ r, s = textOpening ++ r → nameEnds r = false := by
  unfold start
  cases hafter : Text.after? textOpening s with
  | none =>
    refine ⟨fun _ r hr => ?_, fun _ => rfl⟩
    rw [hr, Text.after?_append] at hafter
    cases hafter
  | some r =>
    obtain rfl := Text.eq_append_of_after? hafter
    constructor
    · intro h r' hr
      obtain rfl := List.append_cancel_left hr
      rw [Bool.eq_false_iff]
      intro hn
      simp only [hn, if_true] at h
      repeat' split at h
      all_goals cases h
    · intro h
      simp [h r rfl]

/-- Five characters tell whether nothing starts at a place. -/
theorem start_eq_plain_of_take {s s' : List Char} (h : start s = .plain)
    (hs : s'.take 5 = s.take 5) : start s' = .plain := by
  rw [start_eq_plain_iff] at h ⊢
  rintro r rfl
  cases r with
  | nil => rfl
  | cons c r =>
    have htake : (textOpening ++ c :: r).take 5 = textOpening ++ [c] := rfl
    have hcut : s = textOpening ++ c :: s.drop 5 := by
      rw [← List.take_append_drop 5 s, ← hs, htake]
      simp [textOpening]
    have hends := h (c :: s.drop 5) hcut
    exact hends

theorem start_eq_plain_of_ne {c : Char} (hc : c ≠ '<') (s : List Char) :
    start (c :: s) = .plain := by
  rw [start_eq_plain_iff]
  intro r hr
  exact absurd (List.cons.inj hr).1 hc

/-- The rest of an opening tag of a text element after its name, without its end. -/
structure IsAttributes (x : List Char) : Prop where
  ended : '>' ∉ x
  named : nameEnds (x ++ ['>']) = true

theorem start_opening {x : List Char} (hx : IsAttributes x) (s : List Char) :
    start (textOpening ++ (x ++ '>' :: s)) =
      if x.getLast? = some '/' then .empty (textOpening ++ x ++ ['>']) s
      else
        match Text.breakAt? textClosing s with
        | none => .unclosed
        | some (content, after) =>
          .element (textOpening ++ x ++ ['>']) content (textClosing ++ after) := by
  have hn : nameEnds (x ++ '>' :: s) = true := by
    rw [← hx.named]
    cases x <;> rfl
  have hbreak : Text.breakAt? ['>'] (x ++ '>' :: s) = some (x, s) :=
    Text.breakAt?_singleton_eq_some_iff.2 ⟨rfl, hx.ended⟩
  rw [start, Text.after?_append]
  refine (if_pos hn).trans ?_
  exact hbreak ▸ rfl

/-- What starts at a place, unless nothing does, starts with an opening tag. -/
theorem exists_opening_of_start {s : List Char} (hplain : start s ≠ .plain)
    (hunclosed : start s ≠ .unclosed) :
    ∃ x r, s = textOpening ++ (x ++ '>' :: r) ∧ IsAttributes x := by
  rw [ne_eq, start_eq_plain_iff] at hplain
  simp only [Classical.not_forall, Bool.not_eq_false] at hplain
  obtain ⟨r, rfl, hn⟩ := hplain
  cases hbreak : Text.breakAt? ['>'] r with
  | none =>
    rw [start, Text.after?_append] at hunclosed
    simp [hn, hbreak] at hunclosed
  | some cut =>
    obtain ⟨x, rest⟩ := cut
    obtain ⟨rfl, hx⟩ := Text.breakAt?_singleton_eq_some_iff.1 hbreak
    refine ⟨x, rest, rfl, hx, ?_⟩
    rw [← hn]
    cases x <;> rfl

/-! ### Contents from place to place -/

theorem chunks_of_plain {c : Char} {s : List Char} (h : start (c :: s) = .plain) :
    chunks (c :: s) = .char c :: chunks s := by
  rw [chunks]
  split
  · rfl
  all_goals
    next h' =>
      rw [h] at h'
      cases h'

theorem chunks_of_empty {s tag after : List Char} (h : start s = .empty tag after) :
    chunks s = tag.map .char ++ chunks after := by
  cases s with
  | nil => cases h
  | cons c s =>
    rw [chunks]
    split
    case h_2 h' =>
      rw [h] at h'
      cases h'
      rfl
    all_goals
      next h' =>
        rw [h] at h'
        cases h'

theorem chunks_of_element {s opening content after : List Char}
    (h : start s = .element opening content after) :
    chunks s = .element opening content :: chunks after := by
  cases s with
  | nil => cases h
  | cons c s =>
    rw [chunks]
    split
    case h_3 h' =>
      rw [h] at h'
      cases h'
      rfl
    all_goals
      next h' =>
        rw [h] at h'
        cases h'

theorem filterMap_content?_map_char (u : List Char) :
    (u.map Chunk.char).filterMap Chunk.content? = [] := by
  simp [List.filterMap_eq_nil_iff, Chunk.content?]

theorem textContents_of_unclosed {c : Char} {s : List Char} (h : start (c :: s) = .unclosed) :
    textContents (c :: s) = [] := by
  have hchunks : chunks (c :: s) = (c :: s).map .char := by
    rw [chunks]
    split
    case h_4 => rfl
    all_goals
      next h' =>
        rw [h] at h'
        cases h'
  rw [textContents, hchunks, filterMap_content?_map_char]

theorem textContents_of_plain {c : Char} {s : List Char} (h : start (c :: s) = .plain) :
    textContents (c :: s) = textContents s := by
  rw [textContents, chunks_of_plain h]
  rfl

theorem textContents_of_empty {s tag after : List Char} (h : start s = .empty tag after) :
    textContents s = textContents after := by
  rw [textContents, chunks_of_empty h, List.filterMap_append, filterMap_content?_map_char]
  rfl

theorem textContents_of_element {s opening content after : List Char}
    (h : start s = .element opening content after) :
    textContents s = content :: textContents after := by
  rw [textContents, chunks_of_element h]
  rfl

@[simp]
theorem textContents_nil : textContents [] = [] := by
  simp [textContents, chunks]

theorem chunks_append_of_notMem {u : List Char} (hu : '<' ∉ u) (s : List Char) :
    chunks (u ++ s) = u.map .char ++ chunks s := by
  induction u with
  | nil => rfl
  | cons c u ih =>
    rw [List.mem_cons, not_or] at hu
    rw [List.cons_append, chunks_of_plain (start_eq_plain_of_ne (Ne.symm hu.1) _), ih hu.2]
    rfl

/-- A closing tag starts nothing. -/
theorem chunks_closing_append (s : List Char) :
    chunks (textClosing ++ s) = textClosing.map .char ++ chunks s := by
  have hplain : start ('<' :: ("/w:t>".toList ++ s)) = .plain := by
    rw [start_eq_plain_iff]
    intro r hr
    exact absurd (List.cons.inj (List.cons.inj hr).2).1 (by decide)
  have hclosing : textClosing ++ s = '<' :: ("/w:t>".toList ++ s) := rfl
  rw [hclosing, chunks_of_plain hplain, chunks_append_of_notMem (by decide)]
  rfl

theorem textContents_closing_append (s : List Char) :
    textContents (textClosing ++ s) = textContents s := by
  rw [textContents, chunks_closing_append, List.filterMap_append]
  rfl

/-! ### Leads -/

/-- After `o` comes the content of a text element, whatever it is and whatever follows. -/
def Leads (o : List Char) : Prop :=
  ∀ content rest, '<' ∉ content →
    textContents (o ++ (content ++ (textClosing ++ rest))) = content :: textContents rest

/-- An opening tag is read with the content behind it. -/
theorem start_opening_append {x content : List Char} (hx : IsAttributes x)
    (hlast : x.getLast? ≠ some '/') (hcontent : '<' ∉ content) (rest : List Char) :
    start (textOpening ++ x ++ ['>'] ++ (content ++ (textClosing ++ rest)))
      = .element (textOpening ++ x ++ ['>']) content (textClosing ++ rest) := by
  have hbreak :
      Text.breakAt? textClosing (content ++ (textClosing ++ rest)) = some (content, rest) :=
    Text.breakAt?_append_of_notMem hcontent rest
  have hstart := start_opening hx (content ++ (textClosing ++ rest))
  rw [if_neg hlast, hbreak] at hstart
  have htext : textOpening ++ x ++ ['>'] ++ (content ++ (textClosing ++ rest))
      = textOpening ++ (x ++ '>' :: (content ++ (textClosing ++ rest))) := by simp
  rw [htext]
  exact hstart

theorem leads_opening {x : List Char} (hx : IsAttributes x) (hlast : x.getLast? ≠ some '/') :
    Leads (textOpening ++ x ++ ['>']) := by
  intro content rest hcontent
  rw [textContents_of_element (start_opening_append hx hlast hcontent rest),
    textContents_closing_append]

theorem Leads.cons {c : Char} {o x : List Char} (h : Leads o) (hlength : 4 ≤ o.length)
    (hstart : start (c :: (o ++ x)) = .plain) : Leads (c :: o) := by
  intro content rest hcontent
  have htake : ∀ y, (c :: (o ++ y)).take 5 = c :: o.take 4 := by
    intro y
    rw [List.take_succ_cons, List.take_append_of_le_length hlength]
  rw [List.cons_append, textContents_of_plain (start_eq_plain_of_take hstart
    ((htake _).trans (htake x).symm)), h content rest hcontent]

/-- An empty element is read whatever follows it. -/
theorem start_empty_append {s tag after : List Char} (hstart : start s = .empty tag after)
    (r : List Char) : start (tag ++ r) = .empty tag r := by
  obtain ⟨x, rest, rfl, hx⟩ : ∃ x rest, s = textOpening ++ (x ++ '>' :: rest) ∧ IsAttributes x :=
    exists_opening_of_start (by simp [hstart]) (by simp [hstart])
  rw [start_opening hx] at hstart
  split at hstart
  · next hlast =>
    cases hstart
    have hempty := start_opening hx r
    rw [if_pos hlast] at hempty
    have htext : textOpening ++ x ++ ['>'] ++ r = textOpening ++ (x ++ '>' :: r) := by simp
    rw [htext, hempty]
  · split at hstart <;> cases hstart

theorem Leads.append_empty {s tag after o : List Char} (hstart : start s = .empty tag after)
    (h : Leads o) : Leads (tag ++ o) := by
  intro content rest hcontent
  rw [List.append_assoc, textContents_of_empty (start_empty_append hstart _),
    h content rest hcontent]

/-- The opening tag of a text element that starts at a place. -/
theorem opening_of_start {s opening content after : List Char}
    (hstart : start s = .element opening content after) :
    ∃ x after', opening = textOpening ++ x ++ ['>'] ∧ IsAttributes x ∧ x.getLast? ≠ some '/' ∧
      after = textClosing ++ after' := by
  obtain ⟨x, r, rfl, hx⟩ : ∃ x r, s = textOpening ++ (x ++ '>' :: r) ∧ IsAttributes x :=
    exists_opening_of_start (by simp [hstart]) (by simp [hstart])
  rw [start_opening hx] at hstart
  split at hstart
  · cases hstart
  · next hlast =>
    split at hstart
    · cases hstart
    · cases hstart
      exact ⟨x, _, rfl, hx, hlast, rfl⟩

/-- What says in an opening tag that white space counts. -/
def spacing : List Char :=
  " xml:space=\"preserve\"".toList

theorem keepingSpace_eq (opening : List Char) :
    keepingSpace opening = opening
      ∨ keepingSpace opening = opening.dropLast ++ (spacing ++ ['>']) := by
  unfold keepingSpace
  split
  · exact Or.inl rfl
  · exact Or.inr rfl

theorem IsAttributes.append_spacing {x : List Char} (hx : IsAttributes x) :
    IsAttributes (x ++ spacing) ∧ (x ++ spacing).getLast? ≠ some '/' := by
  refine ⟨⟨?_, ?_⟩, ?_⟩
  · rw [List.mem_append, not_or]
    exact ⟨hx.ended, by decide⟩
  · have hnamed := hx.named
    cases x with
    | nil => decide
    | cons c x => exact hnamed
  · have hquote : spacing = spacing.dropLast ++ ['"'] := by decide
    rw [hquote, ← List.append_assoc, List.getLast?_concat]
    decide

theorem leads_keepingSpace {x : List Char} (hx : IsAttributes x) (hlast : x.getLast? ≠ some '/') :
    Leads (keepingSpace (textOpening ++ x ++ ['>'])) := by
  rcases keepingSpace_eq (textOpening ++ x ++ ['>']) with h | h
  · rw [h]
    exact leads_opening hx hlast
  · obtain ⟨hx', hlast'⟩ := hx.append_spacing
    rw [h, List.dropLast_concat, List.append_assoc, ← List.append_assoc x,
      ← List.append_assoc textOpening]
    exact leads_opening hx' hlast'

/-! ### Woven texts -/

/-- A text without the contents of its text elements. -/
def skeleton (s : List Char) : List Char :=
  (chunks s).flatMap fun
    | .char c => [c]
    | .element opening _ => opening

/-- A text is woven from a skeleton and contents. The opening tags may say that white space counts
where the skeleton does not. -/
inductive Woven : (skeleton : List Char) → (contents : List (List Char)) → List Char → Prop
  | done {e : List Char} (h : textContents e = []) : Woven e [] e
  | element {o o' content k t : List Char} {contents : List (List Char)} (hleads : Leads o')
    (hlength : 4 ≤ o'.length) (ho : o' = o ∨ o' = o.dropLast ++ (spacing ++ ['>']))
    (hend : o.getLast? = some '>') (h : Woven k contents t) :
    Woven (o ++ (textClosing ++ k)) (content :: contents) (o' ++ (content ++ (textClosing ++ t)))

theorem skeleton_of_textContents_eq_nil {s : List Char} (h : textContents s = []) :
    skeleton s = s := by
  have hchars : ∀ cs : List Chunk, cs.filterMap Chunk.content? = [] →
      (cs.flatMap fun
        | .char c => [c]
        | .element opening _ => opening) = cs.flatMap Chunk.text := by
    intro cs hcs
    induction cs with
    | nil => rfl
    | cons c cs ih =>
      cases c with
      | char c => exact congrArg (c :: ·) (ih hcs)
      | element opening content => cases hcs
  rw [skeleton, hchars _ h, text_chunks]

/-- A text with its own contents is as it was. -/
theorem withContents_self (s : List Char) : withContents (chunks s) (textContents s) = s := by
  have hown : ∀ cs : List Chunk,
      withContents cs (cs.filterMap Chunk.content?) = cs.flatMap Chunk.text := by
    intro cs
    induction cs with
    | nil => rfl
    | cons c cs ih =>
      cases c with
      | char c => exact congrArg (c :: ·) ih
      | element opening content =>
        have hcontents : (Chunk.element opening content :: cs).filterMap Chunk.content?
            = content :: cs.filterMap Chunk.content? := rfl
        rw [hcontents, withContents, if_pos rfl, ih]
        rfl
  rw [textContents, hown, text_chunks]

theorem withContents_nil {s : List Char} (h : textContents s = []) :
    withContents (chunks s) [] = s :=
  h ▸ withContents_self s

theorem withContents_map_char_append (u : List Char) (cs : List Chunk) (new : List (List Char)) :
    withContents (u.map .char ++ cs) new = u ++ withContents cs new := by
  induction u with
  | nil => rfl
  | cons c u ih => exact congrArg (c :: ·) ih

theorem take_opening_append (x r : List Char) :
    (textOpening ++ x ++ ['>'] ++ r).take 4 = textOpening ∧
      (keepingSpace (textOpening ++ x ++ ['>']) ++ r).take 4 = textOpening := by
  have htake : ∀ y, (textOpening ++ y).take 4 = textOpening := fun y => by
    rw [List.take_append_of_le_length (by decide)]
    rfl
  have hopening : (textOpening ++ x ++ ['>'] ++ r).take 4 = textOpening := by
    rw [List.append_assoc, List.append_assoc]
    exact htake _
  refine ⟨hopening, ?_⟩
  rcases keepingSpace_eq (textOpening ++ x ++ ['>']) with h | h
  · rw [h]
    exact hopening
  · rw [h, List.dropLast_concat, List.append_assoc, List.append_assoc]
    exact htake _

/-- New contents do not change how a text starts. -/
theorem take_withContents (s : List Char) (new : List (List Char)) :
    (withContents (chunks s) new).take 4 = s.take 4 := by
  fun_induction chunks s generalizing new with
  | case1 => cases new <;> rfl
  | case2 c rest h ih =>
    have hrest := congrArg (List.take 3) (ih new)
    rw [List.take_take, List.take_take] at hrest
    exact congrArg (c :: ·) hrest
  | case3 c rest tag after h _ ih =>
    have hlength : 4 ≤ tag.length := by
      obtain ⟨x, r, hs, hx⟩ : ∃ x r, c :: rest = textOpening ++ (x ++ '>' :: r) ∧ IsAttributes x :=
        exists_opening_of_start (by simp [h]) (by simp [h])
      rw [hs, start_opening hx] at h
      split at h
      · cases h
        simp [textOpening]
      · split at h <;> cases h
    rw [withContents_map_char_append, eq_append_of_start_empty h,
      List.take_append_of_le_length hlength, List.take_append_of_le_length hlength]
  | case4 c rest opening content after h _ ih =>
    -- an opening tag may change at its end only
    obtain ⟨x, after', rfl, hx, -, -⟩ := opening_of_start h
    rw [eq_append_of_start_element h, (take_opening_append x _).1]
    cases new with
    | nil =>
      rw [withContents, List.append_assoc]
      exact (take_opening_append x _).1
    | cons n new =>
      rw [withContents, List.append_assoc]
      split
      · exact (take_opening_append x _).1
      · exact (take_opening_append x _).2
  | case5 c rest h =>
    have hmap := withContents_map_char_append (c :: rest) [] new
    rw [List.append_nil] at hmap
    rw [hmap]
    cases new <;> simp [withContents]

/-- The text elements of a woven text have the contents it is woven from. -/
theorem Woven.textContents_eq {k t : List Char} {contents : List (List Char)}
    (h : Woven k contents t) (hcontents : ∀ content ∈ contents, '<' ∉ content) :
    textContents t = contents := by
  induction h with
  | done h => exact h
  | element hleads _ _ _ _ ih =>
    rw [List.forall_mem_cons] at hcontents
    rw [hleads _ _ hcontents.1, ih hcontents.2]

/-- Characters before a woven text that are read as before. -/
theorem Woven.lead {u k t : List Char} {content : List Char} {contents : List (List Char)}
    (h : Woven k (content :: contents) t)
    (hleads : ∀ o x, t = o ++ x → 4 ≤ o.length → Leads o → Leads (u ++ o)) :
    Woven (u ++ k) (content :: contents) (u ++ t) := by
  cases h with
  | @element o o' _ k t _ ho' hlength ho hend h =>
    have hskeleton : u ++ (o ++ (textClosing ++ k)) = u ++ o ++ (textClosing ++ k) := by simp
    have htext : u ++ (o' ++ (content ++ (textClosing ++ t)))
        = u ++ o' ++ (content ++ (textClosing ++ t)) := by simp
    have hlength' : 4 ≤ (u ++ o').length := by
      rw [List.length_append]
      omega
    rw [hskeleton, htext]
    refine .element (hleads o' _ rfl hlength ho') hlength' ?_ ?_ h
    · have hne : o ≠ [] := by
        rintro rfl
        cases hend
      rcases ho with rfl | rfl
      · exact Or.inl rfl
      · right
        rw [List.dropLast_append_of_ne_nil hne, List.append_assoc]
    · rw [List.getLast?_append, hend]
      rfl

theorem woven_of_textContents_eq_nil {s : List Char} (h : textContents s = []) :
    Woven (skeleton s) [] (withContents (chunks s) []) := by
  rw [skeleton_of_textContents_eq_nil h, withContents_nil h]
  exact .done h

/-- **A text with new contents is woven from its skeleton and these.** -/
theorem woven_withContents {s : List Char} {new : List (List Char)}
    (hlength : new.length = (textContents s).length) :
    Woven (skeleton s) new (withContents (chunks s) new) := by
  -- on the length, since an element is passed over as a whole
  induction hn : s.length using Nat.strongRecOn generalizing s new with
  | ind n ihn =>
    subst hn
    cases new with
    | nil => exact woven_of_textContents_eq_nil (List.eq_nil_of_length_eq_zero hlength.symm)
    | cons content new =>
      cases s with
      | nil => simp at hlength
      | cons c s =>
        cases hstart : start (c :: s) with
        | plain =>
          rw [textContents_of_plain hstart] at hlength
          have hskeleton : skeleton (c :: s) = [c] ++ skeleton s := by
            simp [skeleton, chunks_of_plain hstart]
          have hwith : withContents (chunks (c :: s)) (content :: new)
              = [c] ++ withContents (chunks s) (content :: new) := by
            rw [chunks_of_plain hstart]
            rfl
          rw [hskeleton, hwith]
          -- new contents further on do not make an element start here
          refine Woven.lead (ihn s.length (by simp) hlength rfl) fun o x ht ho hleads => ?_
          have htake : (c :: (o ++ x)).take 5 = (c :: s).take 5 := by
            rw [← ht, List.take_succ_cons, List.take_succ_cons, take_withContents]
          exact hleads.cons ho (start_eq_plain_of_take hstart htake)
        | empty tag after =>
          rw [textContents_of_empty hstart] at hlength
          have hs := congrArg List.length (eq_append_of_start_empty hstart)
          have hpos := List.length_pos_iff.2 (tag_ne_nil_of_start_empty hstart)
          have hskeleton : skeleton (c :: s) = tag ++ skeleton after := by
            simp [skeleton, chunks_of_empty hstart, List.flatMap_map]
          rw [List.length_append] at hs
          rw [hskeleton, chunks_of_empty hstart, withContents_map_char_append]
          exact Woven.lead (ihn after.length (by omega) hlength rfl)
            fun o x _ _ hleads => hleads.append_empty hstart
        | element opening old after =>
          rw [textContents_of_element hstart] at hlength
          obtain ⟨x, after', rfl, hx, hlast, rfl⟩ := opening_of_start hstart
          have hs := congrArg List.length (eq_append_of_start_element hstart)
          simp only [List.length_append, List.length_cons, List.length_nil] at hs
          rw [textContents_closing_append] at hlength
          have hskeleton : skeleton (c :: s)
              = textOpening ++ x ++ ['>'] ++ (textClosing ++ skeleton after') := by
            simp [skeleton, chunks_of_element hstart, chunks_closing_append, List.flatMap_map]
          rw [hskeleton, chunks_of_element hstart, withContents, chunks_closing_append,
            withContents_map_char_append, List.append_assoc _ content]
          have hwoven := ihn after'.length (by rw [List.length_cons]; omega)
            (Nat.succ.inj hlength) rfl
          have hleads : Leads (if content = old then textOpening ++ x ++ ['>']
              else keepingSpace (textOpening ++ x ++ ['>'])) := by
            split
            · exact leads_opening hx hlast
            · exact leads_keepingSpace hx hlast
          refine .element hleads ?_ ?_ (by simp) hwoven
          · split
            · simp [textOpening]
            · have htake := (take_opening_append x []).2
              rw [List.append_nil] at htake
              have hfour := congrArg List.length htake
              rw [List.length_take, show textOpening.length = 4 from rfl] at hfour
              omega
          · split
            · exact Or.inl rfl
            · exact keepingSpace_eq _
        | unclosed =>
          rw [textContents_of_unclosed hstart] at hlength
          cases hlength

end MailMerge.Markup
