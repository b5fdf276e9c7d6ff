import MailMerge.Render.Media

/-!
# Names of parts

A name is cut at its last slash into a folder and the name of a file. The parts that list
relationships lie in folders `_rels`, those for pictures in folders `media`, so none is of both
kinds (`IsMedia.ne_relationshipsPart`).
-/

namespace MailMerge

namespace PartName

/-! ### The last slash -/

theorem breakAtLast?_eq_none_iff {c : Char} {s : List Char} : breakAtLast? c s = none ↔ c ∉ s := by
  induction s with
  | nil => simp [breakAtLast?]
  | cons d s ih =>
    rw [breakAtLast?, List.mem_cons, not_or, ← ih]
    cases breakAtLast? c s with
    | some found => simp
    | none =>
      by_cases hd : d = c
      · simp [hd]
      · simp [hd, Ne.symm hd]

theorem breakAtLast?_append {c : Char} {b : List Char} (hb : c ∉ b) (a : List Char) :
    breakAtLast? c (a ++ c :: b) = some (a, b) := by
  induction a with
  | nil => rw [List.nil_append, breakAtLast?, breakAtLast?_eq_none_iff.2 hb, if_pos rfl]
  | cons d a ih => rw [List.cons_append, breakAtLast?, ih]

theorem eq_append_of_breakAtLast? {c : Char} {s a b : List Char}
    (h : breakAtLast? c s = some (a, b)) : s = a ++ c :: b ∧ c ∉ b := by
  induction s generalizing a with
  | nil => cases h
  | cons d s ih =>
    rw [breakAtLast?] at h
    split at h
    · next before after hs =>
      rw [Option.some.injEq, Prod.mk.injEq] at h
      obtain ⟨rfl, rfl⟩ := h
      obtain ⟨rfl, hb⟩ := ih hs
      exact ⟨rfl, hb⟩
    · next hs =>
      split at h
      · next hd =>
        cases h
        exact ⟨by rw [hd, List.nil_append], breakAtLast?_eq_none_iff.1 hs⟩
      · cases h

/-- A text is cut at its last slash in one way only. -/
theorem append_slash_inj {a a' b b' : List Char} (hb : '/' ∉ b) (hb' : '/' ∉ b')
    (h : a ++ '/' :: b = a' ++ '/' :: b') : a = a' ∧ b = b' := by
  have hcut := breakAtLast?_append hb a
  rw [h, breakAtLast?_append hb' a', Option.some.injEq, Prod.mk.injEq] at hcut
  exact ⟨hcut.1.symm, hcut.2.symm⟩

theorem slash_notMem_filename (name : PartName) : '/' ∉ name.filename := by
  rw [filename]
  cases h : breakAtLast? '/' name.member with
  | none => exact breakAtLast?_eq_none_iff.1 h
  | some found => exact (eq_append_of_breakAtLast? h).2

/-- The part that lists relationships lies in a folder `_rels` beside the source. -/
theorem text_relationshipsPart (name : PartName) :
    name.relationshipsPart.text
      = (if name.folder = ['/'] then [] else name.folder) ++ "/_rels".toList
        ++ '/' :: (name.filename ++ ".rels".toList) := by
  have hfolder : ∃ s, name.folder = '/' :: s := by
    rw [folder]
    cases breakAtLast? '/' name.member with
    | none => exact ⟨[], rfl⟩
    | some found => exact ⟨found.1, rfl⟩
  obtain ⟨s, hs⟩ := hfolder
  rw [text, relationshipsPart, hs]
  by_cases htop : s = [] <;> simp [htop]

theorem slash_notMem_rels (name : PartName) : '/' ∉ name.filename ++ ".rels".toList := by
  rw [List.mem_append, not_or]
  exact ⟨slash_notMem_filename name, by decide⟩

/-- A part for a picture: a file in a folder `media`. -/
def IsMedia (name : PartName) : Prop :=
  ∃ folder file, name.text = folder ++ "/media".toList ++ '/' :: file ∧ '/' ∉ file

theorem IsMedia.ne_relationshipsPart {name : PartName} (h : name.IsMedia) (source : PartName) :
    name ≠ source.relationshipsPart := by
  rintro rfl
  obtain ⟨folder, file, htext, hfile⟩ := h
  rw [text_relationshipsPart] at htext
  have hends := (append_slash_inj (slash_notMem_rels source) hfile htext).1
  have hlast := congrArg List.getLast? hends
  simp at hlast

end PartName

namespace Package

/-! ### Filled patterns -/

theorem fillPattern_append_slash (new a b : List Char) :
    fillPattern new (a ++ '/' :: b) = fillPattern new a ++ '/' :: fillPattern new b := by
  fun_induction fillPattern new a with
  | case1 => simp [fillPattern]
  | case2 s ih => rw [List.cons_append, List.cons_append, fillPattern, ih, List.append_assoc]
  | case3 c s hpattern ih =>
    rw [List.cons_append, fillPattern, ih, List.cons_append]
    intro r hc hr
    cases s with
    | nil => cases hr
    | cons d s =>
      obtain ⟨rfl, -⟩ := List.cons.inj hr
      exact hpattern s hc rfl

theorem fillPattern_append_of_notMem {a : List Char} (h : '%' ∉ a) (new b : List Char) :
    fillPattern new (a ++ b) = a ++ fillPattern new b := by
  induction a with
  | nil => rfl
  | cons c a ih =>
    rw [List.mem_cons, not_or] at h
    rw [List.cons_append, fillPattern, ih h.2, List.cons_append]
    exact fun _ hc _ => h.1 hc.symm

theorem fillPattern_of_notMem {s : List Char} (h : '%' ∉ s) (new : List Char) :
    fillPattern new s = s := by
  have happend := fillPattern_append_of_notMem h new []
  rwa [fillPattern, List.append_nil] at happend

/-- A text in which there is nothing to fill stays as it is. -/
theorem fillPattern_of_not_isInfix {s : List Char} (h : ¬"%d".toList <:+: s) (new : List Char) :
    fillPattern new s = s := by
  fun_induction fillPattern new s with
  | case1 => rfl
  | case2 s _ => exact absurd (List.prefix_append "%d".toList s).isInfix h
  | case3 c s _ ih => rw [ih fun hs => h (List.infix_cons hs)]

theorem mem_of_mem_fillPattern {new s : List Char} {c : Char} (h : c ∈ fillPattern new s) :
    c ∈ new ∨ c ∈ s := by
  fun_induction fillPattern new s with
  | case1 => cases h
  | case2 s ih =>
    rcases List.mem_append.1 h with h | h
    · exact Or.inl h
    · exact (ih h).imp_right fun hm => List.mem_cons_of_mem _ (List.mem_cons_of_mem _ hm)
  | case3 d s _ ih =>
    rcases List.mem_cons.1 h with rfl | h
    · exact Or.inr List.mem_cons_self
    · exact (ih h).imp_right (List.mem_cons_of_mem _)

end Package

end MailMerge
