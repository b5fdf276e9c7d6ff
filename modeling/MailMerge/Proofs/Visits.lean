import Mathlib.Data.List.Chain
import MailMerge.Proofs.FoundPasses

/-!
# Marks are visited once

A round of the table pass may put in a row that is longer than the one before, with texts that spell
marks, and the row may start in a text that has been put in. So neither the length of the text nor
the number of marks in it falls from round to round. What falls is the text behind the place where
the next round starts: it is always an end of the text that the pass was given, since a row stops at
or behind its mark and what is put in stands before that place (`Visits.exists_front`).

So each round visits a mark of the text that the pass was given, and later rounds visit later ones
(`expandTables_visits`).
-/

namespace MailMerge

open Text

theorem Expansion.join_concat (es : List Expansion) (e : Expansion) :
    join (es ++ [e]) = join es ++ e := by
  induction es with
  | nil => exact (append_empty e).trans (empty_append e).symm
  | cons first es ih => rw [List.cons_append, join, join, ih, append_assoc]

/-! ### Marks by their places -/

section Marks

variable {window : Nat} {s : List Char}

/-- Whether what is found marks a table row. -/
def Found.isMark (tag : Found Tag) : Bool :=
  (Token.tag tag.value).isMark

/-- The marks of table rows that start at a place or behind, from left to right. -/
def marksFrom (window place : Nat) (s : List Char) : List (Found Tag) :=
  (tagsFrom window place s).filter Found.isMark

variable (window) in
theorem pairwise_marksFrom (place : Nat) (s : List Char) :
    (marksFrom window place s).Pairwise fun a b => a.stop ≤ b.start :=
  (pairwise_tagsFrom window place s).filter _

/-- From a later place on, some of the marks are found. -/
theorem marksFrom_sublist {place place' : Nat} (h : place ≤ place') :
    (marksFrom window place' s).Sublist (marksFrom window place s) := by
  refine List.Sublist.filter _ (List.Sublist.filterMap _ ?_)
  rw [spansFrom_eq, spansFrom_eq]
  refine List.monotone_filter_right _ fun span hspan => ?_
  rw [decide_eq_true_iff] at hspan ⊢
  exact h.trans hspan

/-- Behind a place between two characters, the marks are those of the text behind it. -/
theorem marksFrom_append (window : Nat) (front rest : List Char) :
    marksFrom window (byteSize front) (front ++ rest)
      = (locateTags (byteSize front) (tokens window rest)).filter Found.isMark := by
  rw [marksFrom, tagsFrom_append]

theorem filter_isMark_locateTags {ts : List Token} (h : ∀ t ∈ ts, t.isMark = false) (start : Nat) :
    (locateTags start ts).filter Found.isMark = [] := by
  refine List.filter_eq_nil_iff.2 fun tag htag => ?_
  rw [Found.isMark, h _ (of_mem_locateTags htag).1]
  exact Bool.false_ne_true

/-- The first mark behind a place, and those that follow it. -/
theorem marksFrom_eq_cons {front between behind : List Char} {name : String}
    (hs : s = front ++ (between ++ ((Tag.table name).text ++ behind)))
    (hmark : firstMark? (tokens window (between ++ ((Tag.table name).text ++ behind)))
      = some (between, name)) :
    marksFrom window (byteSize front) s
      = Memory.foundBehind (front ++ between) (.table name)
        :: marksFrom window (byteSize (front ++ between ++ (Tag.table name).text)) s := by
  obtain ⟨before, after, htokens, hbetween, hbefore⟩ := eq_append_of_firstMark? hmark
  have hread := isRead_tokens window (between ++ ((Tag.table name).text ++ behind))
  have htext := text_tokens window (between ++ ((Tag.table name).text ++ behind))
  rw [htokens] at hread htext
  rw [List.flatMap_append, ← hbetween, List.flatMap_cons] at htext
  -- the tokens behind the mark are those of the text behind it
  have hafter : tokens window behind = after := by
    rw [← List.append_cancel_left (List.append_cancel_left htext)]
    exact hread.of_append_right.tail
  have hs' : s = front ++ between ++ (Tag.table name).text ++ behind := by simp [hs]
  have hlater := marksFrom_append window (front ++ between ++ (Tag.table name).text) behind
  rw [hafter, ← hs'] at hlater
  rw [hlater, hs, marksFrom_append, htokens, locateTags_append, List.filter_append,
    filter_isMark_locateTags hbefore, List.nil_append, ← hbetween, locateTags, ← byteSize_append,
    ← byteSize_append, List.filter_cons_of_pos rfl]
  rfl

end Marks

/-! ### Rounds -/

/-- A round of the table pass: the mark that it visits, by its places in the text that the pass was
given, what it notes, and the texts that it leaves before and behind the place where the next round
starts. -/
structure Visit where
  mark : Found Tag
  note : Expansion
  done : List Char
  rest : List Char

/-- The mark of a row in a text, when `behind` is what stands behind it there. -/
def markBefore (s behind : List Char) (name : String) : Found Tag :=
  let stop := byteSize s - byteSize behind
  ⟨stop - byteSize (Tag.table name).text, stop, .table name⟩

theorem markBefore_append (front behind : List Char) (name : String) :
    markBefore (front ++ ((Tag.table name).text ++ behind)) behind name
      = Memory.foundBehind front (.table name) := by
  simp only [markBefore, Memory.foundBehind, byteSize_append]
  congr 1 <;> omega

/-- The first rounds of the table pass on a text, and the texts before and behind the place where
the next round starts. -/
inductive Visits (data : DataTree) (options : Options) (s : List Char) :
    List Visit → (done rest : List Char) → Prop
  | start : Visits data options s [] [] s
  | next {visits : List Visit} {done rest between behind done' rest' : List Char} {name : String}
    {note : Expansion} (before : Visits data options s visits done rest)
    (hrest : rest = between ++ ((Tag.table name).text ++ behind))
    (hmark : firstMark? (tokens options.window rest) = some (between, name))
    (hround : tableRound data options done rest = some (note, done', rest')) :
    Visits data options s (visits ++ [⟨markBefore s behind name, note, done', rest'⟩]) done' rest'

section Visits

variable {data : DataTree} {options : Options} {s done rest done' rest' : List Char}
  {visits : List Visit} {note : Expansion}

/-- What a round leaves is an end of the text behind its mark. -/
theorem exists_of_tableRound (h : tableRound data options done rest = some (note, done', rest')) :
    ∃ between name skipped, rest = between ++ ((Tag.table name).text ++ (skipped ++ rest')) ∧
      firstMark? (tokens options.window rest) = some (between, name) := by
  cases hfirst : firstMark? (tokens options.window rest) with
  | none => simp [tableRound, hfirst] at h
  | some found =>
    obtain ⟨between, name⟩ := found
    obtain ⟨after, hrest, -⟩ := exists_of_firstMark?_tokens hfirst
    rw [tableRound_eq data hfirst hrest] at h
    split at h
    · next start stop _ _ =>
      simp only [Option.some.injEq, Prod.mk.injEq] at h
      obtain ⟨-, -, rfl⟩ := h
      exact ⟨between, name, after.take _, by rw [List.take_append_drop, hrest], rfl⟩
    · simp only [Option.some.injEq, Prod.mk.injEq] at h
      obtain ⟨-, -, rfl⟩ := h
      exact ⟨between, name, [], hrest, rfl⟩

namespace Visits

/-- **The text that is left is an end of the text that the pass was given**, and its marks are those
that are left of all marks when those that have been visited are taken from the front. -/
theorem exists_front (h : Visits data options s visits done rest) :
    ∃ front, s = front ++ rest ∧
      (visits.map Visit.mark ++ marksFrom options.window (byteSize front) s).Sublist
        (marksFrom options.window 0 s) := by
  induction h with
  | start => exact ⟨[], rfl, .refl _⟩
  | @next visits done rest between behind done' rest' name note before hrest hmark hround ih =>
    obtain ⟨front, hs, hsub⟩ := ih
    obtain ⟨between', name', skipped, hrest', hmark'⟩ := exists_of_tableRound hround
    obtain ⟨rfl, rfl⟩ := Prod.mk.inj (Option.some.inj (hmark'.symm.trans hmark))
    obtain rfl : behind = skipped ++ rest' :=
      List.append_cancel_left (List.append_cancel_left (hrest.symm.trans hrest'))
    subst hrest
    have hfront : s = front ++ between' ++ (Tag.table name').text ++ skipped ++ rest' := by
      simp [hs]
    refine ⟨_, hfront, .trans ?_ hsub⟩
    have hfound : markBefore s (skipped ++ rest') name'
        = Memory.foundBehind (front ++ between') (.table name') := by
      rw [hs, ← List.append_assoc, markBefore_append]
    rw [List.map_append, List.append_assoc, marksFrom_eq_cons hs hmark, ← hfound]
    refine (List.Sublist.refl _).append ((marksFrom_sublist ?_).cons_cons _)
    rw [byteSize_append _ skipped]
    exact Nat.le_add_right _ _

/-- Each round leaves less of the text, and nothing else. -/
theorem isChain_rest (h : Visits data options s visits done rest) :
    (s :: visits.map Visit.rest).getLast? = some rest ∧
      (s :: visits.map Visit.rest).IsChain fun r r' => r' <:+ r ∧ r' ≠ r := by
  induction h with
  | start => exact ⟨rfl, .singleton s⟩
  | @next visits done rest between behind done' rest' name note before hrest hmark hround ih =>
    obtain ⟨between', name', skipped, rfl, -⟩ := exists_of_tableRound hround
    obtain ⟨hlast, hchain⟩ := ih
    rw [List.map_append, ← List.cons_append]
    refine ⟨List.getLast?_concat .., List.isChain_append.2 ⟨hchain, .singleton _, ?_⟩⟩
    rintro r hr r' hr'
    obtain rfl := Option.some.inj (hlast.symm.trans hr)
    obtain rfl : rest' = r' := Option.some.inj hr'
    refine ⟨⟨between' ++ (Tag.table name').text ++ skipped, by simp⟩, fun hsame => ?_⟩
    have hlength := congrArg List.length hsame
    simp only [Tag.text, List.length_append, List.length_cons] at hlength
    omega

/-- The pass does what its rounds do, and goes on with what they leave. -/
theorem expandTables_eq (h : Visits data options s visits done rest) :
    expandTables data options s
      = .join (visits.map Visit.note) ++ expandTablesFrom data options done rest := by
  induction h with
  | start => exact (Expansion.empty_append _).symm
  | @next visits done rest between behind done' rest' name note before hrest hmark hround ih =>
    rw [ih, expandTablesFrom_of_some hround, List.map_append, List.map_singleton,
      Expansion.join_concat, Expansion.append_assoc]

/-- Rounds are made until no mark is left. -/
theorem exists_last (h : Visits data options s visits done rest) :
    ∃ visits' done' rest', Visits data options s visits' done' rest' ∧
      tableRound data options done' rest' = none := by
  induction hn : rest.length using Nat.strong_induction_on generalizing visits done rest with
  | h n ih =>
    subst hn
    cases hround : tableRound data options done rest with
    | none => exact ⟨visits, done, rest, h, hround⟩
    | some found =>
      obtain ⟨note, done', rest'⟩ := found
      obtain ⟨between, name, skipped, hrest, hmark⟩ := exists_of_tableRound hround
      exact ih rest'.length (length_lt_of_tableRound hround) (h.next hrest hmark hround) rfl

end Visits

end Visits

/-- **The table pass visits each mark once at most.** The marks that its rounds visit are some of
those of the text that it is given, from left to right, so there are no more rounds than marks. Each
round leaves an end of the text that the one before has left, and a shorter one, whatever it puts in
before. After the last round no mark is left, and the pass has done what its rounds have. In memory,
where the text is one and the place where the next round starts is counted in bytes, the rounds are
the same. -/
theorem expandTables_visits (data : DataTree) (options : Options) (s : List Char) :
    let marks := marksFrom options.window 0 s
    (∀ visits done rest, Visits data options s visits done rest →
      visits.length ≤ marks.length ∧ (visits.map Visit.mark).Sublist marks ∧
        (visits.map Visit.mark).Pairwise (fun a b => a.stop ≤ b.start) ∧
        ((s :: visits.map Visit.rest).getLast? = some rest ∧
          (s :: visits.map Visit.rest).IsChain fun r r' => r' <:+ r ∧ r' ≠ r) ∧
        (options.maxTokenLength.toNat < 2 ^ 63 → byteSize (done ++ rest) < 2 ^ 63 →
          Memory.tableRound data options (done ++ rest) (byteSize done)
            = .ok ((tableRound data options done rest).map fun (note, done', rest') =>
              (note, done' ++ rest', byteSize done')))) ∧
      ∃ visits done rest, Visits data options s visits done rest ∧
        tableRound data options done rest = none ∧
        expandTables data options s
          = .join (visits.map Visit.note) ++ .literal (done ++ rest) := by
  intro marks
  refine ⟨fun visits done rest h => ?_, ?_⟩
  · obtain ⟨front, -, hsub⟩ := h.exists_front
    have hvisited : (visits.map Visit.mark).Sublist marks :=
      (List.sublist_append_left _ _).trans hsub
    refine ⟨?_, hvisited, (pairwise_marksFrom _ 0 s).sublist hvisited, h.isChain_rest, ?_⟩
    · have hlength := hvisited.length_le
      rwa [List.length_map] at hlength
    · exact fun hbound hsize => Memory.tableRound_eq hbound hsize
  · obtain ⟨visits, done, rest, h, hlast⟩ := Visits.start.exists_last
    exact ⟨visits, done, rest, h, hlast, by rw [h.expandTables_eq, expandTablesFrom_of_none hlast]⟩

/-- A row around another one with a mark, and items that spell that mark: the second row starts in a
text that has been put in, and the marks in it are not visited. -/
theorem expandTables_visits_nested :
    let s := ("<w:tr><w:tr>\x7btable:k\x7d\x7bf\x7d</w:tr>"
      ++ "\x7btable:k\x7d</w:tr>").toList
    let item : Value := .map ⟨[("f", .string "\x7btable:k\x7d")]⟩
    let data : DataTree := ⟨[("k", .list [item, item])]⟩
    let options : Options := {}
    let marks := marksFrom options.window 0 s
    marks = [⟨12, 21, .table "k"⟩, ⟨31, 40, .table "k"⟩] ∧
      (expandTables data options s).text
        = ("<w:tr><w:tr></w:tr><w:tr></w:tr></w:tr>"
          ++ "<w:tr><w:tr></w:tr><w:tr></w:tr></w:tr>").toList ∧
      (expandTables data options s).stats = { tables := 2 } ∧
      ∃ visits done rest, Visits data options s visits done rest ∧ visits.length ≤ 2 ∧
        (visits.map Visit.mark).Sublist marks ∧
        (s :: visits.map Visit.rest).IsChain (fun r r' => r' <:+ r ∧ r' ≠ r) ∧
        (options.maxTokenLength.toNat < 2 ^ 63 ∧ byteSize (done ++ rest) < 2 ^ 63) ∧
        Memory.tableRound data options (done ++ rest) (byteSize done) = .ok none := by
  intro s item data options marks
  have hmarks : marks = [⟨12, 21, .table "k"⟩, ⟨31, 40, .table "k"⟩] := by decide +kernel
  have hbound : options.maxTokenLength.toNat < 2 ^ 63 := by decide
  have htext : byteSize (expandTables data options s).text < 2 ^ 63 := by decide +kernel
  obtain ⟨hruns, visits, done, rest, h, hlast, hpass⟩ := expandTables_visits data options s
  obtain ⟨hlength, hsub, -, ⟨-, hchain⟩, hmemory⟩ := hruns visits done rest h
  have hsize : byteSize (done ++ rest) < 2 ^ 63 := by
    rw [hpass, Expansion.text_append, byteSize_append] at htext
    exact Nat.lt_of_le_of_lt (Nat.le_add_left _ _) htext
  refine ⟨hmarks, by decide +kernel, by decide +kernel, visits, done, rest, h, ?_, hsub, hchain,
    ⟨hbound, hsize⟩, ?_⟩
  · exact hlength.trans_eq (congrArg List.length hmarks)
  · rw [hmemory hbound hsize, hlast]
    rfl

end MailMerge
