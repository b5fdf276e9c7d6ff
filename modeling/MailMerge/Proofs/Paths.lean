import Mathlib.Data.List.Induction
import MailMerge.Proofs.Media

/-!
# Paths between parts

A reference leads from a folder to a part. The names that references lead to are **canonical**:
they are made of steps down, so no reference leads to a part of another name. The reference that is
made for a name leads where the name itself does (`PartName.resolve_relativeTo`), and no two
canonical names share a listing of relationships (`PartName.IsCanonical.relationshipsPart_inj`).

Parts for pictures have canonical names when the parts that show them do.
-/

namespace MailMerge

namespace PartName

/-! ### Segments -/

/-- A segment that leads down. -/
def IsStep (segment : List Char) : Prop :=
  segment ≠ [] ∧ '/' ∉ segment ∧ segment ≠ here ∧ segment ≠ above

instance (segment : List Char) : Decidable (IsStep segment) :=
  inferInstanceAs (Decidable (_ ∧ _))

/-- Segments with a slash before each. -/
def slashed (segments : List (List Char)) : List Char :=
  segments.flatMap ('/' :: ·)

theorem slashed_append (a b : List (List Char)) : slashed (a ++ b) = slashed a ++ slashed b :=
  List.flatMap_append

theorem slashed_singleton (segment : List Char) : slashed [segment] = '/' :: segment :=
  List.flatMap_singleton ..

theorem joinPath_cons (segment : List Char) (segments : List (List Char)) :
    joinPath (segment :: segments) = segment ++ slashed segments := by
  induction segments generalizing segment with
  | nil => simp [joinPath, List.intercalate, slashed]
  | cons next segments ih =>
    have hjoin : joinPath (segment :: next :: segments)
        = segment ++ '/' :: joinPath (next :: segments) := by
      simp [joinPath, List.intercalate]
    rw [hjoin, ih]
    rfl

theorem slash_joinPath {segments : List (List Char)} (h : segments ≠ []) :
    '/' :: joinPath segments = slashed segments := by
  cases segments with
  | nil => exact absurd rfl h
  | cons segment segments =>
    rw [joinPath_cons]
    rfl

theorem joinPath_singleton (segment : List Char) : joinPath [segment] = segment := by
  rw [joinPath_cons]
  exact List.append_nil _

theorem splitPath_ne_nil (s : List Char) : splitPath s ≠ [] := by
  cases s with
  | nil => simp [splitPath]
  | cons c s =>
    rw [splitPath]
    split
    · simp
    · split <;> simp

theorem splitPath_append_slash (a b : List Char) :
    splitPath (a ++ '/' :: b) = splitPath a ++ splitPath b := by
  induction a with
  | nil => simp [splitPath]
  | cons c a ih =>
    rw [List.cons_append, splitPath, splitPath, ih]
    split
    · rfl
    · cases ha : splitPath a with
      | nil => exact absurd ha (splitPath_ne_nil a)
      | cons segment segments => rfl

theorem splitPath_of_notMem {s : List Char} (h : '/' ∉ s) : splitPath s = [s] := by
  induction s with
  | nil => rfl
  | cons c s ih =>
    rw [List.mem_cons, not_or] at h
    rw [splitPath, if_neg (Ne.symm h.1), ih h.2]

theorem slash_notMem_of_mem_splitPath {s segment : List Char} (h : segment ∈ splitPath s) :
    '/' ∉ segment := by
  induction s generalizing segment with
  | nil =>
    obtain rfl := List.mem_singleton.1 h
    exact List.not_mem_nil
  | cons c s ih =>
    rw [splitPath] at h
    split at h
    · rcases List.mem_cons.1 h with rfl | h
      · exact List.not_mem_nil
      · exact ih h
    · next hc =>
      split at h
      · next hnil => exact absurd hnil (splitPath_ne_nil s)
      · next first others hsplit =>
        rw [hsplit] at ih
        rcases List.mem_cons.1 h with rfl | h
        · rw [List.mem_cons, not_or]
          exact ⟨Ne.symm hc, ih List.mem_cons_self⟩
        · exact ih (List.mem_cons_of_mem _ h)

theorem segments_append_slash (a b : List Char) :
    segments (a ++ '/' :: b) = segments a ++ segments b := by
  rw [segments, splitPath_append_slash, List.filter_append]
  rfl

theorem segments_slash (s : List Char) : segments ('/' :: s) = segments s :=
  segments_append_slash [] s

theorem segments_of_notMem {s : List Char} (hs : s ≠ []) (h : '/' ∉ s) : segments s = [s] := by
  rw [segments, splitPath_of_notMem h]
  simp [hs]

theorem of_mem_segments {s segment : List Char} (h : segment ∈ segments s) :
    segment ≠ [] ∧ '/' ∉ segment := by
  obtain ⟨hmem, hne⟩ := List.mem_filter.1 h
  exact ⟨by simpa using hne, slash_notMem_of_mem_splitPath hmem⟩

/-- Segments are read back from a path. -/
theorem segments_slashed {ss : List (List Char)} (h : ∀ s ∈ ss, s ≠ [] ∧ '/' ∉ s) :
    segments (slashed ss) = ss := by
  induction ss using List.reverseRecOn with
  | nil => rfl
  | append_singleton ss s ih =>
    rw [List.forall_mem_append, List.forall_mem_singleton] at h
    rw [slashed_append, slashed_singleton, segments_append_slash, ih h.1,
      segments_of_notMem h.2.1 h.2.2]

theorem segments_joinPath {ss : List (List Char)} (h : ∀ s ∈ ss, s ≠ [] ∧ '/' ∉ s) :
    segments (joinPath ss) = ss := by
  by_cases hnil : ss = []
  · subst hnil
    rfl
  · rw [← segments_slash, slash_joinPath hnil, segments_slashed h]

/-! ### Walks -/

theorem walk_append (folders ss rest : List (List Char)) :
    walk folders (ss ++ rest) = walk (walk folders ss) rest := by
  induction ss generalizing folders with
  | nil => rfl
  | cons s ss ih =>
    rw [List.cons_append, walk, walk]
    split
    · exact ih folders
    split
    · exact ih folders.tail
    · exact ih (s :: folders)

theorem walk_steps {ss : List (List Char)} (h : ∀ s ∈ ss, IsStep s)
    (folders : List (List Char)) : walk folders ss = ss.reverse ++ folders := by
  induction ss generalizing folders with
  | nil => rfl
  | cons s ss ih =>
    rw [List.forall_mem_cons] at h
    obtain ⟨⟨-, -, hhere, habove⟩, hss⟩ := h
    rw [walk, if_neg hhere, if_neg habove, ih hss, List.reverse_cons, List.append_assoc]
    rfl

theorem walk_above (n : Nat) (folders : List (List Char)) :
    walk folders (List.replicate n above) = folders.drop n := by
  induction n generalizing folders with
  | zero => rfl
  | succ n ih =>
    rw [List.replicate_succ, walk, if_neg (by decide), if_pos rfl, ih, List.drop_tail]

theorem isStep_of_mem_walk {folders ss : List (List Char)} (hfolders : ∀ s ∈ folders, IsStep s)
    (hss : ∀ s ∈ ss, s ≠ [] ∧ '/' ∉ s) : ∀ s ∈ walk folders ss, IsStep s := by
  induction ss generalizing folders with
  | nil => exact hfolders
  | cons s ss ih =>
    rw [List.forall_mem_cons] at hss
    rw [walk]
    split
    · exact ih hfolders hss.2
    split
    · exact ih (fun s hs => hfolders s (List.mem_of_mem_tail hs)) hss.2
    · next hhere habove =>
      refine ih ?_ hss.2
      rw [List.forall_mem_cons]
      exact ⟨⟨hss.1.1, hss.1.2, hhere, habove⟩, hfolders⟩

/-! ### Canonical names -/

/-- A name that is made of steps down. -/
def IsCanonical (name : PartName) : Prop :=
  ∃ ss, (∀ s ∈ ss, IsStep s) ∧ name.member = joinPath ss

theorem isSegment_of_isStep {ss : List (List Char)} (h : ∀ s ∈ ss, IsStep s) :
    ∀ s ∈ ss, s ≠ [] ∧ '/' ∉ s :=
  fun s hs => ⟨(h s hs).1, (h s hs).2.1⟩

theorem isCanonical_resolve (folder reference : List Char) :
    (resolve folder reference).IsCanonical := by
  refine ⟨_, fun s hs => ?_, rfl⟩
  refine isStep_of_mem_walk (List.forall_mem_nil _) (fun s hs => ?_) s (List.mem_reverse.1 hs)
  rcases List.mem_append.1 hs with hs | hs
  · split at hs
    · cases hs
    · exact of_mem_segments hs
  · exact of_mem_segments hs

theorem isCanonical_usualDocument : usualDocument.IsCanonical :=
  ⟨["word".toList, "document.xml".toList], by decide, by decide⟩

theorem isCanonical_of_text {name : PartName} {ss : List (List Char)} (h : ∀ s ∈ ss, IsStep s)
    (hne : ss ≠ []) (htext : name.text = slashed ss) : name.IsCanonical := by
  rw [← slash_joinPath hne] at htext
  exact ⟨ss, h, (List.cons.inj htext).2⟩

/-- The folder and the file of a canonical name. -/
theorem IsCanonical.exists_folder {name : PartName} (h : name.IsCanonical) :
    ∃ fs, (∀ s ∈ fs, IsStep s) ∧ name.folder = '/' :: joinPath fs ∧
      name.text = slashed fs ++ '/' :: name.filename := by
  obtain ⟨ss, hss, hmember⟩ := h
  rcases List.eq_nil_or_concat ss with rfl | ⟨fs, s, rfl⟩
  · exact ⟨[], by simp, by rw [folder, hmember]; rfl, by rw [text, filename, hmember]; rfl⟩
  rw [List.concat_eq_append] at hmember hss
  rw [List.forall_mem_append, List.forall_mem_singleton] at hss
  refine ⟨fs, hss.1, ?_⟩
  by_cases hfs : fs = []
  · subst hfs
    rw [List.nil_append, joinPath_singleton] at hmember
    have hbreak := breakAtLast?_eq_none_iff.2 hss.2.2.1
    rw [text, folder, filename, hmember, hbreak]
    exact ⟨rfl, rfl⟩
  · have hcut : name.member = joinPath fs ++ '/' :: s := by
      have hslash := slash_joinPath (by simp : fs ++ [s] ≠ [])
      rw [slashed_append, ← slash_joinPath hfs, slashed_singleton] at hslash
      rw [hmember]
      exact (List.cons.inj hslash).2
    rw [text, folder, filename, hcut, breakAtLast?_append hss.2.2.1, ← slash_joinPath hfs]
    exact ⟨rfl, rfl⟩

theorem take_common (as bs : List (List Char)) :
    as.take (common as bs) = bs.take (common as bs) ∧ common as bs ≤ as.length := by
  fun_induction common as bs with
  | case1 a as bs ih =>
    rw [List.take_succ_cons, List.take_succ_cons, ih.1, List.length_cons]
    exact ⟨rfl, Nat.succ_le_succ ih.2⟩
  | case2 => exact ⟨rfl, Nat.zero_le _⟩
  | case3 => exact ⟨rfl, Nat.zero_le _⟩

theorem head?_joinPath_ne {ss : List (List Char)} (h : ∀ s ∈ ss, s ≠ [] ∧ '/' ∉ s) :
    (joinPath ss).head? ≠ some '/' := by
  cases ss with
  | nil => exact nofun
  | cons s ss =>
    obtain ⟨hne, hslash⟩ := h s List.mem_cons_self
    cases s with
    | nil => exact absurd rfl hne
    | cons c s =>
      rw [joinPath_cons, List.cons_append, List.head?_cons, ne_eq, Option.some.injEq]
      exact fun hc => hslash (hc ▸ List.mem_cons_self)

/-- A name leads from the top, as a reference. -/
theorem resolve_text (folder : List Char) (name : PartName) :
    resolve folder name.text = ⟨joinPath (walk [] (segments name.member)).reverse⟩ := by
  rw [resolve, text, List.head?_cons, if_pos rfl, segments_slash]
  rfl

theorem IsCanonical.resolve_text {name : PartName} (h : name.IsCanonical) (folder : List Char) :
    resolve folder name.text = name := by
  obtain ⟨ss, hss, hmember⟩ := h
  rw [PartName.resolve_text, hmember, segments_joinPath (isSegment_of_isStep hss), walk_steps hss,
    List.append_nil, List.reverse_reverse, ← hmember]

/-- The folder of a canonical name is reached by steps. -/
theorem IsCanonical.isStep_of_mem_folder {name : PartName} (h : name.IsCanonical) :
    ∀ s ∈ segments name.folder, IsStep s := by
  obtain ⟨fs, hfs, hfolder, -⟩ := h.exists_folder
  rw [hfolder, segments_slash, segments_joinPath (isSegment_of_isStep hfs)]
  exact hfs

/-- **A reference that is made leads where the name does that it was made for**, from a folder that
is reached by steps. -/
theorem resolve_relativeTo {folder : List Char} (hfolder : ∀ s ∈ segments folder, IsStep s)
    (name : PartName) : resolve folder (name.relativeTo folder) = resolve folder name.text := by
  rw [resolve_text, relativeTo]
  split
  · next htop =>
    rw [htop, resolve, show segments ['/'] = [] from rfl, ite_self, List.nil_append]
  · -- up from the folder to where the two paths part, and down from there
    have hgoal : segments name.text = segments name.member := segments_slash _
    obtain ⟨hcommon, hle⟩ := take_common (segments folder) (segments name.member)
    simp only [hgoal]
    generalize common (segments folder) (segments name.member) = shared at hcommon hle
    have hrest : ∀ s ∈ List.replicate ((segments folder).length - shared) above
        ++ (segments name.member).drop shared, s ≠ [] ∧ '/' ∉ s := by
      rw [List.forall_mem_append]
      refine ⟨fun s hs => ?_, fun s hs => of_mem_segments (List.mem_of_mem_drop hs)⟩
      rw [List.eq_of_mem_replicate hs]
      decide
    have hshared : ∀ s ∈ (segments name.member).take shared, IsStep s := fun s hs =>
      hfolder s (List.mem_of_mem_take (hcommon ▸ hs))
    have hup : walk [] (segments folder ++ List.replicate ((segments folder).length - shared) above)
        = walk [] ((segments name.member).take shared) := by
      rw [walk_append, walk_above, walk_steps hfolder, walk_steps hshared, List.append_nil,
        List.append_nil, List.drop_reverse, Nat.sub_sub_self hle, hcommon]
    rw [resolve, if_neg (head?_joinPath_ne hrest), segments_joinPath hrest, ← List.append_assoc,
      walk_append, hup, ← walk_append, List.take_append_drop]

theorem slashed_eq {ss : List (List Char)} (h : ∀ s ∈ ss, IsStep s) :
    slashed ss = if '/' :: joinPath ss = ['/'] then [] else '/' :: joinPath ss := by
  cases ss with
  | nil => rfl
  | cons s ss =>
    have hne : joinPath (s :: ss) ≠ [] := by
      rw [joinPath_cons]
      exact List.append_ne_nil_of_left_ne_nil (h s List.mem_cons_self).1 _
    rw [if_neg (by simpa using hne), slash_joinPath (by simp)]

/-- The listing of the relationships of a part has a canonical name, when the part has. -/
theorem IsCanonical.relationshipsPart {name : PartName} (h : name.IsCanonical) :
    name.relationshipsPart.IsCanonical := by
  obtain ⟨fs, hfs, hfolder, -⟩ := h.exists_folder
  have hsteps : ∀ s ∈ fs ++ ["_rels".toList, name.filename ++ ".rels".toList], IsStep s := by
    rw [List.forall_mem_append, List.forall_mem_cons, List.forall_mem_singleton]
    refine ⟨hfs, by decide, by simp, slash_notMem_rels name, fun he => ?_, fun he => ?_⟩
    all_goals
      have hlength := congrArg List.length he
      simp [here, above] at hlength
  refine isCanonical_of_text hsteps (by simp) ?_
  rw [text_relationshipsPart, hfolder, ← slashed_eq hfs, slashed_append]
  simp [slashed]

/-- No two canonical names share a listing of relationships. -/
theorem IsCanonical.relationshipsPart_inj {a b : PartName} (ha : a.IsCanonical)
    (hb : b.IsCanonical) (h : a.relationshipsPart = b.relationshipsPart) : a = b := by
  obtain ⟨fs, hfs, hfolder, htext⟩ := ha.exists_folder
  obtain ⟨gs, hgs, hfolder', htext'⟩ := hb.exists_folder
  have hlisting := congrArg text h
  rw [text_relationshipsPart, text_relationshipsPart, hfolder, hfolder', ← slashed_eq hfs,
    ← slashed_eq hgs] at hlisting
  obtain ⟨hfolders, hfiles⟩ := append_slash_inj (slash_notMem_rels a) (slash_notMem_rels b) hlisting
  rw [← List.append_cancel_right hfolders, ← List.append_cancel_right hfiles, ← htext] at htext'
  cases a
  cases b
  cases (List.cons.inj htext').2
  rfl

/-! ### Parts for pictures -/

/-- Dots come only from dots. -/
theorem eq_dots_of_fillPattern {n : Nat} {s : List Char} (count : Nat)
    (h : Package.fillPattern (decimalDigits n) s = List.replicate count '.') :
    s = List.replicate count '.' := by
  fun_induction Package.fillPattern (decimalDigits n) s generalizing count with
  | case1 => exact h
  | case2 s ih =>
    obtain ⟨d, hd⟩ := List.exists_mem_of_ne_nil _ (Nat.toDigits_ne_nil (n := n) (b := 10))
    have hdot := List.eq_of_mem_replicate (h ▸ List.mem_append_left _ hd)
    have hdigit := Nat.isDigit_of_mem_toDigits (by decide) (by decide) hd
    rw [hdot] at hdigit
    exact absurd hdigit (by decide)
  | case3 c s _ ih =>
    cases count with
    | zero => cases h
    | succ count =>
      rw [List.replicate_succ] at h ⊢
      obtain ⟨rfl, hrest⟩ := List.cons.inj h
      rw [ih count hrest]

/-- A filled step is a step. -/
theorem isStep_fillPattern {s : List Char} (h : IsStep s) (n : Nat) :
    IsStep (Package.fillPattern (decimalDigits n) s) := by
  obtain ⟨hne, hslash, hhere, habove⟩ := h
  refine ⟨fun he => hne (eq_dots_of_fillPattern 0 he), fun hm => ?_,
    fun he => hhere (eq_dots_of_fillPattern 1 he),
    fun he => habove (eq_dots_of_fillPattern 2 he)⟩
  rcases Package.mem_of_mem_fillPattern hm with hm | hm
  · exact absurd (isNumeric_decimalDigits _ hm) (by decide)
  · exact hslash hm

theorem fillPattern_slashed (new : List Char) (ss : List (List Char)) :
    Package.fillPattern new (slashed ss) = slashed (ss.map (Package.fillPattern new)) := by
  induction ss using List.reverseRecOn with
  | nil => rfl
  | append_singleton ss s ih =>
    rw [slashed_append, slashed_singleton, Package.fillPattern_append_slash, ih, List.map_append,
      slashed_append, List.map_singleton, slashed_singleton]

/-- A file whose name starts with a key is a step. -/
theorem isStep_of_isIdentifier {key : List Char} (h : isIdentifier key = true) {rest : List Char}
    (hrest : '/' ∉ rest) : IsStep (key ++ rest) := by
  cases key with
  | nil => exact absurd rfl (ne_nil_of_isIdentifier h)
  | cons c key =>
    have hc : c ≠ '.' := by
      rintro rfl
      exact absurd (isNameChar_of_isIdentifier h _ List.mem_cons_self) (by decide)
    refine ⟨by simp, ?_, fun he => hc (List.cons.inj he).1, fun he => hc (List.cons.inj he).1⟩
    rw [List.mem_append, not_or]
    exact ⟨slash_notMem_of_isIdentifier h, hrest⟩

end PartName

/-- The folder for the pictures of a part with a canonical name lies beside the part. -/
theorem exists_mediaFolder {source : PartName} (h : source.IsCanonical) :
    ∃ fs, (∀ s ∈ fs ++ ["media".toList], PartName.IsStep s) ∧
      mediaFolder source = PartName.slashed (fs ++ ["media".toList]) ∧
      source.text = PartName.slashed fs ++ '/' :: source.filename := by
  obtain ⟨fs, hfs, hfolder, htext⟩ := h.exists_folder
  refine ⟨fs, ?_, ?_, htext⟩
  · rw [List.forall_mem_append]
    exact ⟨hfs, by decide⟩
  · rw [mediaFolder, hfolder, PartName.slashed_append]
    congr 1
    rcases List.eq_nil_or_concat fs with rfl | ⟨gs, s, rfl⟩
    · rfl
    · rw [List.concat_eq_append] at hfs ⊢
      obtain ⟨hne, hslash, -⟩ := hfs s (by simp)
      rw [PartName.slash_joinPath (by simp)]
      -- the path ends in a character of its last segment
      cases hlast : s.reverse with
      | nil => exact absurd (List.reverse_eq_nil_iff.1 hlast) hne
      | cons c t =>
        have hc : ¬(c == '/') = true := by
          rw [beq_iff_eq]
          rintro rfl
          exact hslash (List.mem_reverse.1 (hlast ▸ List.mem_cons_self))
        have hreverse : (PartName.slashed (gs ++ [s])).reverse
            = c :: (t ++ '/' :: (PartName.slashed gs).reverse) := by
          simp [PartName.slashed_append, PartName.slashed_singleton, hlast]
        rw [hreverse, List.dropWhile_cons_of_neg (p := (· == '/')) hc, ← hreverse,
          List.reverse_reverse]

/-- A part for a picture has a canonical name, when the part that shows it does. -/
theorem IsMediaOf.isCanonical {source : PartName} {p : Placement} {name : PartName}
    (hsource : source.IsCanonical) (hp : isIdentifier p.key.toList = true)
    (h : IsMediaOf source p name) : name.IsCanonical := by
  obtain ⟨fs, hfs, hfolder, -⟩ := exists_mediaFolder hsource
  generalize fs ++ ["media".toList] = gs at hfs hfolder
  have hext := slash_notMem_of_isExtension p.image.isExtension_extension
  simp only [IsMediaOf, mediaText_eq, hfolder, ← PartName.slashed_singleton,
    ← PartName.slashed_append] at h
  rcases h with h | ⟨n, h⟩
  · refine PartName.isCanonical_of_text ?_ (by simp) h
    rw [List.forall_mem_append, List.forall_mem_singleton]
    refine ⟨hfs, PartName.isStep_of_isIdentifier hp ?_⟩
    rw [List.mem_cons, not_or]
    exact ⟨by decide, hext⟩
  · rw [PartName.fillPattern_slashed] at h
    refine PartName.isCanonical_of_text (fun s hs => ?_) (by simp) h
    obtain ⟨t, ht, rfl⟩ := List.mem_map.1 hs
    refine PartName.isStep_fillPattern ?_ n
    rcases List.mem_append.1 ht with ht | ht
    · exact hfs t ht
    · obtain rfl := List.mem_singleton.1 ht
      rw [List.append_assoc]
      refine PartName.isStep_of_isIdentifier hp ?_
      rw [List.mem_append, not_or]
      exact ⟨by decide, hext⟩

end MailMerge
