import Mathlib.Logic.Relation
import MailMerge.Proofs.Paths

/-!
# References and canonical forms

Several names may mean one part: gaps and the folder `.` count for nothing, and `..` takes the
folder in front of it back. `Shortens` says what may be left out of a path, one thing at a time.
However it is done, what is left in the end is the same (`isFormOf_iff`): the **canonical form** of
the name.

A reference that is made for a name leads to its canonical form, so to the name itself when this is
canonical (`resolve_relativeTo_isForm`).
-/

namespace MailMerge

namespace PartName

/-! ### Canonical forms -/

/-- What may be left out of a path, given by what stands between its slashes. -/
inductive Shortens : List (List Char) → List (List Char) → Prop
  | gap (as bs : List (List Char)) : Shortens (as ++ [] :: bs) (as ++ bs)
  | stay (as bs : List (List Char)) : Shortens (as ++ here :: bs) (as ++ bs)
  /-- A step and the way back. -/
  | back (as bs : List (List Char)) {s : List Char} (hs : IsStep s) :
    Shortens (as ++ s :: above :: bs) (as ++ bs)
  /-- Above the top there is only the top. -/
  | top (bs : List (List Char)) : Shortens (above :: bs) bs

/-- The canonical form of a name: what is left of its path when nothing more can be left out. -/
def IsFormOf (form name : PartName) : Prop :=
  ∃ ss, (∀ s ∈ ss, IsStep s) ∧ form.member = joinPath ss ∧
    Relation.ReflTransGen Shortens (splitPath name.text) ss

/-- What is left out of a path makes no difference to a walk. -/
theorem Shortens.walk_eq {ss ts : List (List Char)} (h : Shortens ss ts) :
    walk [] (ss.filter (!·.isEmpty)) = walk [] (ts.filter (!·.isEmpty)) := by
  cases h with
  | gap as bs =>
    rw [List.filter_append, List.filter_append]
    rfl
  | stay as bs =>
    rw [List.filter_append, List.filter_append, walk_append, walk_append]
    rfl
  | @back as bs s hs =>
    obtain ⟨hne, -, hhere, habove⟩ := hs
    have hkept : (s :: above :: bs).filter (!·.isEmpty) = s :: above :: bs.filter (!·.isEmpty) :=
      List.filter_cons_of_pos (by simpa using hne)
    rw [List.filter_append, List.filter_append, walk_append, walk_append, hkept, walk,
      if_neg hhere, if_neg habove]
    rfl
  | top bs => rfl

/-- All gaps may be left out. -/
theorem shortens_filter (as ss : List (List Char)) :
    Relation.ReflTransGen Shortens (as ++ ss) (as ++ ss.filter (!·.isEmpty)) := by
  induction ss generalizing as with
  | nil => exact .refl
  | cons s ss ih =>
    cases s with
    | nil => exact .head (.gap as ss) (ih as)
    | cons c s =>
      have hlater := ih (as ++ [c :: s])
      rwa [List.append_assoc, List.append_assoc] at hlater

/-- A walk leaves out what it can, and keeps the steps in front. -/
theorem shortens_walk {folders ss : List (List Char)} (hfolders : ∀ s ∈ folders, IsStep s)
    (hss : ∀ s ∈ ss, s ≠ [] ∧ '/' ∉ s) :
    Relation.ReflTransGen Shortens (folders.reverse ++ ss) (walk folders ss).reverse := by
  induction ss generalizing folders with
  | nil =>
    rw [List.append_nil]
    exact .refl
  | cons s ss ih =>
    rw [List.forall_mem_cons] at hss
    rw [walk]
    split
    · next hhere =>
      subst hhere
      exact .head (.stay folders.reverse ss) (ih hfolders hss.2)
    split
    · next habove =>
      subst habove
      cases folders with
      | nil => exact .head (.top ss) (ih hfolders hss.2)
      | cons folder folders =>
        rw [List.forall_mem_cons] at hfolders
        rw [List.reverse_cons, List.append_assoc]
        exact .head (.back folders.reverse ss hfolders.1) (ih hfolders.2 hss.2)
    · next hhere habove =>
      have hstep : ∀ t ∈ s :: folders, IsStep t :=
        List.forall_mem_cons.2 ⟨⟨hss.1.1, hss.1.2, hhere, habove⟩, hfolders⟩
      have hlater := ih hstep hss.2
      rwa [List.reverse_cons, List.append_assoc] at hlater

/-- **A name has one canonical form**: where it leads as a reference. -/
theorem isFormOf_iff {form name : PartName} (folder : List Char) :
    form.IsFormOf name ↔ form = resolve folder name.text := by
  rw [resolve_text, ← segments_slash]
  constructor
  · rintro ⟨ss, hss, hmember, hshort⟩
    have hwalk : walk [] (segments name.text) = walk [] (ss.filter (!·.isEmpty)) := by
      clear hss hmember
      induction hshort with
      | refl => rfl
      | tail _ hstep ih => exact ih.trans hstep.walk_eq
    have hkept : ss.filter (!·.isEmpty) = ss :=
      List.filter_eq_self.2 fun s hs => by simpa using (hss s hs).1
    have hwalked : walk [] (segments ('/' :: name.member)) = ss.reverse := by
      rw [← List.append_nil ss.reverse, ← walk_steps hss, ← hkept, ← hwalk]
      rfl
    rw [hwalked, List.reverse_reverse, ← hmember]
  · rintro rfl
    refine ⟨_, fun s hs => ?_, rfl, ?_⟩
    · exact isStep_of_mem_walk (List.forall_mem_nil _) (fun s hs => of_mem_segments hs) s
        (List.mem_reverse.1 hs)
    · exact (shortens_filter [] _).trans
        (shortens_walk (List.forall_mem_nil _) fun s hs => of_mem_segments hs)

/-! ### References -/

/-- **References lead to canonical forms.** From a folder whose path has neither of the folders `.`
and `..`, the reference that is made for a name leads to its one canonical form, which is the name
itself when that is canonical. And so does the relationship that is written for a picture. -/
theorem resolve_relativeTo_isForm (name : PartName) {folder : List Char}
    (hfolder : ∀ s ∈ segments folder, s ≠ here ∧ s ≠ above) :
    (∀ form, IsFormOf form name ↔ form = resolve folder (name.relativeTo folder)) ∧
      (name.IsCanonical → resolve folder (name.relativeTo folder) = name) ∧
      ∀ (e : Embedding) (source : PartName) (key : String), source.folder = folder →
        Assoc.get? key e.shown = none →
          ∃ r, (e.relate source name key).2.relationships = e.relationships.add r ∧
            r.part folder = .ok (resolve folder (name.relativeTo folder)) := by
  have hsteps : ∀ s ∈ segments folder, IsStep s := fun s hs =>
    ⟨(of_mem_segments hs).1, (of_mem_segments hs).2, hfolder s hs⟩
  rw [resolve_relativeTo hsteps]
  refine ⟨fun form => isFormOf_iff folder, fun hname => hname.resolve_text folder, ?_⟩
  rintro e source key rfl hnew
  refine ⟨⟨e.relationshipIds.next.1, Relationship.image,
    String.ofList (name.relativeTo source.folder), false⟩, ?_, ?_⟩
  · rw [Embedding.relate, hnew]
  · rw [Relationship.part, if_neg nofun, String.toList_ofList, resolve_relativeTo hsteps]

/-- A gap, both folders of dots, and a slash at the end. -/
theorem resolve_relativeTo_isForm_gaps :
    let name : PartName := ⟨"word/.//media/old/../logo.png".toList⟩
    let form : PartName := ⟨"word/media/logo.png".toList⟩
    let folder := "/word//charts/".toList
    name.relativeTo folder = ".././media/old/../logo.png".toList ∧
      (∀ form', IsFormOf form' name ↔ form' = form) ∧ form.IsCanonical ∧
      resolve folder (form.relativeTo folder) = form := by
  intro name form folder
  have hfolder : ∀ s ∈ segments folder, s ≠ here ∧ s ≠ above := by decide +kernel
  have hcanonical : form.IsCanonical :=
    ⟨["word".toList, "media".toList, "logo.png".toList], by decide, by decide +kernel⟩
  have hleads : resolve folder (name.relativeTo folder) = form := by decide +kernel
  refine ⟨by decide +kernel, fun form' => ?_, hcanonical,
    (resolve_relativeTo_isForm form hfolder).2.1 hcanonical⟩
  rw [(resolve_relativeTo_isForm name hfolder).1 form', hleads]

end PartName

end MailMerge
