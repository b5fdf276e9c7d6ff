import MailMerge.Proofs.Embedding
import MailMerge.Proofs.RoundTrip

/-!
# Content types of rendered documents

A picture is stored in a part with its extension, and if no type is declared for that extension, one
is. Rendering reads the content types once, has one picture after the other declare its type
(`ContentTypes.declarePicture`), and lists them again only if that was needed at least once.

What is listed in the end is what the pictures declare, in the order in which they are placed
(`Rendering.Declares`), although a picture that has been stored declares nothing when it is placed
again. So every type that was declared stays, and each new part for a picture has one
(`Document.render_declares`).
-/

namespace MailMerge

/-- Whether a picture has a given extension; the case of ASCII letters does not count. -/
def Placement.hasExtension (extension : String) (p : Placement) : Bool :=
  ContentTypes.lower p.image.extension == ContentTypes.lower extension

namespace ContentTypes

/-! ### Pictures that declare their types -/

/-- The default for an extension. -/
def default? (types : ContentTypes) (extension : String) : Option String :=
  Assoc.get? (lower extension) types.defaults

/-- The type of the part for a picture when its extension has none. -/
def ofPicture (p : Placement) : String :=
  ofImageExtension p.image.extension

/-- The content types with a default for the extension of a picture. -/
def declarePicture (types : ContentTypes) (p : Placement) : ContentTypes :=
  if types.hasDefault p.image.extension then types
  else types.setDefault p.image.extension (ofPicture p)

variable (types : ContentTypes)

theorem hasDefault_eq (extension : String) :
    types.hasDefault extension = (types.default? extension).isSome :=
  rfl

theorem default?_declarePicture (p : Placement) (extension : String) :
    (types.declarePicture p).default? extension = (types.default? extension).or
      (if p.hasExtension extension then some (ofPicture p) else none) := by
  by_cases hp : p.hasExtension extension = true
  · have hlower : lower p.image.extension = lower extension := beq_iff_eq.1 hp
    have hsame : types.default? p.image.extension = types.default? extension :=
      congrArg (Assoc.get? · types.defaults) hlower
    rw [if_pos hp, declarePicture, hasDefault_eq, hsame]
    cases hdefault : types.default? extension with
    | some type => rw [if_pos Option.isSome_some, hdefault, Option.some_or]
    | none =>
      rw [if_neg (by simp), Option.none_or, default?, setDefault, Assoc.get?_set, if_pos hlower]
  · rw [if_neg hp, Option.or_none, declarePicture]
    split
    · rfl
    · have hlower : lower p.image.extension ≠ lower extension := fun he => hp (beq_iff_eq.2 he)
      rw [default?, setDefault, Assoc.get?_set, if_neg hlower, default?]

/-- A default that was there stays, and else the first picture with the extension declares it. -/
theorem default?_foldl_declarePicture (ps : List Placement) (extension : String) :
    (ps.foldl declarePicture types).default? extension
      = (types.default? extension).or
          ((ps.find? (·.hasExtension extension)).map ofPicture) := by
  induction ps generalizing types with
  | nil => simp
  | cons p ps ih =>
    rw [List.foldl_cons, ih, default?_declarePicture, Option.or_assoc]
    congr 1
    cases hp : p.hasExtension extension <;> simp [hp]

theorem overrides_foldl_declarePicture (ps : List Placement) :
    (ps.foldl declarePicture types).overrides = types.overrides := by
  refine List.foldlRecOn (motive := fun found : ContentTypes => found.overrides = types.overrides)
    ps _ rfl fun found h p _ => ?_
  rw [declarePicture]
  split <;> exact h

theorem get?_eq_or (part : PartName) : types.get? part
    = (types.override? part).or (types.default? (String.ofList part.extension)) := by
  rw [get?, Option.orElse_eq_orElse, Option.orElse_eq_or]
  rfl

/-- Pictures declare types for parts that have none. -/
theorem get?_foldl_declarePicture (ps : List Placement) (part : PartName) :
    (ps.foldl declarePicture types).get? part
      = (types.get? part).or
          ((ps.find? (·.hasExtension (String.ofList part.extension))).map ofPicture) := by
  rw [get?_eq_or, get?_eq_or, default?_foldl_declarePicture, Option.or_assoc, override?, override?,
    overrides_foldl_declarePicture]

theorem Tidy.foldl_declarePicture {types : ContentTypes} (h : types.Tidy) (ps : List Placement) :
    (ps.foldl declarePicture types).Tidy := by
  refine List.foldlRecOn ps declarePicture h fun types' h' p _ => ?_
  rw [declarePicture]
  split
  · exact h'
  · exact h'.setDefault _ _

/-- A picture that has declared its type declares nothing again. -/
theorem declarePicture_of_mem {ps : List Placement} {p q : Placement} (hq : q ∈ ps)
    (himage : q.image = p.image) :
    (ps.foldl declarePicture types).declarePicture p = ps.foldl declarePicture types := by
  have hfound : (ps.find? (·.hasExtension p.image.extension)).isSome = true := by
    rw [List.find?_isSome]
    exact ⟨q, hq, by rw [Placement.hasExtension, himage, beq_self_eq_true]⟩
  rw [declarePicture, if_pos]
  rw [hasDefault_eq, default?_foldl_declarePicture, Option.isSome_or, Option.isSome_map, hfound,
    Bool.or_true]

end ContentTypes

/-! ### Types of parts -/

namespace Package

theorem contentTypes_congr {a b : Package} (h : a.get? .contentTypes = b.get? .contentTypes) :
    a.contentTypes = b.contentTypes := by
  rw [contentTypes, contentTypes, require, require, h]

/-- Content types that are listed are read again. -/
theorem contentTypes_setContentTypes (package : Package) {types : ContentTypes} (h : types.Tidy) :
    (package.setContentTypes types).contentTypes = .ok types := by
  rw [contentTypes, require, setContentTypes, get?_set, if_pos rfl]
  exact h.ofXml_toXml

theorem tidy_of_contentTypes {package : Package} {types : ContentTypes}
    (h : package.contentTypes = .ok types) : types.Tidy := by
  obtain ⟨bytes, -, hread⟩ := bind_eq_ok h
  exact ContentTypes.tidy_of_ofXml hread

end Package

namespace Rendering

/-- What the pictures that have been placed have declared. -/
structure Declares (data : DataTree) (types : ContentTypes) (ps : List Placement)
    (r : Rendering) : Prop where
  isFrom : ∀ p ∈ ps, p.IsFrom data
  declares : r.types = ps.foldl ContentTypes.declarePicture types
  kept : r.declared = false → r.types = types
  stored : ∀ key ∈ r.media.map Prod.fst, ∃ p ∈ ps, p.key = key

/-- A picture that is stored declares its type. One that has been stored under its key is the same
picture, so its type has been declared. -/
theorem preserved_declares (data : DataTree) (types : ContentTypes) :
    Preserved data (Declares data types) where
  set _ _ _ _ h := ⟨h.isFrom, h.declares, h.kept, h.stored⟩
  store ps r source p name r' hp h hstore := by
    have hfrom : ∀ q ∈ ps ++ [p], q.IsFrom data := by
      rw [List.forall_mem_append, List.forall_mem_singleton]
      exact ⟨h.isFrom, hp⟩
    have hbefore : ∀ key ∈ r.media.map Prod.fst, ∃ q ∈ ps ++ [p], q.key = key := by
      intro key hkey
      obtain ⟨q, hq, hkey⟩ := h.stored key hkey
      exact ⟨q, List.mem_append_left _ hq, hkey⟩
    have hdeclares : (ps ++ [p]).foldl ContentTypes.declarePicture types
        = r.types.declarePicture p := by
      rw [List.foldl_append, List.foldl_cons, List.foldl_nil, ← h.declares]
    rw [store] at hstore
    split at hstore
    · next name' hname =>
      obtain ⟨rfl, rfl⟩ := Prod.mk.inj (Except.ok.inj hstore)
      obtain ⟨q, hq, hkey⟩ := h.stored p.key (List.mem_map_of_mem (Assoc.mem_of_get? hname))
      have himage : q.image = p.image := by
        have hfound := (h.isFrom q hq).found
        rw [hkey, hp.found] at hfound
        exact (Value.image.inj (Option.some.inj hfound)).symm
      refine ⟨hfrom, ?_, h.kept, hbefore⟩
      rw [hdeclares, h.declares, ContentTypes.declarePicture_of_mem types hq himage]
    · obtain ⟨name', -, hrest⟩ := bind_eq_ok hstore
      obtain ⟨rfl, rfl⟩ := Prod.mk.inj (Except.ok.inj hrest)
      refine ⟨hfrom, ?_, fun hdeclared => ?_, ?_⟩
      · rw [hdeclares, ContentTypes.declarePicture]
        cases r.types.hasDefault p.image.extension <;> rfl
      · rw [Bool.or_eq_false_iff] at hdeclared
        dsimp only
        rw [hdeclared.2]
        exact h.kept hdeclared.1
      · rw [List.map_append, List.forall_mem_append, List.map_singleton, List.forall_mem_singleton]
        exact ⟨hbefore, p, List.mem_append_right _ List.mem_cons_self, rfl⟩

/-- The content types are listed in the end, unless they are what they were. -/
theorem contentTypes_finished {r : Rendering} (htidy : r.types.Tidy)
    (hkept : r.declared = false → r.package.contentTypes = .ok r.types) :
    r.finished.contentTypes = .ok r.types := by
  rw [finished]
  cases hdeclared : r.declared with
  | true => exact r.package.contentTypes_setContentTypes htidy
  | false => exact hkept hdeclared

end Rendering

/-- The part for a picture has its extension. -/
theorem IsMediaOf.extension_eq {source : PartName} {p : Placement} {name : PartName}
    (hp : isIdentifier p.key.toList = true) (h : IsMediaOf source p name) :
    name.extension = p.image.extension.toList := by
  obtain ⟨folder, stem, htext, hstem⟩ := h.exists_stem hp
  have hext := isNameChar_of_isExtension p.image.isExtension_extension
  have hslash : '/' ∉ stem ++ '.' :: p.image.extension.toList := by
    rw [List.mem_append, List.mem_cons, not_or, not_or]
    exact ⟨fun hm => absurd (hstem _ hm) (by decide), by decide,
      fun hm => absurd (hext _ hm) (by decide)⟩
  have hdot : '.' ∉ p.image.extension.toList := fun hm => absurd (hext _ hm) (by decide)
  rw [PartName.extension, PartName.filename_eq_of_text htext hslash,
    PartName.breakAtLast?_append hdot]

namespace Document

variable {document : Document} {data : DataTree}

/-- The content types that are listed in the end are what the pictures declare, one after the
other. -/
theorem contentTypes_of_render {report : Report} {after : Document}
    (h : document.render data = .ok (report, after)) (hparts : .contentTypes ∉ report.parts) :
    ∃ types log final, document.package.contentTypes = .ok types ∧
      Renders document.options data { package := document.package, types } log final ∧
      (∀ entry ∈ log, entry.1 ∈ report.parts) ∧ log.map Prod.fst = report.parts ∧
      Leaves document.package types log after.package ∧
      after.package.contentTypes
        = .ok ((placedIn log).foldl ContentTypes.declarePicture types) := by
  obtain ⟨types, log, final, htypes, -, hlog, hlisted, hfst, hsound, hleaves, rfl⟩ :=
    render_sound h
  have hdeclares : final.Declares data types (placedIn log) :=
    (Rendering.preserved_declares data types).renders hlog [] ⟨by simp, rfl, fun _ => rfl, by simp⟩
  have hkept : final.package.get? .contentTypes = document.package.get? .contentTypes := by
    refine hsound.kept _ ?_ (hsound.notMem_media (mem_names_of_contentTypes htypes))
    rintro ⟨entry, he, hentry | ⟨-, hentry⟩⟩
    · exact hparts (hentry ▸ hlisted entry he)
    · exact PartName.contentTypes_ne_relationshipsPart _ hentry
  refine ⟨types, log, final, htypes, hlog, hlisted, hfst, hleaves, ?_⟩
  rw [← hdeclares.declares]
  refine Rendering.contentTypes_finished ?_ fun hdeclared => ?_
  · rw [hdeclares.declares]
    exact (Package.tidy_of_contentTypes htypes).foldl_declarePicture _
  · rw [Package.contentTypes_congr hkept, hdeclares.kept hdeclared, htypes]

/-- **Every part for a picture has a content type, and no type that was declared is lost.** A part
that is new and no listing of relationships is one for a picture. It has the type that was declared
for it, by an override or for its extension, and else that of images with the extension of the first
picture that has it. -/
theorem render_declares {report : Report} {after : Document}
    (h : document.render data = .ok (report, after)) (hparts : .contentTypes ∉ report.parts) :
    ∃ types types' log final, document.package.contentTypes = .ok types ∧
      after.package.contentTypes = .ok types' ∧
      Renders document.options data { package := document.package, types } log final ∧
      log.map Prod.fst = report.parts ∧
      (∀ name ∈ after.package.names, name ∉ document.package.names →
        (∀ source ∈ report.parts, name ≠ source.relationshipsPart) →
        ∃ first,
          (placedIn log).find? (·.hasExtension (String.ofList name.extension)) = some first ∧
          types'.get? name = some ((types.get? name).getD
            (ContentTypes.ofImageExtension first.image.extension))) ∧
      ∀ name type, types.get? name = some type → types'.get? name = some type := by
  obtain ⟨types, log, final, htypes, hlog, hlisted, hfst, hleaves, hafter⟩ :=
    contentTypes_of_render h hparts
  refine ⟨types, _, log, final, htypes, hafter, hlog, hfst, ?_, ?_⟩
  · intro name hname hnew hlisting
    obtain ⟨added, hadded, hwhy⟩ := hleaves.names
    have hname : name ∈ added := (List.mem_append.1 (hadded ▸ hname)).resolve_left hnew
    rcases hwhy name hname with ⟨source, e, he, -, rfl⟩ | ⟨source, p, hp, hof, -⟩
    · exact absurd rfl (hlisting source (hlisted _ he))
    · have hextension : p.hasExtension (String.ofList name.extension) = true := by
        rw [hof.extension_eq (hlog.isFrom source p hp).named, String.ofList_toList,
          Placement.hasExtension, beq_self_eq_true]
      obtain ⟨first, hfirst⟩ := Option.isSome_iff_exists.1
        (List.find?_isSome.2 ⟨p, mem_placedIn hp, hextension⟩)
      refine ⟨first, hfirst, ?_⟩
      rw [ContentTypes.get?_foldl_declarePicture, hfirst]
      cases types.get? name <;> rfl
  · intro name type htype
    rw [ContentTypes.get?_foldl_declarePicture, htype, Option.some_or]

/-- A note that shows a logo, in a package that declares a type for other files. -/
def note : Document where
  package := {
    parts := [(.usualDocument, Text.encode "<w:t>\x7blogo\x7d</w:t>".toList),
      (.contentTypes, Text.encode "<Default Extension='XML' ContentType='text/xml'/>".toList)] }

theorem render_declares_note :
    ∃ report after, note.render logoData = .ok (report, after) ∧ .contentTypes ∉ report.parts ∧
      ∃ types types' log final, note.package.contentTypes = .ok types ∧
        after.package.contentTypes = .ok types' ∧
        Renders note.options logoData { package := note.package, types } log final ∧
        log.map Prod.fst = report.parts ∧
        (∀ name ∈ after.package.names, name ∉ note.package.names →
          (∀ source ∈ report.parts, name ≠ source.relationshipsPart) →
          ∃ first,
            (placedIn log).find? (·.hasExtension (String.ofList name.extension)) = some first ∧
            types'.get? name = some ((types.get? name).getD
              (ContentTypes.ofImageExtension first.image.extension))) ∧
        ∀ name type, types.get? name = some type → types'.get? name = some type := by
  have hok : (note.render logoData).isOk = true := by decide +kernel
  obtain ⟨⟨report, after⟩, h⟩ := exists_eq_ok_of_isOk hok
  have hall : note.parts = .ok [.usualDocument] := by decide +kernel
  have hparts : .contentTypes ∉ report.parts := by
    rw [Except.ok.inj ((render_eq_ok h).parts.symm.trans hall)]
    decide
  exact ⟨report, after, h, hparts, note.render_declares h hparts⟩

end Document

end MailMerge
