import MailMerge.Proofs.Drawings
import MailMerge.Proofs.Markers
import MailMerge.Proofs.Paths
import MailMerge.Proofs.Rendering

/-!
# Relating a part to its pictures

While pictures are put into a part, `Embedding.Relates` holds: no relationship has an id that is
still to be handed out, the relationships that were there stand first, and each picture that is
shown has a relationship that leads to its part. `Relates.placeAll` says so of a run over all
pictures, and pairs them with drawings that stand in the places of their markers. What has been
stored and shown stays so (`Rendering.Extends`, `Embedding.Extends`).
-/

namespace MailMerge

/-! ### Numbers in ids -/

theorem digitValue?_digitChar {d : Nat} (h : d < 10) : digitValue? 10 d.digitChar = some d :=
  (by decide : ∀ d < 10, digitValue? 10 d.digitChar = some d) d h

/-- A number is read back from its digits. -/
theorem numeral?_decimalDigits (n : Nat) : numeral? 10 (decimalDigits n) = some n := by
  have hread : ∀ n, (decimalDigits n).foldlM
      (fun n c => (digitValue? 10 c).map (10 * n + ·)) 0 = some n := by
    intro n
    induction n using Nat.strongRecOn with
    | ind n ih =>
      rw [decimalDigits, Nat.toDigits_eq_if (by decide)]
      split
      · next hlt => simp [digitValue?_digitChar hlt]
      · next hle =>
        have hmod : n % 10 < 10 := Nat.mod_lt n (by decide)
        rw [List.foldlM_append, ← decimalDigits, ih (n / 10) (by omega)]
        simp [digitValue?_digitChar hmod]
        omega
  rw [numeral?, if_neg, hread]
  simp [decimalDigits]

theorem word?_decimalDigits {n : Nat} (h : n ≤ maxWord) : word? (decimalDigits n) = some n := by
  rw [word?, numeral?_decimalDigits]
  simp [h]

theorem decimalDigits_inj {m n : Nat} (h : decimalDigits m = decimalDigits n) : m = n := by
  have hread := congrArg (numeral? 10) h
  rw [numeral?_decimalDigits, numeral?_decimalDigits] at hread
  exact Option.some.inj hread

theorem le_foldl_max (ns : List Nat) (n : Nat) :
    n ≤ ns.foldl max n ∧ ∀ m ∈ ns, m ≤ ns.foldl max n := by
  induction ns generalizing n with
  | nil => simp
  | cons k ns ih =>
    obtain ⟨hle, hmem⟩ := ih (max n k)
    rw [List.foldl_cons, List.forall_mem_cons]
    exact ⟨le_trans (le_max_left n k) hle, le_trans (le_max_right n k) hle, hmem⟩

theorem foldl_max_le {ns : List Nat} {n bound : Nat} (hn : n ≤ bound) (hns : ∀ m ∈ ns, m ≤ bound) :
    ns.foldl max n ≤ bound := by
  induction ns generalizing n with
  | nil => exact hn
  | cons m ns ih =>
    rw [List.forall_mem_cons] at hns
    exact ih (max_le hn hns.1) hns.2

namespace RelationshipIds

/-- The id with a number. -/
def idOf (n : Nat) : String :=
  String.ofList ("rId".toList ++ decimalDigits n)

theorem toList_idOf (n : Nat) : (idOf n).toList = "rId".toList ++ decimalDigits n :=
  String.toList_ofList

theorem idOf_inj {m n : Nat} (h : idOf m = idOf n) : m = n := by
  have hlist := congrArg String.toList h
  rw [toList_idOf, toList_idOf] at hlist
  exact decimalDigits_inj (List.append_cancel_left hlist)

theorem forall_mem_idOf {P : Char → Prop} (hletter : ∀ c ∈ "rId".toList, P c)
    (hdigit : ∀ c, isNumeric c = true → P c) (n : Nat) : ∀ c ∈ (idOf n).toList, P c := by
  rw [toList_idOf, List.forall_mem_append]
  exact ⟨hletter, fun c hc => hdigit c (isNumeric_decimalDigits c hc)⟩

end RelationshipIds

namespace Relationships

/-- Numbers in ids are words. -/
def IdsFit (rs : Relationships) : Prop :=
  ∀ r ∈ rs.entries, ∀ n, r.id = RelationshipIds.idOf n → n ≤ maxWord

/-- An id with a number counts, when the number is a word. -/
theorem le_maxNumber {rs : Relationships} {r : Relationship} (hr : r ∈ rs.entries) {n : Nat}
    (hid : r.id = RelationshipIds.idOf n) (hn : n ≤ maxWord) : n ≤ rs.maxNumber := by
  have hnumber : r.number? = some n := by
    rw [Relationship.number?, hid, RelationshipIds.toList_idOf, Text.after?_append]
    exact word?_decimalDigits hn
  exact (le_foldl_max (rs.entries.filterMap Relationship.number?) 0).2 n
    (List.mem_filterMap.2 ⟨r, hr, hnumber⟩)

/-- Ids with larger numbers than the largest are not taken. -/
theorem IdsFit.ne_idOf {rs : Relationships} (h : rs.IdsFit) {n : Nat} (hn : rs.maxNumber < n) :
    ∀ r ∈ rs.entries, r.id ≠ RelationshipIds.idOf n :=
  fun r hr hid => absurd hn (Nat.not_lt.2 (le_maxNumber hr hid (h r hr n hid)))

theorem get?_add_of_some {rs : Relationships} {id : String} {r : Relationship}
    (h : rs.get? id = some r) (new : Relationship) : (rs.add new).get? id = some r := by
  rw [get?, add, List.find?_append]
  rw [get?] at h
  rw [h]
  rfl

/-- A relationship with an id that is not taken is found by it. -/
theorem get?_add_of_new {rs : Relationships} {new : Relationship}
    (h : ∀ r ∈ rs.entries, r.id ≠ new.id) : (rs.add new).get? new.id = some new := by
  have hnone : rs.entries.find? (fun r => r.id == new.id) = none := by
    rw [List.find?_eq_none]
    exact fun r hr => by simpa using h r hr
  rw [get?, add, List.find?_append, hnone]
  simp

end Relationships

/-! ### Listings in packages -/

namespace Package

theorem folder_of_relationships {package : Package} {source : PartName} {rs : Relationships}
    (h : package.relationships source = .ok rs) : rs.folder = source.folder := by
  rw [relationships] at h
  split at h
  · rw [Relationships.ofXml] at h
    split at h
    · rw [← Except.ok.inj h]
    · cases h
  · rw [← Except.ok.inj h]

/-- The relationships that are listed are found again. -/
theorem relationships_setRelationships (package : Package) {source : PartName} {rs : Relationships}
    (h : rs.folder = source.folder) :
    (package.setRelationships source rs).relationships source = .ok rs := by
  rw [relationships, setRelationships, get?_set, if_pos rfl]
  dsimp only
  rw [Relationships.ofXml_toXml, ← h]

theorem relationships_congr {a b : Package} {source : PartName}
    (h : a.get? source.relationshipsPart = b.get? source.relationshipsPart) :
    a.relationships source = b.relationships source := by
  rw [relationships, relationships, h]

end Package

/-! ### What a rendering grows by -/

theorem Assoc.get?_append {κ α : Type} [DecidableEq κ] (key : κ) (entries more : List (κ × α)) :
    Assoc.get? key (entries ++ more) = (Assoc.get? key entries).or (Assoc.get? key more) := by
  induction entries with
  | nil => rfl
  | cons entry entries ih =>
    obtain ⟨k, v⟩ := entry
    rw [List.cons_append, Assoc.get?, Assoc.get?, ih]
    split <;> rfl

theorem Assoc.get?_singleton {κ α : Type} [DecidableEq κ] (key other : κ) (v : α) :
    Assoc.get? other [(key, v)] = if key = other then some v else none :=
  rfl

theorem Assoc.mem_of_get? {κ α : Type} [DecidableEq κ] {key : κ} {v : α}
    {entries : List (κ × α)} (h : Assoc.get? key entries = some v) : (key, v) ∈ entries := by
  induction entries with
  | nil => cases h
  | cons entry entries ih =>
    obtain ⟨k, w⟩ := entry
    rw [Assoc.get?] at h
    split at h
    · next hk =>
      rw [hk, Option.some.inj h]
      exact List.mem_cons_self
    · exact List.mem_cons_of_mem _ (ih h)

/-- What is found among entries with a new one at the end. -/
theorem Assoc.of_get?_concat {κ α : Type} [DecidableEq κ] {key other : κ} {v w : α}
    {entries : List (κ × α)} (h : Assoc.get? other (entries ++ [(key, v)]) = some w) :
    Assoc.get? other entries = some w ∨ (key = other ∧ v = w) := by
  rw [Assoc.get?_append, Assoc.get?_singleton, Option.or_eq_some_iff] at h
  rcases h with h | ⟨-, h⟩
  · exact Or.inl h
  · split at h
    · next hkey => exact Or.inr ⟨hkey, Option.some.inj h⟩
    · cases h

namespace Rendering

/-- What a rendering grows by: pictures keep their parts, and a part that is not `touched` its
bytes; a part that was not there may appear for a picture only. -/
structure Extends (touched : PartName → Prop) (r r' : Rendering) : Prop where
  media : ∀ key name, Assoc.get? key r.media = some name → Assoc.get? key r'.media = some name
  names : ∀ name ∈ r.package.names, name ∈ r'.package.names
  kept : ∀ name, ¬touched name → name ∈ r.package.names ∨ ¬name.IsMedia →
    r'.package.get? name = r.package.get? name

variable {touched touched' : PartName → Prop} {r r' r'' : Rendering}

theorem Extends.refl (r : Rendering) : Extends touched r r where
  media _ _ h := h
  names _ h := h
  kept _ _ _ := rfl

theorem Extends.trans (h : Extends touched r r') (h' : Extends touched r' r'') :
    Extends touched r r'' where
  media key name hm := h'.media key name (h.media key name hm)
  names name hm := h'.names name (h.names name hm)
  kept name hn hm := by
    rw [h'.kept name hn (hm.imp_left (h.names name)), h.kept name hn hm]

theorem Extends.mono (h : Extends touched r r') (hsub : ∀ n, touched n → touched' n) :
    Extends touched' r r' where
  media := h.media
  names := h.names
  kept name hn := h.kept name fun ht => hn (hsub name ht)

theorem extends_set (r : Rendering) (name : PartName) (bytes : List UInt8) :
    Extends (· = name) r { r with package := r.package.set name bytes } where
  media _ _ h := h
  names _ hn := (Package.mem_names_set _ _ _).2 (Or.inr hn)
  kept _ hn _ := Package.get?_set_of_ne _ _ _ hn

/-- A picture is found under its key when it has been stored. -/
theorem extends_store {source name : PartName} {p : Placement}
    (hp : isIdentifier p.key.toList = true)
    (h : r.store source p.key p.image = .ok (name, r')) :
    Extends (fun _ => False) r r' ∧ Assoc.get? p.key r'.media = some name := by
  rw [Rendering.store] at h
  split at h
  · next hstored =>
    cases h
    exact ⟨.refl r, hstored⟩
  · next hnone =>
    obtain ⟨name', hname, hrest⟩ := bind_eq_ok h
    obtain ⟨rfl, rfl⟩ := Prod.mk.inj (Except.ok.inj hrest)
    obtain ⟨hfree, hof⟩ := mediaName_spec hname
    constructor
    · constructor
      case media =>
        intro key n hm
        rw [Assoc.get?_append, hm, Option.some_or]
      case names => exact fun n hn => (Package.mem_names_set _ _ _).2 (Or.inr hn)
      case kept =>
        refine fun n _ hn => Package.get?_set_of_ne _ _ _ ?_
        rintro rfl
        exact hn.elim hfree fun hmedia => hmedia (hof.isMedia hp)
    · rw [Assoc.get?_append, hnone, Option.none_or, Assoc.get?_singleton, if_pos rfl]

end Rendering

/-! ### Relationships to pictures -/

theorem PartName.filename_eq_of_text {name : PartName} {folder file : List Char}
    (htext : name.text = folder ++ '/' :: file) (hfile : '/' ∉ file) : name.filename = file := by
  cases folder with
  | nil =>
    have hmember : name.member = file := (List.cons.inj htext).2
    rw [filename, hmember, breakAtLast?_eq_none_iff.2 hfile]
  | cons c folder =>
    have hmember : name.member = folder ++ '/' :: file := (List.cons.inj htext).2
    rw [filename, hmember, breakAtLast?_append hfile]

theorem isMarkerEnd_of_isNameChar {c : Char} (h : isNameChar c = true) : isMarkerEnd c = false := by
  rw [Bool.eq_false_iff]
  intro hm
  simp only [isMarkerEnd, Bool.or_eq_true, beq_iff_eq] at hm
  rcases hm with rfl | rfl <;> revert h <;> decide

/-- The name of the file for a picture brings no marker. -/
theorem IsMediaOf.markerFree_filename {source : PartName} {p : Placement} {name : PartName}
    (hp : isIdentifier p.key.toList = true) (h : IsMediaOf source p name) :
    MarkerFree name.filename := by
  obtain ⟨folder, file, htext, hfile⟩ := h.exists_file hp
  have hslash : '/' ∉ file := fun hm => absurd (hfile _ hm) (by decide)
  rw [PartName.filename_eq_of_text htext hslash]
  intro c hc
  rcases hfile c hc with hname | rfl
  · exact isMarkerEnd_of_isNameChar hname
  · decide

theorem Rendering.Sound.markerFree_filename {package : Package} {types : ContentTypes}
    {touched : PartName → Prop} {placed : PartName → Placement → Prop} {r : Rendering}
    (h : Sound package types touched placed r) (hnamed : Named placed) {name : PartName}
    (hname : name ∈ r.media.map Prod.snd) : MarkerFree name.filename := by
  obtain ⟨⟨key, n⟩, hm, rfl⟩ := List.mem_map.1 hname
  obtain ⟨-, -, source, p, hp, -, hof, -⟩ := h.stored key n hm
  exact hof.markerFree_filename (hnamed source p hp)

/-- The relationship with an id from a part to a picture. -/
def imageRelationship (source name : PartName) (id : String) : Relationship where
  id
  type := Relationship.image
  target := String.ofList (name.relativeTo source.folder)

theorem part_imageRelationship {source name : PartName} (hsource : source.IsCanonical)
    (hname : name.IsCanonical) (id : String) :
    (imageRelationship source name id).part source.folder = .ok name := by
  rw [Relationship.part, if_neg (by simp [imageRelationship]), imageRelationship,
    String.toList_ofList, PartName.resolve_relativeTo hsource.isStep_of_mem_folder,
    hname.resolve_text]

/-- A drawing shows a picture that is placed: its name is that of a file and brings no marker, and
its relationship has an id with a number. -/
def Drawing.Shows (options : Options) (drawing : Drawing) (p : Placement) : Prop :=
  ∃ name n id, MarkerFree name.filename ∧
    drawing = Rendering.drawingOf options p name (RelationshipIds.idOf n) id

namespace Drawing.Shows

variable {options : Options} {drawing : Drawing} {p : Placement}

theorem markerFree (h : drawing.Shows options p) : MarkerFree drawing.text := by
  obtain ⟨name, n, id, hname, rfl⟩ := h
  refine markerFree_drawing ?_ ?_
  · exact RelationshipIds.forall_mem_idOf (by decide) (fun c => isMarkerEnd_of_isNumeric) n
  · rw [Rendering.drawingOf, String.toList_ofList]
    exact hname

/-- The id of the relationship can be written as it is. -/
theorem isPlainValue (h : drawing.Shows options p) :
    Markup.IsPlainValue drawing.relationshipId.toList := by
  obtain ⟨name, n, id, -, rfl⟩ := h
  refine RelationshipIds.forall_mem_idOf (by decide) (fun c hc => ?_) n
  exact Markup.isPlainValue_of_isNumeric (List.forall_mem_singleton.2 hc) c List.mem_cons_self

theorem isDrawing (h : drawing.Shows options p) :
    IsDrawing drawing.text drawing.drawingId drawing.relationshipId := by
  refine Drawing.isDrawing_text h.isPlainValue ?_
  obtain ⟨name, n, id, -, rfl⟩ := h
  have hplain : ∀ c ∈ (RelationshipIds.idOf n).toList, c ≠ '&' := by
    refine RelationshipIds.forall_mem_idOf (by decide) (fun c hc => ?_) n
    rintro rfl
    cases hc
  exact fun hm => hplain _ hm rfl

end Drawing.Shows

namespace Embedding

variable {before : Relationships} {source : PartName} {options : Options} {e e' : Embedding}

/-- What a part grows by while pictures are put into it. -/
structure Extends (e e' : Embedding) : Prop where
  rendering : e.rendering.Extends (fun _ => False) e'.rendering
  shown : ∀ key id, Assoc.get? key e.shown = some id → Assoc.get? key e'.shown = some id

theorem Extends.refl (e : Embedding) : e.Extends e :=
  ⟨.refl e.rendering, fun _ _ h => h⟩

theorem Extends.trans {e'' : Embedding} (h : e.Extends e') (h' : e'.Extends e'') : e.Extends e'' :=
  ⟨h.rendering.trans h'.rendering, fun key id hs => h'.shown key id (h.shown key id hs)⟩

/-- A picture keeps the id that it has been given. -/
theorem get?_shown_relate {key id : String} (h : Assoc.get? key e.shown = some id)
    (source name : PartName) (other : String) :
    Assoc.get? key (e.relate source name other).2.shown = some id := by
  rw [Embedding.relate]
  cases Assoc.get? other e.shown with
  | some _ => exact h
  | none =>
    dsimp only
    rw [Assoc.get?_append, h, Option.some_or]

theorem extends_place {p : Placement} (hp : isIdentifier p.key.toList = true)
    (h : Embedding.place options source e p = .ok e') : e.Extends e' := by
  obtain ⟨name, rendering, hstore, rfl⟩ := Rendering.place_eq_ok h
  constructor
  case rendering =>
    dsimp only
    rw [Rendering.rendering_relate]
    exact (Rendering.extends_store hp hstore).1
  case shown => exact fun key id hs => get?_shown_relate (e := { e with rendering }) hs _ _ _

theorem extends_placeAll {ps : List Placement} (hps : ∀ p ∈ ps, isIdentifier p.key.toList = true)
    (h : ps.foldlM (Embedding.place options source) e = .ok e') : e.Extends e' := by
  have hstep : ∀ e₁ e₂, ∀ p ∈ ps, e.Extends e₁ → Embedding.place options source e₁ p = .ok e₂ →
      e.Extends e₂ :=
    fun e₁ e₂ p hp hextends hplace => hextends.trans (extends_place (hps p hp) hplace)
  exact foldlM_invariant hstep (.refl e) h

/-- The ids of the relationships to pictures that are shown have numbers. -/
def Numbered (e : Embedding) : Prop :=
  ∀ key id, Assoc.get? key e.shown = some id → ∃ n, id = RelationshipIds.idOf n

theorem Numbered.relate (h : e.Numbered) (source name : PartName) (key : String) :
    (e.relate source name key).2.Numbered ∧
      ∃ n, (e.relate source name key).1 = RelationshipIds.idOf n := by
  rw [Embedding.relate]
  cases hshown : Assoc.get? key e.shown with
  | some id => exact ⟨h, h key id hshown⟩
  | none =>
    refine ⟨fun k id hk => ?_, _, rfl⟩
    rcases Assoc.of_get?_concat hk with hold | ⟨-, rfl⟩
    · exact h k id hold
    · exact ⟨_, rfl⟩

/-- What is so while pictures are put into a part that has had some relationships before. -/
structure Relates (before : Relationships) (source : PartName) (e : Embedding) : Prop where
  kept : ∃ added, e.relationships = { before with entries := before.entries ++ added }
  fresh : ∀ n, e.relationshipIds.upcoming ≤ n →
    ∀ r ∈ e.relationships.entries, r.id ≠ RelationshipIds.idOf n
  shown : ∀ key id, Assoc.get? key e.shown = some id →
    ∃ name, Assoc.get? key e.rendering.media = some name ∧
      e.relationships.get? id = some (imageRelationship source name id)
  numbered : e.Numbered

theorem relates_start {rs : Relationships} (h : rs.IdsFit) (source : PartName) (r : Rendering)
    (text : List Char) : Relates rs source (r.embedding rs text) where
  kept := ⟨[], by simp [Rendering.embedding]⟩
  fresh _ hn := h.ne_idOf hn
  shown _ _ hm := by cases hm
  numbered _ _ hm := by cases hm

theorem Relates.of_extends (h : Relates before source e) {touched : PartName → Prop}
    {rendering : Rendering} (hr : e.rendering.Extends touched rendering) :
    Relates before source { e with rendering } where
  kept := h.kept
  fresh := h.fresh
  shown key id hm := by
    obtain ⟨name, hname, hrel⟩ := h.shown key id hm
    exact ⟨name, hr.media key name hname, hrel⟩
  numbered := h.numbered

/-- A picture that is stored is related to the part. -/
theorem Relates.relate (h : Relates before source e) {name : PartName} {key : String}
    (hname : Assoc.get? key e.rendering.media = some name) :
    Relates before source (e.relate source name key).2 ∧
      Assoc.get? key (e.relate source name key).2.shown
        = some (e.relate source name key).1 := by
  have hnumbered := (h.numbered.relate source name key).1
  rw [Embedding.relate] at hnumbered ⊢
  cases hshown : Assoc.get? key e.shown with
  | some id => exact ⟨h, hshown⟩
  | none =>
    have hnew : ∀ r ∈ e.relationships.entries,
        r.id ≠ (imageRelationship source name e.relationshipIds.next.1).id :=
      h.fresh _ (Nat.le_refl _)
    rw [hshown] at hnumbered
    refine ⟨⟨?_, ?_, ?_, hnumbered⟩, ?_⟩
    · obtain ⟨added, hadded⟩ := h.kept
      refine ⟨added ++ [imageRelationship source name e.relationshipIds.next.1], ?_⟩
      simp [Relationships.add, hadded, imageRelationship]
    · intro n hn r hr
      rcases List.mem_append.1 hr with hr | hr
      · exact h.fresh n (Nat.le_of_succ_le hn) r hr
      · obtain rfl := List.mem_singleton.1 hr
        exact fun hid => absurd (RelationshipIds.idOf_inj hid) (Nat.ne_of_lt hn)
    · intro k id hk
      rcases Assoc.of_get?_concat hk with hold | ⟨rfl, rfl⟩
      · obtain ⟨name', hname', hrel⟩ := h.shown k id hold
        exact ⟨name', hname', Relationships.get?_add_of_some hrel _⟩
      · exact ⟨name, hname, Relationships.get?_add_of_new hnew⟩
    · dsimp only
      rw [Assoc.get?_append, hshown, Option.none_or, Assoc.get?_singleton, if_pos rfl]

variable {package : Package} {types : ContentTypes}
  {touched : PartName → Prop} {placed : PartName → Placement → Prop}

/-- Putting a picture in relates it and puts a drawing in place of its marker. -/
theorem Relates.place (h : Relates before source e) {p : Placement}
    (hsound : e'.rendering.Sound package types touched placed) (hnamed : Rendering.Named placed)
    (hp : isIdentifier p.key.toList = true) (hplace : Embedding.place options source e p = .ok e') :
    Relates before source e' ∧ ∃ drawing : Drawing,
      drawing.Shows options p ∧ Assoc.get? p.key e'.shown = some drawing.relationshipId ∧
        e'.text = splice p.marker drawing.text e.text := by
  obtain ⟨name, rendering, hstore, rfl⟩ := Rendering.place_eq_ok hplace
  dsimp only at hsound
  obtain ⟨hextends, hstored⟩ := Rendering.extends_store hp hstore
  obtain ⟨hrel, hshown⟩ := (h.of_extends hextends).relate hstored
  rw [Rendering.rendering_relate] at hsound
  obtain ⟨n, hn⟩ := hrel.numbered _ _ hshown
  have hfree : MarkerFree name.filename := hsound.markerFree_filename hnamed
    (List.mem_map_of_mem (f := Prod.snd) (Assoc.mem_of_get? hstored))
  have hshows : Drawing.Shows options (Rendering.drawingOf options p name _ _) p :=
    ⟨name, n, e.drawingIds.next.1, hfree, congrArg (Rendering.drawingOf options p name · _) hn⟩
  exact ⟨⟨hrel.kept, hrel.fresh, hrel.shown, hrel.numbered⟩, _, hshows, hshown, rfl⟩

/-- **Pictures are put into a part one after the other**: a drawing takes the place of each marker,
and all that are shown are related. -/
theorem Relates.placeAll {ps : List Placement} (h : Relates before source e)
    (hsound : e.rendering.Sound package types touched placed) (hnamed : Rendering.Named placed)
    (hps : ∀ p ∈ ps, placed source p) {done rest : List Char} (htext : e.text = done ++ rest)
    (hdone : MarkerFree done) (hrest : Marked ps rest)
    (hplace : ps.foldlM (Embedding.place options source) e = .ok e') :
    Relates before source e' ∧ ∃ shown result,
      shown.map Prod.fst = ps ∧ Spliced shown rest result ∧ e'.text = done ++ result ∧
        ∀ x ∈ shown, x.2.Shows options x.1 ∧
          Assoc.get? x.1.key e'.shown = some x.2.relationshipId := by
  induction ps generalizing e done rest with
  | nil =>
    cases hplace
    cases hrest with
    | nil hs => exact ⟨h, [], rest, rfl, .nil hs, htext, by simp⟩
  | cons p ps ih =>
    rw [List.forall_mem_cons] at hps
    obtain ⟨e₁, hfirst, hothers⟩ := bind_eq_ok hplace
    have hsound₁ := hsound.place hps.1 hfirst
    obtain ⟨hrel, drawing, hdrawing, hshown, hsplice⟩ :=
      h.place hsound₁ hnamed (hnamed source p hps.1) hfirst
    cases hrest with
    | @cons s r _ _ hs hp hr =>
      obtain ⟨d, hd, hd'⟩ :=
        exists_splice_eq hp (markerFree_append.2 ⟨hdone, hs⟩) drawing r
      have htext₁ : e₁.text = done ++ s ++ d ++ r := by
        rw [hsplice, htext, ← List.append_assoc, hd', ← List.append_assoc]
      obtain ⟨hrel', shown, result, rfl, hspliced, hresult, hall⟩ :=
        ih hrel hsound₁ hps.2 htext₁
          (markerFree_append.2
            ⟨markerFree_append.2 ⟨hdone, hs⟩, hd.markerFree hdrawing.markerFree⟩) hr hothers
      have hextends : e₁.Extends e' :=
        extends_placeAll (fun p hp => hnamed source p (hps.2 p hp)) hothers
      refine ⟨hrel', (p, drawing) :: shown, s ++ (d ++ result), rfl, .cons hs hd hspliced,
        by simp only [hresult, List.append_assoc], ?_⟩
      rw [List.forall_mem_cons]
      exact ⟨⟨hdrawing, hextends.shown _ _ hshown⟩, hall⟩

end Embedding

end MailMerge
