import Mathlib.Data.List.Nodup
import Mathlib.Tactic.Choose
import MailMerge.Proofs.Relating

/-!
# Pictures in rendered parts

After a document has been rendered, every picture that a part places is shown: a drawing stands in
the place of its marker, and the relationship with the id in the drawing leads to a part that holds
the bytes of the picture (`Document.render_embeds`). The id is the one that is read from the markup
of the drawing (`Package.shownPart?`). A part has one relationship to each picture, and the document
has one part for it.

`Shows` says so of a part as soon as it has been rendered, with the pictures that have been stored
in place of their bytes. The rendering of other parts changes nothing about it
(`Shows.of_extends`), as long as they stand apart from it: no part is another's listing of
relationships (`PartName.Apart`).
-/

namespace MailMerge

/-! ### Parts that stand apart -/

namespace PartName

theorem filename_relationshipsPart (name : PartName) :
    name.relationshipsPart.filename = name.filename ++ ".rels".toList :=
  filename_eq_of_text (text_relationshipsPart name) (slash_notMem_rels name)

theorem ne_relationshipsPart (name : PartName) : name ≠ name.relationshipsPart := by
  intro h
  have hlength := congrArg (List.length ∘ filename) h
  simp [filename_relationshipsPart] at hlength

theorem contentTypes_ne_relationshipsPart (name : PartName) :
    .contentTypes ≠ name.relationshipsPart := by
  intro h
  have hmem : '/' ∈ name.relationshipsPart.member := by
    simp [relationshipsPart]
  rw [← h] at hmem
  exact absurd hmem (by decide)

/-- Two parts whose bytes and relationships are kept in four different parts. -/
structure Apart (a b : PartName) : Prop where
  ne : a ≠ b
  ne_listing : a ≠ b.relationshipsPart
  listing_ne : a.relationshipsPart ≠ b
  listings_ne : a.relationshipsPart ≠ b.relationshipsPart

theorem Apart.symm {a b : PartName} (h : a.Apart b) : b.Apart a :=
  ⟨h.ne.symm, h.listing_ne.symm, h.ne_listing.symm, h.listings_ne.symm⟩

/-- Distinct canonical names stand apart when none is that of a listing. -/
theorem pairwise_apart {names : List PartName} (hdistinct : names.Nodup)
    (hcanonical : ∀ name ∈ names, name.IsCanonical)
    (hlistings : ∀ name ∈ names, ∀ source ∈ names, name ≠ source.relationshipsPart) :
    names.Pairwise Apart :=
  hdistinct.imp_of_mem fun {a b} ha hb hne => {
    ne := hne
    ne_listing := hlistings a ha b hb
    listing_ne := (hlistings b hb a ha).symm
    listings_ne := fun h => hne ((hcanonical a ha).relationshipsPart_inj (hcanonical b hb) h) }

end PartName

theorem not_touched_of_ne {log : List (PartName × Expansion)} {name : PartName}
    (hname : ∀ entry ∈ log, name ≠ entry.1)
    (hlisting : ∀ entry ∈ log, name ≠ entry.1.relationshipsPart) : ¬Touched log name := by
  rintro ⟨entry, he, h | ⟨-, h⟩⟩
  · exact hname entry he h
  · exact hlisting entry he h

/-- Rendering touches neither a part that stands apart from all that are rendered nor its listing of
relationships. -/
theorem not_touched_of_apart {log : List (PartName × Expansion)} {name : PartName}
    (h : ∀ entry ∈ log, entry.1.Apart name) :
    ¬Touched log name ∧ ¬Touched log name.relationshipsPart :=
  ⟨not_touched_of_ne (fun entry he => (h entry he).ne.symm) fun entry he =>
      (h entry he).listing_ne.symm,
    not_touched_of_ne (fun entry he => (h entry he).ne_listing.symm) fun entry he =>
      (h entry he).listings_ne.symm⟩

/-! ### What drawings show -/

namespace Package

/-- The text of a part. -/
def text? (package : Package) (name : PartName) : Option (List Char) := do
  let bytes ← package.get? name
  (Text.decode bytes).toOption

/-- The part that is shown by a drawing in a part, given the markup of the drawing: the target of
the relationship to a picture that has the id in it. -/
def shownPart? (package : Package) (source : PartName) (drawing : List Char) :
    Option PartName := do
  let id ← Drawing.embeddedId? drawing
  let rs ← (package.relationships source).toOption
  let r ← rs.get? id
  if r.type = Relationship.image then (r.part rs.folder).toOption else none

theorem text?_set_encode (package : Package) (name : PartName) (s : List Char) :
    (package.set name (Text.encode s)).text? name = some s := by
  rw [text?, get?_set, if_pos rfl]
  exact congrArg Except.toOption (Text.decode_encode s)

theorem text?_congr {a b : Package} {name : PartName} (h : a.get? name = b.get? name) :
    a.text? name = b.text? name := by
  rw [text?, text?, h]

theorem text?_eq_some {package : Package} {name : PartName} {bytes : List UInt8} {s : List Char}
    (hbytes : package.get? name = some bytes) (hs : Text.decode bytes = .ok s) :
    package.text? name = some s := by
  rw [text?, hbytes]
  exact congrArg Except.toOption hs

theorem mem_names_of_text? {package : Package} {name : PartName} {s : List Char}
    (h : package.text? name = some s) : name ∈ package.names := by
  obtain ⟨bytes, hbytes, -⟩ := Option.bind_eq_some_iff.1 h
  rw [mem_names_iff, hbytes]
  rfl

theorem shownPart?_congr {a b : Package} {source : PartName}
    (h : a.relationships source = b.relationships source) (drawing : List Char) :
    a.shownPart? source drawing = b.shownPart? source drawing := by
  rw [shownPart?, shownPart?, h]

end Package

/-- A relationship to a picture leads to its part. -/
theorem Package.shownPart?_eq_some {package : Package} {source name : PartName}
    {rs : Relationships} {drawing : List Char} {id : String}
    (hid : Drawing.embeddedId? drawing = some id) (hrs : package.relationships source = .ok rs)
    (hget : rs.get? id = some (imageRelationship source name id))
    (hsource : source.IsCanonical) (hname : name.IsCanonical) :
    package.shownPart? source drawing = some name := by
  rw [shownPart?, hid, hrs]
  change (do
    let r ← rs.get? id
    if r.type = Relationship.image then (r.part rs.folder).toOption else none) = some name
  rw [hget, folder_of_relationships hrs]
  change (if Relationship.image = Relationship.image
    then ((imageRelationship source name _).part source.folder).toOption else none) = some name
  rw [if_pos rfl, part_imageRelationship hsource hname]
  rfl

/-! ### Parts as soon as they have been rendered -/

/-- What is so of a part that has been rendered: drawings stand in the places of the markers of its
pictures, the id in each leads to the part that is stored for the picture, and relationships are
only added. -/
structure Shows (before : Package) (r : Rendering) (name : PartName) (e : Expansion)
    (shown : List (Placement × Drawing)) : Prop where
  images : shown.map Prod.fst = e.images
  text : ∃ text, r.package.text? name = some text ∧ Spliced shown e.text text ∧ MarkerFree text
  drawings : ∀ x ∈ shown, IsDrawing x.2.text x.2.drawingId x.2.relationshipId
  leads : ∀ x ∈ shown, ∃ part, r.package.shownPart? name x.2.text = some part ∧
    Assoc.get? x.1.key r.media = some part
  shared : ∀ x ∈ shown, ∀ y ∈ shown, x.1.key = y.1.key →
    x.2.relationshipId = y.2.relationshipId
  kept : ∀ rs, before.relationships name = .ok rs →
    ∃ added, r.package.relationships name = .ok { rs with entries := rs.entries ++ added }

/-- A part still shows its pictures when others have been rendered. -/
theorem Shows.of_extends {before : Package} {r r' : Rendering} {name : PartName} {e : Expansion}
    {shown : List (Placement × Drawing)} (h : Shows before r name e shown)
    {touched : PartName → Prop} (hr : r.Extends touched r') (hname : ¬touched name)
    (hlisting : ¬touched name.relationshipsPart) : Shows before r' name e shown := by
  obtain ⟨text, htext, hspliced, hfree⟩ := h.text
  have hsame : r'.package.text? name = r.package.text? name :=
    Package.text?_congr (hr.kept name hname (Or.inl (Package.mem_names_of_text? htext)))
  have hrelationships : r'.package.relationships name = r.package.relationships name :=
    Package.relationships_congr
      (hr.kept _ hlisting (Or.inr fun hmedia => hmedia.ne_relationshipsPart name rfl))
  constructor
  case images => exact h.images
  case text => exact ⟨text, hsame.trans htext, hspliced, hfree⟩
  case drawings => exact h.drawings
  case leads =>
    intro x hx
    obtain ⟨part, hpart, hstored⟩ := h.leads x hx
    exact ⟨part, (Package.shownPart?_congr hrelationships x.2.text).trans hpart,
      hr.media _ _ hstored⟩
  case shared => exact h.shared
  case kept =>
    intro rs hrs
    rw [hrelationships]
    exact h.kept rs hrs

theorem Shows.of_relationships_eq {before before' : Package} {r : Rendering} {name : PartName}
    {e : Expansion} {shown : List (Placement × Drawing)} (h : Shows before r name e shown)
    (hsame : before.relationships name = before'.relationships name) :
    Shows before' r name e shown where
  images := h.images
  text := h.text
  drawings := h.drawings
  leads := h.leads
  shared := h.shared
  kept rs hrs := h.kept rs (hsame.trans hrs)

section Running

variable {options : Options} {data : DataTree} {r r' : Rendering}

/-- What a rendering grows by when pictures are put into a part. -/
theorem Rendering.extends_embed {source : PartName} {text text' : List Char}
    {ps : List Placement} (hps : ∀ p ∈ ps, isIdentifier p.key.toList = true)
    (h : r.embed options source text ps = .ok (text', r')) :
    r.Extends (· = source.relationshipsPart) r' := by
  obtain ⟨rs, done, -, hdone, -, rfl⟩ := embed_eq_ok h
  have hplaced : r.Extends (fun _ => False) done.rendering :=
    (Embedding.extends_placeAll (e := r.embedding rs text) hps hdone).rendering
  exact (hplaced.mono fun _ => False.elim).trans (extends_set _ _ _)

theorem RendersPart.extends {name : PartName} {e : Expansion}
    (h : RendersPart options data r name e r') : r.Extends (Touched [(name, e)]) r' := by
  have hkeys : ∀ p ∈ e.images, isIdentifier p.key.toList = true := fun p hp => (h.isFrom p hp).named
  have hself : ∀ n, n = name → Touched [(name, e)] n := fun n hn =>
    ⟨(name, e), List.mem_cons_self, Or.inl hn⟩
  cases h with
  | plain => exact (Rendering.extends_set _ _ _).mono hself
  | pictures _ _ _ himages hembed =>
    have hlisting : ∀ n, n = name.relationshipsPart → Touched [(name, e)] n := fun n hn =>
      ⟨(name, e), List.mem_cons_self, Or.inr ⟨himages, hn⟩⟩
    exact ((Rendering.extends_embed hkeys hembed).mono hlisting).trans
      ((Rendering.extends_set _ _ _).mono hself)

theorem Renders.extends {log : List (PartName × Expansion)} (h : Renders options data r log r') :
    r.Extends (Touched log) r' := by
  induction h with
  | nil => exact .refl _
  | cons hpart _ ih =>
    refine (hpart.extends.mono ?_).trans (ih.mono ?_)
    · rintro n ⟨entry, he, hn⟩
      exact ⟨entry, List.mem_cons.2 (Or.inl (List.mem_singleton.1 he)), hn⟩
    · rintro n ⟨entry, he, hn⟩
      exact ⟨entry, List.mem_cons_of_mem _ he, hn⟩

variable {package : Package} {types : ContentTypes} {log log' : List (PartName × Expansion)}

/-- The template of a part is what it was at the start. -/
theorem RendersPart.exists_template {name : PartName} {e : Expansion}
    (h : RendersPart options data r name e r')
    (hkept : r.package.get? name = package.get? name) :
    ∃ template, package.text? name = some template ∧
      e = expand data options (Markup.gatherPart options.window template) := by
  cases h with
  | plain hbytes hsource he | pictures hbytes hsource he =>
    rw [hkept] at hbytes
    exact ⟨_, Package.text?_eq_some hbytes hsource, he.symm⟩

/-- Parts for pictures have canonical names, when the parts do that place the pictures. -/
theorem Rendering.Sound.isCanonical {touched : PartName → Prop}
    {placed : PartName → Placement → Prop} (h : r.Sound package types touched placed)
    (hnamed : Named placed) (hplaced : ∀ source p, placed source p → source.IsCanonical)
    {key : String} {name : PartName} (hname : Assoc.get? key r.media = some name) :
    name.IsCanonical := by
  obtain ⟨-, -, source, p, hp, -, hof, -⟩ := h.stored key name (Assoc.mem_of_get? hname)
  exact hof.isCanonical (hplaced source p hp) (hnamed source p hp)

/-- A part shows its pictures when they have been put in. -/
theorem Rendering.exists_shows_embed {touched : PartName → Prop}
    {placed : PartName → Placement → Prop} {name : PartName} {e : Expansion} {text : List Char}
    (hembed : r.embed options name e.text e.images = .ok (text, r'))
    (hsound : r.Sound package types touched placed) (hnamed : Named placed)
    (hcanonical : ∀ source p, placed source p → source.IsCanonical)
    (hname : name.IsCanonical) (hplaced : ∀ p ∈ e.images, placed name p)
    (hids : ∀ rs, r.package.relationships name = .ok rs → rs.IdsFit)
    (hmarked : Marked e.images e.text) :
    ∃ shown, Shows r.package { r' with package := r'.package.set name (Text.encode text) } name e
      shown := by
  obtain ⟨rs, done, hrs, hdone, rfl, rfl⟩ := embed_eq_ok hembed
  have hdoneSound : done.rendering.Sound package types touched placed :=
    Sound.placeAll (e := r.embedding rs e.text) hsound hplaced hdone
  obtain ⟨hrel, shown, result, himages, hspliced, htext, hall⟩ :=
    (Embedding.relates_start (hids rs hrs) name r e.text).placeAll hsound hnamed hplaced
      (List.nil_append e.text).symm markerFree_nil hmarked hdone
  rw [List.nil_append] at htext
  obtain ⟨added, hadded⟩ := hrel.kept
  have hfolder : done.relationships.folder = name.folder := by
    rw [hadded, ← Package.folder_of_relationships hrs]
  have hlisted : ((done.rendering.package.setRelationships name done.relationships).set name
      (Text.encode done.text)).relationships name = .ok done.relationships :=
    (Package.relationships_congr
      (Package.get?_set_of_ne _ _ _ name.ne_relationshipsPart.symm)).trans
      (Package.relationships_setRelationships _ hfolder)
  refine ⟨shown, ?_⟩
  constructor
  case images => exact himages
  case text =>
    exact ⟨done.text, Package.text?_set_encode _ _ _, htext ▸ hspliced,
      htext ▸ hspliced.markerFree fun x hx => (hall x hx).1.markerFree⟩
  case drawings => exact fun x hx => (hall x hx).1.isDrawing
  case leads =>
    intro x hx
    obtain ⟨hshows, hrelated⟩ := hall x hx
    obtain ⟨part, hstored, hget⟩ := hrel.shown _ _ hrelated
    exact ⟨part, Package.shownPart?_eq_some hshows.isDrawing.embedded hlisted hget hname
      (hdoneSound.isCanonical hnamed hcanonical hstored), hstored⟩
  case shared =>
    intro x hx y hy hkey
    have hsame := (hall x hx).2
    rw [hkey, (hall y hy).2] at hsame
    exact (Option.some.inj hsame).symm
  case kept =>
    intro rs' hrs'
    obtain rfl := Except.ok.inj (hrs.symm.trans hrs')
    exact ⟨added, hlisted.trans (congrArg _ hadded)⟩

/-- A part shows its pictures as soon as it has been rendered. -/
theorem RendersPart.exists_shows {name : PartName} {e : Expansion}
    (h : RendersPart options data r name e r')
    (hsound : r.Sound package types (Touched log) (Placed log))
    (hnamed : Rendering.Named (Placed log))
    (hcanonical : ∀ entry ∈ log ++ [(name, e)], entry.1.IsCanonical)
    (hids : ∀ rs, r.package.relationships name = .ok rs → rs.IdsFit)
    (hmarked : Marked e.images e.text) : ∃ shown, Shows r.package r' name e shown := by
  have hnamed := h.named hnamed
  cases h with
  | plain _ _ _ himages =>
    rw [himages] at hmarked
    cases hmarked with
    | nil hfree =>
      refine ⟨[], himages.symm, ⟨e.text, Package.text?_set_encode _ _ _, .nil hfree, hfree⟩,
        by simp, by simp, by simp, fun rs hrs => ⟨[], ?_⟩⟩
      rw [List.append_nil]
      exact (Package.relationships_congr
        (Package.get?_set_of_ne _ _ _ name.ne_relationshipsPart.symm)).trans hrs
  | pictures _ _ _ _ hembed =>
    have hplaced : r.Sound package types (Touched log) (Placed (log ++ [(name, e)])) :=
      hsound.mono fun _ _ => placed_append_of_placed
    have hlast : (name, e) ∈ log ++ [(name, e)] := List.mem_append_right _ List.mem_cons_self
    refine Rendering.exists_shows_embed hembed hplaced hnamed ?_ (hcanonical _ hlast)
      (fun p hp => ⟨e, hlast, hp⟩) hids hmarked
    rintro source p ⟨e', he', -⟩
    exact hcanonical (source, e') he'

/-- All parts show their pictures in the end. -/
theorem Renders.exists_shows (h : Renders options data r log' r') (hdata : data.MarkerFree)
    (hsound : r.Sound package types (Touched log) (Placed log))
    (hnamed : Rendering.Named (Placed log)) (hnames : ∀ entry ∈ log', entry.1 ∈ package.names)
    (hcanonical : ∀ entry ∈ log ++ log', entry.1.IsCanonical)
    (hapart : ((log ++ log').map Prod.fst).Pairwise PartName.Apart)
    (hids : ∀ entry ∈ log', ∀ rs, package.relationships entry.1 = .ok rs → rs.IdsFit)
    (htemplates : ∀ entry ∈ log', ∀ s, package.text? entry.1 = some s → MarkerFree s) :
    ∀ entry ∈ log', ∃ template shown, package.text? entry.1 = some template ∧
      entry.2 = expand data options (Markup.gatherPart options.window template) ∧
      Shows package r' entry.1 entry.2 shown := by
  induction h generalizing log with
  | nil => simp
  | @cons r r₁ r' name e rest hpart hrest ih =>
    rw [List.append_cons] at hcanonical
    have hpairs := hapart
    rw [List.map_append, List.map_cons, List.pairwise_append, List.pairwise_cons] at hpairs
    obtain ⟨-, ⟨hafter, -⟩, hbefore⟩ := hpairs
    rw [List.append_cons] at hapart
    rw [List.forall_mem_cons] at hnames hids htemplates ⊢
    have hapartBefore : ∀ entry ∈ log, entry.1.Apart name := fun entry he =>
      hbefore entry.1 (List.mem_map_of_mem he) name List.mem_cons_self
    have hapartAfter : ∀ entry ∈ rest, entry.1.Apart name := fun entry he =>
      (hafter entry.1 (List.mem_map_of_mem he)).symm
    obtain ⟨huntouched, hunlisted⟩ := not_touched_of_apart hapartBefore
    have hrelationships : r.package.relationships name = package.relationships name :=
      Package.relationships_congr (hsound.kept _ hunlisted fun hm =>
        (hsound.isMedia hnamed hm).ne_relationshipsPart name rfl)
    obtain ⟨template, htemplate, he⟩ :=
      hpart.exists_template (hsound.kept name huntouched (hsound.notMem_media hnames.1))
    have hmarked : Marked e.images e.text := he ▸
      marked_expand options hdata (markerFree_gatherPart (htemplates.1 template htemplate))
    obtain ⟨shown, hshown⟩ := hpart.exists_shows hsound hnamed
      (fun entry hentry => hcanonical entry (List.mem_append_left _ hentry))
      (hrelationships ▸ hids.1) hmarked
    constructor
    · obtain ⟨huntouched', hunlisted'⟩ := not_touched_of_apart hapartAfter
      exact ⟨template, shown, htemplate, he,
        (hshown.of_extends hrest.extends huntouched' hunlisted').of_relationships_eq hrelationships⟩
    · exact ih (hpart.sound hsound hnamed hnames.1) (hpart.named hnamed) hnames.2 hcanonical hapart
        hids.2 htemplates.2

end Running

/-! ### Rendered documents -/

namespace Rendering

variable {package : Package} {types : ContentTypes} {touched : PartName → Prop}
  {placed : PartName → Placement → Prop} {r : Rendering}

/-- Listing the content types in the end adds nothing that has been stored. -/
theorem extends_finished (r : Rendering) :
    r.Extends (· = .contentTypes) { r with package := r.finished } := by
  rw [finished]
  split
  · exact extends_set _ _ _
  · exact .refl r

/-- The part that is stored for a picture from the data holds its bytes. -/
theorem Sound.get?_media {data : DataTree} (h : r.Sound package types touched placed)
    (hfrom : ∀ source p, placed source p → p.IsFrom data) {p : Placement} (hp : p.IsFrom data)
    {name : PartName} (hname : Assoc.get? p.key r.media = some name) :
    r.package.get? name = some p.image.bytes := by
  obtain ⟨-, -, source, p', hp', hkey, -, hbytes⟩ := h.stored _ name (Assoc.mem_of_get? hname)
  have hfound := (hfrom source p' hp').found
  rw [hkey, hp.found] at hfound
  rw [hbytes, Value.image.inj (Option.some.inj hfound)]

/-- Listing the content types in the end leaves the parts for pictures alone. -/
theorem Sound.get?_finished (h : r.Sound package types touched placed)
    (htypes : .contentTypes ∈ package.names) {key : String} {name : PartName}
    (hname : Assoc.get? key r.media = some name) :
    r.finished.get? name = r.package.get? name := by
  have hstored := Assoc.mem_of_get? hname
  refine r.extends_finished.kept name ?_
    (Or.inl (h.mem_names_of_media (List.mem_map_of_mem (f := Prod.snd) hstored)))
  rintro rfl
  exact (h.stored key _ hstored).1 htypes

end Rendering

/-- What is so of a rendered part, given the package before and after. -/
structure Embedded (before after : Package) (name : PartName) (e : Expansion)
    (shown : List (Placement × Drawing)) : Prop where
  /-- Each picture is shown by a drawing. -/
  images : shown.map Prod.fst = e.images
  /-- The drawings stand in the places of the markers, and no marker is left. -/
  text : ∃ text, after.text? name = some text ∧ Spliced shown e.text text ∧ MarkerFree text
  /-- What stands there is one drawing each, with an id of a relationship. -/
  drawings : ∀ x ∈ shown, IsDrawing x.2.text x.2.drawingId x.2.relationshipId
  /-- The id leads to a part with the bytes of the picture. -/
  leads : ∀ x ∈ shown, ∃ part, after.shownPart? name x.2.text = some part ∧
    after.get? part = some x.1.image.bytes
  /-- Pictures share an id exactly when they have the same key. -/
  ids : ∀ x ∈ shown, ∀ y ∈ shown,
    Drawing.embeddedId? x.2.text = Drawing.embeddedId? y.2.text ↔ x.1.key = y.1.key
  /-- Relationships are added at the end. -/
  kept : ∀ rs, before.relationships name = .ok rs →
    ∃ added, after.relationships name = .ok { rs with entries := rs.entries ++ added }

/-- Pictures share a part exactly when they have the same key. -/
theorem Shows.shownPart?_eq_iff {before : Package} {r : Rendering} {a b : PartName}
    {e e' : Expansion} {shown shown' : List (Placement × Drawing)} (h : Shows before r a e shown)
    (h' : Shows before r b e' shown') (hdistinct : (r.media.map Prod.snd).Nodup)
    {x y : Placement × Drawing} (hx : x ∈ shown) (hy : y ∈ shown') :
    r.package.shownPart? a x.2.text = r.package.shownPart? b y.2.text ↔ x.1.key = y.1.key := by
  obtain ⟨part, hpart, hstored⟩ := h.leads x hx
  obtain ⟨part', hpart', hstored'⟩ := h'.leads y hy
  rw [hpart, hpart', Option.some_inj]
  constructor
  · rintro rfl
    exact congrArg Prod.fst (List.inj_on_of_nodup_map hdistinct (Assoc.mem_of_get? hstored)
      (Assoc.mem_of_get? hstored') rfl)
  · intro hkey
    rw [hkey] at hstored
    exact Option.some.inj (hstored.symm.trans hstored')

theorem Shows.embedded {before : Package} {r : Rendering} {name : PartName} {e : Expansion}
    {shown : List (Placement × Drawing)} (h : Shows before r name e shown)
    (hdistinct : (r.media.map Prod.snd).Nodup)
    (hbytes : ∀ p ∈ e.images, ∀ part, Assoc.get? p.key r.media = some part →
      r.package.get? part = some p.image.bytes) : Embedded before r.package name e shown where
  images := h.images
  text := h.text
  drawings := h.drawings
  leads x hx := by
    obtain ⟨part, hpart, hstored⟩ := h.leads x hx
    exact ⟨part, hpart, hbytes x.1 (h.images ▸ List.mem_map_of_mem hx) part hstored⟩
  ids x hx y hy := by
    constructor
    · intro hid
      rw [← h.shownPart?_eq_iff h hdistinct hx hy, Package.shownPart?, Package.shownPart?, hid]
    · intro hkey
      rw [(h.drawings x hx).embedded, (h.drawings y hy).embedded, h.shared x hx y hy hkey]
  kept := h.kept

theorem Relationship.isCanonical_of_part {r : Relationship} {folder : List Char} {name : PartName}
    (h : r.part folder = .ok name) : name.IsCanonical := by
  rw [part] at h
  split at h
  · cases h
  · obtain rfl := Except.ok.inj h
    exact PartName.isCanonical_resolve _ _

namespace Document

variable {document : Document} {data : DataTree}

theorem isCanonical_of_mainDocument {package : Package} {main : PartName}
    (h : package.mainDocument = .ok main) : main.IsCanonical := by
  obtain ⟨rs, -, h⟩ := bind_eq_ok h
  split at h
  · obtain ⟨name, hname, h⟩ := bind_eq_ok h
    split at h
    · cases h
      exact Relationship.isCanonical_of_part hname
    · cases h
  · split at h
    · cases h
      exact PartName.isCanonical_usualDocument
    · cases h

/-- Parts that are rendered have canonical names. -/
theorem isCanonical_of_partsFor {types : ContentTypes} {names : List PartName}
    (h : document.partsFor types = .ok names) : ∀ name ∈ names, name.IsCanonical := by
  obtain ⟨-, -, main, hmain, hrest⟩ := partsFor_eq_ok h
  have hcanonical := isCanonical_of_mainDocument hmain
  split at hrest
  · obtain ⟨rs, -, rfl⟩ := hrest
    intro name hname
    rw [List.mem_eraseDups, List.mem_cons] at hname
    rcases hname with rfl | hname
    · exact hcanonical
    · obtain ⟨r, -, rfl⟩ := List.mem_map.1 (List.mem_filter.1 hname).1
      exact PartName.isCanonical_resolve _ _
  · subst hrest
    exact fun name hname => List.mem_singleton.1 hname ▸ hcanonical

/-- **Every picture is shown where it is placed.** When rendering succeeds, the drawings in the
rendered parts lead to the bytes of their pictures, and two lead to the same part exactly when their
pictures have the same key. -/
theorem render_embeds {report : Report} {after : Document}
    (h : document.render data = .ok (report, after))
    (hids : ∀ name ∈ report.parts, ∀ rs, document.package.relationships name = .ok rs → rs.IdsFit)
    (hlistings : ∀ name ∈ report.parts,
      name ≠ .contentTypes ∧ ∀ source ∈ report.parts, name ≠ source.relationshipsPart)
    (htemplates : ∀ name ∈ report.parts, ∀ s, document.package.text? name = some s → MarkerFree s)
    (hdata : data.MarkerFree) :
    ∃ shown : PartName → List (Placement × Drawing),
      (∀ name ∈ report.parts, ∃ template, document.package.text? name = some template ∧
        Embedded document.package after.package name
          (expand data document.options (Markup.gatherPart document.options.window template))
          (shown name)) ∧
      ∀ a ∈ report.parts, ∀ b ∈ report.parts, ∀ x ∈ shown a, ∀ y ∈ shown b,
        after.package.shownPart? a x.2.text = after.package.shownPart? b y.2.text ↔
          x.1.key = y.1.key := by
  obtain ⟨types, log, final, htypes, hnames, hlog, hfst, rfl⟩ := render_run h
  obtain ⟨hdistinct, hpresent, -⟩ := partsFor_eq_ok hnames
  have hcanonical := isCanonical_of_partsFor hnames
  have hparts : ∀ entry ∈ log, entry.1 ∈ report.parts := fun entry he =>
    hfst ▸ List.mem_map_of_mem he
  have hapart : (log.map Prod.fst).Pairwise PartName.Apart := hfst ▸
    PartName.pairwise_apart hdistinct hcanonical fun name hname => (hlistings name hname).2
  have hin : ∀ entry ∈ log, entry.1 ∈ document.package.names := fun entry he =>
    hpresent _ (hparts entry he)
  have hsound := hlog.sound (sound_start _ _) named_nil hin
  rw [List.nil_append] at hsound
  have hshows := hlog.exists_shows hdata (sound_start _ _) named_nil hin
    (fun entry he => hcanonical _ (hparts entry he)) hapart
    (fun entry he => hids _ (hparts entry he)) fun entry he => htemplates _ (hparts entry he)
  have hfinished : ∀ name ∈ report.parts, ∃ shown template,
      document.package.text? name = some template ∧
      (∀ p ∈ (expand data document.options
        (Markup.gatherPart document.options.window template)).images, p.IsFrom data) ∧
      Shows document.package { final with package := final.finished } name
        (expand data document.options (Markup.gatherPart document.options.window template))
        shown := by
    intro name hname
    obtain ⟨⟨_, e⟩, he, rfl⟩ := List.mem_map.1 (hfst ▸ hname)
    obtain ⟨template, shown, htemplate, rfl, hshown⟩ := hshows _ he
    exact ⟨shown, template, htemplate, fun p hp => isFrom_of_mem_expand hp,
      hshown.of_extends final.extends_finished (hlistings _ hname).1
        (PartName.contentTypes_ne_relationshipsPart _).symm⟩
  choose! shown template htemplate hfrom hshown using hfinished
  refine ⟨shown, fun name hname => ⟨template name, htemplate name hname, ?_⟩,
    fun a ha b hb x hx y hy => (hshown a ha).shownPart?_eq_iff (hshown b hb) hsound.distinct hx hy⟩
  refine (hshown name hname).embedded hsound.distinct fun p hp part hpart => ?_
  exact (hsound.get?_finished (mem_names_of_contentTypes htypes) hpart).trans
    (hsound.get?_media hlog.isFrom (hfrom name hname p hp) hpart)

/-- The relationships of a letter: it has a header. -/
def letterRelationships : Relationships where
  folder := "/word".toList
  entries := [{ id := "rId1", type := Relationship.header, target := "header.xml" }]

/-- A letter and its header, which both show a logo. -/
def letter : Document where
  package := {
    parts := [(.contentTypes, []),
      (.usualDocument, Text.encode "<w:t>\x7blogo\x7d \x7blogo\x7d</w:t>".toList),
      (⟨"word/header.xml".toList⟩, Text.encode "<w:t>\x7blogo\x7d</w:t>".toList),
      (⟨"word/_rels/document.xml.rels".toList⟩, Text.encode letterRelationships.toXml)] }

/-- Data with a logo. -/
def logoData : DataTree :=
  ⟨[("logo", .image { (default : Image) with bytes := [137, 80, 78, 71] })]⟩

theorem render_embeds_letter :
    ∃ report after, letter.render logoData = .ok (report, after) ∧
      ((∀ name ∈ report.parts, ∀ rs, letter.package.relationships name = .ok rs → rs.IdsFit) ∧
        (∀ name ∈ report.parts,
          name ≠ .contentTypes ∧ ∀ source ∈ report.parts, name ≠ source.relationshipsPart) ∧
        (∀ name ∈ report.parts, ∀ s, letter.package.text? name = some s → MarkerFree s) ∧
        logoData.MarkerFree) ∧
      ∃ shown : PartName → List (Placement × Drawing),
        (∀ name ∈ report.parts, ∃ template, letter.package.text? name = some template ∧
          Embedded letter.package after.package name
            (expand logoData letter.options (Markup.gatherPart letter.options.window template))
            (shown name)) ∧
        ∀ a ∈ report.parts, ∀ b ∈ report.parts, ∀ x ∈ shown a, ∀ y ∈ shown b,
          after.package.shownPart? a x.2.text = after.package.shownPart? b y.2.text ↔
            x.1.key = y.1.key := by
  have hok : (letter.render logoData).isOk = true := by decide +kernel
  obtain ⟨⟨report, after⟩, h⟩ := exists_eq_ok_of_isOk hok
  have hmain : letter.package.relationships .usualDocument = .ok letterRelationships := by
    have hlisting : letter.package.get? PartName.usualDocument.relationshipsPart
        = some (Text.encode letterRelationships.toXml) := rfl
    rw [Package.relationships, hlisting]
    exact Relationships.ofXml_toXml _ _
  have hparts : report.parts = [.usualDocument, ⟨"word/header.xml".toList⟩] := by
    obtain ⟨main, hdocument, rs, hrs, hnames⟩ := (render_eq_ok h).order
    have husual : letter.package.mainDocument = .ok .usualDocument := by decide +kernel
    obtain rfl := Except.ok.inj (husual.symm.trans hdocument)
    obtain rfl := Except.ok.inj (hmain.symm.trans hrs)
    exact hnames.trans (by decide +kernel)
  have hids : ∀ name ∈ report.parts, ∀ rs, letter.package.relationships name = .ok rs →
      rs.IdsFit := by
    have hheader : letter.package.relationships ⟨"word/header.xml".toList⟩
        = .ok { folder := "/word".toList } := by decide +kernel
    rw [hparts, List.forall_mem_cons, List.forall_mem_singleton, hmain, hheader]
    constructor
    · rintro _ ⟨⟩ r hr n hn
      obtain rfl := List.mem_singleton.1 hr
      rw [← RelationshipIds.idOf_inj (show RelationshipIds.idOf 1 = _ from hn)]
      decide
    · rintro _ ⟨⟩ r hr
      cases hr
  have hlistings : ∀ name ∈ report.parts,
      name ≠ .contentTypes ∧ ∀ source ∈ report.parts, name ≠ source.relationshipsPart := by
    rw [hparts]
    decide
  have htemplates : ∀ name ∈ report.parts, ∀ s, letter.package.text? name = some s →
      MarkerFree s := by
    have hfree : ∀ name ∈ report.parts, ∀ s ∈ letter.package.text? name, MarkerFree s := by
      rw [hparts]
      decide +kernel
    exact hfree
  have hdata : logoData.MarkerFree := by
    rintro s (_ | _ | ⟨hv, hs⟩)
    cases List.mem_singleton.1 hv
    cases hs
  exact ⟨report, after, h, ⟨hids, hlistings, htemplates, hdata⟩,
    letter.render_embeds h hids hlistings htemplates hdata⟩

end Document

end MailMerge
