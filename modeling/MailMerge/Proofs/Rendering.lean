import Mathlib.Data.List.Induction
import MailMerge.Proofs.Media
import MailMerge.Render.Document

/-!
# What rendering leaves alone

Rendering a document either succeeds for all of its parts or leaves it as it was, and it touches its
own parts only (`update_spec`): those that are rendered, the listings of relationships of those that
show pictures, and the listing of content types when one has to be declared. New parts come last.

The parts are rendered one after the other (`Renders`), and `Rendering.Sound` says of each step what
has been done since the start: each part that was there has its place and, unless it was touched,
its bytes; and each picture is stored in a part that is new. Anything else that the steps preserve
holds at the end of a run, too (`Rendering.Preserved.renders`).
-/

namespace MailMerge

/-! ### What has been done -/

namespace Rendering

/-- What rendering has done to a package: which parts it has `touched`, and which pictures it has
`placed` in which parts. -/
structure Sound (package : Package) (types : ContentTypes) (touched : PartName → Prop)
    (placed : PartName → Placement → Prop) (r : Rendering) : Prop where
  names : ∃ added, r.package.names = package.names ++ added ∧
    ∀ name ∈ added, name ∉ package.names ∧ (touched name ∨ name ∈ r.media.map Prod.snd)
  kept : ∀ name, ¬touched name → name ∉ r.media.map Prod.snd →
    r.package.get? name = package.get? name
  present : ∀ name, touched name → name ∈ r.package.names
  stored : ∀ key name, (key, name) ∈ r.media → name ∉ package.names ∧ ¬touched name ∧
    ∃ source p, placed source p ∧ p.key = key ∧ IsMediaOf source p name ∧
      r.package.get? name = some p.image.bytes
  distinct : (r.media.map Prod.snd).Nodup
  defaults : ∀ extension, types.hasDefault extension = true → r.types.hasDefault extension = true
  declared : r.declared = true →
    ∃ source p, placed source p ∧ types.hasDefault p.image.extension = false

variable {package : Package} {types : ContentTypes} {touched : PartName → Prop}
  {placed placed' : PartName → Placement → Prop} {r : Rendering}

theorem Sound.start (package : Package) (types : ContentTypes) :
    Sound package types (fun _ => False) (fun _ _ => False) { package, types } where
  names := ⟨[], by simp⟩
  kept _ _ _ := rfl
  present _ h := h.elim
  stored _ _ h := by cases h
  distinct := List.nodup_nil
  defaults _ h := h
  declared h := by cases h

theorem Sound.mono (h : Sound package types touched placed r)
    (hplaced : ∀ source p, placed source p → placed' source p) :
    Sound package types touched placed' r where
  names := h.names
  kept := h.kept
  present := h.present
  stored key name hm := by
    obtain ⟨hnew, huntouched, source, p, hp, hrest⟩ := h.stored key name hm
    exact ⟨hnew, huntouched, source, p, hplaced source p hp, hrest⟩
  distinct := h.distinct
  defaults := h.defaults
  declared hd := by
    obtain ⟨source, p, hp, hext⟩ := h.declared hd
    exact ⟨source, p, hplaced source p hp, hext⟩

theorem Sound.of_iff {touched' : PartName → Prop} (h : Sound package types touched placed r)
    (htouched : ∀ n, touched n ↔ touched' n) : Sound package types touched' placed r := by
  rwa [show touched' = touched from funext fun n => propext (htouched n).symm]

theorem Sound.mem_names (h : Sound package types touched placed r) {name : PartName}
    (hname : name ∈ package.names) : name ∈ r.package.names := by
  obtain ⟨added, hadded, -⟩ := h.names
  rw [hadded]
  exact List.mem_append_left _ hname

/-- A part that was there holds no picture that is stored. -/
theorem Sound.notMem_media (h : Sound package types touched placed r) {name : PartName}
    (hname : name ∈ package.names) : name ∉ r.media.map Prod.snd := by
  intro hm
  obtain ⟨⟨key, n⟩, hstored, rfl⟩ := List.mem_map.1 hm
  exact (h.stored key n hstored).1 hname

theorem Sound.mem_names_of_media (h : Sound package types touched placed r) {name : PartName}
    (hname : name ∈ r.media.map Prod.snd) : name ∈ r.package.names := by
  obtain ⟨⟨key, n⟩, hm, rfl⟩ := List.mem_map.1 hname
  obtain ⟨-, -, source, p, -, -, -, hbytes⟩ := h.stored key n hm
  rw [Package.mem_names_iff, hbytes]
  rfl

/-- Names that were there are kept where a part is set, and a new one comes last. -/
theorem Sound.names_set (h : Sound package types touched placed r) (name : PartName)
    (bytes : List UInt8) {allowed : PartName → Prop} (hname : allowed name)
    (hallowed : ∀ n, touched n ∨ n ∈ r.media.map Prod.snd → allowed n) :
    ∃ added, (r.package.set name bytes).names = package.names ++ added ∧
      ∀ n ∈ added, n ∉ package.names ∧ allowed n := by
  obtain ⟨added, hadded, hnew⟩ := h.names
  rw [Package.names_set]
  split
  · exact ⟨added, hadded, fun n hn => ⟨(hnew n hn).1, hallowed n (hnew n hn).2⟩⟩
  · next hfree =>
    refine ⟨added ++ [name], by rw [hadded, List.append_assoc], fun n hn => ?_⟩
    rcases List.mem_append.1 hn with hn | hn
    · exact ⟨(hnew n hn).1, hallowed n (hnew n hn).2⟩
    · obtain rfl := List.mem_singleton.1 hn
      exact ⟨fun hm => hfree (h.mem_names hm), hname⟩

/-- A part is touched, which is none for a picture. -/
theorem Sound.touch (h : Sound package types touched placed r) {name : PartName}
    (hname : name ∉ r.media.map Prod.snd) (bytes : List UInt8) :
    Sound package types (fun n => touched n ∨ n = name) placed
      { r with package := r.package.set name bytes } where
  names := h.names_set name bytes (Or.inl (Or.inr rfl)) fun n hn => hn.imp_left Or.inl
  kept n hn hmedia := by
    rw [not_or] at hn
    rw [Package.get?_set_of_ne _ _ _ hn.2]
    exact h.kept n hn.1 hmedia
  present n hn := by
    rw [Package.mem_names_set]
    exact hn.elim (fun ht => Or.inr (h.present n ht)) Or.inl
  stored key n hm := by
    obtain ⟨hnew, huntouched, source, p, hp, hkey, hof, hbytes⟩ := h.stored key n hm
    have hne : n ≠ name := by
      rintro rfl
      exact hname (List.mem_map_of_mem hm)
    refine ⟨hnew, not_or.2 ⟨huntouched, hne⟩, source, p, hp, hkey, hof, ?_⟩
    rw [Package.get?_set_of_ne _ _ _ hne]
    exact hbytes
  distinct := h.distinct
  defaults := h.defaults
  declared := h.declared

theorem hasDefault_setDefault (types : ContentTypes) (extension other type : String) :
    (types.setDefault extension type).hasDefault other = true ↔
      ContentTypes.lower extension = ContentTypes.lower other ∨ types.hasDefault other = true := by
  rw [ContentTypes.hasDefault, ContentTypes.setDefault, Assoc.contains, Assoc.get?_set]
  split
  · next h => simp [h]
  · next h => simp [h, ContentTypes.hasDefault, Assoc.contains]

/-- A picture is stored in a part that is new, when it is asked for the first time. -/
theorem Sound.store (h : Sound package types touched placed r) {source : PartName} {p : Placement}
    (hp : placed source p) {name : PartName} {r' : Rendering}
    (hstore : r.store source p.key p.image = .ok (name, r')) :
    Sound package types touched placed r' := by
  rw [Rendering.store] at hstore
  split at hstore
  · cases hstore
    exact h
  · obtain ⟨name', hname, hrest⟩ := bind_eq_ok hstore
    obtain ⟨rfl, rfl⟩ := Prod.mk.inj (Except.ok.inj hrest)
    obtain ⟨hfree, hof⟩ := mediaName_spec hname
    have hnew : ∀ n, n ∈ (r.media ++ [(p.key, name')]).map Prod.snd ↔
        n ∈ r.media.map Prod.snd ∨ n = name' := by simp
    constructor
    case names =>
      exact h.names_set name' p.image.bytes (Or.inr ((hnew name').2 (Or.inr rfl)))
        fun n hn => hn.imp_right fun hm => (hnew n).2 (Or.inl hm)
    case kept =>
      intro n hn hmedia
      rw [hnew, not_or] at hmedia
      rw [Package.get?_set_of_ne _ _ _ hmedia.2]
      exact h.kept n hn hmedia.1
    case present =>
      intro n hn
      rw [Package.mem_names_set]
      exact Or.inr (h.present n hn)
    case stored =>
      intro key n hm
      rcases List.mem_append.1 hm with hstored | hm
      · obtain ⟨hold, huntouched, source', p', hp', hkey, hof', hbytes⟩ := h.stored key n hstored
        refine ⟨hold, huntouched, source', p', hp', hkey, hof', ?_⟩
        have hne : n ≠ name' := by
          rintro rfl
          exact hfree (h.mem_names_of_media (List.mem_map_of_mem hstored))
        rw [Package.get?_set_of_ne _ _ _ hne]
        exact hbytes
      · obtain ⟨rfl, rfl⟩ := Prod.mk.inj (List.mem_singleton.1 hm)
        refine ⟨fun hm => hfree (h.mem_names hm), fun ht => hfree (h.present _ ht), source, p, hp,
          rfl, hof, ?_⟩
        rw [Package.get?_set, if_pos rfl]
    case distinct =>
      rw [List.map_append, List.nodup_append]
      refine ⟨h.distinct, List.pairwise_singleton _ name', ?_⟩
      rintro n hn _ hm rfl
      obtain rfl := List.mem_singleton.1 hm
      exact hfree (h.mem_names_of_media hn)
    case defaults =>
      intro extension hext
      have hold := h.defaults extension hext
      dsimp only
      split
      · exact (hasDefault_setDefault _ _ _ _).2 (Or.inr hold)
      · exact hold
    case declared =>
      intro hd
      rw [Bool.or_eq_true, Bool.not_eq_true'] at hd
      rcases hd with hd | hd
      · exact h.declared hd
      · refine ⟨source, p, hp, Bool.not_eq_true _ ▸ fun hext => ?_⟩
        rw [h.defaults _ hext] at hd
        cases hd

theorem rendering_relate (e : Embedding) (source name : PartName) (key : String) :
    (e.relate source name key).2.rendering = e.rendering := by
  rw [Embedding.relate]
  cases Assoc.get? key e.shown <;> rfl

/-- The drawing for a picture. -/
def drawingOf (options : Options) (p : Placement) (name : PartName) (relationshipId : String)
    (drawingId : Nat) : Drawing where
  relationshipId
  drawingId
  name := String.ofList name.filename
  extent := Image.Extent.ofImage p.image options

/-- Putting a picture in stores and relates it, and puts its drawing in place of its marker. -/
theorem place_eq_ok {options : Options} {source : PartName} {e e' : Embedding} {p : Placement}
    (h : Embedding.place options source e p = .ok e') :
    ∃ name rendering, e.rendering.store source p.key p.image = .ok (name, rendering) ∧
      e' = { (({ e with rendering } : Embedding).relate source name p.key).2 with
        drawingIds := e.drawingIds.next.2
        text := Embedding.splice p.marker (drawingOf options p name
          (({ e with rendering } : Embedding).relate source name p.key).1
          e.drawingIds.next.1).text e.text } := by
  obtain ⟨⟨name, rendering⟩, hstore, hrest⟩ := bind_eq_ok h
  refine ⟨name, rendering, hstore, ?_⟩
  cases hshown : Assoc.get? p.key e.shown <;>
  · simp only [Embedding.relate, hshown] at hrest ⊢
    exact (Except.ok.inj hrest).symm

theorem Sound.place {options : Options} {source : PartName} {e e' : Embedding} {p : Placement}
    (h : Sound package types touched placed e.rendering) (hp : placed source p)
    (hplace : Embedding.place options source e p = .ok e') :
    Sound package types touched placed e'.rendering := by
  obtain ⟨name, rendering, hstore, rfl⟩ := place_eq_ok hplace
  dsimp only
  rw [rendering_relate]
  exact h.store hp hstore

theorem Sound.placeAll {options : Options} {source : PartName} {e e' : Embedding}
    {ps : List Placement} (h : Sound package types touched placed e.rendering)
    (hps : ∀ p ∈ ps, placed source p)
    (hplace : ps.foldlM (Embedding.place options source) e = .ok e') :
    Sound package types touched placed e'.rendering := by
  have hstep : ∀ e e', ∀ p ∈ ps, Sound package types touched placed e.rendering →
      Embedding.place options source e p = .ok e' →
      Sound package types touched placed e'.rendering :=
    fun e e' p hp hsound => hsound.place (hps p hp)
  exact foldlM_invariant hstep h hplace

/-- A part before its pictures are put in. -/
def embedding (r : Rendering) (rs : Relationships) (text : List Char) : Embedding where
  rendering := r
  relationships := rs
  relationshipIds := RelationshipIds.above rs
  drawingIds := Markup.DrawingIds.above text
  text := text

theorem embed_eq_ok {options : Options} {source : PartName} {text text' : List Char}
    {ps : List Placement} {r' : Rendering} (h : r.embed options source text ps = .ok (text', r')) :
    ∃ rs done, r.package.relationships source = .ok rs ∧
      ps.foldlM (Embedding.place options source) (r.embedding rs text) = .ok done ∧
      text' = done.text ∧
      r' = { done.rendering with
        package := done.rendering.package.setRelationships source done.relationships } := by
  obtain ⟨rs, hrs, h⟩ := bind_eq_ok h
  obtain ⟨done, hdone, h⟩ := bind_eq_ok h
  obtain ⟨rfl, rfl⟩ := Prod.mk.inj (Except.ok.inj h)
  exact ⟨rs, done, hrs, hdone, rfl, rfl⟩

/-- Names of tags are keys of all pictures that are placed. -/
def Named (placed : PartName → Placement → Prop) : Prop :=
  ∀ source p, placed source p → isIdentifier p.key.toList = true

theorem Sound.isMedia (h : Sound package types touched placed r) (hnamed : Named placed)
    {name : PartName} (hname : name ∈ r.media.map Prod.snd) : name.IsMedia := by
  obtain ⟨⟨key, n⟩, hm, rfl⟩ := List.mem_map.1 hname
  obtain ⟨-, -, source, p, hp, -, hof, -⟩ := h.stored key n hm
  exact hof.isMedia (hnamed source p hp)

/-- Putting pictures into a part touches the listing of its relationships. -/
theorem Sound.embed {options : Options} {source : PartName} {text text' : List Char}
    {ps : List Placement} {r' : Rendering} (h : Sound package types touched placed r)
    (hnamed : Named placed) (hps : ∀ p ∈ ps, placed source p)
    (hembed : r.embed options source text ps = .ok (text', r')) :
    Sound package types (fun n => touched n ∨ n = source.relationshipsPart) placed r' := by
  obtain ⟨rs, done, -, hdone, -, rfl⟩ := embed_eq_ok hembed
  have hsound : Sound package types touched placed done.rendering :=
    placeAll (e := r.embedding rs text) h hps hdone
  exact hsound.touch (fun hm => (hsound.isMedia hnamed hm).ne_relationshipsPart source rfl) _

end Rendering

/-! ### Rendering part by part -/

/-- What comes of a part is put in its place, with drawings for its pictures. -/
inductive RendersPart (options : Options) (data : DataTree) (r : Rendering) (name : PartName)
    (e : Expansion) : Rendering → Prop
  | plain {bytes : List UInt8} {source : List Char} (hbytes : r.package.get? name = some bytes)
      (hsource : Text.decode bytes = .ok source)
      (he : expand data options (Markup.gatherPart options.window source) = e)
      (himages : e.images = []) :
      RendersPart options data r name e
        { r with package := r.package.set name (Text.encode e.text) }
  | pictures {bytes : List UInt8} {source text : List Char} {r' : Rendering}
      (hbytes : r.package.get? name = some bytes) (hsource : Text.decode bytes = .ok source)
      (he : expand data options (Markup.gatherPart options.window source) = e)
      (himages : e.images ≠ []) (hembed : r.embed options name e.text e.images = .ok (text, r')) :
      RendersPart options data r name e
        { r' with package := r'.package.set name (Text.encode text) }

/-- Parts are rendered one after the other; for each, what came of it. -/
inductive Renders (options : Options) (data : DataTree) :
    Rendering → List (PartName × Expansion) → Rendering → Prop
  | nil (r : Rendering) : Renders options data r [] r
  | cons {r r' r'' : Rendering} {name : PartName} {e : Expansion}
      {log : List (PartName × Expansion)} (hpart : RendersPart options data r name e r')
      (hrest : Renders options data r' log r'') : Renders options data r ((name, e) :: log) r''

section Running

variable {options : Options} {data : DataTree} {r r' : Rendering} {report report' : Report}

theorem renderPart_eq_ok {name : PartName}
    (h : Document.renderPart options data r report name = .ok (r', report')) :
    ∃ e, RendersPart options data r name e r' ∧ report'.parts = report.parts ++ [name] := by
  obtain ⟨bytes, hbytes, h⟩ := bind_eq_ok h
  obtain ⟨source, hsource, h⟩ := bind_eq_ok h
  have hbytes := Package.get?_of_require (mapError_eq_ok hbytes)
  have hsource := mapError_eq_ok hsource
  refine ⟨expand data options (Markup.gatherPart options.window source), ?_⟩
  dsimp only at h
  split at h
  · next himages =>
    obtain ⟨rfl, rfl⟩ := Prod.mk.inj (Except.ok.inj h)
    exact ⟨.plain hbytes hsource rfl (List.isEmpty_iff.1 himages), rfl⟩
  · next himages =>
    obtain ⟨⟨text, r₁⟩, hembed, h⟩ := bind_eq_ok h
    obtain ⟨rfl, rfl⟩ := Prod.mk.inj (Except.ok.inj h)
    rw [List.isEmpty_iff] at himages
    exact ⟨.pictures hbytes hsource rfl himages (mapError_eq_ok hembed), rfl⟩

theorem renderParts_eq_ok {names : List PartName}
    (h : Document.renderParts options data r report names = .ok (r', report')) :
    ∃ log, Renders options data r log r' ∧ log.map Prod.fst = names ∧
      report'.parts = report.parts ++ names := by
  induction names generalizing r report with
  | nil =>
    cases h
    exact ⟨[], .nil _, rfl, (List.append_nil _).symm⟩
  | cons name names ih =>
    obtain ⟨⟨r₁, report₁⟩, hpart, h⟩ := bind_eq_ok h
    obtain ⟨e, hpart, hparts⟩ := renderPart_eq_ok hpart
    obtain ⟨log, hlog, rfl, hrest⟩ := ih h
    refine ⟨(name, e) :: log, .cons hpart hlog, rfl, ?_⟩
    rw [hrest, hparts, List.append_assoc]
    rfl

/-- The parts that have been touched: those rendered, and the listings of relationships of those
that show pictures. -/
def Touched (log : List (PartName × Expansion)) (name : PartName) : Prop :=
  ∃ entry ∈ log, name = entry.1 ∨ (entry.2.images ≠ [] ∧ name = entry.1.relationshipsPart)

/-- The pictures that have been placed in a part. -/
def Placed (log : List (PartName × Expansion)) (source : PartName) (p : Placement) : Prop :=
  ∃ e, (source, e) ∈ log ∧ p ∈ e.images

theorem touched_append {log : List (PartName × Expansion)} {name n : PartName} {e : Expansion} :
    Touched (log ++ [(name, e)]) n ↔
      Touched log n ∨ n = name ∨ (e.images ≠ [] ∧ n = name.relationshipsPart) := by
  simp [Touched, or_and_right, exists_or]

theorem RendersPart.isFrom {name : PartName} {e : Expansion}
    (h : RendersPart options data r name e r') : ∀ p ∈ e.images, p.IsFrom data := by
  intro p hp
  cases h with
  | plain _ _ _ himages => simp [himages] at hp
  | pictures _ _ he =>
    subst he
    exact isFrom_of_mem_expand hp

variable {package : Package} {types : ContentTypes} {log log' : List (PartName × Expansion)}

theorem placed_append_of_placed {name source : PartName} {e : Expansion} {p : Placement}
    (h : Placed log source p) : Placed (log ++ [(name, e)]) source p := by
  obtain ⟨e', he', hp⟩ := h
  exact ⟨e', List.mem_append_left _ he', hp⟩

/-- Pictures come from the data. -/
theorem Renders.isFrom (h : Renders options data r log r') :
    ∀ source p, Placed log source p → p.IsFrom data := by
  induction h with
  | nil =>
    rintro source p ⟨e, he, -⟩
    cases he
  | cons hpart _ ih =>
    rintro source p ⟨e, he, hp⟩
    rcases List.mem_cons.1 he with he | he
    · cases he
      exact hpart.isFrom p hp
    · exact ih source p ⟨e, he, hp⟩

/-- The pictures that have been placed, in order. -/
def placedIn (log : List (PartName × Expansion)) : List Placement :=
  log.flatMap fun entry => entry.2.images

theorem mem_placedIn {source : PartName} {p : Placement} (h : Placed log source p) :
    p ∈ placedIn log := by
  obtain ⟨e, he, hp⟩ := h
  exact List.mem_flatMap.2 ⟨(source, e), he, hp⟩

/-- What the steps of a rendering preserve, of the pictures that have been placed so far: setting a
part, and storing a picture that comes from the data. -/
structure Rendering.Preserved (data : DataTree) (Inv : List Placement → Rendering → Prop) :
    Prop where
  set : ∀ ps r name bytes, Inv ps r → Inv ps { r with package := r.package.set name bytes }
  store : ∀ ps r source p name r', p.IsFrom data → Inv ps r →
    r.store source p.key p.image = .ok (name, r') → Inv (ps ++ [p]) r'

variable {Inv : List Placement → Rendering → Prop}

theorem Rendering.Preserved.placeAll (hinv : Preserved data Inv) {source : PartName}
    {e e' : Embedding} {placed ps : List Placement} (hps : ∀ p ∈ ps, p.IsFrom data)
    (h : ps.foldlM (Embedding.place options source) e = .ok e') (he : Inv placed e.rendering) :
    Inv (placed ++ ps) e'.rendering := by
  induction ps generalizing e placed with
  | nil =>
    cases h
    rwa [List.append_nil]
  | cons p ps ih =>
    rw [List.forall_mem_cons] at hps
    obtain ⟨e₁, hplace, hrest⟩ := bind_eq_ok h
    obtain ⟨name, rendering, hstore, rfl⟩ := place_eq_ok hplace
    rw [List.append_cons]
    refine ih hps.2 hrest ?_
    dsimp only
    rw [rendering_relate]
    exact hinv.store _ _ source p name rendering hps.1 he hstore

theorem Rendering.Preserved.rendersPart (hinv : Preserved data Inv) {name : PartName}
    {e : Expansion} (h : RendersPart options data r name e r') {placed : List Placement}
    (hr : Inv placed r) : Inv (placed ++ e.images) r' := by
  have hfrom := h.isFrom
  cases h with
  | plain _ _ _ himages =>
    rw [himages, List.append_nil]
    exact hinv.set _ _ _ _ hr
  | pictures _ _ _ _ hembed =>
    obtain ⟨rs, done, -, hdone, -, rfl⟩ := embed_eq_ok hembed
    have hplaced := hinv.placeAll (e := r.embedding rs e.text) hfrom hdone hr
    exact hinv.set _ _ _ _ (hinv.set _ _ _ _ hplaced)

/-- What the steps preserve holds at the end of a run. -/
theorem Rendering.Preserved.renders (hinv : Preserved data Inv)
    (h : Renders options data r log r') (placed : List Placement) (hr : Inv placed r) :
    Inv (placed ++ placedIn log) r' := by
  induction h generalizing placed with
  | nil => rwa [placedIn, List.flatMap_nil, List.append_nil]
  | cons hpart _ ih =>
    rw [placedIn, List.flatMap_cons, ← List.append_assoc]
    exact ih _ (hinv.rendersPart hpart hr)

theorem RendersPart.named {name : PartName} {e : Expansion}
    (h : RendersPart options data r name e r') (hnamed : Rendering.Named (Placed log)) :
    Rendering.Named (Placed (log ++ [(name, e)])) := by
  rintro source p ⟨e', he', hp⟩
  rcases List.mem_append.1 he' with he' | he'
  · exact hnamed source p ⟨e', he', hp⟩
  · obtain ⟨rfl, rfl⟩ := Prod.mk.inj (List.mem_singleton.1 he')
    exact (h.isFrom p hp).named

theorem RendersPart.sound {name : PartName} {e : Expansion}
    (h : RendersPart options data r name e r')
    (hsound : r.Sound package types (Touched log) (Placed log))
    (hnamed : Rendering.Named (Placed log)) (hname : name ∈ package.names) :
    r'.Sound package types (Touched (log ++ [(name, e)])) (Placed (log ++ [(name, e)])) := by
  have hnamed := h.named hnamed
  have hplaced : r.Sound package types (Touched log) (Placed (log ++ [(name, e)])) :=
    hsound.mono fun _ _ => placed_append_of_placed
  cases h with
  | plain _ _ _ himages =>
    refine (hplaced.touch (hplaced.notMem_media hname) _).of_iff fun n => ?_
    rw [touched_append]
    simp [himages]
  | @pictures _ _ text r₁ _ _ _ himages hembed =>
    have hembedded := hplaced.embed hnamed
      (fun p hp => ⟨e, List.mem_append_right _ List.mem_cons_self, hp⟩) hembed
    refine (hembedded.touch (hembedded.notMem_media hname) _).of_iff fun n => ?_
    rw [touched_append, or_assoc, or_comm (a := n = name)]
    simp [himages]

/-- What has been done is known after every step. -/
theorem Renders.sound (h : Renders options data r log' r')
    (hsound : r.Sound package types (Touched log) (Placed log))
    (hnamed : Rendering.Named (Placed log)) (hnames : ∀ entry ∈ log', entry.1 ∈ package.names) :
    r'.Sound package types (Touched (log ++ log')) (Placed (log ++ log')) := by
  induction h generalizing log with
  | nil => rwa [List.append_nil]
  | cons hpart _ ih =>
    rw [List.forall_mem_cons] at hnames
    rw [List.append_cons]
    exact ih (hpart.sound hsound hnamed hnames.1) (hpart.named hnamed) hnames.2

end Running

/-! ### Rendering a document -/

/-- The package in the end: content types that have been declared are listed. -/
def Rendering.finished (r : Rendering) : Package :=
  if r.declared then r.package.setContentTypes r.types else r.package

namespace Document

/-- The parts in the package that a part refers to as headers and then as footers. -/
def linked (document : Document) (rs : Relationships) : List PartName :=
  (((rs.ofType Relationship.header ++ rs.ofType Relationship.footer).filter (!·.isExternal)).map
    fun r => PartName.resolve rs.folder r.target.toList).filter document.package.contains

/-- What rendering does to a package: names that were there keep their places, and only the parts
that are its own lose their bytes. New are the parts for pictures, with their bytes, and listings of
relationships. -/
structure Leaves (package : Package) (types : ContentTypes) (log : List (PartName × Expansion))
    (after : Package) : Prop where
  names : ∃ added, after.names = package.names ++ added ∧ ∀ name ∈ added,
    (∃ source e, (source, e) ∈ log ∧ e.images ≠ [] ∧ name = source.relationshipsPart) ∨
      ∃ source p, Placed log source p ∧ IsMediaOf source p name ∧
        after.get? name = some p.image.bytes
  kept : ∀ name ∈ package.names, (∀ e, (name, e) ∉ log) →
    (∀ source e, (source, e) ∈ log → e.images ≠ [] → name ≠ source.relationshipsPart) →
    (name = .contentTypes →
      ∀ source p, Placed log source p → types.hasDefault p.image.extension = true) →
    after.get? name = package.get? name

/-- What is so when rendering succeeds: the main document is rendered, and then, if that is chosen,
its headers and footers, each part once; the package that comes of it is what the last step leaves.
-/
structure Rendered (document : Document) (data : DataTree) (report : Report) (after : Document) :
    Prop where
  options : after.options = document.options
  parts : document.parts = .ok report.parts
  distinct : report.parts.Nodup
  order : ∃ main, document.package.mainDocument = .ok main ∧
    if document.options.includeHeadersFooters then
      ∃ rs, document.package.relationships main = .ok rs ∧
        report.parts = (main :: document.linked rs).eraseDups
    else report.parts = [main]
  steps : ∃ types log final, document.package.contentTypes = .ok types ∧
    Renders document.options data { package := document.package, types } log final ∧
      log.map Prod.fst = report.parts ∧ after.package = final.finished ∧
      Leaves document.package types log after.package

variable {document : Document} {data : DataTree}

theorem distinct_eq (names : List PartName) : distinct names = names.eraseDups := by
  rw [distinct]
  induction names using List.reverseRecOn with
  | nil => rfl
  | append_singleton names name ih =>
    rw [List.foldl_append, ih, List.eraseDups_append]
    by_cases h : name ∈ names <;> simp [h, List.removeAll, List.mem_eraseDups, List.eraseDups_cons]

theorem nodup_distinct (names : List PartName) : (distinct names).Nodup := by
  rw [distinct]
  induction names using List.reverseRecOn with
  | nil => exact List.nodup_nil
  | append_singleton names name ih =>
    rw [List.foldl_append, List.foldl_cons, List.foldl_nil]
    split
    · exact ih
    · next h =>
      refine List.nodup_append.2 ⟨ih, List.pairwise_singleton _ name, ?_⟩
      rintro n hn _ hm rfl
      exact h (List.mem_singleton.1 hm ▸ hn)

theorem run_update (document : Document) (data : DataTree) :
    (update data).run.run document =
      (MonadExcept.ofExcept (document.render data) >>= fun found =>
        set found.2 >>= fun _ => pure found.1
          : ExceptT RenderError (StateM Document) Report).run.run document :=
  rfl

theorem update_of_error {e : RenderError} (h : document.render data = .error e) :
    (update data).run.run document = (.error e, document) := by
  rw [run_update, h]
  rfl

theorem update_of_ok {report : Report} {after : Document}
    (h : document.render data = .ok (report, after)) :
    (update data).run.run document = (.ok report, after) := by
  rw [run_update, h]
  rfl

theorem linked_eq (document : Document) (rs : Relationships) :
    document.linked rs
      = ((rs.ofType Relationship.header ++ rs.ofType Relationship.footer).filterMap
          fun r => (r.part rs.folder).toOption).filter document.package.contains := by
  rw [linked]
  congr 1
  generalize rs.ofType Relationship.header ++ rs.ofType Relationship.footer = entries
  induction entries with
  | nil => rfl
  | cons r entries ih =>
    cases hr : r.isExternal <;>
      simp [Relationship.part, hr, Except.toOption, ih]

theorem mem_names_of_mainDocument {package : Package} {main : PartName}
    (h : package.mainDocument = .ok main) : main ∈ package.names := by
  have hcontains : package.contains main = true := by
    obtain ⟨rs, -, h⟩ := bind_eq_ok h
    split at h
    · obtain ⟨name, -, h⟩ := bind_eq_ok h
      split at h
      · next hname =>
        cases h
        exact hname
      · cases h
    · split at h
      · next hname =>
        cases h
        exact hname
      · cases h
  exact Package.mem_names_iff.2 hcontains

/-- The parts that are expanded, and that they are there. -/
theorem partsFor_eq_ok {types : ContentTypes} {names : List PartName}
    (h : document.partsFor types = .ok names) :
    names.Nodup ∧ (∀ name ∈ names, name ∈ document.package.names) ∧
      ∃ main, document.package.mainDocument = .ok main ∧
        if document.options.includeHeadersFooters then
          ∃ rs, document.package.relationships main = .ok rs ∧
            names = (main :: document.linked rs).eraseDups
        else names = [main] := by
  obtain ⟨main, hmain, h⟩ := bind_eq_ok h
  have hmain := mapError_eq_ok hmain
  have hmem := mem_names_of_mainDocument hmain
  have hchosen : (if (!document.options.includeHeadersFooters) = true then .ok [main]
      else do
        let rs ← (document.package.relationships main).mapError .package
        .ok (distinct (main :: document.linked rs)) : Except RenderError _) = .ok names := by
    simp only [linked_eq]
    dsimp only at h
    cases htype : types.override? main with
    | none =>
      rw [htype] at h
      exact h
    | some found =>
      rw [htype] at h
      dsimp only at h
      by_cases hfound : found ∈ mainTypes
      · rw [if_neg (not_not_intro hfound)] at h
        exact h
      · rw [if_pos hfound] at h
        obtain ⟨_, hthrow, -⟩ := bind_eq_ok h
        cases hthrow
  split at hchosen
  · next halone =>
    cases hchosen
    refine ⟨List.pairwise_singleton _ main, by simpa using hmem, main, hmain, ?_⟩
    rw [if_neg (by simpa using halone)]
  · next hall =>
    obtain ⟨rs, hrs, hnames⟩ := bind_eq_ok hchosen
    obtain rfl := Except.ok.inj hnames
    refine ⟨nodup_distinct _, fun name hname => ?_, main, hmain, ?_⟩
    · rw [distinct_eq, List.mem_eraseDups, List.mem_cons] at hname
      rcases hname with rfl | hname
      · exact hmem
      · exact Package.mem_names_iff.2 (List.mem_filter.1 hname).2
    · rw [if_pos (by simpa using hall)]
      exact ⟨rs, mapError_eq_ok hrs, distinct_eq _⟩

theorem mem_names_of_contentTypes {package : Package} {types : ContentTypes}
    (h : package.contentTypes = .ok types) : .contentTypes ∈ package.names := by
  obtain ⟨bytes, hbytes, -⟩ := bind_eq_ok h
  rw [Package.mem_names_iff, Package.get?_of_require hbytes]
  rfl

/-- What rendering leaves when the content types are listed again at the end. -/
theorem leaves_of_sound {package : Package} {types : ContentTypes}
    {log : List (PartName × Expansion)} {final : Rendering}
    (h : final.Sound package types (Touched log) (Placed log))
    (hin : ∀ entry ∈ log, entry.1 ∈ package.names) (htypes : .contentTypes ∈ package.names) :
    Leaves package types log final.finished := by
  have hget : ∀ name, (name = .contentTypes → final.declared = false) →
      final.finished.get? name = final.package.get? name := by
    intro name hname
    rw [Rendering.finished]
    split
    · next hdeclared =>
      exact Package.get?_set_of_ne _ _ _ fun he => by simp [hdeclared] at hname; exact hname he
    · rfl
  have hnames : final.finished.names = final.package.names := by
    rw [Rendering.finished]
    split
    · exact (Package.names_set _ _ _).trans (if_pos (h.mem_names htypes))
    · rfl
  constructor
  case names =>
    obtain ⟨added, hadded, hwhy⟩ := h.names
    refine ⟨added, hnames.trans hadded, fun name hname => ?_⟩
    obtain ⟨hold, ⟨entry, he, hentry⟩ | hm⟩ := hwhy name hname
    · rcases hentry with rfl | ⟨himages, rfl⟩
      · exact absurd (hin entry he) hold
      · exact Or.inl ⟨entry.1, entry.2, he, himages, rfl⟩
    · obtain ⟨⟨key, n⟩, hstored, rfl⟩ := List.mem_map.1 hm
      obtain ⟨-, -, source, p, hp, -, hof, hbytes⟩ := h.stored key n hstored
      refine Or.inr ⟨source, p, hp, hof, (hget n fun he => ?_).trans hbytes⟩
      exact absurd (he ▸ htypes) hold
  case kept =>
    intro name hname hplain hlisting hdefaults
    rw [hget name]
    · refine h.kept name ?_ (h.notMem_media hname)
      rintro ⟨⟨source, e⟩, he, rfl | ⟨himages, rfl⟩⟩
      · exact hplain e he
      · exact hlisting source e he himages rfl
    · intro he
      rw [← Bool.not_eq_true]
      intro hdeclared
      obtain ⟨source, p, hp, hext⟩ := h.declared hdeclared
      rw [hdefaults he source p hp] at hext
      cases hext

theorem sound_start (package : Package) (types : ContentTypes) :
    Rendering.Sound package types (Touched []) (Placed []) { package, types } :=
  ((Rendering.Sound.start package types).of_iff (by simp [Touched])).mono (by simp)

theorem named_nil : Rendering.Named (Placed []) := by
  simp [Rendering.Named, Placed]

/-- The steps of a rendering that succeeds. -/
theorem render_run {report : Report} {after : Document}
    (h : document.render data = .ok (report, after)) :
    ∃ types log final, document.package.contentTypes = .ok types ∧
      document.partsFor types = .ok report.parts ∧
      Renders document.options data { package := document.package, types } log final ∧
      log.map Prod.fst = report.parts ∧ after = { document with package := final.finished } := by
  obtain ⟨types, htypes, h⟩ := bind_eq_ok h
  obtain ⟨names, hnames, h⟩ := bind_eq_ok h
  obtain ⟨⟨final, report'⟩, hparts, h⟩ := bind_eq_ok h
  obtain ⟨rfl, rfl⟩ := Prod.mk.inj (Except.ok.inj h)
  obtain ⟨log, hlog, hfst, hreport⟩ := renderParts_eq_ok hparts
  have hreport : report'.parts = names := hreport
  subst hreport
  exact ⟨types, log, final, mapError_eq_ok htypes, hnames, hlog, hfst, rfl⟩

/-- The steps of a rendering that succeeds, and what has been done at their end. -/
theorem render_sound {report : Report} {after : Document}
    (h : document.render data = .ok (report, after)) :
    ∃ types log final, document.package.contentTypes = .ok types ∧
      document.partsFor types = .ok report.parts ∧
      Renders document.options data { package := document.package, types } log final ∧
      (∀ entry ∈ log, entry.1 ∈ report.parts) ∧ log.map Prod.fst = report.parts ∧
      final.Sound document.package types (Touched log) (Placed log) ∧
      Leaves document.package types log final.finished ∧
      after = { document with package := final.finished } := by
  obtain ⟨types, log, final, htypes, hnames, hlog, hfst, hafter⟩ := render_run h
  have hparts : ∀ entry ∈ log, entry.1 ∈ report.parts := fun entry he =>
    hfst ▸ List.mem_map_of_mem he
  have hin : ∀ entry ∈ log, entry.1 ∈ document.package.names := fun entry he =>
    (partsFor_eq_ok hnames).2.1 _ (hparts entry he)
  have hsound := hlog.sound (sound_start _ _) named_nil hin
  rw [List.nil_append] at hsound
  exact ⟨types, log, final, htypes, hnames, hlog, hparts, hfst, hsound,
    leaves_of_sound hsound hin (mem_names_of_contentTypes htypes), hafter⟩

/-- Rendering succeeds for all parts, or leaves the document alone. -/
theorem render_eq_ok {report : Report} {after : Document}
    (h : document.render data = .ok (report, after)) :
    document.Rendered data report after := by
  obtain ⟨types, log, final, htypes, hnames, hlog, -, hfst, -, hleaves, rfl⟩ := render_sound h
  obtain ⟨hdistinct, -, horder⟩ := partsFor_eq_ok hnames
  refine ⟨rfl, ?_, hdistinct, horder, types, log, final, htypes, hlog, hfst, rfl, hleaves⟩
  rw [parts, htypes]
  exact hnames

/-- **Rendering in place is all or nothing, and touches its own parts only.** -/
theorem update_spec (document : Document) (data : DataTree) :
    match (update data).run.run document with
    | (.error _, after) => after = document
    | (.ok report, after) => document.Rendered data report after := by
  cases h : document.render data with
  | error e => rw [update_of_error h]
  | ok found =>
    rw [update_of_ok h]
    exact render_eq_ok h

end Document

end MailMerge
