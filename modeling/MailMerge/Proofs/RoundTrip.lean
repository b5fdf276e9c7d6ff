import Mathlib.Data.List.Nodup
import MailMerge.Package.ContentType
import MailMerge.Proofs.Listings

/-!
# Listings that are read again

A listing that is written is read as what it lists: relationships whatever their ids, types and
targets are, external ones as such (`Relationships.reread_entries`), and content types
(`ContentTypes.Declared.reread_declarations`).

Reading content types declares them anew, one by one. A default for an extension that has one would
take its place, so the listing says the same again only because content types are **tidy**:
extensions are in lower case, and no key stands twice. Whatever content types come about, from
nothing or from a listing, by declaring more, they are.
-/

namespace MailMerge

/-! ### Relationships -/

namespace Relationships

/-- **Relationships are read back as they were listed**, in order. So listing again what has been
read changes nothing. -/
theorem reread_entries (folder : List Char) :
    (∀ rs : Relationships, ofXml folder (Text.encode rs.toXml) = .ok { rs with folder }) ∧
      ∀ bytes rs, ofXml folder bytes = .ok rs →
        ofXml folder (Text.encode rs.toXml) = .ok rs := by
  refine ⟨ofXml_toXml folder, fun bytes rs h => ?_⟩
  have hfolder : rs.folder = folder := by
    rw [ofXml] at h
    split at h
    · rw [← Except.ok.inj h]
    · cases h
  rw [ofXml_toXml, ← hfolder]

/-- A listing that is spelled unlike the one that is written, with a prefix and single quotes. -/
theorem reread_entries_spelled :
    let bytes :=
      "<r:Relationship Target='a\"b' TargetMode='External' Id='&#114;1' Type='t\nu'/>".toUTF8.toList
    let rs : Relationships := ⟨['/'], [⟨"r1", "t\nu", "a\"b", true⟩]⟩
    ofXml ['/'] bytes = .ok rs ∧ ofXml ['/'] (Text.encode rs.toXml) = .ok rs := by
  intro bytes rs
  have h : ofXml ['/'] bytes = .ok rs := by decide +kernel
  exact ⟨h, (reread_entries ['/']).2 bytes rs h⟩

end Relationships

/-! ### Tidy content types -/

theorem Assoc.set_of_notMem {κ α : Type} [DecidableEq κ] {key : κ} (value : α)
    {entries : List (κ × α)} (h : key ∉ entries.map Prod.fst) :
    Assoc.set key value entries = entries ++ [(key, value)] := by
  induction entries with
  | nil => rfl
  | cons entry entries ih =>
    rw [List.map_cons, List.mem_cons, not_or] at h
    rw [Assoc.set, if_neg (Ne.symm h.1), ih h.2, List.cons_append]

/-- Entries that are set one by one come behind those that were there, under the keys that they
have. -/
theorem Assoc.foldl_set {κ α : Type} [DecidableEq κ] {f : κ → κ} {entries before : List (κ × α)}
    (hkeys : ∀ entry ∈ entries, f entry.1 = entry.1)
    (hnew : ((before ++ entries).map Prod.fst).Nodup) :
    entries.foldl (fun es entry => Assoc.set (f entry.1) entry.2 es) before
      = before ++ entries := by
  induction entries generalizing before with
  | nil => rw [List.foldl_nil, List.append_nil]
  | cons entry entries ih =>
    rw [List.forall_mem_cons] at hkeys
    have hset : Assoc.set (f entry.1) entry.2 before = before ++ [entry] := by
      rw [List.map_append, List.nodup_append] at hnew
      have hkey : entry.1 ∉ before.map Prod.fst := fun hm =>
        hnew.2.2 _ hm _ (List.mem_map_of_mem List.mem_cons_self) rfl
      rw [hkeys.1, Assoc.set_of_notMem _ hkey]
    rw [List.append_cons] at hnew
    rw [List.foldl_cons, hset, ih hkeys.2 hnew, List.append_assoc, List.singleton_append]

theorem Assoc.nodup_set {κ α : Type} [DecidableEq κ] (key : κ) (value : α)
    {entries : List (κ × α)} (h : (entries.map Prod.fst).Nodup) :
    ((Assoc.set key value entries).map Prod.fst).Nodup := by
  rw [Assoc.keys_set]
  split
  · exact h
  · next hnew => exact List.nodup_append_comm.1 (List.nodup_cons.2 ⟨hnew, h⟩)

namespace ContentTypes

/-- Content types as they come about: from nothing or from a listing, by declaring more. -/
inductive Declared : ContentTypes → Prop
  | empty : Declared {}
  | read {bytes : List UInt8} {types : ContentTypes} (h : ofXml bytes = .ok types) : Declared types
  | setDefault {types : ContentTypes} (h : Declared types) (extension type : String) :
    Declared (types.setDefault extension type)
  | setOverride {types : ContentTypes} (h : Declared types) (part type : String) :
    Declared (types.setOverride part type)

/-- Extensions are in lower case, and keys stand once. -/
structure Tidy (types : ContentTypes) : Prop where
  lower : ∀ extension ∈ types.defaults.map Prod.fst, ContentTypes.lower extension = extension
  defaults : (types.defaults.map Prod.fst).Nodup
  overrides : (types.overrides.map Prod.fst).Nodup

variable {types : ContentTypes}

theorem lower_lower (extension : String) : lower (lower extension) = lower extension := by
  have hchar : ∀ c : Char, c.toLower.toLower = c.toLower := by
    intro c
    delta Char.toLower
    grind
  simp [lower, Function.comp_def, hchar]

theorem tidy_empty : Tidy {} :=
  ⟨nofun, List.nodup_nil, List.nodup_nil⟩

theorem Tidy.setDefault (h : types.Tidy) (extension type : String) :
    (types.setDefault extension type).Tidy where
  lower := by
    rw [ContentTypes.setDefault, Assoc.keys_set]
    split
    · exact h.lower
    · rw [List.forall_mem_append, List.forall_mem_singleton]
      exact ⟨h.lower, lower_lower extension⟩
  defaults := Assoc.nodup_set _ _ h.defaults
  overrides := h.overrides

theorem Tidy.setOverride (h : types.Tidy) (part type : String) :
    (types.setOverride part type).Tidy where
  lower := h.lower
  defaults := h.defaults
  overrides := Assoc.nodup_set _ _ h.overrides

theorem Tidy.declare (h : types.Tidy) (e : Xml.Element) : (types.declare e).Tidy := by
  rw [ContentTypes.declare]
  split
  · split
    · exact h.setDefault _ _
    · exact h.setOverride _ _
  · exact h

theorem tidy_of_ofXml {bytes : List UInt8} (h : ofXml bytes = .ok types) : types.Tidy := by
  rw [ofXml] at h
  split at h
  · next elements _ =>
    rw [← Except.ok.inj h]
    exact List.foldlRecOn elements ContentTypes.declare tidy_empty fun types ht e _ => ht.declare e
  · cases h

theorem Declared.tidy (h : types.Declared) : types.Tidy := by
  induction h with
  | empty => exact tidy_empty
  | read h => exact tidy_of_ofXml h
  | setDefault _ extension type ih => exact ih.setDefault extension type
  | setOverride _ part type ih => exact ih.setOverride part type

/-! ### Content types -/

/-- The element that declares a default. -/
def defaultElement (entry : String × String) : Xml.Element where
  name := "Default"
  fields := [("Extension", entry.1), ("ContentType", entry.2)]

/-- The element that declares an override. -/
def overrideElement (entry : String × String) : Xml.Element where
  name := "Override"
  fields := [("PartName", entry.1), ("ContentType", entry.2)]

theorem isWanted_of_found {name key : String} (hname : Xml.IsName name) (hkey : Xml.IsName key)
    (hne : key ≠ "ContentType")
    (hfound : wanted.find? (·.1 == name) = some (name, [key, "ContentType"]))
    (entry : String × String) :
    Xml.Element.IsWanted wanted ⟨name, [(key, entry.1), ("ContentType", entry.2)]⟩ where
  name := hname
  names := by
    rw [List.forall_mem_cons, List.forall_mem_singleton]
    exact ⟨hkey, (by decide : Xml.IsName "ContentType")⟩
  distinct := List.nodup_cons.2 ⟨fun hm => hne (List.mem_singleton.1 hm), List.nodup_singleton _⟩
  found := ⟨[key, "ContentType"], hfound, by simp⟩

theorem isWanted_defaultElement (entry : String × String) :
    (defaultElement entry).IsWanted wanted :=
  isWanted_of_found (by decide) (by decide) (by decide) rfl entry

theorem isWanted_overrideElement (entry : String × String) :
    (overrideElement entry).IsWanted wanted :=
  isWanted_of_found (by decide) (by decide) (by decide) rfl entry

theorem declare_defaultElement (types : ContentTypes) (entry : String × String) :
    types.declare (defaultElement entry) = types.setDefault entry.1 entry.2 :=
  rfl

theorem declare_overrideElement (types : ContentTypes) (entry : String × String) :
    types.declare (overrideElement entry) = types.setOverride entry.1 entry.2 :=
  rfl

theorem foldl_declare_defaults {entries : List (String × String)}
    (hlower : ∀ entry ∈ entries, ContentTypes.lower entry.1 = entry.1)
    (hnew : ((types.defaults ++ entries).map Prod.fst).Nodup) :
    (entries.map defaultElement).foldl declare types
      = { types with defaults := types.defaults ++ entries } := by
  rw [List.foldl_map, ← Assoc.foldl_set hlower hnew]
  refine List.foldl_hom (fun defaults => { types with defaults }) fun defaults entry => ?_
  exact declare_defaultElement _ entry

theorem foldl_declare_overrides {entries : List (String × String)}
    (hnew : ((types.overrides ++ entries).map Prod.fst).Nodup) :
    (entries.map overrideElement).foldl declare types
      = { types with overrides := types.overrides ++ entries } := by
  rw [List.foldl_map, ← Assoc.foldl_set (f := id) (fun _ _ => rfl) hnew]
  refine List.foldl_hom (fun overrides => { types with overrides }) fun overrides entry => ?_
  exact declare_overrideElement _ entry

theorem toXml_eq (types : ContentTypes) :
    types.toXml = Xml.listing "Types" nameSpace
      (types.defaults.map defaultElement ++ types.overrides.map overrideElement) := by
  have hescape : Markup.escape nameSpace.toList = nameSpace.toList := by decide
  rw [Xml.listing, List.flatMap_append, List.flatMap_map, List.flatMap_map]
  simp [toXml, Xml.attributesText, Xml.attributeText, hescape, Xml.Element.text, defaultElement,
    overrideElement]

/-- Tidy content types are read back as they were listed. -/
theorem Tidy.ofXml_toXml (h : types.Tidy) : ofXml (Text.encode types.toXml) = .ok types := by
  have hwanted : ∀ e ∈ types.defaults.map defaultElement ++ types.overrides.map overrideElement,
      e.IsWanted wanted := by
    rw [List.forall_mem_append, List.forall_mem_map, List.forall_mem_map]
    exact ⟨fun entry _ => isWanted_defaultElement entry,
      fun entry _ => isWanted_overrideElement entry⟩
  have hlower : ∀ entry ∈ types.defaults, ContentTypes.lower entry.1 = entry.1 :=
    fun entry he => h.lower entry.1 (List.mem_map_of_mem he)
  rw [ofXml, toXml_eq, Xml.readElements_listing (by decide) (by decide) _ hwanted]
  dsimp only
  rw [List.foldl_append, foldl_declare_defaults hlower (by simpa using h.defaults),
    foldl_declare_overrides (by simpa using h.overrides)]
  simp

/-- **Content types are read back as they were listed**, and so give the same answers: extensions
are in lower case, and each extension and each part stands once. -/
theorem Declared.reread_declarations (h : types.Declared) :
    (∀ extension ∈ types.defaults.map Prod.fst, lower extension = extension) ∧
      (types.defaults.map Prod.fst).Nodup ∧ (types.overrides.map Prod.fst).Nodup ∧
      ofXml (Text.encode types.toXml) = .ok types :=
  ⟨h.tidy.lower, h.tidy.defaults, h.tidy.overrides, h.tidy.ofXml_toXml⟩

/-- Content types to which an extension is declared once more, in other letters. -/
theorem reread_declarations_twice :
    let types : ContentTypes := ⟨[("png", "<b>"), ("\"", "c")], [("/x&y", "d")]⟩
    ofXml "<Default Extension='Png' ContentType='a'/>".toUTF8.toList = .ok ⟨[("png", "a")], []⟩ ∧
      Declared types ∧ ofXml (Text.encode types.toXml) = .ok types := by
  intro types
  have hread : ofXml "<Default Extension='Png' ContentType='a'/>".toUTF8.toList
      = .ok ⟨[("png", "a")], []⟩ := by decide +kernel
  have h : Declared types :=
    (((Declared.read hread).setDefault "PNG" "<b>").setDefault "\"" "c").setOverride "/x&y" "d"
  exact ⟨hread, h, h.reread_declarations.2.2.2⟩

end ContentTypes

end MailMerge
