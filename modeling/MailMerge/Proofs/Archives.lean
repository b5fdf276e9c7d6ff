import MailMerge.Proofs.Embedding
import MailMerge.Proofs.RoundTrip

/-!
# Packages that are saved and loaded

The members of an archive make a package and a package gives such members again. Both directions
change names: slashes in front of a member do not count, folders are left out, and of several
members for one part the last counts, at the place of the first. So what is saved is loaded again
only because the names of parts are **storable** and no two parts have the same.

Loading makes such packages (`Package.storable_of_ofMembers`), and rendering keeps them so
(`Document.storable_of_render`): the parts for pictures and the listings of relationships that it
adds have canonical names, and those do not end like folders. Whatever was rendered, saving and
loading then only moves the content types to the front (`Package.reload`).
-/

namespace MailMerge

/-! ### Storable names -/

theorem Package.isFolder_eq_false_iff {s : List Char} :
    isFolder s = false ↔ s.getLast? ≠ some '/' ∧ s.getLast? ≠ some '\\' := by
  simp [isFolder]

namespace PartName

/-- A name that a member of an archive can have: that of a file, without a slash in front. -/
structure Storable (name : PartName) : Prop where
  head : name.member.head? ≠ some '/'
  file : Package.isFolder name.member = false

theorem Storable.ofMember_member {name : PartName} (h : name.Storable) :
    ofMember name.member = name := by
  obtain ⟨member⟩ := name
  have hhead := h.head
  cases member with
  | nil => rfl
  | cons c member =>
    have hc : ¬(c == '/') = true := fun hc => hhead (congrArg some (beq_iff_eq.1 hc))
    rw [ofMember, List.dropWhile_cons_of_neg (p := (· == '/')) hc]

/-- A file has a storable name, as what stands in front of it is all that is left out. -/
theorem storable_ofMember {s : List Char} (h : Package.isFolder s = false) :
    (ofMember s).Storable where
  head hhead := by
    have hnot := List.head?_dropWhile_not (· == '/') s
    rw [show (s.dropWhile (· == '/')).head? = some '/' from hhead] at hnot
    cases hnot
  file := by
    rw [ofMember]
    dsimp only
    by_cases hrest : s.dropWhile (· == '/') = []
    · rw [hrest]
      rfl
    · have hlast : s.getLast? = (s.dropWhile (· == '/')).getLast? := by
        rw [← List.getLast?_append_of_ne_nil _ hrest, List.takeWhile_append_dropWhile]
      rwa [Package.isFolder, ← hlast]

/-- Canonical names do not end in a slash. -/
theorem IsCanonical.storable {name : PartName} (h : name.IsCanonical)
    (hlast : name.text.getLast? ≠ some '\\') : name.Storable := by
  obtain ⟨ss, hss, hmember⟩ := h
  refine ⟨hmember ▸ head?_joinPath_ne (isSegment_of_isStep hss), ?_⟩
  rcases List.eq_nil_or_concat ss with rfl | ⟨fs, s, rfl⟩
  · rw [hmember]
    rfl
  · rw [List.concat_eq_append] at hmember hss
    obtain ⟨hne, hslash, -⟩ := hss s (by simp)
    have htext : name.text = slashed fs ++ '/' :: s := by
      rw [text, hmember, slash_joinPath (by simp), slashed_append, slashed_singleton]
    have hend : name.text.getLast? = s.getLast? := by
      rw [htext, List.getLast?_append_of_ne_nil _ (by simp), List.getLast?_cons_of_ne_nil hne]
    have hmember : name.member.getLast? = s.getLast? := by
      rw [← hend, text, List.getLast?_cons_of_ne_nil]
      intro hempty
      have hlength := congrArg List.length htext
      have hpos := List.length_pos_iff.2 hne
      simp only [text, hempty, List.length_cons, List.length_nil, List.length_append] at hlength
      omega
    rw [Package.isFolder_eq_false_iff, hmember]
    exact ⟨fun hs => hslash (List.mem_of_getLast? hs), hend ▸ hlast⟩

end PartName

/-- The listing of the relationships of a part that is rendered is storable. -/
theorem PartName.IsCanonical.storable_relationshipsPart {source : PartName}
    (h : source.IsCanonical) : source.relationshipsPart.Storable := by
  refine h.relationshipsPart.storable ?_
  rw [PartName.text_relationshipsPart, ← List.cons_append, ← List.append_assoc,
    List.getLast?_append_of_ne_nil _ (by decide)]
  decide

/-- A part for a picture is storable, when the part that shows it has a canonical name. -/
theorem IsMediaOf.storable {source : PartName} {p : Placement} {name : PartName}
    (hsource : source.IsCanonical) (hp : isIdentifier p.key.toList = true)
    (h : IsMediaOf source p name) : name.Storable := by
  refine (h.isCanonical hsource hp).storable fun hlast => ?_
  obtain ⟨folder, file, htext, hfile⟩ := h.exists_file hp
  rw [htext, List.getLast?_append_of_ne_nil _ (by simp)] at hlast
  rcases List.mem_cons.1 (List.mem_of_getLast? hlast) with hslash | hm
  · exact absurd hslash (by decide)
  · exact absurd (hfile _ hm) (by decide)

/-! ### Entries -/

namespace Assoc

variable {κ α β : Type} [DecidableEq κ]

theorem get?_filter_ne {key other : κ} (h : key ≠ other) (entries : List (κ × α)) :
    get? key (entries.filter fun entry => entry.1 != other) = get? key entries := by
  induction entries with
  | nil => rfl
  | cons entry entries ih =>
    obtain ⟨k, v⟩ := entry
    by_cases hk : k = other
    · rw [List.filter_cons_of_neg (by simp [hk]), ih, get?, if_neg (hk ▸ Ne.symm h)]
    · rw [List.filter_cons_of_pos (by simp [hk]), get?, get?, ih]

/-- Of several entries that are set for one key the last counts. -/
theorem get?_foldl_set (f : β → κ) (g : β → α) (key : κ) (xs : List β) :
    get? key (xs.foldl (fun entries x => set (f x) (g x) entries) [])
      = (xs.reverse.find? fun x => f x == key).map g := by
  induction xs using List.reverseRecOn with
  | nil => rfl
  | append_singleton xs x ih =>
    rw [List.foldl_append, List.foldl_cons, List.foldl_nil, get?_set, ih, List.reverse_append,
      List.reverse_singleton, List.singleton_append]
    by_cases hx : f x = key
    · rw [if_pos hx, List.find?_cons_of_pos (by simp [hx]), Option.map_some]
    · rw [if_neg hx, List.find?_cons_of_neg (by simp [hx])]

/-- Each key stands where it was set first. -/
theorem keys_foldl_set (f : β → κ) (g : β → α) (xs : List β) :
    (xs.foldl (fun entries x => set (f x) (g x) entries) []).map Prod.fst
      = (xs.map f).eraseDups := by
  induction xs using List.reverseRecOn with
  | nil => rfl
  | append_singleton xs x ih =>
    rw [List.foldl_append, List.foldl_cons, List.foldl_nil, keys_set, ih, List.map_append,
      List.eraseDups_append, List.map_singleton]
    generalize xs.map f = keys
    by_cases hx : f x ∈ keys <;> simp [hx, List.removeAll, List.mem_eraseDups, List.eraseDups_cons]

theorem nodup_foldl_set (f : β → κ) (g : β → α) (xs : List β) :
    ((xs.foldl (fun entries x => set (f x) (g x) entries) []).map Prod.fst).Nodup :=
  List.foldlRecOn (motive := fun entries : List (κ × α) => (entries.map Prod.fst).Nodup) xs _
    List.nodup_nil fun _ h x _ => nodup_set (f x) (g x) h

end Assoc

/-! ### Loading and saving -/

namespace Package

/-- A package that can be saved and loaded. -/
structure Storable (package : Package) : Prop where
  distinct : package.names.Nodup
  names : ∀ name ∈ package.names, name.Storable
  types : .contentTypes ∈ package.names

/-- The members for the parts, in order. -/
def asMembers (package : Package) : List Member :=
  package.parts.map fun part => (part.1.member, part.2)

/-- The package with the given content types in front of its other parts. -/
def leading (package : Package) (types : List UInt8) : Package :=
  ⟨(.contentTypes, types) :: package.parts.filter fun part => part.1 != .contentTypes⟩

variable {members : List Member} {package : Package} {types : List UInt8}

theorem ofMembers_eq_ok_iff :
    ofMembers members = .ok package ↔
      package = ⟨(members.filter fun m => !isFolder m.1).foldl
        (fun parts m => Assoc.set (.ofMember m.1) m.2 parts) []⟩ ∧
      .contentTypes ∈ package.names := by
  have hfold : ∀ files : List Member,
      files.foldl (fun p m => p.set (.ofMember m.1) m.2) ({} : Package)
        = ⟨files.foldl (fun parts m => Assoc.set (.ofMember m.1) m.2 parts) []⟩ := fun files => by
    exact List.foldl_hom Package.mk fun parts m => rfl
  simp only [ofMembers, hfold]
  split
  · next hcontains =>
    rw [Except.ok.injEq, mem_names_iff]
    exact ⟨fun h => ⟨h.symm, h ▸ hcontains⟩, fun h => h.1.symm⟩
  · next hcontains =>
    refine iff_of_false nofun ?_
    rintro ⟨rfl, hmem⟩
    exact hcontains (mem_names_iff.1 hmem)

theorem storable_of_ofMembers (h : ofMembers members = .ok package) : package.Storable := by
  obtain ⟨rfl, htypes⟩ := ofMembers_eq_ok_iff.1 h
  refine ⟨Assoc.nodup_foldl_set _ _ _, fun name hname => ?_, htypes⟩
  rw [names, Assoc.keys_foldl_set, List.mem_eraseDups] at hname
  obtain ⟨m, hm, rfl⟩ := List.mem_map.1 hname
  exact PartName.storable_ofMember (by simpa using (List.mem_filter.1 hm).2)

/-- The parts that are saved are loaded, in their order. -/
theorem Storable.ofMembers_asMembers (h : package.Storable) :
    ofMembers package.asMembers = .ok package := by
  have hfiles : (package.asMembers.filter fun m => !isFolder m.1) = package.asMembers := by
    rw [List.filter_eq_self, asMembers, List.forall_mem_map]
    intro part hpart
    rw [(h.names part.1 (List.mem_map_of_mem hpart)).file]
    rfl
  refine ofMembers_eq_ok_iff.2 ⟨?_, h.types⟩
  rw [hfiles, asMembers, List.foldl_map]
  have hkeys : ∀ part ∈ package.parts, PartName.ofMember part.1.member = part.1 :=
    fun part hpart => (h.names part.1 (List.mem_map_of_mem hpart)).ofMember_member
  have hdistinct : (([] ++ package.parts).map Prod.fst).Nodup := h.distinct
  rw [Assoc.foldl_set (f := fun name => .ofMember name.member) hkeys hdistinct, List.nil_append]

theorem members_eq_asMembers (h : package.get? .contentTypes = some types) :
    package.members = .ok (package.leading types).asMembers := by
  rw [members, require, h]
  rfl

theorem get?_leading (h : package.get? .contentTypes = some types) (name : PartName) :
    (package.leading types).get? name = package.get? name := by
  by_cases hname : name = .contentTypes
  · rw [hname, h, get?, leading, Assoc.get?, if_pos rfl]
  · rw [get?, leading, Assoc.get?, if_neg (Ne.symm hname), Assoc.get?_filter_ne hname, get?]

theorem names_leading (package : Package) (types : List UInt8) :
    (package.leading types).names
      = .contentTypes :: package.names.filter (· ≠ .contentTypes) := by
  rw [names, leading, List.map_cons, names, List.filter_map]
  congr 3
  funext part
  rw [Function.comp_apply, decide_not]
  rfl

theorem leading_leading (package : Package) (types : List UInt8) :
    (package.leading types).leading types = package.leading types := by
  simp [leading]

theorem Storable.leading (h : package.Storable) (types : List UInt8) :
    (package.leading types).Storable where
  distinct := by
    rw [names_leading, List.nodup_cons]
    exact ⟨by simp, h.distinct.filter _⟩
  names name hname := by
    rw [names_leading, List.mem_cons] at hname
    rcases hname with rfl | hname
    · exact h.names _ h.types
    · exact h.names name (List.mem_filter.1 hname).1
  types := names_leading package types ▸ List.mem_cons_self

/-- Saving and loading moves the content types to the front, once and for all. -/
theorem Storable.reload (h : package.Storable) :
    ∃ saved reloaded, package.members = .ok saved ∧ ofMembers saved = .ok reloaded ∧
      (∀ name, reloaded.get? name = package.get? name) ∧
      reloaded.names = .contentTypes :: package.names.filter (· ≠ .contentTypes) ∧
      reloaded.members = .ok saved := by
  obtain ⟨types, htypes⟩ := Option.isSome_iff_exists.1 (mem_names_iff.1 h.types)
  have hleading : (package.leading types).get? .contentTypes = some types :=
    (get?_leading htypes _).trans htypes
  refine ⟨_, package.leading types, members_eq_asMembers htypes,
    (h.leading types).ofMembers_asMembers, get?_leading htypes, names_leading package types, ?_⟩
  rw [members_eq_asMembers hleading, leading_leading]

/-- What becomes of a package when it is rendered any number of times, against whatever data. -/
inductive Becomes (package : Package) : Package → Prop
  | refl : Becomes package package
  | render {document after : Document} {data : DataTree} {report : Report}
      (h : Becomes package document.package)
      (hrender : document.render data = .ok (report, after)) : Becomes package after.package

end Package

/-! ### Rendering -/

/-- No two parts have the same name, whatever is done to them. -/
theorem Rendering.preserved_nodup (data : DataTree) :
    Rendering.Preserved data fun _ r => r.package.names.Nodup where
  set _ _ name bytes h := Assoc.nodup_set name bytes h
  store _ r source p name r' _ h hstore := by
    rw [store] at hstore
    split at hstore
    · cases hstore
      exact h
    · obtain ⟨name', -, hrest⟩ := bind_eq_ok hstore
      obtain ⟨rfl, rfl⟩ := Prod.mk.inj (Except.ok.inj hrest)
      exact Assoc.nodup_set name' p.image.bytes h

/-- Rendering keeps a package storable. -/
theorem Document.storable_of_render {document after : Document} {data : DataTree} {report : Report}
    (h : document.render data = .ok (report, after)) (hbefore : document.package.Storable) :
    after.package.Storable := by
  obtain ⟨types, log, final, -, hnames, hlog, hparts, -, -, hleaves, rfl⟩ := render_sound h
  have hcanonical : ∀ entry ∈ log, entry.1.IsCanonical := fun entry he =>
    isCanonical_of_partsFor hnames _ (hparts entry he)
  obtain ⟨added, hadded, hwhy⟩ := hleaves.names
  constructor
  case distinct =>
    have hfinal := (Rendering.preserved_nodup data).renders hlog [] hbefore.distinct
    dsimp only
    rw [Rendering.finished]
    split
    · exact Assoc.nodup_set _ _ hfinal
    · exact hfinal
  case names =>
    intro name hname
    rw [hadded, List.mem_append] at hname
    rcases hname with hname | hname
    · exact hbefore.names name hname
    · rcases hwhy name hname with ⟨source, e, he, -, rfl⟩ | ⟨source, p, hp, hof, -⟩
      · exact (hcanonical _ he).storable_relationshipsPart
      · have hsource : source.IsCanonical := by
          obtain ⟨e, he, -⟩ := hp
          exact hcanonical _ he
        exact hof.storable hsource (hlog.isFrom source p hp).named
  case types =>
    rw [hadded]
    exact List.mem_append_left _ hbefore.types

theorem Package.Becomes.storable {package after : Package} (h : package.Becomes after)
    (hpackage : package.Storable) : after.Storable := by
  induction h with
  | refl => exact hpackage
  | render _ hrender ih => exact Document.storable_of_render hrender ih

namespace Package

/-- **What is saved is loaded again**, whatever was loaded first and rendered since: each part has
its bytes, only the content types come first, and saving once more gives the same archive. When an
archive is loaded, each part stands where a file for it comes first, and holds the bytes of the
last. -/
theorem reload_saved {members : List Member} {package after : Package}
    (h : ofMembers members = .ok package) (hafter : package.Becomes after) :
    let files := members.filter fun m => !isFolder m.1
    package.names.Nodup ∧
      package.names = (files.map fun m => PartName.ofMember m.1).eraseDups ∧
      (∀ name, package.get? name
        = (files.reverse.find? fun m => PartName.ofMember m.1 == name).map Prod.snd) ∧
      after.names.Nodup ∧
      ∃ saved reloaded, after.members = .ok saved ∧ ofMembers saved = .ok reloaded ∧
        (∀ name, reloaded.get? name = after.get? name) ∧
        reloaded.names = .contentTypes :: after.names.filter (· ≠ .contentTypes) ∧
        reloaded.members = .ok saved := by
  intro files
  have hpackage := storable_of_ofMembers h
  have hstorable := hafter.storable hpackage
  have hparts := (ofMembers_eq_ok_iff.1 h).1
  refine ⟨hpackage.distinct, ?_, fun name => ?_, hstorable.distinct, hstorable.reload⟩
  · rw [hparts]
    exact Assoc.keys_foldl_set _ _ files
  · rw [hparts]
    exact Assoc.get?_foldl_set _ _ name files

/-- An archive with a folder, and with two files for its main document. -/
def archive : List Member :=
  [("word/".toList, []), ("/word/document.xml".toList, [0]), ("[Content_Types].xml".toList, []),
    ("word/document.xml".toList, Text.encode "<w:t>\x7blogo\x7d</w:t>".toList)]

/-- The package of that archive. -/
def archived : Package :=
  ⟨[(.usualDocument, Text.encode "<w:t>\x7blogo\x7d</w:t>".toList), (.contentTypes, [])]⟩

/-- A picture is put into the main document of that archive. -/
theorem reload_saved_archive :
    ofMembers archive = .ok archived ∧
      ∃ report after, ({ package := archived } : Document).render Document.logoData
          = .ok (report, after) ∧
        archived.Becomes after.package ∧ after.package.names.Nodup ∧
        ∃ saved reloaded, after.package.members = .ok saved ∧ ofMembers saved = .ok reloaded ∧
          (∀ name, reloaded.get? name = after.package.get? name) ∧
          reloaded.names = .contentTypes :: after.package.names.filter (· ≠ .contentTypes) ∧
          reloaded.members = .ok saved := by
  have h : ofMembers archive = .ok archived := by decide +kernel
  have hok : (({ package := archived } : Document).render Document.logoData).isOk = true := by
    decide +kernel
  obtain ⟨⟨report, after⟩, hrender⟩ := exists_eq_ok_of_isOk hok
  have hafter : archived.Becomes after.package := .render .refl hrender
  exact ⟨h, report, after, hrender, hafter, (reload_saved h hafter).2.2.2⟩

end Package

end MailMerge
