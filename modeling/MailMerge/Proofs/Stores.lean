import MailMerge.Package.Store
import MailMerge.Proofs.Archives

/-!
# Stores and packages

A store keeps its parts twice: in a list, and in an index of their places. Every write keeps the two
in step (`Store.InStep`), and then a store finds what a package of the same parts does. So what a
store holds (`Store.Holds`) can be told from the writes alone (`Store.holds_writes`): each name
stands where it was written first, with the bytes that were written last.

The relationships of a part are listed in a part of their own. Other relationships of a part change
nothing else, since canonical names do not share listings.
-/

namespace MailMerge

/-! ### Entries by their places -/

namespace Assoc

variable {κ α : Type} [DecidableEq κ] {key : κ} {place : Nat} {entries : List (κ × α)}

/-- A key that stands at one place only is found there. -/
theorem get?_of_place (h : ∀ i, (entries.map Prod.fst)[i]? = some key ↔ i = place) :
    get? key entries = entries[place]?.map Prod.snd := by
  induction entries generalizing place with
  | nil => cases (h place).2 rfl
  | cons entry entries ih =>
    obtain ⟨k, v⟩ := entry
    by_cases hk : k = key
    · subst hk
      obtain rfl : 0 = place := (h 0).1 rfl
      rw [get?, if_pos rfl]
      rfl
    · obtain _ | place := place
      · exact absurd (Option.some.inj ((h 0).2 rfl)) hk
      · rw [get?, if_neg hk, List.getElem?_cons_succ]
        exact ih fun i => (h (i + 1)).trans Nat.succ_inj

/-- The value of a key that stands at one place only is changed there. -/
theorem set_of_place (h : ∀ i, (entries.map Prod.fst)[i]? = some key ↔ i = place) (value : α) :
    set key value entries = entries.modify place fun entry => (entry.1, value) := by
  induction entries generalizing place with
  | nil => cases (h place).2 rfl
  | cons entry entries ih =>
    obtain ⟨k, v⟩ := entry
    by_cases hk : k = key
    · subst hk
      obtain rfl : 0 = place := (h 0).1 rfl
      rw [set, if_pos rfl]
      rfl
    · obtain _ | place := place
      · exact absurd (Option.some.inj ((h 0).2 rfl)) hk
      · rw [set, if_neg hk, List.modify_succ_cons, ih fun i => (h (i + 1)).trans Nat.succ_inj]

end Assoc

theorem getElem?_concat_eq_some_iff {α : Type} {xs : List α} {x y : α} {place : Nat} :
    (xs ++ [x])[place]? = some y ↔ xs[place]? = some y ∨ place = xs.length ∧ x = y := by
  rcases Nat.lt_trichotomy place xs.length with hlt | rfl | hgt
  · rw [List.getElem?_append_left hlt]
    simp [Nat.ne_of_lt hlt]
  · simp
  · have hend : (xs ++ [x])[place]? = none :=
      List.getElem?_eq_none (by rw [List.length_append]; exact hgt)
    rw [hend, List.getElem?_eq_none (Nat.le_of_lt hgt)]
    simp [Nat.ne_of_gt hgt]

namespace Store

variable {store : Store} {name : PartName}

/-! ### A list and an index in step -/

/-- The index has the place of each part, and no others. -/
def InStep (store : Store) : Prop :=
  ∀ (name : PartName) (place : Nat),
    store.index[name]? = some place ↔ store.names[place]? = some name

theorem set_of_none (h : store.index[name]? = none) (bytes : List UInt8) :
    store.set name bytes
      = ⟨store.parts.push (name, bytes), store.index.insert name store.parts.size⟩ := by
  rw [set, h]

theorem set_of_some {place : Nat} (h : store.index[name]? = some place) (bytes : List UInt8) :
    store.set name bytes
      = ⟨store.parts.modify place fun part => (part.1, bytes), store.index⟩ := by
  rw [set, h]

theorem names_package (store : Store) : store.package.names = store.names :=
  rfl

theorem length_names (store : Store) : store.names.length = store.size :=
  List.length_map ..

theorem inStep_empty : InStep {} := by
  rw [InStep]
  simp [names]

namespace InStep

/-- The name of a part stands at its place only. -/
theorem getElem?_names_iff (h : store.InStep) {place : Nat}
    (hplace : store.index[name]? = some place) (i : Nat) :
    store.names[i]? = some name ↔ i = place := by
  have hi := h name i
  rw [hplace, Option.some.injEq, eq_comm] at hi
  exact hi.symm

theorem mem_names_iff (h : store.InStep) : name ∈ store.names ↔ (store.index[name]?).isSome := by
  rw [Option.isSome_iff_exists, List.mem_iff_getElem?]
  exact exists_congr fun place => (h name place).symm

theorem notMem_names (h : store.InStep) (hnone : store.index[name]? = none) :
    name ∉ store.names := by
  rw [h.mem_names_iff, hnone]
  exact nofun

/-- A store finds what a package of the same parts finds. -/
theorem get?_eq (h : store.InStep) (name : PartName) :
    store.get? name = store.package.get? name := by
  rw [get?]
  cases hplace : store.index[name]? with
  | none =>
    have hnot := h.notMem_names hplace
    rw [← names_package, Package.mem_names_iff, Option.not_isSome_iff_eq_none] at hnot
    exact hnot.symm
  | some place =>
    have hparts : store.package.get? name = (store.package.parts[place]?).map Prod.snd :=
      Assoc.get?_of_place (h.getElem?_names_iff hplace)
    rw [hparts, package, Array.getElem?_toList]
    rfl

theorem contains_eq (h : store.InStep) (name : PartName) :
    store.contains name = (store.get? name).isSome := by
  rw [Bool.eq_iff_iff, h.get?_eq, ← Package.mem_names_iff, names_package, h.mem_names_iff, contains,
    Std.HashMap.contains_eq_isSome_getElem?]

/-- A store that is written to holds what a package does. -/
theorem package_set (h : store.InStep) (name : PartName) (bytes : List UInt8) :
    (store.set name bytes).package = store.package.set name bytes := by
  cases hplace : store.index[name]? with
  | none =>
    have hset : store.package.set name bytes = ⟨store.package.parts ++ [(name, bytes)]⟩ :=
      congrArg Package.mk (Assoc.set_of_notMem bytes (h.notMem_names hplace))
    rw [hset, set_of_none hplace, package, Array.toList_push]
    rfl
  | some place =>
    have hset : store.package.set name bytes
        = ⟨store.package.parts.modify place fun part => (part.1, bytes)⟩ :=
      congrArg Package.mk (Assoc.set_of_place (h.getElem?_names_iff hplace) bytes)
    rw [hset, set_of_some hplace, package, Array.toList_modify]
    rfl

/-- **Every write keeps the list and the index in step.** -/
theorem set (h : store.InStep) (name : PartName) (bytes : List UInt8) :
    (store.set name bytes).InStep := by
  have hnames : (store.set name bytes).names
      = if name ∈ store.names then store.names else store.names ++ [name] := by
    rw [← names_package, h.package_set, Package.names_set, names_package]
  intro other place
  rw [hnames]
  cases hplace : store.index[name]? with
  | none =>
    have hnot := h.notMem_names hplace
    rw [if_neg hnot, set_of_none hplace, Std.HashMap.getElem?_insert, getElem?_concat_eq_some_iff,
      length_names]
    by_cases hother : name = other
    · subst hother
      have hnone : store.names[place]? ≠ some name := fun hp => hnot (List.mem_of_getElem? hp)
      simp [size, hnone, eq_comm]
    · simp [hother, h other place]
  | some at' =>
    have hmem : name ∈ store.names := h.mem_names_iff.2 (by rw [hplace]; rfl)
    rw [if_pos hmem, set_of_some hplace]
    exact h other place

/-- The relationships of a part are those in the package of the same parts. -/
theorem relationships_eq (h : store.InStep) (source : PartName) :
    store.relationships source = store.package.relationships source := by
  cases hbytes : store.package.get? source.relationshipsPart with
  | none => simp only [relationships, Package.relationships, h.get?_eq, hbytes]
  | some bytes => simp only [relationships, Package.relationships, h.get?_eq, hbytes]

end InStep

/-! ### Stores that are written to -/

theorem inStep_foldl (writes : List (PartName × List UInt8)) (h : store.InStep) :
    (writes.foldl (fun store part => store.set part.1 part.2) store).InStep ∧
      (writes.foldl (fun store part => store.set part.1 part.2) store).package
        = writes.foldl (fun package part => package.set part.1 part.2) store.package := by
  induction writes generalizing store with
  | nil => exact ⟨h, rfl⟩
  | cons part writes ih =>
    rw [List.foldl_cons, List.foldl_cons, ← h.package_set]
    exact ih (h.set part.1 part.2)

/-- **Every store that is written holds what a package holds**, and its index is in step. -/
theorem inStep_ofWrites (writes : List (PartName × List UInt8)) :
    (ofWrites writes).InStep ∧
      (ofWrites writes).package
        = writes.foldl (fun package part => package.set part.1 part.2) {} :=
  inStep_foldl writes inStep_empty

/-! ### What a store holds -/

/-- What is so when the relationships of a part have been listed: they are found again, and those of
another part and all other bytes are what they were. -/
structure Relists (store after : Store) (source : PartName) (rs : Relationships) : Prop where
  found : after.relationships source = .ok rs
  others : ∀ other : PartName, other.IsCanonical → source ≠ other →
    after.relationships other = store.relationships other
  bytes : ∀ name, name ≠ source.relationshipsPart → after.get? name = store.get? name

/-- What can be told of a store from what has been written to it, the first write first. -/
structure Holds (store : Store) (writes : List (PartName × List UInt8)) : Prop where
  /-- Each name stands once, in the order of the first writes, and no other name does. -/
  names : store.names = (writes.map Prod.fst).eraseDups
  distinct : store.names.Nodup
  /-- A name has the bytes that are written last. -/
  bytes : ∀ name, store.get? name
    = (writes.reverse.find? fun write => write.1 == name).map Prod.snd
  missing : ∀ name, store.get? name = none ↔ name ∉ writes.map Prod.fst
  contains : ∀ name, store.contains name = (store.get? name).isSome
  size : store.size = store.names.length
  /-- The index has the place of each name, and no others. -/
  inStep : store.InStep
  relists : ∀ (source : PartName) (rs : Relationships), source.IsCanonical →
    rs.folder = source.folder → store.Relists (store.setRelationships source rs) source rs

theorem InStep.relists (h : store.InStep) {source : PartName} {rs : Relationships}
    (hsource : source.IsCanonical) (hfolder : rs.folder = source.folder) :
    store.Relists (store.setRelationships source rs) source rs := by
  have hafter : (store.setRelationships source rs).InStep := h.set _ _
  have hset : (store.setRelationships source rs).package
      = store.package.setRelationships source rs := h.package_set _ _
  have hkept : ∀ name, name ≠ source.relationshipsPart →
      (store.package.setRelationships source rs).get? name = store.package.get? name :=
    fun name hname => Package.get?_set_of_ne _ _ _ hname
  constructor
  case found =>
    rw [hafter.relationships_eq, hset]
    exact Package.relationships_setRelationships _ hfolder
  case others =>
    intro other hother hne
    have hlisting : other.relationshipsPart ≠ source.relationshipsPart := fun he =>
      hne (hother.relationshipsPart_inj hsource he).symm
    rw [hafter.relationships_eq, hset, h.relationships_eq]
    exact Package.relationships_congr (hkept _ hlisting)
  case bytes =>
    intro name hname
    rw [hafter.get?_eq, hset, hkept name hname, h.get?_eq]

/-- **What a store holds can be told from the writes.** -/
theorem holds_writes (writes : List (PartName × List UInt8)) : (ofWrites writes).Holds writes := by
  generalize hstore : ofWrites writes = store
  obtain ⟨hstep, hpackage⟩ := inStep_ofWrites writes
  rw [hstore] at hstep hpackage
  have hparts : store.package
      = ⟨writes.foldl (fun parts write => Assoc.set write.1 write.2 parts) []⟩ := by
    rw [hpackage]
    exact List.foldl_hom Package.mk fun parts write => rfl
  have hnames : store.names = (writes.map Prod.fst).eraseDups := by
    rw [← names_package, hparts]
    exact Assoc.keys_foldl_set _ _ writes
  constructor
  case names => exact hnames
  case distinct =>
    rw [← names_package, hparts]
    exact Assoc.nodup_foldl_set _ _ writes
  case bytes =>
    intro name
    rw [hstep.get?_eq, hparts]
    exact Assoc.get?_foldl_set _ _ name writes
  case missing =>
    intro name
    rw [hstep.get?_eq, ← Option.not_isSome_iff_eq_none, ← Package.mem_names_iff, names_package,
      hnames, List.mem_eraseDups]
  case contains => exact hstep.contains_eq
  case size => exact (length_names store).symm
  case inStep => exact hstep
  case relists => exact fun source rs hsource hfolder => hstep.relists hsource hfolder

/-- A name that is written twice, and relationships of a part and of the package. -/
theorem holds_writes_twice :
    let main : PartName := ⟨"word/document.xml".toList⟩
    let store := ofWrites [(main, [1]), (.contentTypes, [2]), (main, [3])]
    let rs : Relationships := ⟨"/word".toList, [⟨"rId1", Relationship.image, "media/a.png", false⟩]⟩
    store.names = [main, .contentTypes] ∧ store.get? main = some [3] ∧
      main.IsCanonical ∧ PartName.root.IsCanonical ∧
      (store.setRelationships main rs).relationships main = .ok rs ∧
      (store.setRelationships main rs).relationships .root = store.relationships .root := by
  intro main store rs
  have hholds : store.Holds _ := holds_writes [(main, [1]), (.contentTypes, [2]), (main, [3])]
  have hmain : main.IsCanonical :=
    ⟨["word".toList, "document.xml".toList], by decide, by decide +kernel⟩
  have hroot : PartName.root.IsCanonical := ⟨[], by simp, rfl⟩
  have hrelists := hholds.relists main rs hmain (by decide +kernel)
  exact ⟨hholds.names.trans (by decide +kernel), (hholds.bytes main).trans (by decide +kernel),
    hmain, hroot, hrelists.found, hrelists.others .root hroot (by decide +kernel)⟩

end Store

end MailMerge
