import Std.Data.HashMap
import MailMerge.Package.Basic

/-!
# Stores

A `Store` holds parts in the order in which they came, like a package, and knows where each of them
stands: a part is found by an index, without a search.
-/

namespace MailMerge

instance : Hashable PartName where
  hash name := (String.ofList name.text).hash

/-- Parts, and where the part of a name stands. -/
structure Store where
  parts : Array (PartName × List UInt8) := #[]
  index : Std.HashMap PartName Nat := {}

namespace Store

/-- The bytes of a part. -/
def get? (store : Store) (name : PartName) : Option (List UInt8) :=
  store.index[name]?.bind fun place => store.parts[place]?.map Prod.snd

/-- The store with the given bytes in a part: in place of those that were there, or else in a new
part at the end. -/
def set (store : Store) (name : PartName) (bytes : List UInt8) : Store :=
  match store.index[name]? with
  | some place => { store with parts := store.parts.modify place fun part => (part.1, bytes) }
  | none => ⟨store.parts.push (name, bytes), store.index.insert name store.parts.size⟩

/-- The store of some parts, which are written one after the other. -/
def ofWrites (writes : List (PartName × List UInt8)) : Store :=
  writes.foldl (fun store part => store.set part.1 part.2) {}

/-- Whether there is a part of a name. -/
def contains (store : Store) (name : PartName) : Bool :=
  store.index.contains name

/-- The names of the parts, in order. -/
def names (store : Store) : List PartName :=
  store.parts.toList.map Prod.fst

/-- The number of parts. -/
def size (store : Store) : Nat :=
  store.parts.size

/-- The relationships of a part; there are none where none are listed. -/
def relationships (store : Store) (source : PartName) : Except PackageError Relationships :=
  match store.get? source.relationshipsPart with
  | some bytes => Relationships.ofXml source.folder bytes
  | none => .ok { folder := source.folder }

/-- The store with other relationships of a part. -/
def setRelationships (store : Store) (source : PartName) (rs : Relationships) : Store :=
  store.set source.relationshipsPart (Text.encode rs.toXml)

/-- The package of the same parts. -/
def package (store : Store) : Package :=
  ⟨store.parts.toList⟩

end Store

end MailMerge
