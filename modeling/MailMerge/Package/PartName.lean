/-!
# Part names

A **part name** is the path of a part in a package. It starts with a slash, which separates the
folders, too; without that slash it is the name of a member of an archive. A reference from one part
to another is relative to the folder of the first; `resolve` follows it and `relativeTo` makes one.
-/

namespace MailMerge

/-- The name of a part, by what follows its first slash. -/
structure PartName where
  member : List Char
  deriving DecidableEq, Repr, Inhabited

namespace PartName

/-- The text of a part name. -/
def text (name : PartName) : List Char :=
  '/' :: name.member

/-- The part name that a text is, if it starts with a slash. -/
def ofText? : List Char → Option PartName
  | '/' :: member => some ⟨member⟩
  | _ => none

/-- The part name of a member of an archive; slashes in front do not count. -/
def ofMember (s : List Char) : PartName :=
  ⟨s.dropWhile (· == '/')⟩

/-- A text cut at the last occurrence of a character. -/
def breakAtLast? (c : Char) : List Char → Option (List Char × List Char)
  | [] => none
  | d :: s =>
    match breakAtLast? c s with
    | some (before, after) => some (d :: before, after)
    | none => if d = c then some ([], s) else none

/-- The folder of a part, without a slash at its end unless it is the top folder. -/
def folder (name : PartName) : List Char :=
  match breakAtLast? '/' name.member with
  | some (before, _) => '/' :: before
  | none => ['/']

/-- The name of a part in its folder. -/
def filename (name : PartName) : List Char :=
  match breakAtLast? '/' name.member with
  | some (_, after) => after
  | none => name.member

/-- What follows the last dot in the name of the file. -/
def extension (name : PartName) : List Char :=
  match breakAtLast? '.' name.filename with
  | some (_, after) => after
  | none => []

/-- The parts of a path between its slashes, empty ones included. -/
def splitPath : List Char → List (List Char)
  | [] => [[]]
  | c :: s =>
    if c = '/' then [] :: splitPath s
    else
      match splitPath s with
      | [] => [[c]]
      | segment :: segments => (c :: segment) :: segments

/-- The segments of a path: what stands between its slashes, if anything does. -/
def segments (path : List Char) : List (List Char) :=
  (splitPath path).filter (!·.isEmpty)

/-- The folder that means the folder itself. -/
def here : List Char := ['.']

/-- The folder that means the one above. -/
def above : List Char := ['.', '.']

/-- The folders that are left, the innermost first, when one goes through some segments. Above the
top there is only the top. -/
def walk (folders : List (List Char)) : List (List Char) → List (List Char)
  | [] => folders
  | segment :: rest =>
    if segment = here then walk folders rest
    else if segment = above then walk folders.tail rest
    else walk (segment :: folders) rest

/-- The segments between slashes. -/
def joinPath (segments : List (List Char)) : List Char :=
  ['/'].intercalate segments

/-- The part that a reference leads to from a folder. A reference that starts with a slash leads
from the top. -/
def resolve (folder reference : List Char) : PartName :=
  let start := if reference.head? = some '/' then [] else segments folder
  ⟨joinPath (walk [] (start ++ segments reference)).reverse⟩

/-- The number of segments that two paths start with alike. -/
def common : List (List Char) → List (List Char) → Nat
  | a :: as, b :: bs => if a = b then common as bs + 1 else 0
  | _, _ => 0

/-- A reference that leads from a folder to a part. -/
def relativeTo (name : PartName) (folder : List Char) : List Char :=
  if folder = ['/'] then name.member
  else
    let start := segments folder
    let goal := segments name.text
    let shared := common start goal
    joinPath (List.replicate (start.length - shared) above ++ goal.drop shared)

/-- The part that lists the relationships of a part. -/
def relationshipsPart (name : PartName) : PartName :=
  let folder := if name.folder = ['/'] then [] else name.folder.drop 1 ++ ['/']
  ⟨folder ++ "_rels/".toList ++ name.filename ++ ".rels".toList⟩

/-- The package itself, as the source of relationships. -/
def root : PartName := ⟨[]⟩

/-- The part that lists the content types. -/
def contentTypes : PartName := ⟨"[Content_Types].xml".toList⟩

/-- The part of the main document when no relationship tells. -/
def usualDocument : PartName := ⟨"word/document.xml".toList⟩

end PartName

end MailMerge
