/-!
# Named fields

A `Fields α` holds one value for each of its keys. The entries are kept in the order of their keys,
so two collections with the same fields are the same list, whatever the order of insertion.
-/

namespace MailMerge

/-- Values under distinct keys, in the order of the keys. -/
structure Fields (α : Type) where
  entries : List (String × α) := []
  deriving Repr, DecidableEq, Inhabited

namespace Fields

variable {α : Type}

/-- The entries with `value` under `key`, in place of what was there. -/
def insertEntry (key : String) (value : α) : List (String × α) → List (String × α)
  | [] => [(key, value)]
  | (k, v) :: entries =>
    if key = k then (key, value) :: entries
    else if key < k then (key, value) :: (k, v) :: entries
    else (k, v) :: insertEntry key value entries

/-- The collection without fields. -/
def empty : Fields α := {}

/-- The fields with `value` under `key`. -/
def insert (fields : Fields α) (key : String) (value : α) : Fields α :=
  ⟨insertEntry key value fields.entries⟩

/-- The fields of a list of entries; of several under one key, the last counts. -/
def ofList (entries : List (String × α)) : Fields α :=
  entries.foldl (fun fields (key, value) => fields.insert key value) empty

/-- The key that equals the given one, and its value. -/
def getEntry? (fields : Fields α) (key : String) : Option (String × α) :=
  fields.entries.find? fun (k, _) => k == key

/-- The value under a key. -/
def get? (fields : Fields α) (key : String) : Option α :=
  (fields.getEntry? key).map Prod.snd

/-- The number of fields. -/
def size (fields : Fields α) : Nat :=
  fields.entries.length

/-- What is found under a key after an insertion. -/
theorem get?_insert (fields : Fields α) (key other : String) (value : α) :
    (fields.insert key value).get? other
      = if key = other then some value else fields.get? other := by
  obtain ⟨entries⟩ := fields
  simp only [insert, get?, getEntry?]
  induction entries with
  | nil =>
    by_cases h : key = other <;> simp [insertEntry, h]
  | cons entry entries ih =>
    obtain ⟨k, v⟩ := entry
    simp only [insertEntry]
    by_cases hk : key = k
    · subst hk
      by_cases h : key = other <;> simp [h]
    · rw [if_neg hk]
      by_cases hlt : key < k
      · rw [if_pos hlt]
        by_cases h : key = other <;> simp [h]
      · rw [if_neg hlt]
        simp only [List.find?_cons]
        by_cases ho : k = other
        · subst ho; simp [hk]
        · simp only [show (k == other) = false by simpa using ho]
          exact ih

end Fields

end MailMerge
