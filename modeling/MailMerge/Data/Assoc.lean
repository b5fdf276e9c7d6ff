/-!
# Association lists

A list of pairs in which each key stands once and keeps its place: `set` changes the value of a key
that is there and puts a new key at the end.
-/

namespace MailMerge.Assoc

variable {κ α : Type} [DecidableEq κ]

/-- The value under a key. -/
def get? (key : κ) : List (κ × α) → Option α
  | [] => none
  | (k, v) :: entries => if k = key then some v else get? key entries

/-- The entries with `value` under `key`. -/
def set (key : κ) (value : α) : List (κ × α) → List (κ × α)
  | [] => [(key, value)]
  | (k, v) :: entries => if k = key then (k, value) :: entries else (k, v) :: set key value entries

/-- Whether a key is there. -/
def contains (key : κ) (entries : List (κ × α)) : Bool :=
  (get? key entries).isSome

theorem get?_set (key other : κ) (value : α) (entries : List (κ × α)) :
    get? other (set key value entries)
      = if key = other then some value else get? other entries := by
  induction entries with
  | nil => simp [set, get?]
  | cons entry entries ih =>
    obtain ⟨k, v⟩ := entry
    by_cases hk : k = key
    · subst hk
      by_cases ho : k = other <;> simp [set, get?, ho]
    · have hk' : ¬key = k := fun h => hk h.symm
      by_cases ho : k = other
      · subst ho
        simp [set, get?, hk, hk']
      · simp [set, get?, hk, ho, ih]

/-- The keys after a value is set: a new key comes last. -/
theorem keys_set (key : κ) (value : α) (entries : List (κ × α)) :
    (set key value entries).map Prod.fst =
      if key ∈ entries.map Prod.fst then entries.map Prod.fst
      else entries.map Prod.fst ++ [key] := by
  induction entries with
  | nil => simp [set]
  | cons entry entries ih =>
    obtain ⟨k, v⟩ := entry
    by_cases hk : k = key
    · simp [set, hk]
    · have hk' : ¬key = k := fun h => hk h.symm
      simp only [set, if_neg hk, List.map_cons, ih, List.mem_cons, hk', false_or]
      split <;> simp

end MailMerge.Assoc
