/-!
# Searching text

Texts are lists of characters, and a place in a text is what is left of it from there. Two
searches, in lists of any kind, serve the whole library:

* `after? p s` — what follows `p`, when `s` starts with it;
* `breakAt? p s` — `s` cut at the first occurrence of `p`.

Both are pinned down by how they put the text together again (`eq_append_of_after?`,
`eq_append_of_breakAt?`).
-/

namespace MailMerge.Text

variable {α : Type} [DecidableEq α]

/-- What follows `p` in `s`, or `none` when `s` does not start with `p`. -/
def after? : List α → List α → Option (List α)
  | [], s => some s
  | _ :: _, [] => none
  | c :: p, d :: s => if c = d then after? p s else none

theorem eq_append_of_after? {p s r : List α} (h : after? p s = some r) : s = p ++ r := by
  induction p generalizing s with
  | nil => simpa [after?] using h
  | cons c p ih =>
    cases s with
    | nil => simp [after?] at h
    | cons d s =>
      simp only [after?] at h
      split at h
      · next hcd => subst hcd; simp [ih h]
      · simp at h

@[simp]
theorem after?_append (p r : List α) : after? p (p ++ r) = some r := by
  induction p with
  | nil => simp [after?]
  | cons c p ih => simp [after?, ih]

theorem after?_eq_some_iff {p s r : List α} : after? p s = some r ↔ s = p ++ r := by
  constructor
  · exact eq_append_of_after?
  · rintro rfl
    exact after?_append p r

/-- Whether `s` starts with `p`. -/
def startsWith (p s : List α) : Bool :=
  (after? p s).isSome

/-- What stands before the first occurrence of `p` in `s`, and what follows that occurrence. -/
def breakAt? (p : List α) : List α → Option (List α × List α)
  | [] => (after? p []).map fun r => ([], r)
  | c :: s =>
    match after? p (c :: s) with
    | some r => some ([], r)
    | none => (breakAt? p s).map fun (before, r) => (c :: before, r)

theorem eq_append_of_breakAt? {p s before r : List α} (h : breakAt? p s = some (before, r)) :
    s = before ++ (p ++ r) := by
  induction s generalizing before with
  | nil =>
    simp only [breakAt?, Option.map_eq_some_iff, Prod.mk.injEq] at h
    obtain ⟨r', hr, rfl, rfl⟩ := h
    simpa using eq_append_of_after? hr
  | cons c s ih =>
    simp only [breakAt?] at h
    split at h
    · next r' hr =>
      simp only [Option.some.injEq, Prod.mk.injEq] at h
      obtain ⟨rfl, rfl⟩ := h
      simpa using eq_append_of_after? hr
    · simp only [Option.map_eq_some_iff, Prod.mk.injEq, Prod.exists] at h
      obtain ⟨b, r', hb, rfl, rfl⟩ := h
      simp [ih hb]

/-- A text is cut at an element where that element occurs first. -/
theorem breakAt?_singleton_eq_some_iff {c : α} {s before r : List α} :
    breakAt? [c] s = some (before, r) ↔ s = before ++ c :: r ∧ c ∉ before := by
  induction s generalizing before with
  | nil => simp [breakAt?, after?]
  | cons d s ih =>
    by_cases hd : c = d
    · have hfound : after? [c] (d :: s) = some s := by simp [after?, hd]
      rw [breakAt?, hfound]
      cases before with
      | nil => simp [hd, eq_comm]
      | cons e before =>
        simp only [Option.some.injEq, Prod.mk.injEq, reduceCtorEq, false_and, false_iff, not_and]
        rintro he hc
        exact hc (by simp [hd, (List.cons.inj he).1])
    · have hnone : after? [c] (d :: s) = none := by simp [after?, hd]
      rw [breakAt?, hnone]
      cases before with
      | nil => simp [Ne.symm hd]
      | cons e before =>
        simp only [Option.map_eq_some_iff, Prod.mk.injEq, List.cons.injEq, Prod.exists,
          List.cons_append, List.mem_cons, not_or]
        constructor
        · rintro ⟨b, r', hb, ⟨rfl, rfl⟩, rfl⟩
          obtain ⟨rfl, hc⟩ := ih.1 hb
          exact ⟨⟨rfl, rfl⟩, hd, hc⟩
        · rintro ⟨⟨rfl, hs⟩, -, hc⟩
          exact ⟨before, r, ih.2 ⟨hs, hc⟩, ⟨rfl, rfl⟩, rfl⟩

theorem breakAt?_singleton_eq_none_iff {c : α} {s : List α} : breakAt? [c] s = none ↔ c ∉ s := by
  rw [Option.eq_none_iff_forall_ne_some]
  constructor
  · intro h hc
    obtain ⟨before, r, hs, hbefore⟩ := List.eq_append_cons_of_mem hc
    exact h (before, r) (breakAt?_singleton_eq_some_iff.2 ⟨hs, hbefore⟩)
  · rintro hc ⟨before, r⟩ h
    rw [(breakAt?_singleton_eq_some_iff.1 h).1] at hc
    exact hc (List.mem_append_right _ List.mem_cons_self)

/-- A text is cut at the first place of an element in one way. -/
theorem eq_of_append_cons_eq {c : α} {a b r r' : List α} (ha : c ∉ a) (hb : c ∉ b)
    (h : a ++ c :: r = b ++ c :: r') : a = b ∧ r = r' := by
  have hcut : breakAt? [c] (a ++ c :: r) = some (a, r) :=
    breakAt?_singleton_eq_some_iff.2 ⟨rfl, ha⟩
  rw [breakAt?_singleton_eq_some_iff.2 ⟨h, hb⟩] at hcut
  obtain ⟨rfl, rfl⟩ := Prod.mk.inj (Option.some.inj hcut)
  exact ⟨rfl, rfl⟩

/-- A text is cut where `p` stands, when nothing before can start it. -/
theorem breakAt?_append_of_notMem {c : α} {p a : List α} (ha : c ∉ a) (r : List α) :
    breakAt? (c :: p) (a ++ (c :: p ++ r)) = some (a, r) := by
  induction a with
  | nil =>
    rw [List.nil_append, List.cons_append, breakAt?, ← List.cons_append, after?_append]
  | cons d a ih =>
    rw [List.mem_cons, not_or] at ha
    have hnone : after? (c :: p) (d :: (a ++ (c :: p ++ r))) = none := by
      rw [after?, if_neg ha.1]
    rw [List.cons_append, breakAt?, hnone, ih ha.2]
    rfl

/-- Whether `p` occurs anywhere in `s`. -/
def contains (p s : List α) : Bool :=
  (breakAt? p s).isSome

/-- The number of bytes that a text takes in UTF-8. -/
def byteSize : List Char → Nat
  | [] => 0
  | c :: s => c.utf8Size + byteSize s

@[simp]
theorem byteSize_nil : byteSize [] = 0 := rfl

@[simp]
theorem byteSize_cons (c : Char) (s : List Char) :
    byteSize (c :: s) = c.utf8Size + byteSize s := rfl

@[simp]
theorem byteSize_append (s t : List Char) : byteSize (s ++ t) = byteSize s + byteSize t := by
  induction s with
  | nil => simp
  | cons c s ih => simp [ih, Nat.add_assoc]

end MailMerge.Text
