import MailMerge.Text.Search
import MailMerge.Text.Utf8

/-!
# Texts in memory

In memory a text is a run of bytes, and whatever is found in it is known by its **place**, the
number of bytes before. Here texts are searched and cut by their places alone, so a step may fail: a
place lies past the end or inside of a character, a stretch stops before it starts, or a difference
of places is below zero (`Fault`).

A text that is cut at a place falls into two parts that make it up, the first of which has as many
bytes as the place says (`of_cut`). The other steps are put together from this one.
-/

namespace MailMerge.Memory

/-- Why a step on places fails. -/
inductive Fault where
  /-- A place lies past the end. -/
  | outside (place size : Nat)
  /-- A text is cut inside of a character. -/
  | insideCharacter (place : Nat)
  /-- A stretch stops before it starts. -/
  | reversed (start stop : Nat)
  /-- A difference is below zero. -/
  | negative (a b : Nat)
  deriving DecidableEq, Repr

/-! ### Numbers and lists -/

/-- The difference of two numbers. -/
def sub (a b : Nat) : Except Fault Nat :=
  if b ≤ a then .ok (a - b) else .error (.negative a b)

section Lists

variable {α : Type}

/-- The item of a list with a given number. -/
def item (index : Nat) (l : List α) : Except Fault α :=
  match l[index]? with
  | some a => .ok a
  | none => .error (.outside index l.length)

/-- The items of a list from a place on. -/
def itemsFrom (place : Nat) (l : List α) : Except Fault (List α) :=
  if place ≤ l.length then .ok (l.drop place) else .error (.outside place l.length)

/-- The items of a list up to a place. -/
def itemsUpTo (place : Nat) (l : List α) : Except Fault (List α) :=
  if place ≤ l.length then .ok (l.take place) else .error (.outside place l.length)

/-- The items of a list from one place up to another. -/
def itemsBetween (start stop : Nat) (l : List α) : Except Fault (List α) :=
  if stop < start then .error (.reversed start stop)
  else do
    let front ← itemsUpTo stop l
    itemsFrom start front

end Lists

/-! ### Cuts -/

/-- A text that starts at `start`, cut in two at a place that is not before. -/
def cutFrom (place start : Nat) : List Char → Except Fault (List Char × List Char)
  | [] => if place = start then .ok ([], []) else .error (.outside place start)
  | c :: s =>
    if place = start then .ok ([], c :: s)
    else if place < start + c.utf8Size then .error (.insideCharacter place)
    else (cutFrom place (start + c.utf8Size) s).map fun (front, rest) => (c :: front, rest)

/-- A text cut in two at a place. -/
def cut (place : Nat) (s : List Char) : Except Fault (List Char × List Char) :=
  cutFrom place 0 s

/-- The end of a text, from a place on. -/
def sliceFrom (place : Nat) (s : List Char) : Except Fault (List Char) :=
  (cut place s).map Prod.snd

/-- The stretch of a text from one place up to another. -/
def slice (start stop : Nat) (s : List Char) : Except Fault (List Char) :=
  if stop < start then .error (.reversed start stop)
  else do
    let (front, _) ← cut stop s
    sliceFrom start front

/-- A text with something new in place of a stretch. -/
def replace (start stop : Nat) (new s : List Char) : Except Fault (List Char) :=
  if stop < start then .error (.reversed start stop)
  else do
    let (front, after) ← cut stop s
    let (before, _) ← cut start front
    return before ++ (new ++ after)

/-! ### Searches -/

/-- The place of the first occurrence of `p` in some bytes. -/
def find? (p bytes : List UInt8) : Option Nat :=
  (Text.breakAt? p bytes).map fun (before, _) => before.length

/-- The place of the first occurrence of a text in some bytes that starts at a place or behind. -/
def findFrom (p : List Char) (place : Nat) (bytes : List UInt8) : Except Fault (Option Nat) := do
  let rest ← itemsFrom place bytes
  return (find? (Text.encode p) rest).map (place + ·)

/-- The places of all occurrences of `p` in some bytes, the first of which has the place `start`.
What is searched for here starts with a byte that it has nowhere else, so no two occurrences
overlap. -/
def placesOf (p : List UInt8) (start : Nat) : List UInt8 → List Nat
  | [] => []
  | b :: bytes =>
    if Text.startsWith p (b :: bytes) then start :: placesOf p (start + 1) bytes
    else placesOf p (start + 1) bytes

/-! ### What comes of these steps -/

section Steps

variable {α β : Type} {x : Except Fault α} {b : β}

@[simp]
theorem ok_bind (a : α) (f : α → Except Fault β) : (Except.ok a >>= f) = f a := rfl

@[simp]
theorem map_ok (f : α → β) (a : α) : (Except.ok a : Except Fault α).map f = .ok (f a) := rfl

@[simp]
theorem pure_eq_ok (a : α) : (pure a : Except Fault α) = .ok a := rfl

theorem bind_eq_ok {f : α → Except Fault β} :
    (x >>= f) = .ok b ↔ ∃ a, x = .ok a ∧ f a = .ok b := by
  cases x with
  | error fault => exact ⟨nofun, nofun⟩
  | ok a => exact ⟨fun h => ⟨a, rfl, h⟩, fun ⟨_, ha, h⟩ => Except.ok.inj ha ▸ h⟩

theorem map_eq_ok {f : α → β} : x.map f = .ok b ↔ ∃ a, x = .ok a ∧ f a = b := by
  cases x with
  | error fault => exact ⟨nofun, nofun⟩
  | ok a =>
    exact ⟨fun h => ⟨a, rfl, Except.ok.inj h⟩, fun ⟨_, ha, h⟩ => Except.ok.inj ha ▸ congrArg _ h⟩

/-- A step is taken for each item of a list. -/
theorem mapM_eq_ok {f : α → Except Fault β} {g : α → β} {l : List α}
    (h : ∀ a ∈ l, f a = .ok (g a)) : l.mapM f = .ok (l.map g) := by
  induction l with
  | nil => rfl
  | cons a l ih =>
    obtain ⟨ha, hl⟩ := List.forall_mem_cons.1 h
    rw [List.mapM_cons, ha, ok_bind, ih hl]
    rfl

end Steps

theorem sub_of_le {a b : Nat} (h : b ≤ a) : sub a b = .ok (a - b) :=
  if_pos h

theorem itemsFrom_append {α : Type} {place : Nat} {l : List α} (h : place = l.length)
    (r : List α) : itemsFrom place (l ++ r) = .ok r := by
  subst h
  rw [itemsFrom, if_pos (by simp), List.drop_left]

theorem itemsUpTo_append {α : Type} {place : Nat} {l : List α} (h : place = l.length)
    (r : List α) : itemsUpTo place (l ++ r) = .ok l := by
  subst h
  rw [itemsUpTo, if_pos (by simp), List.take_left]

theorem itemsBetween_append {α : Type} {start stop : Nat} {l m : List α} (hstart : start = l.length)
    (hstop : stop = start + m.length) (r : List α) :
    itemsBetween start stop (l ++ (m ++ r)) = .ok m := by
  rw [itemsBetween, if_neg (by omega), ← List.append_assoc, itemsUpTo_append (by simp; omega)]
  exact itemsFrom_append hstart m

theorem cutFrom_append {place start : Nat} {a : List Char} (h : place = start + Text.byteSize a)
    (b : List Char) : cutFrom place start (a ++ b) = .ok (a, b) := by
  subst h
  induction a generalizing start with
  | nil => cases b <;> exact if_pos rfl
  | cons c a ih =>
    have hpos := c.utf8Size_pos
    rw [List.cons_append, cutFrom, if_neg (by simp; omega), if_neg (by simp), Text.byteSize_cons,
      ← Nat.add_assoc, ih]
    rfl

theorem cut_append {place : Nat} {a : List Char} (h : place = Text.byteSize a) (b : List Char) :
    cut place (a ++ b) = .ok (a, b) :=
  cutFrom_append (by rw [h, Nat.zero_add]) b

theorem of_cutFrom {place start : Nat} {s a b : List Char}
    (h : cutFrom place start s = .ok (a, b)) : s = a ++ b ∧ place = start + Text.byteSize a := by
  induction s generalizing start a with
  | nil =>
    rw [cutFrom] at h
    split at h
    · cases h
      exact ⟨rfl, by assumption⟩
    · cases h
  | cons c s ih =>
    rw [cutFrom] at h
    split at h
    · cases h
      exact ⟨rfl, by assumption⟩
    split at h
    · cases h
    · obtain ⟨⟨front, rest⟩, hcut, he⟩ := map_eq_ok.1 h
      cases he
      obtain ⟨hs, hplace⟩ := ih hcut
      refine ⟨congrArg (c :: ·) hs, ?_⟩
      rw [hplace, Text.byteSize_cons, Nat.add_assoc]

/-- A cut falls between two parts of the text. -/
theorem of_cut {place : Nat} {s a b : List Char} (h : cut place s = .ok (a, b)) :
    s = a ++ b ∧ place = Text.byteSize a := by
  have := of_cutFrom h
  rwa [Nat.zero_add] at this

theorem sliceFrom_append {place : Nat} {a : List Char} (h : place = Text.byteSize a)
    (b : List Char) : sliceFrom place (a ++ b) = .ok b := by
  rw [sliceFrom, cut_append h]
  rfl

theorem slice_append {start stop : Nat} {a b : List Char} (hstart : start = Text.byteSize a)
    (hstop : stop = start + Text.byteSize b) (c : List Char) :
    slice start stop (a ++ (b ++ c)) = .ok b := by
  rw [slice, if_neg (by omega), ← List.append_assoc, cut_append (by simp; omega)]
  exact sliceFrom_append hstart b

theorem replace_append {start stop : Nat} {a b : List Char} (hstart : start = Text.byteSize a)
    (hstop : stop = start + Text.byteSize b) (new c : List Char) :
    replace start stop new (a ++ (b ++ c)) = .ok (a ++ (new ++ c)) := by
  have hcut : cut stop (a ++ b ++ c) = .ok (a ++ b, c) := cut_append (by simp; omega) c
  rw [replace, if_neg (by omega), ← List.append_assoc, hcut, ok_bind]
  exact bind_eq_ok.2 ⟨_, cut_append hstart b, rfl⟩

/-- A stretch has as many bytes as lie between its places. -/
theorem of_slice {start stop : Nat} {s r : List Char} (h : slice start stop s = .ok r) :
    ∃ a c, s = a ++ (r ++ c) ∧ start = Text.byteSize a ∧ stop = start + Text.byteSize r := by
  rw [slice] at h
  split at h
  · cases h
  · obtain ⟨⟨front, c⟩, hcut, h⟩ := bind_eq_ok.1 h
    obtain ⟨⟨a, _⟩, hcut', rfl⟩ := map_eq_ok.1 h
    obtain ⟨rfl, hstop⟩ := of_cut hcut
    obtain ⟨rfl, hstart⟩ := of_cut hcut'
    refine ⟨a, c, List.append_assoc .., hstart, ?_⟩
    rw [hstop, Text.byteSize_append, hstart]

/-- What is replaced goes, and what is new comes instead. -/
theorem of_replace {start stop : Nat} {new s r : List Char} (h : replace start stop new s = .ok r) :
    ∃ a b c, s = a ++ (b ++ c) ∧ start = Text.byteSize a ∧ stop = start + Text.byteSize b ∧
      r = a ++ (new ++ c) := by
  rw [replace] at h
  split at h
  · cases h
  · obtain ⟨⟨front, c⟩, hcut, h⟩ := bind_eq_ok.1 h
    obtain ⟨⟨a, b⟩, hcut', h⟩ := bind_eq_ok.1 h
    cases h
    obtain ⟨rfl, hstop⟩ := of_cut hcut
    obtain ⟨rfl, hstart⟩ := of_cut hcut'
    refine ⟨a, b, c, List.append_assoc .., hstart, ?_, rfl⟩
    rw [hstop, Text.byteSize_append, hstart]

/-- What is found from a place on lies in the bytes, there or behind. -/
theorem of_findFrom {p : List Char} {place found : Nat} {bytes : List UInt8}
    (h : findFrom p place bytes = .ok (some found)) :
    place ≤ found ∧ found + (Text.encode p).length ≤ bytes.length := by
  obtain ⟨rest, hrest, h⟩ := bind_eq_ok.1 h
  obtain ⟨offset, hoffset, rfl⟩ := Option.map_eq_some_iff.1 (Except.ok.inj h)
  obtain ⟨⟨before, after⟩, hbreak, rfl⟩ := Option.map_eq_some_iff.1 hoffset
  have hlength := congrArg List.length (Text.eq_append_of_breakAt? hbreak)
  rw [itemsFrom] at hrest
  split at hrest
  · cases hrest
    rw [List.length_drop, List.length_append, List.length_append] at hlength
    dsimp only
    omega
  · cases hrest

end MailMerge.Memory
