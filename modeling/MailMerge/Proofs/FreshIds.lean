import Mathlib.Data.List.Nodup
import MailMerge.Proofs.Relating

/-!
# Ids of new relationships

The ids that are handed out for a source are `rId` and the numbers above the largest that is in use,
without end; so no two of them are the same. Only numbers that are words count as being in use,
though. An id that spells a larger one is passed over when the largest is looked for, and is handed
out all the same once the count arrives at it: the new relationship is then hidden behind the old
one. `RelationshipIds.fresh_take` says when this does not happen.
-/

namespace MailMerge

namespace Relationships

/-- The relationships with more of them at the end. -/
def addAll (rs : Relationships) (news : List Relationship) : Relationships :=
  news.foldl add rs

theorem addAll_eq (rs : Relationships) (news : List Relationship) :
    rs.addAll news = { rs with entries := rs.entries ++ news } := by
  induction news generalizing rs with
  | nil => simp [addAll]
  | cons r news ih =>
    have hcons : rs.addAll (r :: news) = (rs.add r).addAll news := rfl
    rw [hcons, ih, add]
    simp

/-- Numbers that are found in ids are words. -/
theorem maxNumber_le_maxWord (rs : Relationships) : rs.maxNumber ≤ maxWord := by
  refine foldl_max_le (Nat.zero_le _) fun n hn => ?_
  obtain ⟨r, -, hr⟩ := List.mem_filterMap.1 hn
  obtain ⟨digits, -, hdigits⟩ := Option.bind_eq_some_iff.1 hr
  simpa using (Option.filter_eq_some_iff.1 hdigits).2

end Relationships

namespace RelationshipIds

/-- The next `n` ids, and the supply of those after them. -/
def take (ids : RelationshipIds) : Nat → List String × RelationshipIds
  | 0 => ([], ids)
  | n + 1 =>
    let (id, ids) := ids.next
    let (others, ids) := ids.take n
    (id :: others, ids)

/-- The ids that are handed out have consecutive numbers. -/
theorem take_eq (ids : RelationshipIds) (n : Nat) :
    ids.take n = ((List.range' ids.upcoming n).map idOf, ⟨ids.upcoming + n⟩) := by
  induction n generalizing ids with
  | zero => rfl
  | succ n ih =>
    have hnext : ids.next = (idOf ids.upcoming, ⟨ids.upcoming + 1⟩) := rfl
    rw [take, hnext]
    dsimp only
    rw [ih, List.range'_succ, List.map_cons, Nat.add_right_comm, Nat.add_assoc]

variable {rs : Relationships} {n : Nat}

theorem mem_take_above {id : String} : id ∈ ((above rs).take n).1 ↔
    ∃ k, rs.maxNumber < k ∧ k ≤ rs.maxNumber + n ∧ id = idOf k := by
  rw [take_eq, List.mem_map]
  simp only [List.mem_range'_1, above]
  constructor
  · rintro ⟨k, hk, rfl⟩
    exact ⟨k, by omega, by omega, rfl⟩
  · rintro ⟨k, hlt, hle, rfl⟩
    exact ⟨k, by omega, rfl⟩

theorem nodup_take (ids : RelationshipIds) (n : Nat) : (ids.take n).1.Nodup := by
  rw [take_eq]
  exact List.Nodup.map (fun _ _ => idOf_inj) List.nodup_range'

/-- An id is taken only when it spells a number that is no word. -/
theorem notMem_take_above_iff :
    (∀ r ∈ rs.entries, r.id ∉ ((above rs).take n).1) ↔
      ∀ r ∈ rs.entries, ∀ k, r.id = idOf k → k ≤ maxWord ∨ rs.maxNumber + n < k := by
  constructor
  · intro h r hr k hid
    by_contra hcon
    rw [not_or, Nat.not_le, Nat.not_lt] at hcon
    have hlarge := Nat.lt_of_le_of_lt rs.maxNumber_le_maxWord hcon.1
    exact h r hr (mem_take_above.2 ⟨k, hlarge, hcon.2, hid⟩)
  · intro h r hr hmem
    obtain ⟨k, hlt, hle, hid⟩ := mem_take_above.1 hmem
    rcases h r hr k hid with hword | hlarge
    · exact absurd (Relationships.le_maxNumber hr hid hword) (Nat.not_le.2 hlt)
    · omega

/-- New relationships are found by their ids, unless older ones are. -/
theorem get?_addAll {ids : List String} {make : String → Relationship}
    (hmake : ∀ id, (make id).id = id) {id : String} (hid : id ∈ ids) :
    (rs.addAll (ids.map make)).get? id = (rs.get? id).or (some (make id)) := by
  have hnew : (ids.map make).find? (fun r => r.id == id) = some (make id) := by
    induction ids with
    | nil => cases hid
    | cons other ids ih =>
      rw [List.map_cons, List.find?_cons, hmake]
      by_cases hother : other = id
      · simp [hother]
      · simp only [beq_eq_false_iff_ne.2 hother]
        exact ih ((List.mem_cons.1 hid).resolve_left (Ne.symm hother))
  rw [Relationships.addAll_eq, Relationships.get?, List.find?_append, hnew]
  rfl

/-- **Ids of new relationships.** They are pairwise distinct, and none is taken, unless an id in use
spells a number that is no word and that the count arrives at; a new relationship is found by its id
when the id is not taken. -/
theorem fresh_take (rs : Relationships) (n : Nat) :
    ((above rs).take n).1.length = n ∧ ((above rs).take n).1.Nodup ∧
      ((∀ r ∈ rs.entries, r.id ∉ ((above rs).take n).1) ↔
        ∀ r ∈ rs.entries, ∀ k, r.id = idOf k → k ≤ maxWord ∨ rs.maxNumber + n < k) ∧
      ∀ make : String → Relationship, (∀ id, (make id).id = id) →
        ∀ id ∈ ((above rs).take n).1,
          (rs.addAll (((above rs).take n).1.map make)).get? id
            = (rs.get? id).or (some (make id)) := by
  refine ⟨?_, nodup_take _ n, notMem_take_above_iff, fun make hmake id hid => get?_addAll hmake hid⟩
  rw [take_eq, List.length_map, List.length_range']

theorem fresh_take_pictures :
    let rs : Relationships := ⟨['/'], [⟨"rId3", "urn:x", "a.xml", false⟩,
      ⟨"custom", "urn:x", "b.xml", false⟩]⟩
    let make : String → Relationship := fun id => ⟨id, Relationship.image, "c.png", false⟩
    ((∀ id, (make id).id = id) ∧ "rId5" ∈ ((above rs).take 2).1) ∧
      (rs.addAll (((above rs).take 2).1.map make)).get? "rId5"
        = (rs.get? "rId5").or (some (make "rId5")) := by
  intro rs make
  have hmem : "rId5" ∈ ((above rs).take 2).1 := by decide +kernel
  exact ⟨⟨fun _ => rfl, hmem⟩, (fresh_take rs 2).2.2.2 make (fun _ => rfl) "rId5" hmem⟩

/-- An id that spells the number after the largest word is handed out again, and leads to the
relationship that had it before. -/
theorem taken_above_maxWord :
    let rs : Relationships := ⟨['/'], [⟨"rId4294967295", "urn:x", "a.xml", false⟩,
      ⟨"rId4294967296", "urn:x", "b.xml", false⟩]⟩
    let new : Relationship := ⟨"rId4294967296", "urn:x", "c.xml", false⟩
    ((above rs).take 1).1 = ["rId4294967296"] ∧ (∃ r ∈ rs.entries, r.id ∈ ((above rs).take 1).1) ∧
      ((rs.addAll [new]).get? new.id).map Relationship.target = some "b.xml" := by
  decide +kernel

end RelationshipIds

end MailMerge
