import MailMerge.Memory.Gather
import MailMerge.Proofs.Bounds
import MailMerge.Proofs.FoundMarkup
import MailMerge.Proofs.FoundSpans

/-!
# Parts gathered in memory

Gathering a part cuts the contents of its text elements out, and weaves those that have changed into
the text between (`gatherPart_eq`). The elements increase, so whatever stands between the cursor and
the next new content can be cut out, and as an opening tag ends in an angle bracket, there is a
place in front of that for the attribute that it may gain (`lead_eq`).

Where no content has changed, the part is left alone, which is what weaving would come to as well.
-/

namespace MailMerge

open Text

/-- Fragments none of which differs are the same. -/
theorem eq_of_contains_changes {before after : List (List Char)} (h : after.length = before.length)
    (hsame : ¬(changes before after).contains true) : after = before := by
  induction before generalizing after with
  | nil => exact List.length_eq_zero_iff.1 h
  | cons fragment before ih =>
    cases after with
    | nil => cases h
    | cons fragment' after =>
      rw [changes, List.zipWith_cons_cons, List.contains_cons, Bool.or_eq_true, not_or] at hsame
      have hfragment : fragment = fragment' := by simpa using hsame.1
      rw [hfragment, ih (Nat.succ.inj h) hsame.2]

namespace Markup

/-- The opening tag of a chunk, if it has one, ends in an angle bracket. -/
def Chunk.IsEnded : Chunk → Prop
  | .char _ => True
  | .element opening _ => ∃ front, opening = front ++ ['>']

theorem isEnded_of_mem_chunks {s : List Char} {c : Chunk} (h : c ∈ chunks s) : c.IsEnded := by
  have hplain : ∀ {u : List Char}, c ∈ u.map .char → c.IsEnded := by
    intro u hu
    obtain ⟨d, -, rfl⟩ := List.mem_map.1 hu
    trivial
  fun_induction chunks s with
  | case1 => cases h
  | case2 d rest _ ih =>
    rcases List.mem_cons.1 h with rfl | h
    · trivial
    · exact ih h
  | case3 d rest tag after hstart _ ih =>
    exact (List.mem_append.1 h).elim hplain ih
  | case4 d rest opening content after hstart _ ih =>
    rcases List.mem_cons.1 h with rfl | h
    · obtain ⟨x, after', hopening, -⟩ := opening_of_start hstart
      exact ⟨_, hopening⟩
    · exact ih h
  | case5 d rest _ => exact hplain h

theorem map_content_locateElements (place : Nat) (cs : List Chunk) :
    (locateElements place cs).map (fun e => e.content.value) = cs.filterMap Chunk.content? := by
  induction cs generalizing place with
  | nil => rfl
  | cons c cs ih =>
    cases c with
    | char c => exact ih _
    | element opening content => exact congrArg (content :: ·) (ih _)

end Markup

namespace Memory

open Markup

/-! ### Contents -/

/-- The tag and the content of a text element that is found can be cut out. -/
theorem slices_of_mem {s : List Char} {e : TextElement} (h : e ∈ locateElements 0 (chunks s)) :
    slice e.opening.start e.opening.stop s = .ok e.opening.value ∧
      slice e.content.start e.content.stop s = .ok e.content.value := by
  obtain ⟨u, x, content, v, rfl, -, -, -, rfl⟩ := exists_of_mem_locateElements h
  have hplace : 0 + byteSize u = byteSize u := Nat.zero_add _
  refine ⟨slice_append hplace rfl _, ?_⟩
  rw [← List.append_assoc u, hplace]
  exact slice_append (byteSize_append ..).symm rfl _

/-- The content of each text element is cut out. -/
theorem slices_eq (s : List Char) :
    ((locateElements 0 (chunks s)).map Element.of).mapM
        (fun e => slice e.content.start e.content.stop s) = .ok (textContents s) := by
  rw [List.mapM_map, textContents, ← map_content_locateElements 0]
  exact mapM_eq_ok fun e he => (slices_of_mem he).2

/-! ### Weaving -/

theorem contains_encode_spaceName (s : List Char) :
    Text.contains (encode "xml:space".toList) (encode s) = Text.contains "xml:space".toList s := by
  have hname : IsNarrow ('x' :: "ml:space".toList) := by decide
  have hbreak := breakAt?_encode hname s
  rw [Text.contains, show "xml:space".toList = 'x' :: "ml:space".toList from rfl, hbreak,
    Option.isSome_map, Text.contains]

/-- What leads to the new content of an element: the text between, and the opening tag. -/
theorem lead_eq (done pending opening content after : List Char)
    (hended : (Chunk.element opening content).IsEnded) :
    lead (done ++ (pending ++ (opening ++ after))) (byteSize done)
        (Element.of (.at (byteSize (done ++ pending)) opening content))
      = .ok (pending ++ keepingSpace opening) := by
  obtain ⟨front, rfl⟩ := hended
  have hend : byteSize ['>'] = 1 := rfl
  rw [lead, keepingSpace]
  have htag : itemsBetween (byteSize (done ++ pending))
      (byteSize (done ++ pending) + byteSize (front ++ ['>']))
      (encode (done ++ (pending ++ (front ++ ['>'] ++ after))))
        = .ok (encode (front ++ ['>'])) := by
    rw [← List.append_assoc done, encode_append, encode_append (front ++ ['>'])]
    exact itemsBetween_append (length_encode _).symm (by rw [length_encode]) _
  dsimp only [Element.of, TextElement.at]
  rw [htag, ok_bind, contains_encode_spaceName]
  split
  · rw [← List.append_assoc pending]
    exact slice_append rfl (by simp only [byteSize_append]; omega) _
  · have hsub : sub (byteSize (done ++ pending) + byteSize (front ++ ['>'])) 1
        = .ok (byteSize done + byteSize (pending ++ front)) := by
      rw [sub_of_le (by rw [byteSize_append front]; omega)]
      simp only [byteSize_append, hend]
      congr 1
      omega
    have hslice : slice (byteSize done) (byteSize done + byteSize (pending ++ front))
        (done ++ (pending ++ front ++ (['>'] ++ after))) = .ok (pending ++ front) :=
      slice_append rfl rfl _
    rw [hsub, ok_bind, List.dropLast_concat, List.append_assoc front, ← List.append_assoc pending,
      hslice, ok_bind, List.append_assoc]
    rfl

/-- A part is woven from chunks and new contents: `done` has been dealt with, and `pending` stands
between the cursor and the chunks. -/
theorem weave_eq (done pending : List Char) {s : List Char} {cs : List Chunk}
    {new : List (List Char)} (hs : s = done ++ (pending ++ cs.flatMap Chunk.text))
    (hended : ∀ c ∈ cs, c.IsEnded)
    (hlength : new.length = (cs.filterMap Chunk.content?).length) :
    weave s (byteSize done)
        (((locateElements (byteSize (done ++ pending)) cs).map Element.of).zip
          (new.zip (changes (cs.filterMap Chunk.content?) new)))
      = .ok (pending ++ withContents cs new) := by
  induction cs generalizing done pending new with
  | nil =>
    rw [hs]
    exact sliceFrom_append rfl _
  | cons c cs ih =>
    obtain ⟨hc, hcs⟩ := List.forall_mem_cons.1 hended
    cases c with
    | char c =>
      have hplace : byteSize (done ++ pending) + c.utf8Size
          = byteSize (done ++ (pending ++ [c])) := by
        simp only [byteSize_append, byteSize_cons, byteSize_nil]
        omega
      have hrest := ih done (pending ++ [c]) (by rw [hs]; simp [Chunk.text]) hcs hlength
      rw [← hplace, List.append_assoc] at hrest
      exact hrest
    | element opening content =>
      cases new with
      | nil => cases hlength
      | cons new news =>
        have hlength : news.length = (cs.filterMap Chunk.content?).length := Nat.succ.inj hlength
        have hcontents : (Chunk.element opening content :: cs).filterMap Chunk.content?
            = content :: cs.filterMap Chunk.content? := rfl
        have hstop : byteSize (done ++ pending) + byteSize opening + byteSize content
            = byteSize (done ++ (pending ++ (opening ++ content))) := by
          simp only [byteSize_append]
          omega
        have htext : s = done ++ (pending ++ (opening ++ (content ++ cs.flatMap Chunk.text))) := by
          rw [hs, List.flatMap_cons, Chunk.text, List.append_assoc opening]
        rw [locateElements, List.map_cons, withContents, hcontents, changes, List.zipWith_cons_cons,
          ← changes, List.zip_cons_cons, List.zip_cons_cons,
          show (TextElement.at (byteSize (done ++ pending)) opening content).content.stop
            = byteSize (done ++ (pending ++ (opening ++ content))) from hstop]
        by_cases hsame : new = content
        · -- what is kept waits for the next element that changes
          rw [hsame, bne_self_eq_false, weave, ih done _ (by rw [htext]; simp) hcs hlength,
            if_pos rfl]
          simp only [List.append_assoc]
        · have hchanged : (content != new) = true := bne_iff_ne.2 (Ne.symm hsame)
          have hlead := lead_eq done pending opening content (content ++ cs.flatMap Chunk.text) hc
          have hrest := ih (done ++ (pending ++ (opening ++ content))) [] (by rw [htext]; simp)
            hcs hlength
          rw [List.append_nil, ← hstop] at hrest
          rw [← htext] at hlead
          rw [hchanged, weave, hlead, if_neg hsame, ok_bind, ← hstop]
          refine bind_eq_ok.2 ⟨_, hrest, ?_⟩
          rw [pure_eq_ok, List.nil_append]
          simp only [List.append_assoc]

/-- **Gathering a part in memory is gathering it**, and no step of it fails. -/
theorem gatherPart_eq {bound : UInt64} {s : List Char} (hbound : bound.toNat < 2 ^ 63)
    (hsize : byteSize s < 2 ^ 63) :
    gatherPart bound s = .ok (Markup.gatherPart (windowSize bound) s) := by
  have helements : elementsFrom 0 (encode s)
      = .ok ((locateElements 0 (chunks s)).map Element.of) := elementsFrom_eq (isCut [] s)
  have hgather : gather bound (textContents s)
      = .ok (MailMerge.gather (windowSize bound) (textContents s)) :=
    gather_eq hbound (Nat.lt_of_le_of_lt (byteSize_visibleText_le s) hsize)
  have hlength := length_gather (windowSize bound) (textContents s)
  rw [gatherPart, helements, ok_bind, slices_eq, ok_bind, hgather, ok_bind, Markup.gatherPart]
  dsimp only
  split
  · exact weave_eq [] [] (text_chunks s).symm
      (fun c hc => isEnded_of_mem_chunks hc) hlength
  · next hsame => rw [eq_of_contains_changes hlength hsame, withContents_self, pure_eq_ok]

end Memory

end MailMerge
