import MailMerge.Memory.Expansion
import MailMerge.Proofs.Bounds
import MailMerge.Proofs.Branches
import MailMerge.Proofs.FoundRows
import MailMerge.Proofs.FoundTags
import MailMerge.Proofs.Rounds

/-!
# Passes in memory

A pass over a text gives what a recursion over its tokens gives, when each tag has the outcome that
the recursion has for it (`Outcome.Agrees`, `passFrom_eq`). What is between the cursor and the next
tag is then always there to be cut out, and each stretch that an outcome is computed from, the body
of a loop or a branch of a conditional, is a part of the same text.

The table pass edits its text, so its places are reckoned anew in each round (`tableRound_eq`): the
row around a mark starts before the mark and stops behind it, so it can be cut out and replaced.

Places and lengths are reckoned as long as each text that is scanned takes less than `2 ^ 63` bytes,
as any text in memory does.
-/

namespace MailMerge.Memory

open Text

/-! ### From tag to tag -/

section From

variable {outcome : Nat → (tag : Found Tag) → Except Fault (Outcome tag)} {s : List Char}
  {placed cursor : Nat} {sweep after : Sweep} {tag : Found Tag}

theorem passFrom_of_none (h : nextTag s sweep = .ok (none, after)) :
    passFrom outcome s placed cursor sweep = (sliceFrom cursor s).map .literal := by
  rw [passFrom]
  split <;> rename_i h' <;> rw [h] at h' <;> cases h'

theorem passFrom_of_keep (h : nextTag s sweep = .ok (some tag, after)) {notes : List Warning}
    (ho : outcome placed tag = .ok (.keep notes)) :
    passFrom outcome s placed cursor sweep
      = (passFrom outcome s placed cursor after).map ({ warnings := notes } ++ ·) := by
  rw [passFrom]
  split <;> rename_i h' <;> rw [h] at h' <;> cases h'
  rw [ho]

theorem passFrom_of_put (h : nextTag s sweep = .ok (some tag, after)) {e : Expansion} {stop : Nat}
    {hle : tag.stop ≤ stop} (ho : outcome placed tag = .ok (.put e stop hle)) :
    passFrom outcome s placed cursor sweep = do
      let front ← slice cursor tag.start s
      let rest ← passFrom outcome s (placed + e.images.length) stop (after.seek stop)
      return .literal front ++ (e ++ rest) := by
  rw [passFrom]
  split <;> rename_i h' <;> rw [h] at h' <;> cases h'
  rw [ho]

end From

/-- The outcome of a tag in front of a text is what a recursion over tokens has for it. -/
def Outcome.Agrees (result : Nat → List Token → Expansion) (window placed : Nat) (t : Tag)
    (r : List Char) {tag : Found Tag} : Outcome tag → Prop
  | .keep notes => result placed (.tag t :: tokens window r)
      = .literal t.text ++ ({ warnings := notes } ++ result placed (tokens window r))
  | .put e stop _ => ∃ body r', r = body ++ r' ∧ stop = tag.stop + byteSize body ∧
      result placed (.tag t :: tokens window r)
        = e ++ result (placed + e.images.length) (tokens window r')

section Passes

variable {bound : UInt64} (hbound : bound.toNat < 2 ^ 63) {s : List Char}
  (hsize : byteSize s < 2 ^ 63) {result : Nat → List Token → Expansion}
  (hnil : ∀ placed, result placed [] = {})
  (hchars : ∀ placed u ts,
    result placed (u.map .char ++ ts) = .literal u ++ result placed ts)
  {outcome : Nat → (tag : Found Tag) → Except Fault (Outcome tag)}
  (htag : ∀ placed front t r, s = front ++ (t.text ++ r) → t.Fits (windowSize bound) →
    ∃ o, outcome placed (foundBehind front t) = .ok o ∧
      o.Agrees result (windowSize bound) placed t r)

include hbound hsize hnil hchars htag

/-- The text between the cursor and the place of the scan waits until something is put behind it. -/
theorem passFrom_eq (placed : Nat) (done pending rest : List Char)
    (hs : s = done ++ (pending ++ rest)) :
    passFrom outcome s placed (byteSize done) (Sweep.ofText s bound (byteSize (done ++ pending)))
      = .ok (.literal pending ++ result placed (tokens (windowSize bound) rest)) := by
  induction hn : rest.length using Nat.strong_induction_on
    generalizing placed done pending rest with
  | h n ih =>
    subst hn
    rcases plain_or_tag (windowSize bound) rest with hplain | ⟨u, t, r, rfl, hfits, htokens⟩
    · obtain ⟨after, hnext⟩ :=
        nextTag_plain hbound hsize (hs.trans (List.append_assoc ..).symm) hplain
      have hrest := hchars placed rest []
      rw [List.append_nil, hnil, Expansion.append_empty] at hrest
      rw [passFrom_of_none hnext, hs, sliceFrom_append rfl, hplain, hrest,
        ← Expansion.literal_append]
      rfl
    · have hfront : s = done ++ pending ++ (u ++ (t.text ++ r)) :=
        hs.trans (List.append_assoc ..).symm
      have hnext := nextTag_tag hbound hsize hfront htokens
      obtain ⟨o, ho, hagrees⟩ := htag placed (done ++ pending ++ u) t r (by simp [hfront]) hfits
      rw [htokens, hchars]
      cases o with
      | keep notes =>
        have hlater := ih r.length (length_lt_of_tag u t r) placed done (pending ++ u ++ t.text) r
          (by simp [hs]) rfl
        have hnotes (text : List Char) (e : Expansion) : ({ warnings := notes } : Expansion)
            ++ (.literal text ++ e) = .literal text ++ ({ warnings := notes } ++ e) := by
          rw [← Expansion.append_assoc, ← Expansion.literal_append_comm rfl, Expansion.append_assoc]
        rw [← List.append_assoc, ← List.append_assoc] at hlater
        rw [passFrom_of_keep hnext ho, hlater, map_ok, hagrees]
        simp only [Expansion.literal_append, Expansion.append_assoc, hnotes]
      | put e stop hle =>
        obtain ⟨body, r', rfl, hstop, hresult⟩ := hagrees
        have hplace : stop = byteSize (done ++ pending ++ u ++ t.text ++ body) := by
          rw [hstop, byteSize_append _ body]
          rfl
        have hlater := ih r'.length
          (Nat.lt_of_le_of_lt (by simp) (length_lt_of_tag u t (body ++ r')))
          (placed + e.images.length) (done ++ pending ++ u ++ t.text ++ body) [] r' (by simp [hs])
          rfl
        rw [List.append_nil, Expansion.literal_nil, Expansion.empty_append, ← hplace] at hlater
        have hslice : slice (byteSize done) (byteSize (done ++ pending ++ u)) s
            = .ok (pending ++ u) := by
          rw [show s = done ++ (pending ++ u ++ (t.text ++ (body ++ r'))) by simp [hs]]
          exact slice_append rfl (by simp) _
        rw [passFrom_of_put hnext ho]
        refine bind_eq_ok.2 ⟨_, hslice, bind_eq_ok.2 ⟨_, hlater, ?_⟩⟩
        rw [hresult, Expansion.literal_append, Expansion.append_assoc]
        rfl

variable (result) in
/-- A pass does what the recursion over the tokens says. -/
theorem pass_eq : pass bound outcome s = .ok (result 0 (tokens (windowSize bound) s)) := by
  have h := passFrom_eq hbound hsize hnil hchars htag 0 [] [] s rfl
  rwa [Expansion.literal_nil, Expansion.empty_append] at h

end Passes

/-- The tokens that are closed, and those behind, are read from parts of the text. -/
theorem exists_of_closedBy?_tokens {window : Nat} {name : String} {r : List Char}
    {body after : List Token} (h : closedBy? name (tokens window r) = some (body, after)) :
    ∃ u v, r = u ++ ((Tag.close name).text ++ v) ∧ tokens window u = body ∧
      tokens window v = after := by
  have hread := isRead_tokens window r
  have hs := eq_append_of_closedBy? h
  rw [hs] at hread
  refine ⟨body.flatMap Token.text, after.flatMap Token.text, ?_, hread.of_append_tag,
    hread.of_append_right.tail⟩
  rw [← text_tokens window r, hs, List.flatMap_append, List.flatMap_cons]
  rfl

/-! ### Repetition -/

section Repetition

variable (data : DataTree) {options : Options} (hbound : options.maxTokenLength.toNat < 2 ^ 63)
  (of : Repetition) (name : String)

include hbound

theorem expandFields_eq (item : Value) {s : List Char} (hsize : byteSize s < 2 ^ 63) :
    expandFields options of name item s
      = .ok (MailMerge.expandFields options of name item (tokens options.window s)) := by
  have hplain {t : Tag} (ht : expandField options of name item (.tag t) = .literal t.text)
      (placed : Nat) (r : List Char) {tag : Found Tag} :
      (Outcome.keep [] : Outcome tag).Agrees
        (fun _ ts => MailMerge.expandFields options of name item ts) options.window placed t r := by
    rw [Outcome.Agrees, MailMerge.expandFields, List.map_cons, Expansion.join, ht,
      Expansion.empty_append]
    rfl
  refine pass_eq hbound hsize _ (fun _ => rfl)
    (fun _ u ts => expandFields_map_char_append options of name item u ts) ?_
  intro placed front t r hs hfits
  cases t with
  | simple field => exact ⟨_, rfl, [], r, rfl, rfl, rfl⟩
  | table field =>
    by_cases hof : of = .table
    · exact ⟨_, congrArg Except.ok (if_pos hof), [], r, rfl, rfl, rfl⟩
    · have hkeep : expandField options of name item (.tag (.table field))
          = .literal (Tag.table field).text := if_neg hof
      exact ⟨_, congrArg Except.ok (if_neg hof), hplain hkeep placed r⟩
  | _ => exact ⟨_, rfl, hplain rfl placed r⟩

/-- A text is repeated as its tokens are. -/
theorem expandItems_eq (counts : Stats) {s : List Char} (hsize : byteSize s < 2 ^ 63) :
    expandItems data options of name counts s
      = .ok (match listFor data of name with
        | .error w => .warning w
        | .ok items => { stats := counts }
            ++ MailMerge.expandItems options of name (tokens options.window s) items) := by
  rw [expandItems]
  cases listFor data of name with
  | error w => rfl
  | ok items =>
    dsimp only
    rw [mapM_eq_ok fun item _ => expandFields_eq hbound of name item hsize]
    rfl

theorem expandItems_loop {s : List Char} (hsize : byteSize s < 2 ^ 63) :
    expandItems data options .loop name { loops := 1 } s
      = .ok (expandLoop data options name (tokens options.window s)) :=
  expandItems_eq data hbound .loop name _ hsize

theorem expandItems_table {s : List Char} (hsize : byteSize s < 2 ^ 63) :
    expandItems data options .table name { tables := 1 } s
      = .ok (expandRow data options name s) :=
  expandItems_eq data hbound .table name _ hsize

end Repetition

/-! ### Loops and conditionals by what is found -/

section Outcomes

variable {data : DataTree} {options : Options} {s : List Char} {name : String} {tag : Found Tag}

theorem loopOutcome_of_none
    (h : findClose name s (Sweep.ofText s options.maxTokenLength tag.stop) = .ok none) :
    loopOutcome data options s name tag = .ok (.keep [.unclosedLoop name]) := by
  rw [loopOutcome]
  split <;> rename_i h' <;> rw [h] at h' <;> cases h'

theorem loopOutcome_of_some {closing : Found Tag} {body : List Char} {e : Expansion}
    (h : findClose name s (Sweep.ofText s options.maxTokenLength tag.stop) = .ok (some closing))
    (hbody : slice tag.stop closing.start s = .ok body)
    (he : expandItems data options .loop name { loops := 1 } body = .ok e) :
    ∃ hle, loopOutcome data options s name tag = .ok (.put e closing.stop hle) := by
  rw [loopOutcome]
  split <;> rename_i h' <;> rw [h] at h' <;> cases h'
  rw [hbody, ok_bind, he]
  exact ⟨Nat.le_trans (of_findClose h).1 (Nat.le_of_lt (of_findClose h).2.1), rfl⟩

variable {resolve : (r : List Char) → byteSize r < byteSize s → Except Fault Expansion}

theorem conditionalOutcome_of_none
    (h : findBranches name s [] none (Sweep.ofText s options.maxTokenLength tag.stop)
      = .ok none) :
    conditionalOutcome data options s resolve name tag
      = .ok (.keep [.unclosedConditional name]) := by
  rw [conditionalOutcome]
  split <;> rename_i h' <;> rw [h] at h' <;> cases h'

theorem conditionalOutcome_of_some {parting : Option (Found Tag)} {closing : Found Tag}
    {r : List Char} {e : Expansion}
    (h : findBranches name s [] none (Sweep.ofText s options.maxTokenLength tag.stop)
      = .ok (some (parting, closing)))
    (hbranch : branch (holds data name) tag parting closing s = .ok r)
    (he : ∀ hlt, resolve r hlt = .ok e) :
    ∃ hle, conditionalOutcome data options s resolve name tag
      = .ok (.put ({ stats := { conditionals := 1 } } ++ e) closing.stop hle) := by
  have hfound := of_findBranches h fun p hp => absurd hp (Option.not_mem_none p)
  rw [conditionalOutcome]
  split <;> rename_i h' <;> rw [h] at h' <;> cases h'
  dsimp only
  split <;> rename_i h' <;> rw [hbranch] at h' <;> cases h'
  rw [he]
  exact ⟨Nat.le_trans hfound.2.1 (Nat.le_of_lt hfound.2.2.1), rfl⟩

end Outcomes

/-! ### Branches -/

section Branches

variable {window : Nat} {s u : List Char}

theorem chosen_eq (b : Bool) (ts : List Token) :
    chosen b ts = if b then (branches [] ts).1 else (branches [] ts).2.getD [] := rfl

/-- The branch that is chosen is cut out of the text. -/
theorem branch_eq {name : String} {front v : List Char}
    (hs : s = front ++ (u ++ ((Tag.close name).text ++ v))) (b : Bool) {opening : Found Tag}
    (hopening : opening.stop = byteSize front) :
    branch b opening (partingBehind front [] (tokens window u))
        (foundBehind (front ++ u) (.close name)) s
      = .ok ((chosen b (tokens window u)).flatMap Token.text) := by
  rw [partingBehind, chosen_eq]
  have hu := text_tokens window u
  cases hno : (branches [] (tokens window u)).2 with
  | none =>
    obtain ⟨hyes, -⟩ := branches_eq_none hno
    cases b with
    | false => rfl
    | true =>
      rw [if_pos rfl, hyes, hu, hs]
      exact slice_append hopening (hopening ▸ byteSize_append ..) _
  | some no =>
    obtain ⟨hbody, -, -⟩ := branches_eq_some hno
    rw [hbody, List.flatMap_append, List.flatMap_cons] at hu
    generalize (branches [] (tokens window u)).1 = yes at hu ⊢
    cases b with
    | false =>
      have hs' : s = (front ++ yes.flatMap Token.text ++ Tag.otherwise.text)
          ++ (no.flatMap Token.text ++ ((Tag.close name).text ++ v)) := by
        rw [hs, ← hu]
        simp [Token.text]
      have hstop : byteSize (front ++ u) = byteSize (front ++ yes.flatMap Token.text
          ++ Tag.otherwise.text) + byteSize (no.flatMap Token.text) := by
        rw [← hu]
        simp [Token.text, Nat.add_assoc]
      rw [hs']
      exact slice_append rfl hstop _
    | true =>
      have hs' : s = front ++ (yes.flatMap Token.text
          ++ (Tag.otherwise.text ++ (no.flatMap Token.text ++ ((Tag.close name).text ++ v)))) := by
        rw [hs, ← hu]
        simp [Token.text]
      rw [hs']
      exact slice_append hopening (by rw [hopening, ← byteSize_append]; rfl) _

theorem isRead_chosen (b : Bool) : IsRead window (chosen b (tokens window u)) := by
  have hread := isRead_tokens window u
  rw [chosen_eq]
  cases hno : (branches [] (tokens window u)).2 with
  | none =>
    obtain ⟨hyes, -⟩ := branches_eq_none hno
    rw [hyes]
    cases b with
    | false => exact tokens_nil window
    | true => exact hread
  | some no =>
    obtain ⟨hbody, -, -⟩ := branches_eq_some hno
    rw [hbody] at hread
    cases b with
    | false => exact hread.of_append_right.tail
    | true => exact hread.of_append_tag

end Branches

section Expand

variable {data : DataTree} {options : Options} (hbound : options.maxTokenLength.toNat < 2 ^ 63)
  {s : List Char} (hsize : byteSize s < 2 ^ 63)

include hbound hsize

/-! ### Loops -/

/-- The body of a loop is cut out of the text and repeated. -/
theorem loopOutcome_eq {name : String} (placed : Nat) {front r : List Char}
    (hs : s = front ++ ((Tag.loopOpen name).text ++ r)) :
    ∃ o, loopOutcome data options s name (foundBehind front (.loopOpen name)) = .ok o ∧
      o.Agrees (fun _ ts => MailMerge.expandLoops data options ts) options.window placed
        (.loopOpen name) r := by
  have hclose : findClose name s (Sweep.ofText s options.maxTokenLength
      (foundBehind front (.loopOpen name)).stop)
        = .ok ((closedBy? name (tokens options.window r)).map _) :=
    findClose_eq hbound hsize name (hs.trans (List.append_assoc ..).symm)
  cases hfound : closedBy? name (tokens options.window r) with
  | none =>
    rw [hfound] at hclose
    refine ⟨_, loopOutcome_of_none hclose, ?_⟩
    rw [Outcome.Agrees, expandLoops_unclosed hfound, Expansion.append_assoc]
    rfl
  | some found =>
    obtain ⟨body, after⟩ := found
    obtain ⟨u, v, rfl, rfl, rfl⟩ := exists_of_closedBy?_tokens hfound
    rw [hfound, Option.map_some] at hclose
    dsimp only at hclose
    rw [text_tokens] at hclose
    have hslice : slice (foundBehind front (.loopOpen name)).stop
        (byteSize (front ++ (Tag.loopOpen name).text ++ u)) s = .ok u := by
      rw [hs, ← List.append_assoc]
      exact slice_append rfl (byteSize_append ..) _
    have hu : byteSize u < 2 ^ 63 := by
      rw [hs, byteSize_append, byteSize_append, byteSize_append] at hsize
      omega
    obtain ⟨hle, hput⟩ := loopOutcome_of_some hclose hslice (expandItems_loop data hbound name hu)
    refine ⟨_, hput, u ++ (Tag.close name).text, v, (List.append_assoc ..).symm, ?_, ?_⟩
    · simp only [foundBehind, byteSize_append]
      omega
    · exact expandLoops_closed hfound

theorem expandLoops_eq :
    expandLoops data options s
      = .ok (MailMerge.expandLoops data options (tokens options.window s)) := by
  refine pass_eq hbound hsize (fun _ ts => MailMerge.expandLoops data options ts)
    (fun _ => expandLoops_nil) (fun _ => expandLoops_map_char_append) ?_
  intro placed front t r hs hfits
  cases t with
  | loopOpen name => exact loopOutcome_eq hbound hsize placed hs
  | _ =>
    refine ⟨_, rfl, ?_⟩
    rw [Outcome.Agrees, expandLoops_cons (by simp), Expansion.empty_append]
    rfl

/-! ### Conditionals -/

/-- The branch of a conditional is cut out of the text and resolved. -/
theorem conditionalOutcome_eq
    {resolve : (r : List Char) → byteSize r < byteSize s → Except Fault Expansion}
    (hresolve : ∀ r hlt, resolve r hlt
      = .ok (MailMerge.expandConditionals data (tokens options.window r)))
    {name : String} (placed : Nat) {front r : List Char}
    (hs : s = front ++ ((Tag.condOpen name).text ++ r)) :
    ∃ o, conditionalOutcome data options s resolve name (foundBehind front (.condOpen name))
        = .ok o ∧
      o.Agrees (fun _ ts => MailMerge.expandConditionals data ts) options.window placed
        (.condOpen name) r := by
  have hs' := hs.trans (List.append_assoc ..).symm
  have hbranches : findBranches name s [] none (Sweep.ofText s options.maxTokenLength
      (foundBehind front (.condOpen name)).stop)
        = .ok ((closedBy? name (tokens options.window r)).map _) :=
    findBranches_eq hbound hsize name hs' [] none
  cases hfound : closedBy? name (tokens options.window r) with
  | none =>
    rw [hfound] at hbranches
    refine ⟨_, conditionalOutcome_of_none hbranches, ?_⟩
    rw [Outcome.Agrees, expandConditionals_unclosed hfound, Expansion.append_assoc]
    rfl
  | some found =>
    obtain ⟨body, after⟩ := found
    obtain ⟨u, v, rfl, rfl, rfl⟩ := exists_of_closedBy?_tokens hfound
    rw [hfound, Option.map_some] at hbranches
    dsimp only at hbranches
    rw [text_tokens, Option.none_or] at hbranches
    obtain ⟨hle, hput⟩ := conditionalOutcome_of_some hbranches
      (branch_eq hs' (holds data name) rfl) (hresolve _)
    refine ⟨_, hput, u ++ (Tag.close name).text, v, (List.append_assoc ..).symm, ?_, ?_⟩
    · simp only [foundBehind, byteSize_append]
      omega
    · rw [isRead_chosen]
      exact expandConditionals_closed hfound

theorem expandConditionals_eq :
    expandConditionals data options s
      = .ok (MailMerge.expandConditionals data (tokens options.window s)) := by
  induction hn : byteSize s using Nat.strong_induction_on generalizing s with
  | h n ih =>
    subst hn
    rw [expandConditionals]
    refine pass_eq hbound hsize (fun _ ts => MailMerge.expandConditionals data ts)
      (fun _ => expandConditionals_nil) (fun _ => expandConditionals_map_char_append) ?_
    intro placed front t r hs hfits
    cases t with
    | condOpen name =>
      exact conditionalOutcome_eq hbound hsize
        (fun r hlt => ih (byteSize r) hlt (Nat.lt_trans hlt hsize) rfl) placed hs
    | _ =>
      refine ⟨_, rfl, ?_⟩
      rw [Outcome.Agrees, MailMerge.expandConditionals_cons (by simp), Expansion.empty_append]
      rfl

/-! ### Table rows -/

omit hbound hsize in
/-- The row around a mark, by what is found in the text. -/
theorem rowAround_eq (before mark after : List Char) :
    rowAround (byteSize before) (byteSize (before ++ mark)) (encode (before ++ (mark ++ after)))
      = .ok (match Markup.rowStart before (mark ++ after),
          Markup.rowStop (before ++ mark) after with
        | some start, some stop => some ⟨inBytes (before ++ (mark ++ after)) start,
            inBytes (before ++ (mark ++ after)) stop⟩
        | _, _ => none) := by
  have hstop := rowStop_eq (isCut (before ++ mark) after)
  rw [List.append_assoc] at hstop
  rw [rowAround, rowStart_eq (isCut before (mark ++ after)), ok_bind, hstop, ok_bind]
  cases Markup.rowStart before (mark ++ after) with
  | none => rfl
  | some start => cases Markup.rowStop (before ++ mark) after <;> rfl

omit hbound hsize in
/-- The row around a mark starts in the text before and stops in the text behind. -/
theorem exists_row {mark before after : List Char} {start stop : Nat} (hmark : '<' ∉ mark)
    (hlength : 2 ≤ mark.length) (hstart : Markup.rowStart before (mark ++ after) = some start)
    (hstop : Markup.rowStop (before ++ mark) after = some stop) :
    ∃ front u v r, before = front ++ u ∧ after = v ++ r ∧ start = front.length ∧
      stop = (front ++ u ++ mark ++ v).length := by
  obtain ⟨front, u, rfl, rfl⟩ := Markup.exists_of_rowStart hstart
  obtain ⟨v, r, rfl, rfl⟩ := Markup.exists_of_rowStop hmark hlength hstop
  refine ⟨front, '<' :: u, v ++ ['>'], r, rfl, by simp, rfl, ?_⟩
  simp only [List.length_append, List.length_singleton, Nat.add_assoc]

omit hsize in
/-- A round replaces the row around the first mark, or removes the mark. -/
theorem tableRound_eq {done rest : List Char} (hsize : byteSize (done ++ rest) < 2 ^ 63) :
    tableRound data options (done ++ rest) (byteSize done)
      = .ok ((MailMerge.tableRound data options done rest).map fun (note, done', rest') =>
          (note, done' ++ rest', byteSize done')) := by
  have hmark : findMark (done ++ rest)
      (Sweep.ofText (done ++ rest) options.maxTokenLength (byteSize done))
        = .ok ((firstMark? (tokens options.window rest)).map _) := findMark_eq hbound hsize rfl
  rw [tableRound, hmark, ok_bind]
  cases hfirst : firstMark? (tokens options.window rest) with
  | none => rw [MailMerge.tableRound, hfirst]; rfl
  | some found =>
    obtain ⟨between, name⟩ := found
    obtain ⟨after, rfl, hfits, -⟩ := exists_of_firstMark?_tokens hfirst
    have hs : done ++ (between ++ ((Tag.table name).text ++ after))
        = done ++ between ++ ((Tag.table name).text ++ after) := (List.append_assoc ..).symm
    rw [MailMerge.tableRound_eq data hfirst rfl, Option.map_some]
    dsimp only
    rw [hs, rowAround_eq, ok_bind]
    rw [hs] at hsize
    generalize done ++ between = before at hsize ⊢
    cases hstart : Markup.rowStart before ((Tag.table name).text ++ after) with
    | none =>
      dsimp only
      rw [replace_append rfl (byteSize_append ..)]
      rfl
    | some start =>
      cases hstop : Markup.rowStop (before ++ (Tag.table name).text) after with
      | none =>
        dsimp only
        rw [replace_append rfl (byteSize_append ..)]
        rfl
      | some stop =>
        obtain ⟨front, u, v, r, rfl, rfl, rfl, rfl⟩ :=
          exists_row (notMem_tagText hfits) (length_text_table name) hstart hstop
        generalize (Tag.table name).text = mark at hsize ⊢
        have htext : front ++ u ++ (mark ++ (v ++ r)) = front ++ (u ++ mark ++ v ++ r) := by simp
        have hinside : (front ++ u ++ mark ++ v).length - (front ++ u ++ mark).length
            = v.length := by
          simp only [List.length_append]
          omega
        have hplace : inBytes (front ++ (u ++ mark ++ v ++ r)) (front ++ u ++ mark ++ v).length
            = byteSize front + byteSize (u ++ mark ++ v) := by
          rw [← byteSize_append]
          exact inBytes_of_append (List.append_assoc ..).symm (by simp)
        have hrow : byteSize (u ++ mark ++ v) < 2 ^ 63 := by
          rw [htext, byteSize_append, byteSize_append] at hsize
          omega
        dsimp only
        rw [hinside, List.drop_left, List.take_left, List.take_left, List.drop_left, htext,
          inBytes_of_append rfl rfl, hplace, slice_append rfl rfl, ok_bind,
          expandItems_table data hbound name hrow, ok_bind, replace_append rfl rfl, ok_bind,
          ← byteSize_append, ← List.append_assoc]
        rfl

omit hbound hsize in
theorem expandTablesFrom_of_none {place : Nat}
    (h : tableRound data options s place = .ok none) :
    expandTablesFrom data options s place = .ok (.literal s) := by
  rw [expandTablesFrom]
  split <;> rename_i h' <;> rw [h] at h' <;> cases h'

omit hbound hsize in
theorem expandTablesFrom_of_some {place place' : Nat} {note : Expansion} {s' : List Char}
    (h : tableRound data options s place = .ok (some (note, s', place'))) :
    expandTablesFrom data options s place
      = (expandTablesFrom data options s' place').map (note ++ ·) := by
  rw [expandTablesFrom]
  split <;> rename_i h' <;> rw [h] at h' <;> cases h'
  rfl

omit hsize in
/-- Each round goes on from the text that the one before has left. -/
theorem expandTablesFrom_eq {done rest : List Char}
    (hsize : ∀ s ∈ tableTexts data options done rest, byteSize s < 2 ^ 63) :
    expandTablesFrom data options (done ++ rest) (byteSize done)
      = .ok (MailMerge.expandTablesFrom data options done rest) := by
  fun_induction tableTexts data options done rest with
  | case1 done rest hround =>
    have h := @tableRound_eq data _ hbound _ _ (hsize _ List.mem_cons_self)
    rw [hround] at h
    rw [expandTablesFrom_of_none h, MailMerge.expandTablesFrom_of_none hround]
  | case2 done rest note done' rest' hround _ ih =>
    obtain ⟨hfirst, hrest⟩ := List.forall_mem_cons.1 hsize
    have h := @tableRound_eq data _ hbound _ _ hfirst
    rw [hround] at h
    rw [expandTablesFrom_of_some h, ih hrest, MailMerge.expandTablesFrom_of_some hround]
    rfl

omit hsize in
theorem expandTables_eq {s : List Char}
    (hsize : ∀ r ∈ tableTexts data options [] s, byteSize r < 2 ^ 63) :
    expandTables data options s = .ok (MailMerge.expandTables data options s) :=
  expandTablesFrom_eq hbound hsize

/-! ### Placeholders -/

theorem expandPlaceholders_eq :
    expandPlaceholders data options s
      = .ok (MailMerge.expandPlaceholders data options 0 (tokens options.window s)) := by
  refine pass_eq hbound hsize (MailMerge.expandPlaceholders data options)
    (fun _ => rfl) (fun _ => expandPlaceholders_map_char_append) ?_
  intro placed front t r hs hfits
  cases t with
  | simple name => exact ⟨_, rfl, [], r, rfl, rfl, rfl⟩
  | _ =>
    refine ⟨_, rfl, ?_⟩
    rw [Outcome.Agrees, expandPlaceholders_cons (by simp), Expansion.empty_append]
    rfl

omit hsize in
/-- **An expansion in memory is the expansion**, and no step of it fails. -/
theorem expand_eq {template : List Char}
    (hsize : ∀ s ∈ scannedTexts data options template, byteSize s < 2 ^ 63) :
    expand data options template = .ok (MailMerge.expand data options template) := by
  rw [scannedTexts, List.forall_mem_cons, List.forall_mem_cons, List.forall_mem_append,
    List.forall_mem_singleton] at hsize
  obtain ⟨htemplate, hlooped, htables, htabled⟩ := hsize
  rw [expand, expandLoops_eq hbound htemplate, ok_bind, expandConditionals_eq hbound hlooped,
    ok_bind, expandTables_eq hbound htables, ok_bind, expandPlaceholders_eq hbound htabled]
  rfl

end Expand

end MailMerge.Memory
