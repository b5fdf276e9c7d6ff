import MailMerge.Proofs.Shrinking

/-!
# Nesting

A text is **well nested** when it is made of character data and the tags of elements, and each
closing tag closes the element that was opened last. `placeAfter?` reads a text from left to right;
a `Place` knows the elements that are open and the tag that is being read, if any. So where a
stretch of text leads depends on nothing but where it starts, and stretches are put together by
`placeAfter?_append`.

The body of a loop or a branch need not be well nested: it may close the paragraph it starts in and
open the one it ends in. When all tags of blocks stand in elements of the same names (`LaidOut`),
such a stretch leads from this **path** to itself, and so do its copies, what is left when it is
dropped, and the branches it is made of. `Leads` says this of lists of tokens; the passes for loops,
conditionals and placeholders lead where their texts do (`Leads.expandLoops`,
`Leads.expandConditionals`, `Leads.expandPlaceholders`).
-/

namespace MailMerge

namespace Markup

/-! ### Tags of elements -/

/-- White space in a tag. -/
def isTagSpace (c : Char) : Bool :=
  c == ' ' || c == '\t' || c == '\r' || c == '\n'

/-- Characters that stand in the name of an element or attribute. The marks that start comments,
declarations and processing instructions are not among them. -/
def isNameSymbol (c : Char) : Bool :=
  !isTagSpace c && !("<>/=!?&\"'".toList).contains c

/-- Where the attributes of a tag are read. -/
inductive AttributePlace where
  /-- After white space, where a name may start. -/
  | apart
  | name
  /-- Between a name and its equals sign. -/
  | named
  /-- Before the value. -/
  | assigned
  | value (quote : Char)
  /-- Right behind a value, or behind the name of the element. -/
  | complete
  deriving DecidableEq, Repr

/-- The place in attributes behind one more character. -/
def AttributePlace.next : AttributePlace → Char → Option AttributePlace
  | value quote, c => some (if c = quote then complete else value quote)
  | assigned, c =>
    if isTagSpace c then some assigned
    else if c = '"' ∨ c = '\'' then some (value c)
    else none
  | place, c =>
    if isTagSpace c then some (if place = name ∨ place = named then named else apart)
    else if c = '=' then if place = name ∨ place = named then some assigned else none
    else if isNameSymbol c ∧ (place = apart ∨ place = name) then some name
    else none

/-- Whether a text is made of names with quoted values, each behind white space. -/
def areAttributes (s : List Char) : Bool :=
  match s.foldlM AttributePlace.next .complete with
  | some .apart | some .complete => true
  | _ => false

/-- A tag by what it does to the elements that are open. -/
inductive ElementTag where
  | opens (name : List Char)
  | closes (name : List Char)
  /-- A tag that is an element of its own. -/
  | empty (name : List Char)
  deriving DecidableEq, Repr

/-- The name at the start of a tag. -/
def nameOf (tag : List Char) : List Char :=
  tag.takeWhile (!isTagSpace ·)

/-- Whether a tag starts with a name, and only attributes follow. -/
def isNamed (tag : List Char) : Bool :=
  !(nameOf tag).isEmpty && (nameOf tag).all isNameSymbol
    && areAttributes (tag.dropWhile (!isTagSpace ·))

/-- Reads the tag of an element, given without its angle brackets. -/
def elementTag? : List Char → Option ElementTag
  | '/' :: tag =>
    if isNamed tag ∧ (tag.dropWhile (!isTagSpace ·)).all isTagSpace then some (.closes (nameOf tag))
    else none
  | tag =>
    if tag.getLast? = some '/' then
      if isNamed tag.dropLast then some (.empty (nameOf tag.dropLast)) else none
    else if isNamed tag then some (.opens (nameOf tag))
    else none

/-! ### Places -/

/-- The names of the elements that are open, the innermost first. -/
abbrev Path := List (List Char)

/-- The elements that are open behind a tag; a closing tag closes the innermost one. -/
def ElementTag.follow? : ElementTag → Path → Option Path
  | opens name, path => some (name :: path)
  | closes name, path => if path.head? = some name then some path.tail else none
  | empty _, path => some path

/-- A place in a text: the elements that are open there, and the tag that it stands in, as far as it
is read. -/
structure Place where
  path : Path := []
  tag : Option (List Char) := none
  deriving DecidableEq, Repr

/-- A place in character data. -/
def Place.at (path : Path) : Place :=
  { path }

/-- The place behind one more character. -/
def Place.next (p : Place) (c : Char) : Option Place :=
  match p.tag with
  | none => some (if c = '<' then { p with tag := some [] } else p)
  | some tag =>
    if c = '<' then none
    else if c = '>' then ((elementTag? tag).bind fun t => t.follow? p.path).map Place.at
    else some { p with tag := some (tag ++ [c]) }

/-- The place behind a text, if it can be read that far. -/
def placeAfter? (p : Place) (s : List Char) : Option Place :=
  s.foldlM Place.next p

/-- A sequence of character data and tags of elements in which each closing tag closes the element
that was opened last, and no element stays open. -/
def WellNested (s : List Char) : Prop :=
  placeAfter? {} s = some {}

instance : DecidablePred WellNested :=
  fun _ => inferInstanceAs (Decidable (_ = _))

theorem placeAfter?_append (p : Place) (s r : List Char) :
    placeAfter? p (s ++ r) = (placeAfter? p s).bind (placeAfter? · r) :=
  List.foldlM_append

theorem placeAfter?_cons (p : Place) (c : Char) (s : List Char) :
    placeAfter? p (c :: s) = (p.next c).bind (placeAfter? · s) :=
  rfl

theorem placeAfter?_of_notMem {s : List Char} (h : '<' ∉ s) (path : Path) :
    placeAfter? (.at path) s = some (.at path) := by
  induction s with
  | nil => rfl
  | cons c s ih =>
    rw [List.mem_cons, not_or] at h
    have hc : (Place.at path).next c = some (.at path) := by
      simp [Place.next, Place.at, Ne.symm h.1]
    rw [placeAfter?_cons, hc]
    exact ih h.2

end Markup

open Markup

/-! ### Tokens that lead from place to place -/

/-- A tag of a loop or a conditional. -/
def Tag.IsBlock : Tag → Prop
  | loopOpen _ | condOpen _ | close _ | otherwise => True
  | simple _ | table _ => False

instance : DecidablePred Tag.IsBlock
  | .loopOpen _ | .condOpen _ | .close _ | .otherwise => isTrue trivial
  | .simple _ | .table _ => isFalse id

/-- The place behind a token. A tag stands in character data, and a tag of a block at `path`. -/
def Token.placeAfter? (path : Path) (p : Place) : Token → Option Place
  | char c => p.next c
  | tag t => if p.tag = none ∧ (t.IsBlock → p.path = path) then some p else none

/-- Tokens lead from one place to another, with tags where they may stand. -/
def Leads (path : Path) (p q : Place) (ts : List Token) : Prop :=
  ts.foldlM (Token.placeAfter? path) p = some q

/-- A text is laid out with its blocks at a path: it is well nested, every brace belongs to a tag,
every tag stands in character data, and those of loops and conditionals in elements with the names
of the path. -/
structure LaidOut (window : Nat) (path : Path) (s : List Char) : Prop where
  wellNested : WellNested s
  braces : BracesInTags window s
  stands : ∀ before t after, tokens window s = before ++ .tag t :: after →
    ∃ p, placeAfter? {} (before.flatMap Token.text) = some p ∧ p.tag = none ∧
      (t.IsBlock → p.path = path)

instance (path : Path) (p q : Place) : DecidablePred (Leads path p q) :=
  fun _ => inferInstanceAs (Decidable (_ = _))

namespace Leads

variable {path : Path} {p q r : Place} {ts us : List Token}

theorem nil_iff : Leads path p q [] ↔ p = q := by
  simp [Leads]

theorem cons_iff {t : Token} :
    Leads path p q (t :: ts) ↔ ∃ r, t.placeAfter? path p = some r ∧ Leads path r q ts := by
  rw [Leads, List.foldlM_cons]
  exact Option.bind_eq_some_iff

theorem append_iff :
    Leads path p q (ts ++ us) ↔ ∃ r, Leads path p r ts ∧ Leads path r q us := by
  rw [Leads, List.foldlM_append]
  exact Option.bind_eq_some_iff

theorem append (ht : Leads path p q ts) (hu : Leads path q r us) : Leads path p r (ts ++ us) :=
  append_iff.2 ⟨q, ht, hu⟩

/-- A tag stands in character data, and leads nowhere else. -/
theorem tag_iff {t : Tag} :
    Leads path p q (.tag t :: ts) ↔
      (p.tag = none ∧ (t.IsBlock → p.path = path)) ∧ Leads path p q ts := by
  rw [cons_iff]
  constructor
  · rintro ⟨r, hr, hts⟩
    simp only [Token.placeAfter?] at hr
    split at hr
    · next h =>
      cases hr
      exact ⟨h, hts⟩
    · cases hr
  · rintro ⟨h, hts⟩
    exact ⟨p, if_pos h, hts⟩

/-- A tag of a block stands at the path of blocks. -/
theorem block_iff {t : Tag} (ht : t.IsBlock) :
    Leads path p q (.tag t :: ts) ↔ p = .at path ∧ Leads path p q ts := by
  rw [tag_iff]
  refine and_congr_left fun _ => ⟨fun h => ?_, ?_⟩
  · obtain ⟨p', tag⟩ := p
    obtain ⟨rfl, hpath⟩ := h
    obtain rfl : p' = path := hpath ht
    rfl
  · rintro rfl
    exact ⟨rfl, fun _ => rfl⟩

/-- Where proper tokens lead, their text does. -/
theorem placeAfter?_text {window : Nat} (hproper : ∀ t ∈ ts, t.Proper window)
    (h : Leads path p q ts) : placeAfter? p (ts.flatMap Token.text) = some q := by
  induction ts generalizing p with
  | nil =>
    rw [nil_iff.1 h]
    rfl
  | cons t ts ih =>
    rw [List.forall_mem_cons] at hproper
    rw [List.flatMap_cons, placeAfter?_append]
    cases t with
    | char c =>
      obtain ⟨r, hr, hts⟩ := cons_iff.1 h
      have hchar : placeAfter? p (Token.char c).text = some r := by
        rw [Token.text, placeAfter?_cons, show p.next c = some r from hr]
        rfl
      rw [hchar]
      exact ih hproper.2 hts
    | tag t =>
      obtain ⟨⟨hdata, -⟩, hts⟩ := tag_iff.1 h
      have hplace : p = .at p.path := by
        rw [Place.at, ← hdata]
      have htag : placeAfter? p (Token.tag t).text = some p := by
        rw [hplace]
        exact placeAfter?_of_notMem (notMem_tagText hproper.1) p.path
      rw [htag]
      exact ih hproper.2 hts

/-- Where the text of proper tokens leads, they do, when tags stand where they may. -/
theorem of_placeAfter?_text {window : Nat} (hproper : ∀ t ∈ ts, t.Proper window)
    (htext : Markup.placeAfter? p (ts.flatMap Token.text) = some q)
    (hstands : ∀ before t after, ts = before ++ .tag t :: after →
      ∃ r, Markup.placeAfter? p (before.flatMap Token.text) = some r ∧ r.tag = none ∧
        (t.IsBlock → r.path = path)) : Leads path p q ts := by
  induction ts generalizing p with
  | nil => exact nil_iff.2 (Option.some.inj htext)
  | cons t ts ih =>
    rw [List.forall_mem_cons] at hproper
    rw [List.flatMap_cons, placeAfter?_append, Option.bind_eq_some_iff] at htext
    obtain ⟨r, hr, hts⟩ := htext
    have hlater : Leads path r q ts := by
      refine ih hproper.2 hts fun before u after hu => ?_
      obtain ⟨r', hr', hplace⟩ := hstands (t :: before) u after (by rw [hu, List.cons_append])
      rw [List.flatMap_cons, placeAfter?_append, hr] at hr'
      exact ⟨r', hr', hplace⟩
    cases t with
    | char c =>
      rw [Token.text, placeAfter?_cons, Option.bind_eq_some_iff] at hr
      obtain ⟨r', hnext, hr⟩ := hr
      obtain rfl : r' = r := Option.some.inj hr
      exact cons_iff.2 ⟨r', hnext, hlater⟩
    | tag t =>
      obtain ⟨r', hr', hplace⟩ := hstands [] t ts rfl
      obtain rfl : p = r' := Option.some.inj hr'
      have hdata : p = .at p.path := by rw [Place.at, ← hplace.1]
      have hstays : Markup.placeAfter? p (Token.tag t).text = some p := by
        rw [hdata]
        exact placeAfter?_of_notMem (notMem_tagText hproper.1) p.path
      obtain rfl : p = r := Option.some.inj (hstays.symm.trans hr)
      exact tag_iff.2 ⟨hplace, hlater⟩

theorem map_char {s : List Char} (h : '<' ∉ s) (inner : Path) :
    Leads path (.at inner) (.at inner) (s.map .char) := by
  rw [Leads, List.foldlM_map]
  exact placeAfter?_of_notMem h inner

/-- The body of a block that is closed leads from the path of blocks to itself, and what follows
goes on from there. -/
theorem of_closedBy? {name : String} {body rest : List Token} (h : Leads path p q ts)
    (hclosed : closedBy? name ts = some (body, rest)) :
    Leads path p (.at path) body ∧ Leads path (.at path) q rest := by
  rw [eq_append_of_closedBy? hclosed, append_iff] at h
  obtain ⟨r, hbody, hrest⟩ := h
  obtain ⟨rfl, hrest⟩ := (block_iff (t := .close name) trivial).1 hrest
  exact ⟨hbody, hrest⟩

/-- What `{:else}` parts stands at the path of blocks, too. -/
theorem branches (h : Leads path p q ts) (opened : List String) :
    ((branches opened ts).2 = none ∧ Leads path p q (branches opened ts).1) ∨
      ∃ no, (branches opened ts).2 = some no ∧ Leads path p (.at path) (branches opened ts).1 ∧
        Leads path (.at path) q no := by
  induction ts generalizing p opened with
  | nil => exact Or.inl ⟨rfl, h⟩
  | cons t ts ih =>
    rw [MailMerge.branches]
    split
    · next hparts =>
      obtain ⟨-, rfl⟩ := hparts
      obtain ⟨rfl, hts⟩ := (block_iff (t := .otherwise) trivial).1 h
      exact Or.inr ⟨ts, rfl, nil_iff.2 rfl, hts⟩
    · obtain ⟨r, hr, hts⟩ := cons_iff.1 h
      rcases ih hts (nest opened t) with ⟨hnone, hyes⟩ | ⟨no, hsome, hyes, hno⟩
      · exact Or.inl ⟨hnone, cons_iff.2 ⟨r, hr, hyes⟩⟩
      · exact Or.inr ⟨no, hsome, cons_iff.2 ⟨r, hr, hyes⟩, hno⟩

/-- The branch that is chosen leads where the whole body does. -/
theorem chosen (h : Leads path (.at path) (.at path) ts) (holds : Bool) :
    Leads path (.at path) (.at path) (chosen holds ts) := by
  rw [MailMerge.chosen]
  rcases h.branches [] with ⟨hnone, hyes⟩ | ⟨no, hsome, hyes, hno⟩
  · cases holds with
    | true => exact hyes
    | false =>
      simp only [hnone, Option.getD_none, Bool.false_eq_true, if_false]
      exact nil_iff.2 rfl
  · cases holds with
    | true => exact hyes
    | false =>
      simp only [hsome, Option.getD_some, Bool.false_eq_true, if_false]
      exact hno

end Leads

/-! ### Texts that lead from place to place -/

/-- A text of proper tokens leads from one place to another. -/
def LaidBetween (window : Nat) (path : Path) (p q : Place) (s : List Char) : Prop :=
  ∃ ts, (∀ t ∈ ts, t.Proper window) ∧ Leads path p q ts ∧ s = ts.flatMap Token.text

theorem laidOut_iff {window : Nat} {path : Path} {s : List Char} :
    LaidOut window path s ↔ LaidBetween window path {} {} s := by
  constructor
  · intro h
    have hproper := proper_of_bracesInTags h.braces
    refine ⟨_, hproper, Leads.of_placeAfter?_text hproper ?_ h.stands, (text_tokens window s).symm⟩
    rw [text_tokens]
    exact h.wellNested
  · rintro ⟨ts, hproper, hleads, rfl⟩
    refine ⟨hleads.placeAfter?_text hproper, bracesInTags_flatMap_text hproper, ?_⟩
    intro before t after hts
    rw [tokens_flatMap_text hproper] at hts
    subst hts
    rw [List.forall_mem_append] at hproper
    obtain ⟨p, hbefore, hafter⟩ := Leads.append_iff.1 hleads
    exact ⟨p, hbefore.placeAfter?_text hproper.1, (Leads.tag_iff.1 hafter).1⟩

namespace LaidBetween

variable {window : Nat} {path : Path} {p q r : Place} {s s' : List Char} {ts : List Token}

theorem nil (p : Place) : LaidBetween window path p p [] :=
  ⟨[], by simp, Leads.nil_iff.2 rfl, rfl⟩

theorem append (h : LaidBetween window path p q s) (h' : LaidBetween window path q r s') :
    LaidBetween window path p r (s ++ s') := by
  obtain ⟨ts, hproper, hleads, rfl⟩ := h
  obtain ⟨us, hproper', hleads', rfl⟩ := h'
  refine ⟨ts ++ us, ?_, hleads.append hleads', List.flatMap_append.symm⟩
  rw [List.forall_mem_append]
  exact ⟨hproper, hproper'⟩

/-- A text without braces and angle brackets leads nowhere else. -/
theorem plain (hbrace : BraceFree s) (hangle : '<' ∉ s) (inner : Path) :
    LaidBetween window path (.at inner) (.at inner) s := by
  refine ⟨s.map .char, ?_, Leads.map_char hangle inner, (flatMap_text_map_tokenChar s).symm⟩
  simpa [Token.Proper] using fun c hc => hbrace c hc

theorem flatMap {α : Type} {l : List α} {f : α → List Char}
    (h : ∀ a ∈ l, LaidBetween window path p p (f a)) :
    LaidBetween window path p p (l.flatMap f) := by
  induction l with
  | nil => exact .nil p
  | cons a l ih =>
    rw [List.forall_mem_cons] at h
    exact h.1.append (ih h.2)

theorem of_token {t : Token} (ht : t.Proper window) (h : Leads path p q [t]) :
    LaidBetween window path p q t.text :=
  ⟨[t], by simpa using ht, h, by simp⟩

end LaidBetween

/-! ### Data that lead nowhere else -/

section Data

variable {data : DataTree} {options : Options} {path : Path} {p q : Place} {ts : List Token}

/-- A field that is written leads nowhere else. -/
theorem laidBetween_fieldText (hescape : options.escapeValues = true) {v : Value}
    (hv : v.BraceFree) (name : String) (inner : Path) :
    LaidBetween options.window path (.at inner) (.at inner) (fieldText options v name) := by
  refine .plain (braceFree_fieldText hv name) (fun hm => ?_) inner
  unfold fieldText at hm
  cases hw : (v.field? name).bind options.scalarText? with
  | none => simp [hw] at hm
  | some s =>
    obtain ⟨w, -, hs⟩ := Option.bind_eq_some_iff.1 hw
    rw [hw] at hm
    exact (angleFree_of_scalarText? hescape hs _ hm).1 rfl

theorem laidBetween_marker (placed : Nat) (inner : Path) :
    LaidBetween options.window path (.at inner) (.at inner) (marker placed) := by
  have hmarker : ∀ c ∈ marker placed, isBrace c = false ∧ c ≠ '<' := by
    simp only [marker, List.forall_mem_cons, List.forall_mem_append]
    refine ⟨by decide, ⟨by decide, fun c hc => ?_⟩, by decide⟩
    have hn := isNumeric_decimalDigits c hc
    refine ⟨isBrace_of_isNumeric hn, ?_⟩
    rintro rfl
    cases hn
  exact .plain (fun c hc => (hmarker c hc).1) (fun hm => (hmarker _ hm).2 rfl) inner

/-- What comes of a placeholder leads nowhere else. -/
theorem laidBetween_expandPlaceholder (hescape : options.escapeValues = true)
    (hdata : data.BraceFree) (placed : Nat) (name : String) (inner : Path) :
    LaidBetween options.window path (.at inner) (.at inner)
      (expandPlaceholder data options placed name).text := by
  rw [expandPlaceholder_eq]
  cases hget : data.get? name with
  | none => exact .nil _
  | some v =>
    have hv := hdata.of_get? hget
    rw [Option.elim_some]
    cases v with
    | image => exact laidBetween_marker placed inner
    | null | bool | number | string | list | map =>
      simp only [expandValue]
      split
      · next s hs =>
        exact .plain (braceFree_of_scalarText? hv hs)
          (fun hm => (angleFree_of_scalarText? hescape hs _ hm).1 rfl) inner
      · split <;> exact .nil _

/-- A copy for an item leads where the template does. -/
theorem Leads.fields (hescape : options.escapeValues = true) {v : Value} (hv : v.BraceFree)
    (of : Repetition) (hproper : ∀ t ∈ ts, t.Proper options.window) (h : Leads path p q ts) :
    LaidBetween options.window path p q
      ((ts.flatMap (fieldTokens options of v)).flatMap Token.text) := by
  induction ts generalizing p with
  | nil =>
    rw [nil_iff.1 h]
    exact .nil q
  | cons t ts ih =>
    rw [List.forall_mem_cons] at hproper
    obtain ⟨r, hr, hts⟩ := cons_iff.1 h
    rw [List.flatMap_cons, List.flatMap_append]
    refine LaidBetween.append ?_ (ih hproper.2 hts)
    -- a token that is not replaced leads where it did
    have hsame : LaidBetween options.window path p r t.text :=
      .of_token hproper.1 (cons_iff.2 ⟨r, hr, nil_iff.2 rfl⟩)
    cases t with
    | char c => simpa [fieldTokens] using hsame
    | tag t =>
      have htag : p.tag = none ∧ r = p := by
        obtain ⟨hstands, hnil⟩ := tag_iff.1 (cons_iff.2 ⟨r, hr, nil_iff.2 rfl⟩)
        exact ⟨hstands.1, (nil_iff.1 hnil).symm⟩
      obtain ⟨hdata, rfl⟩ := htag
      cases t with
      | simple name =>
        have hplace : r = .at r.path := by rw [Place.at, ← hdata]
        rw [hplace, fieldTokens, flatMap_text_map_tokenChar]
        exact laidBetween_fieldText hescape hv name _
      | table name =>
        rw [fieldTokens]
        split
        · exact .nil r
        · simpa using hsame
      | loopOpen | condOpen | close | otherwise => simpa [fieldTokens] using hsame

/-- Copies of a template that leads from a place to itself do so, too. -/
theorem Leads.items (hescape : options.escapeValues = true) (hdata : data.BraceFree)
    (of : Repetition) (hproper : ∀ t ∈ ts, t.Proper options.window) (h : Leads path p p ts)
    (name : String) :
    LaidBetween options.window path p p (((itemsOf data name).flatMap fun v =>
      ts.flatMap (fieldTokens options of v)).flatMap Token.text) := by
  rw [List.flatMap_assoc]
  exact .flatMap fun v hv => h.fields hescape (braceFree_of_mem_itemsOf hdata hv) of hproper

/-! ### The passes over tokens -/

/-- The loop pass leads where the text does. -/
theorem Leads.expandLoops (hescape : options.escapeValues = true) (hdata : data.BraceFree)
    (hproper : ∀ t ∈ ts, t.Proper options.window) (h : Leads path p q ts) :
    LaidBetween options.window path p q (expandLoops data options ts).text := by
  -- what follows a loop is shorter, but no tail
  induction hn : ts.length using Nat.strongRecOn generalizing ts p with
  | ind n ihn =>
    subst hn
    cases ts with
    | nil =>
      rw [nil_iff.1 h, expandLoops_nil]
      exact .nil q
    | cons t ts =>
      rw [List.forall_mem_cons] at hproper
      obtain ⟨r, hr, hts⟩ := cons_iff.1 h
      have hkept : LaidBetween options.window path p q
          (t.text ++ (MailMerge.expandLoops data options ts).text) :=
        (LaidBetween.of_token hproper.1 (cons_iff.2 ⟨r, hr, nil_iff.2 rfl⟩)).append
          (ihn ts.length (by simp) hproper.2 hts rfl)
      by_cases hopen : ∃ name, t = .tag (.loopOpen name)
      · obtain ⟨name, rfl⟩ := hopen
        cases hclosed : closedBy? name ts with
        | none =>
          rw [expandLoops_unclosed hclosed]
          simpa [Token.text] using hkept
        | some found =>
          obtain ⟨body, after⟩ := found
          obtain ⟨rfl, hts⟩ := (block_iff (t := .loopOpen name) trivial).1 h
          obtain ⟨hbody, hafter⟩ := hts.of_closedBy? hclosed
          have hlt := length_lt_of_closedBy? hclosed
          have hsplit := eq_append_of_closedBy? hclosed
          rw [expandLoops_closed hclosed, Expansion.text_append, text_expandLoop]
          refine (hbody.items hescape hdata .loop (fun t ht => ?_) name).append
            (ihn after.length (by simpa using hlt) (fun t ht => ?_) hafter rfl)
          · exact hproper.2 t (by simp [hsplit, ht])
          · exact hproper.2 t (by simp [hsplit, ht])
      · rw [expandLoops_cons fun name ht => hopen ⟨name, ht⟩]
        exact hkept

/-- The conditional pass leads where the text does. -/
theorem Leads.expandConditionals (hproper : ∀ t ∈ ts, t.Proper options.window)
    (h : Leads path p q ts) :
    LaidBetween options.window path p q (expandConditionals data ts).text := by
  -- a branch and what follows the conditional are shorter, but no tails
  induction hn : ts.length using Nat.strongRecOn generalizing ts p q with
  | ind n ihn =>
    subst hn
    cases ts with
    | nil =>
      rw [nil_iff.1 h, expandConditionals_nil]
      exact .nil q
    | cons t ts =>
      rw [List.forall_mem_cons] at hproper
      obtain ⟨r, hr, hts⟩ := cons_iff.1 h
      have hkept : LaidBetween options.window path p q
          (t.text ++ (MailMerge.expandConditionals data ts).text) :=
        (LaidBetween.of_token hproper.1 (cons_iff.2 ⟨r, hr, nil_iff.2 rfl⟩)).append
          (ihn ts.length (by simp) hproper.2 hts rfl)
      by_cases hopen : ∃ name, t = .tag (.condOpen name)
      · obtain ⟨name, rfl⟩ := hopen
        cases hclosed : closedBy? name ts with
        | none =>
          rw [expandConditionals_unclosed hclosed]
          simpa [Token.text] using hkept
        | some found =>
          obtain ⟨body, after⟩ := found
          obtain ⟨rfl, hts⟩ := (block_iff (t := .condOpen name) trivial).1 h
          obtain ⟨hbody, hafter⟩ := hts.of_closedBy? hclosed
          have hlt := length_lt_of_closedBy? hclosed
          have hltc := length_chosen_lt hclosed (holds data name)
          have hsplit := eq_append_of_closedBy? hclosed
          rw [expandConditionals_closed hclosed, Expansion.text_append, Expansion.text_append,
            List.nil_append]
          refine (ihn _ (by simpa using hltc) (fun t ht => ?_)
            (hbody.chosen (holds data name)) rfl).append
              (ihn after.length (by simpa using hlt) (fun t ht => ?_) hafter rfl)
          · exact hproper.2 t (by simp [hsplit, mem_of_mem_chosen ht])
          · exact hproper.2 t (by simp [hsplit, ht])
      · rw [expandConditionals_cons fun name ht => hopen ⟨name, ht⟩]
        exact hkept

/-- The placeholder pass leads where the text does. -/
theorem Leads.expandPlaceholders (hescape : options.escapeValues = true) (hdata : data.BraceFree)
    (hproper : ∀ t ∈ ts, t.Proper options.window) (h : Leads path p q ts) (placed : Nat) :
    LaidBetween options.window path p q (expandPlaceholders data options placed ts).text := by
  induction ts generalizing p placed with
  | nil =>
    rw [nil_iff.1 h]
    exact .nil q
  | cons t ts ih =>
    rw [List.forall_mem_cons] at hproper
    obtain ⟨r, hr, hts⟩ := cons_iff.1 h
    by_cases hsimple : ∃ name, t = .tag (.simple name)
    · obtain ⟨name, rfl⟩ := hsimple
      obtain ⟨⟨hdata', -⟩, hts⟩ := tag_iff.1 h
      have hplace : p = .at p.path := by rw [Place.at, ← hdata']
      rw [MailMerge.expandPlaceholders, Expansion.text_append]
      refine LaidBetween.append ?_ (ih hproper.2 hts _)
      rw [hplace]
      exact laidBetween_expandPlaceholder hescape hdata placed name _
    · rw [expandPlaceholders_cons fun name ht => hsimple ⟨name, ht⟩, Expansion.text_append]
      exact (LaidBetween.of_token hproper.1 (cons_iff.2 ⟨r, hr, nil_iff.2 rfl⟩)).append
        (ih hproper.2 hts placed)

end Data

end MailMerge
