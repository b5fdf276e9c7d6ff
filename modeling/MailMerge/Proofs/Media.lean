import MailMerge.Proofs.PartNames
import MailMerge.Proofs.Pictures

/-!
# Parts for pictures

A picture is stored under a name that was free (`mediaName_spec`), in a folder `media`; so it never
takes the place of another part, and no listing of relationships takes its place.
-/

namespace MailMerge

/-! ### Steps that may fail -/

section Steps

variable {ε ε' α β : Type}

theorem bind_eq_ok {x : Except ε α} {f : α → Except ε β} {b : β} (h : x >>= f = .ok b) :
    ∃ a, x = .ok a ∧ f a = .ok b := by
  cases x with
  | error e => cases h
  | ok a => exact ⟨a, rfl, h⟩

theorem mapError_eq_ok {x : Except ε α} {f : ε → ε'} {a : α} (h : x.mapError f = .ok a) :
    x = .ok a := by
  cases x with
  | error e => cases h
  | ok a' => exact congrArg _ (Except.ok.inj h)

/-- What every step of a run that succeeds preserves holds at its end. -/
theorem foldlM_invariant {f : β → α → Except ε β} {Inv : β → Prop} {xs : List α}
    (hstep : ∀ b b', ∀ a ∈ xs, Inv b → f b a = .ok b' → Inv b') {b b' : β} (hb : Inv b)
    (h : xs.foldlM f b = .ok b') : Inv b' := by
  induction xs generalizing b with
  | nil =>
    cases h
    exact hb
  | cons a xs ih =>
    obtain ⟨b₁, hfirst, hrest⟩ := bind_eq_ok h
    exact ih (fun b b' a ha => hstep b b' a (List.mem_cons_of_mem _ ha))
      (hstep b b₁ a List.mem_cons_self hb hfirst) hrest

theorem exists_eq_ok_of_isOk {x : Except ε α} (h : x.isOk = true) : ∃ a, x = .ok a := by
  cases x with
  | error e => cases h
  | ok a => exact ⟨a, rfl⟩

end Steps

/-! ### Parts of packages -/

namespace Package

variable (package : Package) (name : PartName) (bytes : List UInt8)

theorem mem_names_iff {package : Package} {name : PartName} :
    name ∈ package.names ↔ (package.get? name).isSome = true := by
  obtain ⟨parts⟩ := package
  simp only [names, get?]
  induction parts with
  | nil => simp [Assoc.get?]
  | cons part parts ih =>
    obtain ⟨n, bytes⟩ := part
    rw [List.map_cons, List.mem_cons, ih, Assoc.get?]
    by_cases hn : n = name
    · simp [hn]
    · simp [hn, Ne.symm hn]

theorem get?_of_require {package : Package} {name : PartName} {bytes : List UInt8}
    (h : package.require name = .ok bytes) : package.get? name = some bytes := by
  rw [require] at h
  split at h
  · next hbytes => rw [hbytes, Except.ok.inj h]
  · cases h

theorem contains_iff {package : Package} {name : PartName} :
    package.contains name = true ↔ name ∈ package.names :=
  mem_names_iff.symm

theorem contains_eq_false_iff {package : Package} {name : PartName} :
    package.contains name = false ↔ name ∉ package.names := by
  rw [← contains_iff, Bool.not_eq_true]

theorem get?_set (other : PartName) :
    (package.set name bytes).get? other = if name = other then some bytes else package.get? other :=
  Assoc.get?_set name other bytes package.parts

theorem get?_set_of_ne {other : PartName} (h : other ≠ name) :
    (package.set name bytes).get? other = package.get? other := by
  rw [get?_set, if_neg (Ne.symm h)]

theorem names_set :
    (package.set name bytes).names
      = if name ∈ package.names then package.names else package.names ++ [name] :=
  Assoc.keys_set name bytes package.parts

theorem mem_names_set {other : PartName} :
    other ∈ (package.set name bytes).names ↔ other = name ∨ other ∈ package.names := by
  rw [names_set]
  split
  · next h => exact ⟨Or.inr, fun h' => h'.elim (fun he => he ▸ h) id⟩
  · rw [List.mem_append, List.mem_singleton, or_comm]

end Package

/-! ### Parts for pictures -/

/-- Whether a part has a name for a picture that a part shows: the key with the extension, or else
the key with a number that makes a name which is not taken. -/
def IsMediaOf (source : PartName) (p : Placement) (name : PartName) : Prop :=
  name.text = Rendering.mediaText source (p.key.toList ++ '.' :: p.image.extension.toList) ∨
    ∃ n, name.text = Package.fillPattern (decimalDigits n)
      (Rendering.mediaText source (p.key.toList ++ "_%d.".toList ++ p.image.extension.toList))

/-- The folder of the pictures that a part shows. -/
def mediaFolder (source : PartName) : List Char :=
  (source.folder.reverse.dropWhile (· == '/')).reverse ++ "/media".toList

theorem mediaText_eq (source : PartName) (file : List Char) :
    Rendering.mediaText source file = mediaFolder source ++ '/' :: file := by
  simp [Rendering.mediaText, mediaFolder]

theorem slash_notMem_of_isIdentifier {s : List Char} (h : isIdentifier s = true) : '/' ∉ s :=
  fun hm => absurd (isNameChar_of_isIdentifier h _ hm) (by decide)

theorem isNameChar_of_isExtension {s : List Char} (h : Image.isExtension s = true) :
    ∀ c ∈ s, isNameChar c = true := by
  intro c hc
  simp only [Image.isExtension, Bool.and_eq_true, List.all_eq_true] at h
  simp [isNameChar, h.2 c hc]

theorem slash_notMem_of_isExtension {s : List Char} (h : Image.isExtension s = true) : '/' ∉ s :=
  fun hm => absurd (isNameChar_of_isExtension h _ hm) (by decide)

theorem percent_notMem {s : List Char} (h : ∀ c ∈ s, isNameChar c = true) : '%' ∉ s :=
  fun hm => absurd (h _ hm) (by decide)

/-- The file for a key with a number. -/
theorem fillPattern_file {key extension : List Char} (hkey : isIdentifier key = true)
    (hext : Image.isExtension extension = true) (new : List Char) :
    Package.fillPattern new (key ++ "_%d.".toList ++ extension)
      = key ++ '_' :: (new ++ '.' :: extension) := by
  rw [List.append_assoc,
    Package.fillPattern_append_of_notMem (percent_notMem (isNameChar_of_isIdentifier hkey))]
  have hend := percent_notMem (isNameChar_of_isExtension hext)
  simp [Package.fillPattern, Package.fillPattern_of_notMem hend]

/-- The file of a picture in its folder, which has the extension of the picture. -/
theorem IsMediaOf.exists_stem {source : PartName} {p : Placement} {name : PartName}
    (hp : isIdentifier p.key.toList = true) (h : IsMediaOf source p name) :
    ∃ folder stem, name.text
        = folder ++ "/media".toList ++ '/' :: (stem ++ '.' :: p.image.extension.toList) ∧
      ∀ c ∈ stem, isNameChar c = true := by
  have hkey := isNameChar_of_isIdentifier hp
  simp only [IsMediaOf, mediaText_eq] at h
  rcases h with h | ⟨n, h⟩
  · exact ⟨_, _, h, hkey⟩
  · have hmedia : ∀ new dir, Package.fillPattern new (dir ++ '/' :: "media".toList)
        = Package.fillPattern new dir ++ "/media".toList := by
      intro new dir
      rw [Package.fillPattern_append_slash,
        Package.fillPattern_of_notMem (by decide : '%' ∉ "media".toList)]
      rfl
    have hfile : Package.fillPattern (decimalDigits n)
        (p.key.toList ++ "_%d.".toList ++ p.image.extension.toList)
        = p.key.toList ++ '_' :: decimalDigits n ++ '.' :: p.image.extension.toList := by
      rw [fillPattern_file hp p.image.isExtension_extension, List.append_assoc, List.cons_append]
    rw [Package.fillPattern_append_slash, mediaFolder, hfile] at h
    refine ⟨_, _, h.trans (congrArg (· ++ _) (hmedia _ _)), fun c hc => ?_⟩
    rcases List.mem_append.1 hc with hc | hc
    · exact hkey c hc
    · rcases List.mem_cons.1 hc with rfl | hc
      · decide
      · have hdigit : c.isDigit = true := Nat.isDigit_of_mem_toDigits (by decide) (by decide) hc
        simp [isNameChar, Char.isAlphanum, hdigit]

theorem IsMediaOf.exists_file {source : PartName} {p : Placement} {name : PartName}
    (hp : isIdentifier p.key.toList = true) (h : IsMediaOf source p name) :
    ∃ folder file, name.text = folder ++ "/media".toList ++ '/' :: file ∧
      ∀ c ∈ file, isNameChar c = true ∨ c = '.' := by
  obtain ⟨folder, stem, htext, hstem⟩ := h.exists_stem hp
  refine ⟨folder, _, htext, ?_⟩
  rw [List.forall_mem_append, List.forall_mem_cons]
  exact ⟨fun c hc => Or.inl (hstem c hc), Or.inr rfl,
    fun c hc => Or.inl (isNameChar_of_isExtension p.image.isExtension_extension c hc)⟩

theorem IsMediaOf.isMedia {source : PartName} {p : Placement} {name : PartName}
    (hp : isIdentifier p.key.toList = true) (h : IsMediaOf source p name) : name.IsMedia := by
  obtain ⟨folder, file, htext, hfile⟩ := h.exists_file hp
  exact ⟨folder, file, htext, fun hm => absurd (hfile _ hm) (by decide)⟩

theorem PartName.text_of_ofText? {s : List Char} {name : PartName}
    (h : PartName.ofText? s = some name) : name.text = s := by
  unfold PartName.ofText? at h
  split at h
  · cases h
    rfl
  · cases h

theorem Package.freeNameFrom_spec {package : Package} {pattern : List Char} {n count : Nat}
    {name : PartName} (h : package.freeNameFrom pattern n count = .ok name) :
    name ∉ package.names ∧ ∃ m, name.text = fillPattern (decimalDigits m) pattern := by
  induction count generalizing n with
  | zero => cases h
  | succ count ih =>
    simp only [freeNameFrom] at h
    split at h
    · cases h
    · next found hfound =>
      split at h
      · exact ih h
      · next hfree =>
        cases h
        rw [Bool.not_eq_true] at hfree
        exact ⟨contains_eq_false_iff.1 hfree, n, PartName.text_of_ofText? hfound⟩

/-- The name for the part of a picture is not taken. -/
theorem mediaName_spec {package : Package} {source name : PartName} {p : Placement}
    (h : Rendering.mediaName package source p.key p.image.extension = .ok name) :
    name ∉ package.names ∧ IsMediaOf source p name := by
  simp only [Rendering.mediaName] at h
  split at h
  · cases h
  · next found hfound =>
    split at h
    · obtain ⟨hfree, n, htext⟩ := Package.freeNameFrom_spec h
      exact ⟨hfree, Or.inr ⟨n, htext⟩⟩
    · next hfree =>
      cases h
      rw [Bool.not_eq_true] at hfree
      exact ⟨Package.contains_eq_false_iff.1 hfree, Or.inl (PartName.text_of_ofText? hfound)⟩

end MailMerge
