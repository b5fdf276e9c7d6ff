import MailMerge.Proofs.Relating

/-!
# New parts for pictures

The part for a picture gets the first of the names that are tried for it which no part has: the key,
then the key with the numbers from one on (`mediaName_cases`). So nothing that is there is
overwritten, and storing fails only when all the names are taken.

While a package is rendered, pictures are stored and other parts are written in any order.
`Rendering.Answers` keeps the keys that have been asked for and the parts that came back; a
rendering finds them again, and no two keys have the same part (`Rendering.Answers.remembers`).
-/

namespace MailMerge

/-! ### Extensions -/

theorem isUpper_toLower (c : Char) : c.toLower.isUpper = false := by
  delta Char.toLower Char.isUpper
  grind

/-- The extension of a picture is made of lower-case letters and digits, whatever was asked for. -/
theorem Image.extension_of_ofBytes? {bytes : List UInt8} {extension : String} {image : Image}
    (h : ofBytes? bytes extension = some image) :
    image.extension.toList ≠ [] ∧
      ∀ c ∈ image.extension.toList, c.isLower = true ∨ c.isDigit = true := by
  have hfit := image.isExtension_extension
  simp only [isExtension, Bool.and_eq_true, Bool.not_eq_true', List.isEmpty_eq_false_iff,
    List.all_eq_true] at hfit
  refine ⟨hfit.1, ?_⟩
  simp only [ofBytes?] at h
  split at h
  · cases h
  split at h
  · cases h
    intro c hc
    rw [String.toList_ofList, requestedExtension] at hc
    obtain ⟨d, -, rfl⟩ := List.mem_map.1 hc
    have hkinds : d.toLower.isAlphanum
        = ((d.toLower.isUpper || d.toLower.isLower) || d.toLower.isDigit) := rfl
    have hfound := hfit.2 d.toLower (by rwa [String.toList_ofList])
    rwa [hkinds, isUpper_toLower, Bool.false_or, Bool.or_eq_true] at hfound
  · cases h
    change ∀ c ∈ (fallbackExtension bytes).toList, c.isLower = true ∨ c.isDigit = true
    unfold fallbackExtension
    cases Format.ofBytes? bytes with
    | none => decide
    | some format => cases format <;> decide

/-! ### Names that are tried -/

/-- The files that are tried for a picture, in order: the key with the extension, and then the key
with a number. -/
def mediaFile (key extension : List Char) (n : Nat) : List Char :=
  if n = 0 then key ++ '.' :: extension else key ++ '_' :: (decimalDigits n ++ '.' :: extension)

/-- The parts that are tried for a picture, in order. -/
def triedPart (source : PartName) (key extension : String) (n : Nat) : PartName :=
  ⟨(mediaFolder source).tail ++ '/' :: mediaFile key.toList extension.toList n⟩

theorem PartName.folder_eq_of_text {name : PartName} {folder file : List Char}
    (htext : name.text = folder ++ '/' :: file) (hfile : '/' ∉ file) (hne : folder ≠ []) :
    name.folder = folder := by
  cases folder with
  | nil => exact absurd rfl hne
  | cons c folder =>
    obtain ⟨rfl, hmember⟩ := List.cons.inj htext
    rw [PartName.folder, hmember, List.append_eq, breakAtLast?_append hfile]

theorem PartName.ofText?_text (name : PartName) : PartName.ofText? name.text = some name :=
  rfl

/-- Of the names that a pattern stands for, the first is taken that no part has. -/
theorem Package.freeNameFrom_cases (package : Package) {pattern : List Char} {f : Nat → PartName}
    {n : Nat} (hf : ∀ i, n ≤ i → fillPattern (decimalDigits i) pattern = (f i).text)
    (count : Nat) :
    (∃ m, n ≤ m ∧ m < n + count ∧ package.freeNameFrom pattern n count = .ok (f m) ∧
        f m ∉ package.names ∧ ∀ i, n ≤ i → i < m → f i ∈ package.names) ∨
      (∃ e, package.freeNameFrom pattern n count = .error e) ∧
        ∀ i, n ≤ i → i < n + count → f i ∈ package.names := by
  induction count generalizing n with
  | zero => exact .inr ⟨⟨_, rfl⟩, fun i hle hlt => absurd hle (Nat.not_le.2 hlt)⟩
  | succ count ih =>
    have hstep : package.freeNameFrom pattern n (count + 1)
        = if package.contains (f n) then package.freeNameFrom pattern (n + 1) count
          else .ok (f n) := by
      simp only [freeNameFrom, hf n (Nat.le_refl n), PartName.ofText?_text]
    rw [hstep]
    by_cases hn : f n ∈ package.names
    · have hall : ∀ i, n ≤ i → (n + 1 ≤ i → f i ∈ package.names) → f i ∈ package.names :=
        fun i hle hlater => (Nat.eq_or_lt_of_le hle).elim (fun he => he ▸ hn) hlater
      rw [if_pos (contains_iff.2 hn)]
      obtain ⟨m, hle, hlt, hm, hfree, htaken⟩ | ⟨herror, htaken⟩ :=
        ih fun i hi => hf i (Nat.le_of_succ_le hi)
      · refine .inl ⟨m, by omega, by omega, hm, hfree, fun i hi him => ?_⟩
        exact hall i hi fun h => htaken i h him
      · exact .inr ⟨herror, fun i hi hlt => hall i hi fun h => htaken i h (by omega)⟩
    · rw [if_neg (mt contains_iff.1 hn)]
      exact .inl ⟨n, Nat.le_refl n, by omega, rfl, hn, fun i hle hlt => by omega⟩

theorem exists_mediaFile {extension : String} (hext : Image.isExtension extension.toList = true)
    (key : List Char) (n : Nat) :
    ∃ rest, mediaFile key extension.toList n = key ++ rest ∧ '/' ∉ rest := by
  have hslash := slash_notMem_of_isExtension hext
  rw [mediaFile]
  split
  · refine ⟨_, rfl, ?_⟩
    rw [List.mem_cons, not_or]
    exact ⟨by decide, hslash⟩
  · refine ⟨_, rfl, ?_⟩
    have hdigits : '/' ∉ decimalDigits n := fun hm =>
      absurd (isNumeric_decimalDigits _ hm) (by decide)
    simp only [List.mem_cons, List.mem_append, not_or]
    exact ⟨by decide, hdigits, by decide, hslash⟩

section Tried

variable {source : PartName} {key extension : String} (hsource : source.IsCanonical)
  (hkey : isIdentifier key.toList = true) (hext : Image.isExtension extension.toList = true)

include hsource

theorem text_triedPart (key extension : String) (n : Nat) :
    (triedPart source key extension n).text
      = Rendering.mediaText source (mediaFile key.toList extension.toList n) := by
  obtain ⟨fs, -, hfolder, -⟩ := exists_mediaFolder hsource
  have hslash : mediaFolder source = '/' :: (mediaFolder source).tail := by
    rw [hfolder, PartName.slashed]
    cases fs <;> rfl
  rw [mediaText_eq, hslash]
  rfl

include hkey hext

/-- The parts that are tried have canonical names, in the folder `media` beside the source. -/
theorem triedPart_spec (n : Nat) :
    (triedPart source key extension n).IsCanonical ∧
      (triedPart source key extension n).folder = mediaFolder source ∧
      (triedPart source key extension n).filename = mediaFile key.toList extension.toList n := by
  obtain ⟨fs, hfs, hfolder, -⟩ := exists_mediaFolder hsource
  obtain ⟨rest, hfile, hrest⟩ := exists_mediaFile hext key.toList n
  have hstep : PartName.IsStep (mediaFile key.toList extension.toList n) :=
    hfile ▸ PartName.isStep_of_isIdentifier hkey hrest
  have htext := text_triedPart hsource key extension n
  rw [mediaText_eq] at htext
  have hne : mediaFolder source ≠ [] := by simp [mediaFolder]
  refine ⟨?_, PartName.folder_eq_of_text htext hstep.2.1 hne,
    PartName.filename_eq_of_text htext hstep.2.1⟩
  rw [hfolder, ← PartName.slashed_singleton, ← PartName.slashed_append] at htext
  refine PartName.isCanonical_of_text ?_ (by simp) htext
  rw [List.forall_mem_append, List.forall_mem_singleton]
  exact ⟨hfs, hstep⟩

/-- The pattern for the names with numbers. -/
theorem fillPattern_mediaText (hpattern : ¬"%d".toList <:+: source.text) {n : Nat} (hn : 1 ≤ n) :
    Package.fillPattern (decimalDigits n)
        (Rendering.mediaText source (key.toList ++ "_%d.".toList ++ extension.toList))
      = (triedPart source key extension n).text := by
  obtain ⟨fs, -, hfolder, htext⟩ := exists_mediaFolder hsource
  have hfs : ¬"%d".toList <:+: PartName.slashed fs := fun h =>
    hpattern (htext ▸ h.trans (List.prefix_append _ _).isInfix)
  have hfilled : Package.fillPattern (decimalDigits n) (mediaFolder source)
      = mediaFolder source := by
    rw [hfolder, PartName.slashed_append, PartName.slashed_singleton,
      Package.fillPattern_append_slash, Package.fillPattern_of_not_isInfix hfs,
      Package.fillPattern_of_notMem (by decide)]
  rw [text_triedPart hsource, mediaText_eq, mediaText_eq, Package.fillPattern_append_slash, hfilled,
    fillPattern_file hkey hext, mediaFile, if_neg (Nat.one_le_iff_ne_zero.1 hn)]

/-- **A picture gets the first name that is not taken**, and none when all that are tried are. -/
theorem mediaName_cases (hpattern : ¬"%d".toList <:+: source.text) (package : Package) :
    (∃ n ≤ Package.triedNames,
        Rendering.mediaName package source key extension = .ok (triedPart source key extension n) ∧
        triedPart source key extension n ∉ package.names ∧
        ∀ i < n, triedPart source key extension i ∈ package.names) ∨
      (∃ e, Rendering.mediaName package source key extension = .error e) ∧
        ∀ n ≤ Package.triedNames, triedPart source key extension n ∈ package.names := by
  have hfirst : Rendering.mediaName package source key extension
      = if package.contains (triedPart source key extension 0) then
          package.freeName
            (Rendering.mediaText source (key.toList ++ "_%d.".toList ++ extension.toList))
        else .ok (triedPart source key extension 0) := by
    have htext := text_triedPart hsource key extension 0
    rw [mediaFile, if_pos rfl] at htext
    simp only [Rendering.mediaName, ← htext, PartName.ofText?_text]
  rw [hfirst]
  by_cases hzero : triedPart source key extension 0 ∈ package.names
  · have hall : ∀ i, (1 ≤ i → triedPart source key extension i ∈ package.names) →
        triedPart source key extension i ∈ package.names :=
      fun i hlater => (Nat.eq_zero_or_pos i).elim (fun he => he ▸ hzero) hlater
    rw [if_pos (Package.contains_iff.2 hzero), Package.freeName]
    have hfill := fun i => fillPattern_mediaText hsource hkey hext hpattern (n := i)
    obtain ⟨n, -, hlt, hn, hfree, htaken⟩ | ⟨herror, htaken⟩ :=
      package.freeNameFrom_cases hfill Package.triedNames
    · exact .inl ⟨n, by omega, hn, hfree, fun i hi => hall i fun h => htaken i h hi⟩
    · exact .inr ⟨herror, fun n hn => hall n fun h => htaken n h (by omega)⟩
  · rw [if_neg (mt Package.contains_iff.1 hzero)]
    exact .inl ⟨0, Nat.zero_le _, rfl, hzero, fun i hi => absurd hi (Nat.not_lt_zero i)⟩

end Tried

/-! ### Runs -/

/-- What is found among entries with a new key at the end. -/
theorem Assoc.get?_concat_iff {κ α : Type} [DecidableEq κ] {key other : κ} {v w : α}
    {entries : List (κ × α)} (hnew : Assoc.get? key entries = none) :
    Assoc.get? other (entries ++ [(key, v)]) = some w ↔
      Assoc.get? other entries = some w ∨ other = key ∧ w = v := by
  rw [Assoc.get?_append, Assoc.get?_singleton]
  by_cases hother : other = key
  · subst hother
    rw [hnew, if_pos rfl, Option.none_or, Option.some.injEq, eq_comm]
    simp
  · rw [if_neg (Ne.symm hother), Option.or_none]
    simp [hother]

namespace Rendering

/-- What pictures have been asked for since the start of a rendering, each by its key with the part
that came back. Other parts may be written at any time. -/
inductive Answers (start : Rendering) : Rendering → List (String × PartName) → Prop
  | nil : Answers start start []
  | write {r : Rendering} {answers : List (String × PartName)} (h : Answers start r answers)
    (name : PartName) (bytes : List UInt8) :
    Answers start { r with package := r.package.set name bytes } answers
  | store {r r' : Rendering} {answers : List (String × PartName)} {source name : PartName}
    {key : String} {image : Image} (h : Answers start r answers)
    (hstore : r.store source key image = .ok (name, r')) :
    Answers start r' (answers ++ [(key, name)])

/-- A rendering knows the answers that it has given: it finds them by their keys, their parts are in
the package, and no part belongs to two keys. -/
structure Remembers (r : Rendering) (answers : List (String × PartName)) : Prop where
  found : ∀ key name, Assoc.get? key r.media = some name ↔ (key, name) ∈ answers
  present : ∀ key name, (key, name) ∈ answers → name ∈ r.package.names
  distinct : ∀ key key' name, (key, name) ∈ answers → (key', name) ∈ answers → key = key'

variable {start r r' : Rendering} {answers : List (String × PartName)} {source name : PartName}
  {key : String} {image : Image}

/-- A picture with a new key comes to a part that was not there. -/
theorem store_of_new (hnew : Assoc.get? key r.media = none)
    (h : r.store source key image = .ok (name, r')) :
    mediaName r.package source key image.extension = .ok name ∧ name ∉ r.package.names ∧
      r'.package = r.package.set name image.bytes ∧ r'.media = r.media ++ [(key, name)] := by
  rw [store, hnew] at h
  obtain ⟨name', hname, hrest⟩ := bind_eq_ok h
  obtain ⟨rfl, rfl⟩ := Prod.mk.inj (Except.ok.inj hrest)
  exact ⟨hname, (mediaName_spec (p := ⟨[], key, image⟩) hname).1, rfl, rfl⟩

/-- A picture with a new key is stored when there is a name for it. -/
theorem exists_store_of_new (hnew : Assoc.get? key r.media = none)
    (h : mediaName r.package source key image.extension = .ok name) :
    ∃ r', r.store source key image = .ok (name, r') := by
  rw [store, hnew]
  simp only [h]
  exact ⟨_, rfl⟩

theorem store_error_of_new (hnew : Assoc.get? key r.media = none) {e : PackageError}
    (h : mediaName r.package source key image.extension = .error e) :
    r.store source key image = .error e := by
  rw [store, hnew]
  simp only [h]
  rfl

theorem store_of_found (hfound : Assoc.get? key r.media = some name) (source : PartName)
    (image : Image) : r.store source key image = .ok (name, r) := by
  rw [store, hfound]

theorem Remembers.set (h : r.Remembers answers) (other : PartName) (bytes : List UInt8) :
    Remembers { r with package := r.package.set other bytes } answers where
  found := h.found
  present key name hm := (Package.mem_names_set _ _ _).2 (.inr (h.present key name hm))
  distinct := h.distinct

theorem Remembers.store (h : r.Remembers answers)
    (hstore : r.store source key image = .ok (name, r')) :
    r'.Remembers (answers ++ [(key, name)]) := by
  cases hkey : Assoc.get? key r.media with
  | some name' =>
    rw [store_of_found hkey] at hstore
    obtain ⟨rfl, rfl⟩ := Prod.mk.inj (Except.ok.inj hstore)
    have hm := (h.found key name').1 hkey
    have hsame : ∀ entry, entry ∈ answers ++ [(key, name')] ↔ entry ∈ answers := fun entry => by
      rw [List.mem_append, List.mem_singleton, or_iff_left_of_imp]
      rintro rfl
      exact hm
    exact ⟨fun k n => by rw [h.found, hsame], fun k n hn => h.present k n ((hsame _).1 hn),
      fun k k' n hn hn' => h.distinct k k' n ((hsame _).1 hn) ((hsame _).1 hn')⟩
  | none =>
    obtain ⟨-, hfree, hpackage, hmedia⟩ := store_of_new hkey hstore
    have hold : ∀ k, (k, name) ∉ answers := fun k hm => hfree (h.present k name hm)
    refine ⟨fun k n => ?_, fun k n hn => ?_, fun k k' n hn hn' => ?_⟩
    · rw [hmedia, Assoc.get?_concat_iff hkey, h.found, List.mem_append, List.mem_singleton,
        Prod.mk.injEq]
    · rw [hpackage, Package.mem_names_set]
      rcases List.mem_append.1 hn with hn | hn
      · exact .inr (h.present k n hn)
      · exact .inl (Prod.mk.inj (List.mem_singleton.1 hn)).2
    · rw [List.mem_append, List.mem_singleton, Prod.mk.injEq] at hn hn'
      rcases hn with hn | ⟨rfl, rfl⟩ <;> rcases hn' with hn' | ⟨rfl, hname⟩
      · exact h.distinct k k' n hn hn'
      · exact absurd (hname ▸ hn) (hold k)
      · exact absurd hn' (hold k')
      · rfl

/-- **A rendering remembers what it has answered**, whatever is stored and written. -/
theorem Answers.remembers (h : start.Answers r answers) (hstart : start.media = []) :
    r.Remembers answers := by
  induction h with
  | nil => exact ⟨fun key name => by simp [hstart, Assoc.get?], nofun, nofun⟩
  | write _ other bytes ih => exact ih.set other bytes
  | store _ hstore ih => exact ih.store hstore

/-- Putting pictures into a part, one after the other, gives more answers. -/
theorem Answers.placeAll {options : Options} {e e' : Embedding} {ps : List Placement}
    (h : start.Answers e.rendering answers)
    (hplace : ps.foldlM (Embedding.place options source) e = .ok e') :
    ∃ answers', start.Answers e'.rendering answers' := by
  have hstep : ∀ e₁ e₂, ∀ p ∈ ps, (∃ answers, start.Answers e₁.rendering answers) →
      Embedding.place options source e₁ p = .ok e₂ →
      ∃ answers, start.Answers e₂.rendering answers := by
    rintro e₁ e₂ p - ⟨answers, h⟩ hp
    obtain ⟨name, rendering, hstore, rfl⟩ := place_eq_ok hp
    refine ⟨answers ++ [(p.key, name)], ?_⟩
    dsimp only
    rw [rendering_relate]
    exact h.store hstore
  exact foldlM_invariant hstep ⟨answers, h⟩ hplace

/-- **Rendering parts one after the other gives answers** and writes other parts, and does nothing
else to the package. -/
theorem Answers.renders {options : Options} {data : DataTree} {log : List (PartName × Expansion)}
    (h : start.Answers r answers) (hrenders : Renders options data r log r') :
    ∃ answers', start.Answers r' answers' := by
  induction hrenders generalizing answers with
  | nil => exact ⟨answers, h⟩
  | @cons r _ _ name e _ hpart _ ih =>
    cases hpart with
    | plain => exact ih (h.write _ _)
    | pictures _ _ _ _ hembed =>
      obtain ⟨rs, done, -, hdone, -, rfl⟩ := embed_eq_ok hembed
      have hembedding : start.Answers (r.embedding rs e.text).rendering answers := h
      obtain ⟨answers', hanswers⟩ := hembedding.placeAll hdone
      exact ih ((hanswers.write _ _).write _ _)

/-- **Parts for pictures are new, safe and distinct.** In a rendering that has given some answers, a
picture has an extension of lower-case letters and digits. A key that has been asked for has its
part, and nothing is written; keys have the same part when they are the same key. A new key comes to
the first part that is not there of those that are tried, with a canonical name in the folder
`media`, and has it from then on. This fails only when all of them are there. -/
theorem Answers.store_spec (h : start.Answers r answers) (hstart : start.media = [])
    {bytes : List UInt8} {extension : String} (himage : Image.ofBytes? bytes extension = some image)
    (hsource : source.IsCanonical) (hpattern : ¬"%d".toList <:+: source.text)
    (hkey : isIdentifier key.toList = true) :
    (image.extension.toList ≠ [] ∧
        ∀ c ∈ image.extension.toList, c.isLower = true ∨ c.isDigit = true) ∧
      (∀ a ∈ answers, ∀ b ∈ answers, a.1 = b.1 ↔ a.2 = b.2) ∧
      (∀ name, (key, name) ∈ answers →
        ∀ source' image', r.store source' key image' = .ok (name, r)) ∧
      (key ∉ answers.map Prod.fst →
        (∀ name r', r.store source key image = .ok (name, r') →
          name ∉ r.package.names ∧ r'.package = r.package.set name image.bytes ∧
          name.IsCanonical ∧ name.folder = mediaFolder source ∧
          (∃ n ≤ 10000, name.filename = mediaFile key.toList image.extension.toList n ∧
            ∀ i < n, triedPart source key image.extension i ∈ r.package.names) ∧
          ∀ source' image', r'.store source' key image' = .ok (name, r')) ∧
        ((∃ e, r.store source key image = .error e) ↔
          ∀ n ≤ 10000, triedPart source key image.extension n ∈ r.package.names)) := by
  have hremembers := h.remembers hstart
  have hext := image.isExtension_extension
  refine ⟨Image.extension_of_ofBytes? himage, ?_, fun name hm => ?_, fun hfresh => ?_⟩
  · rintro ⟨k, n⟩ hk ⟨k', n'⟩ hk'
    constructor
    · rintro rfl
      rw [← hremembers.found] at hk hk'
      exact Option.some.inj (hk.symm.trans hk')
    · rintro rfl
      exact hremembers.distinct k k' n hk hk'
  · exact store_of_found ((hremembers.found key name).2 hm)
  · have hnew : Assoc.get? key r.media = none := by
      rw [Option.eq_none_iff_forall_ne_some]
      exact fun name hfound => hfresh
        (List.mem_map_of_mem (f := Prod.fst) ((hremembers.found key name).1 hfound))
    constructor
    · intro name r' hstore
      obtain ⟨hname, hfree, hpackage, hmedia⟩ := store_of_new hnew hstore
      have hagain : Assoc.get? key r'.media = some name := by
        rw [hmedia]
        exact (Assoc.get?_concat_iff hnew).2 (.inr ⟨rfl, rfl⟩)
      obtain ⟨n, hn, htried, -, htaken⟩ | ⟨⟨e, herror⟩, -⟩ :=
        mediaName_cases hsource hkey hext hpattern r.package
      · obtain rfl := Except.ok.inj (hname.symm.trans htried)
        obtain ⟨hcanonical, hfolder, hfile⟩ := triedPart_spec hsource hkey hext n
        exact ⟨hfree, hpackage, hcanonical, hfolder, ⟨n, hn, hfile, htaken⟩,
          store_of_found hagain⟩
      · rw [hname] at herror
        cases herror
    · obtain ⟨n, hn, htried, hfree, -⟩ | ⟨⟨e, herror⟩, htaken⟩ :=
        mediaName_cases hsource hkey hext hpattern r.package
      · obtain ⟨r', hstore⟩ := exists_store_of_new hnew htried
        refine iff_of_false ?_ fun htaken => hfree (htaken n hn)
        rintro ⟨e, he⟩
        rw [hstore] at he
        cases he
      · exact iff_of_true ⟨e, store_error_of_new hnew herror⟩ htaken

/-- The file of one key takes the name that another key would have had. -/
theorem Answers.store_spec_suffix :
    let old : PartName := ⟨"word/media/a.png".toList⟩
    let first : PartName := ⟨"word/media/a_1.png".toList⟩
    let second : PartName := ⟨"word/media/a_1_1.png".toList⟩
    let image : Image := { bytes := [1], extension := "png", isExtension_extension := by decide }
    let start : Rendering := { package := ⟨[(old, [9])]⟩, types := {} }
    ∃ r r', start.Answers r [("a", first)] ∧ Image.ofBytes? [1] " .PNG" = some image ∧
      PartName.usualDocument.IsCanonical ∧ ¬"%d".toList <:+: PartName.usualDocument.text ∧
      isIdentifier "a_1".toList = true ∧
      r.store .usualDocument "a_1" image = .ok (second, r') ∧ second ∉ r.package.names ∧
      second.IsCanonical ∧ second.folder = "/word/media".toList ∧
      r'.store .usualDocument "a_1" image = .ok (second, r') ∧
      r.store .usualDocument "a" image = .ok (first, r) := by
  intro old first second image start
  have himage : Image.ofBytes? [1] " .PNG" = some image := by rfl
  have hpattern : ¬"%d".toList <:+: PartName.usualDocument.text := by decide +kernel
  have hname : mediaName start.package .usualDocument "a" "png" = .ok first := by rfl
  obtain ⟨r, hfirst⟩ : ∃ r, start.store .usualDocument "a" image = .ok (first, r) :=
    exists_store_of_new rfl hname
  have hrun : start.Answers r [("a", first)] := Answers.nil.store hfirst
  obtain ⟨-, -, hpackage, hmedia⟩ := store_of_new rfl hfirst
  have hname' : mediaName r.package .usualDocument "a_1" "png" = .ok second := by
    rw [hpackage]
    rfl
  obtain ⟨r', hsecond⟩ : ∃ r', r.store .usualDocument "a_1" image = .ok (second, r') :=
    exists_store_of_new (by rw [hmedia]; rfl) hname'
  have hkey : isIdentifier "a".toList = true := by decide
  have hkey' : isIdentifier "a_1".toList = true := by decide
  obtain ⟨-, -, hagain, -⟩ :=
    hrun.store_spec rfl himage PartName.isCanonical_usualDocument hpattern hkey
  obtain ⟨-, -, -, hnew⟩ :=
    hrun.store_spec rfl himage PartName.isCanonical_usualDocument hpattern hkey'
  obtain ⟨hfree, -, hcanonical, hfolder, -, htwice⟩ := (hnew (by decide)).1 second r' hsecond
  exact ⟨r, r', hrun, himage, PartName.isCanonical_usualDocument, hpattern, hkey', hsecond, hfree,
    hcanonical, hfolder, htwice .usualDocument image, hagain first (by simp) .usualDocument image⟩

end Rendering

end MailMerge
