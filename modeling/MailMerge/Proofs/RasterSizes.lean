import Mathlib.Algebra.Ring.Nat
import MailMerge.Image.Raster

/-!
# Sizes in the headers of raster images

PNG and GIF files have the size at a fixed place. A JPEG file has it in its first frame header, and
any number of segments come before that. The payload of a segment may look like markers, so the only
way to the frame header is from segment to segment: `frameSize?_append` says that a whole one is
passed over, whatever follows it. A segment that is cut off leads nowhere
(`frameSize?_of_isPrefix`).

What there is to say for the three formats is named by `ReadsHeaders`, and `pixelSize_reads` puts it
together.
-/

namespace MailMerge.Image

/-- The last `count` bytes of a number, the most significant first. -/
def bigEndianBytes : (count n : Nat) → List UInt8
  | 0, _ => []
  | count + 1, n => bigEndianBytes count (n / 256) ++ [.ofNat n]

@[simp]
theorem length_bigEndianBytes (count n : Nat) : (bigEndianBytes count n).length = count := by
  induction count generalizing n with
  | zero => rfl
  | succ count ih => rw [bigEndianBytes, List.length_append, ih, List.length_singleton]

theorem bigEndian_bigEndianBytes {count n : Nat} (h : n < 256 ^ count) :
    bigEndian (bigEndianBytes count n) = n := by
  induction count generalizing n with
  | zero =>
    rw [Nat.pow_zero, Nat.lt_one_iff] at h
    exact h.symm
  | succ count ih =>
    have hlt : n / 256 < 256 ^ count := Nat.div_lt_of_lt_mul (by rwa [Nat.mul_comm, ← Nat.pow_succ])
    have hdigits := ih hlt
    rw [bigEndian] at hdigits
    rw [bigEndian, bigEndianBytes, List.foldl_append, hdigits]
    exact Nat.div_add_mod n 256

theorem takeExactly?_append {count : Nat} {bytes : List UInt8} (h : bytes.length = count)
    (rest : List UInt8) : takeExactly? count (bytes ++ rest) = some bytes := by
  rw [takeExactly?, if_pos (by rw [List.length_append]; omega), ← h, List.take_left]

theorem bigEndian?_append {count n : Nat} (h : n < 256 ^ count) (rest : List UInt8) :
    bigEndian? count (bigEndianBytes count n ++ rest) = some n := by
  rw [bigEndian?, takeExactly?_append (length_bigEndianBytes count n), Option.map_some,
    bigEndian_bigEndianBytes h]

theorem bigEndian?_eq_none {count : Nat} {bytes : List UInt8} (h : bytes.length < count) :
    bigEndian? count bytes = none := by
  rw [bigEndian?, takeExactly?, if_neg (by omega)]
  rfl

theorem littleEndian?_append {n : Nat} (h : n < 256 ^ 2) (rest : List UInt8) :
    littleEndian? ((bigEndianBytes 2 n).reverse ++ rest) = some n := by
  rw [littleEndian?, takeExactly?_append (by simp), Option.map_some, List.reverse_reverse,
    bigEndian_bigEndianBytes h]

/-! ### Segments -/

/-- A JPEG marker that a length and a payload follow, and that gives no size. -/
def startsBlock (marker : UInt8) : Bool :=
  marker != 0xFF && !standsAlone marker && !startsFrame marker

/-- What may come before the first frame header of a JPEG file. -/
inductive Segment where
  /-- A byte before a marker that fills up space. -/
  | fill
  /-- A marker that no length follows. -/
  | alone (marker : UInt8) (standsAlone : standsAlone marker = true)
  /-- A marker with a payload. -/
  | block (marker : UInt8) (payload : List UInt8) (startsBlock : startsBlock marker = true)
    (length_lt : payload.length + 2 < 2 ^ 16)

namespace Segment

/-- The bytes of a segment. The length that is written counts its own two bytes. -/
def bytes : Segment → List UInt8
  | fill => [0xFF]
  | alone marker _ => [0xFF, marker]
  | block marker payload _ _ =>
    0xFF :: marker :: (bigEndianBytes 2 (payload.length + 2) ++ payload)

end Segment

/-- The start of a frame header. -/
structure Frame where
  marker : UInt8
  /-- The two bytes for the length of the header, which are not looked at. -/
  length : UInt16
  precision : UInt8
  height : UInt16
  width : UInt16
  startsFrame : startsFrame marker = true

namespace Frame

/-- The bytes of a frame header up to the width. -/
def bytes (frame : Frame) : List UInt8 :=
  0xFF :: frame.marker :: (bigEndianBytes 2 frame.length.toNat ++ frame.precision ::
    (bigEndianBytes 2 frame.height.toNat ++ bigEndianBytes 2 frame.width.toNat))

end Frame

section Markers

variable {marker : UInt8}

theorem ne_fill_of_standsAlone (h : standsAlone marker = true) : marker ≠ 0xFF := by
  rintro rfl
  cases h

theorem of_startsFrame (h : startsFrame marker = true) :
    marker ≠ 0xFF ∧ standsAlone marker = false := by
  constructor
  · rintro rfl
    cases h
  · simp only [startsFrame, standsAlone, Bool.and_eq_true, decide_eq_true_eq] at h ⊢
    grind

theorem frameSize?_of_ne (h : marker ≠ 0xFF) (rest : List UInt8) :
    frameSize? (marker :: rest) = none := by
  cases rest with
  | nil => rw [frameSize?]; simp
  | cons next rest => rw [frameSize?, if_pos h]

theorem frameSize?_fill (rest : List UInt8) :
    frameSize? (0xFF :: 0xFF :: rest) = frameSize? (0xFF :: rest) := by
  rw [frameSize?, if_neg (by simp), if_pos rfl]

theorem frameSize?_alone (h : standsAlone marker = true) (rest : List UInt8) :
    frameSize? (0xFF :: marker :: rest) = frameSize? rest := by
  rw [frameSize?, if_neg (by simp), if_neg (ne_fill_of_standsAlone h), if_pos h]

theorem frameSize?_block (h : startsBlock marker = true) (rest : List UInt8) :
    frameSize? (0xFF :: marker :: rest) =
      (bigEndian? 2 rest).bind fun length =>
        if length < 2 then none else frameSize? (rest.drop length) := by
  simp only [startsBlock, Bool.and_eq_true, bne_iff_ne, Bool.not_eq_true'] at h
  rw [frameSize?, if_neg (by simp), if_neg h.1.1, if_neg (by simp [h.1.2]),
    if_neg (by simp [h.2])]
  cases bigEndian? 2 rest <;> rfl

theorem frameSize?_frame (h : startsFrame marker = true) (rest : List UInt8) :
    frameSize? (0xFF :: marker :: rest) =
      (bigEndian? 2 (rest.drop 3)).bind fun height =>
        (bigEndian? 2 (rest.drop 5)).map fun width => (width, height) := by
  obtain ⟨hfill, halone⟩ := of_startsFrame h
  rw [frameSize?, if_neg (by simp), if_neg hfill, if_neg (by simp [halone]), if_pos h]
  cases bigEndian? 2 (rest.drop 3) with
  | none => rfl
  | some height => cases bigEndian? 2 (rest.drop 5) <;> rfl

end Markers

/-! ### From segment to segment -/

/-- The bytes of some segments. -/
def segmentBytes (segments : List Segment) : List UInt8 :=
  segments.flatMap Segment.bytes

/-- What comes behind some segments starts a marker, or no fill byte comes last. -/
def Joins (segments : List Segment) (rest : List UInt8) : Prop :=
  segments.getLast? = some .fill → rest.head? = some 0xFF

theorem Segment.head?_bytes (segment : Segment) : segment.bytes.head? = some 0xFF := by
  cases segment <;> rfl

theorem Joins.head? {segments : List Segment} {rest : List UInt8}
    (h : Joins (.fill :: segments) rest) : (segmentBytes segments ++ rest).head? = some 0xFF := by
  cases segments with
  | nil => exact h rfl
  | cons segment segments =>
    rw [segmentBytes, List.flatMap_cons, List.append_assoc, List.head?_append,
      segment.head?_bytes]
    rfl

theorem Joins.tail {segment : Segment} {segments : List Segment} {rest : List UInt8}
    (h : Joins (segment :: segments) rest) : Joins segments rest := by
  intro hlast
  refine h ?_
  rw [List.getLast?_cons, hlast]
  rfl

/-- Whole segments are passed over. -/
theorem frameSize?_append {segments : List Segment} {rest : List UInt8} (h : Joins segments rest) :
    frameSize? (segmentBytes segments ++ rest) = frameSize? rest := by
  induction segments with
  | nil => rfl
  | cons segment segments ih =>
    rw [← ih h.tail, segmentBytes, List.flatMap_cons, List.append_assoc, ← segmentBytes]
    cases segment with
    | fill =>
      obtain ⟨behind, hbehind⟩ := List.head?_eq_some_iff.1 h.head?
      rw [hbehind]
      exact frameSize?_fill behind
    | alone marker halone => exact frameSize?_alone halone _
    | block marker payload hblock hlength =>
      rw [Segment.bytes, List.cons_append, List.cons_append, frameSize?_block hblock,
        List.append_assoc, bigEndian?_append (by omega), Option.bind_some, if_neg (by omega),
        ← List.append_assoc, List.drop_left' (by simp; omega)]

theorem Frame.frameSize?_append (frame : Frame) (rest : List UInt8) :
    frameSize? (frame.bytes ++ rest) = some (frame.width.toNat, frame.height.toNat) := by
  have hheight : frame.height.toNat < 256 ^ 2 := frame.height.toNat_lt
  have hwidth : frame.width.toNat < 256 ^ 2 := frame.width.toNat_lt
  have hbytes : frame.bytes ++ rest = 0xFF :: frame.marker ::
      ((bigEndianBytes 2 frame.length.toNat ++ [frame.precision])
        ++ (bigEndianBytes 2 frame.height.toNat ++ (bigEndianBytes 2 frame.width.toNat ++ rest))) :=
    by simp [bytes]
  rw [hbytes, frameSize?_frame frame.startsFrame, List.drop_left' (by simp),
    bigEndian?_append hheight, ← List.append_assoc, List.drop_left' (by simp),
    bigEndian?_append hwidth]
  rfl

theorem frameSize?_of_length_le {bytes : List UInt8} (h : bytes.length ≤ 1) :
    frameSize? bytes = none := by
  match bytes with
  | [] => rw [frameSize?]; simp
  | [b] => rw [frameSize?]; simp
  | _ :: _ :: _ => simp at h

theorem Frame.frameSize?_of_isPrefix {frame : Frame} {bytes : List UInt8}
    (h : bytes <+: frame.bytes) (hlength : bytes.length < frame.bytes.length) :
    frameSize? bytes = none := by
  match bytes with
  | [] | [_] => exact frameSize?_of_length_le (by simp)
  | lead :: marker :: rest =>
    rw [Frame.bytes, List.cons_prefix_cons, List.cons_prefix_cons] at h
    obtain ⟨rfl, rfl, -⟩ := h
    simp [Frame.bytes] at hlength
    have hwidth : bigEndian? 2 (rest.drop 5) = none :=
      bigEndian?_eq_none (by rw [List.length_drop]; omega)
    rw [frameSize?_frame frame.startsFrame, hwidth]
    cases bigEndian? 2 (rest.drop 3) <;> rfl

/-- Segments and a frame header that are cut off give no size. -/
theorem frameSize?_of_isPrefix {segments : List Segment} {frame : Frame} {bytes : List UInt8}
    (h : bytes <+: segmentBytes segments ++ frame.bytes)
    (hlength : bytes.length < (segmentBytes segments ++ frame.bytes).length) :
    frameSize? bytes = none := by
  induction segments generalizing bytes with
  | nil => exact Frame.frameSize?_of_isPrefix h hlength
  | cons segment segments ih =>
    rw [segmentBytes, List.flatMap_cons, List.append_assoc, ← segmentBytes] at h hlength
    match bytes with
    | [] | [_] => exact frameSize?_of_length_le (by simp)
    | lead :: marker :: rest =>
      cases segment with
      | fill =>
        have hjoins : Joins (.fill :: segments) frame.bytes := fun _ => rfl
        obtain ⟨behind, hbehind⟩ := List.head?_eq_some_iff.1 hjoins.head?
        simp only [Segment.bytes, List.singleton_append, List.cons_prefix_cons] at h
        obtain ⟨rfl, hrest⟩ := h
        obtain rfl : marker = 0xFF := (List.cons_prefix_cons.1 (hbehind ▸ hrest)).1
        rw [frameSize?_fill]
        exact ih hrest (by simpa [Segment.bytes] using hlength)
      | alone marker halone =>
        simp only [Segment.bytes, List.cons_append, List.nil_append, List.cons_prefix_cons] at h
        obtain ⟨rfl, rfl, hrest⟩ := h
        rw [frameSize?_alone halone]
        exact ih hrest (by simpa [Segment.bytes] using hlength)
      | block marker payload hblock hpayload =>
        simp only [Segment.bytes, List.cons_append, List.append_assoc, List.cons_prefix_cons] at h
        obtain ⟨rfl, rfl, hrest⟩ := h
        rw [frameSize?_block hblock]
        by_cases hshort : rest.length < 2
        · rw [bigEndian?_eq_none hshort]
          rfl
        · obtain ⟨behind, rfl⟩ := List.prefix_of_prefix_length_le (List.prefix_append _ _) hrest
            (show (bigEndianBytes 2 (payload.length + 2)).length ≤ rest.length by simp; omega)
          obtain ⟨after, hafter⟩ := (List.prefix_append_right_inj _).1 hrest
          have hbehind : behind.drop payload.length <+: segmentBytes segments ++ frame.bytes :=
            ⟨after.drop (payload.length - behind.length), by
              rw [← List.drop_append, hafter, List.drop_left]⟩
          simp [Segment.bytes] at hlength
          have hframe : 0 < frame.bytes.length := Nat.succ_pos _
          rw [bigEndian?_append (by omega), Option.bind_some, if_neg (by omega),
            Nat.add_comm payload.length 2, ← List.drop_drop, List.drop_left' (by simp)]
          exact ih hbehind (by simp; omega)

/-! ### Sizes in headers -/

/-- The size that is given where a header says a size: no side of it may have length zero. -/
def shownSize (w h : Nat) : Nat × Nat :=
  if w ≠ 0 ∧ h ≠ 0 then (w, h) else (100, 100)

section Header

variable {bytes : List UInt8}

theorem pixelSize_of_headerSize? {w h : Nat} (hsize : headerSize? bytes = some (w, h)) :
    pixelSize bytes = shownSize w h := by
  rw [pixelSize, hsize, shownSize]
  by_cases hw : w = 0 <;> by_cases hh : h = 0 <;> simp [hw, hh, unknownSize]

theorem pixelSize_of_headerSize?_eq_none (h : headerSize? bytes = none) :
    pixelSize bytes = (100, 100) := by
  rw [pixelSize, h]
  rfl

theorem headerSize?_png (w h : UInt32) {between : List UInt8} (hbetween : between.length = 12)
    (rest : List UInt8) :
    headerSize? (Format.png.signature ++ (between ++ (bigEndianBytes 4 w.toNat
      ++ (bigEndianBytes 4 h.toNat ++ rest)))) = some (w.toNat, h.toNat) := by
  have hformat : ∀ rest, headerSize? (Format.png.signature ++ rest)
      = pngSize? (Format.png.signature ++ rest) := fun _ => rfl
  have hfront : (Format.png.signature ++ between).length = 16 := by
    rw [List.length_append, hbetween]
    rfl
  rw [hformat, ← List.append_assoc, pngSize?, List.drop_left' hfront,
    bigEndian?_append w.toNat_lt, ← List.append_assoc, List.drop_left' (by simp [hbetween]; rfl),
    bigEndian?_append h.toNat_lt]
  rfl

theorem headerSize?_gif (w h : UInt16) {between : List UInt8} (hbetween : between.length = 2)
    (rest : List UInt8) :
    headerSize? (Format.gif.signature ++ (between ++ ((bigEndianBytes 2 w.toNat).reverse
      ++ ((bigEndianBytes 2 h.toNat).reverse ++ rest)))) = some (w.toNat, h.toNat) := by
  have hformat : ∀ rest, headerSize? (Format.gif.signature ++ rest)
      = gifSize? (Format.gif.signature ++ rest) := fun _ => rfl
  have hfront : (Format.gif.signature ++ between).length = 6 := by
    rw [List.length_append, hbetween]
    rfl
  rw [hformat, ← List.append_assoc, gifSize?, List.drop_left' hfront,
    littleEndian?_append w.toNat_lt, ← List.append_assoc,
    List.drop_left' (by simp [hbetween]; rfl), littleEndian?_append h.toNat_lt]
  rfl

theorem headerSize?_jpeg (rest : List UInt8) :
    headerSize? (Format.jpeg.signature ++ rest) = frameSize? rest :=
  rfl

end Header

section PixelSize

variable {segments : List Segment}

/-- A PNG file has its size at a fixed place. -/
theorem pixelSize_png (w h : UInt32) {between : List UInt8} (hbetween : between.length = 12)
    (rest : List UInt8) :
    pixelSize (Format.png.signature ++ (between ++ (bigEndianBytes 4 w.toNat
      ++ (bigEndianBytes 4 h.toNat ++ rest)))) = shownSize w.toNat h.toNat :=
  pixelSize_of_headerSize? (headerSize?_png w h hbetween rest)

/-- A GIF file has its size at a fixed place, each side from its last byte to its first. -/
theorem pixelSize_gif (w h : UInt16) {between : List UInt8} (hbetween : between.length = 2)
    (rest : List UInt8) :
    pixelSize (Format.gif.signature ++ (between ++ ((bigEndianBytes 2 w.toNat).reverse
      ++ ((bigEndianBytes 2 h.toNat).reverse ++ rest)))) = shownSize w.toNat h.toNat :=
  pixelSize_of_headerSize? (headerSize?_gif w h hbetween rest)

/-- A JPEG file has its size in the frame header behind any segments. -/
theorem pixelSize_jpeg (segments : List Segment) (frame : Frame) (rest : List UInt8) :
    pixelSize (Format.jpeg.signature ++ (segmentBytes segments ++ (frame.bytes ++ rest)))
      = shownSize frame.width.toNat frame.height.toNat := by
  have hjoins : Joins segments (frame.bytes ++ rest) := fun _ => rfl
  refine pixelSize_of_headerSize? ?_
  rw [headerSize?_jpeg, frameSize?_append hjoins, frame.frameSize?_append]

/-- A JPEG file that ends before the width does has no size that can be read. -/
theorem pixelSize_of_isPrefix {frame : Frame} {bytes : List UInt8}
    (hfront : bytes <+: Format.jpeg.signature ++ (segmentBytes segments ++ frame.bytes))
    (hne : bytes ≠ Format.jpeg.signature ++ (segmentBytes segments ++ frame.bytes)) :
    pixelSize bytes = (100, 100) := by
  refine pixelSize_of_headerSize?_eq_none ?_
  match bytes with
  | [] => rfl
  | [first] =>
    obtain ⟨rfl, -⟩ := List.cons_prefix_cons.1 hfront
    rfl
  | first :: second :: bytes =>
    obtain ⟨rfl, hbehind⟩ := List.cons_prefix_cons.1 hfront
    obtain ⟨rfl, hbytes⟩ := List.cons_prefix_cons.1 hbehind
    refine frameSize?_of_isPrefix hbytes (Nat.lt_of_le_of_ne hbytes.length_le fun hlength => ?_)
    exact hne (congrArg (Format.jpeg.signature ++ ·) (hbytes.eq_of_length hlength))

/-- No marker starts where one should. -/
theorem pixelSize_of_ne {b : UInt8} (hb : b ≠ 0xFF) (hlast : segments.getLast? ≠ some .fill)
    (rest : List UInt8) :
    pixelSize (Format.jpeg.signature ++ (segmentBytes segments ++ b :: rest)) = (100, 100) := by
  have hjoins : Joins segments (b :: rest) := fun h => absurd h hlast
  refine pixelSize_of_headerSize?_eq_none ?_
  rw [headerSize?_jpeg, frameSize?_append hjoins, frameSize?_of_ne hb]

/-- The length of a segment counts its own two bytes. -/
theorem pixelSize_of_short {marker : UInt8} (hmarker : startsBlock marker = true) {length : Nat}
    (hlength : length < 2) (rest : List UInt8) :
    pixelSize (Format.jpeg.signature ++ (segmentBytes segments
      ++ 0xFF :: marker :: (bigEndianBytes 2 length ++ rest))) = (100, 100) := by
  refine pixelSize_of_headerSize?_eq_none ?_
  rw [headerSize?_jpeg, frameSize?_append fun _ => rfl, frameSize?_block hmarker,
    bigEndian?_append (by omega), Option.bind_some, if_pos hlength]

end PixelSize

/-- A reader of sizes gives what the headers of the three formats say, and 100 by 100 pixels where
the segments of a JPEG file lead to no frame header. -/
structure ReadsHeaders (size : List UInt8 → Nat × Nat) : Prop where
  png : ∀ (w h : UInt32) (between rest : List UInt8), between.length = 12 →
    size (Format.png.signature ++ (between ++ (bigEndianBytes 4 w.toNat
      ++ (bigEndianBytes 4 h.toNat ++ rest)))) = shownSize w.toNat h.toNat
  gif : ∀ (w h : UInt16) (between rest : List UInt8), between.length = 2 →
    size (Format.gif.signature ++ (between ++ ((bigEndianBytes 2 w.toNat).reverse
      ++ ((bigEndianBytes 2 h.toNat).reverse ++ rest)))) = shownSize w.toNat h.toNat
  jpeg : ∀ (segments : List Segment) (frame : Frame) (rest : List UInt8),
    size (Format.jpeg.signature ++ (segmentBytes segments ++ (frame.bytes ++ rest)))
      = shownSize frame.width.toNat frame.height.toNat
  /-- The file ends before the width does. -/
  cut : ∀ (segments : List Segment) (frame : Frame) (bytes : List UInt8),
    bytes <+: Format.jpeg.signature ++ (segmentBytes segments ++ frame.bytes) →
    bytes ≠ Format.jpeg.signature ++ (segmentBytes segments ++ frame.bytes) →
    size bytes = (100, 100)
  /-- Another byte stands where a marker should start. -/
  stray : ∀ (segments : List Segment) (b : UInt8) (rest : List UInt8), b ≠ 0xFF →
    segments.getLast? ≠ some .fill →
    size (Format.jpeg.signature ++ (segmentBytes segments ++ b :: rest)) = (100, 100)
  /-- The length of a segment is too small for itself. -/
  short : ∀ (segments : List Segment) (marker : UInt8) (length : Nat) (rest : List UInt8),
    startsBlock marker = true → length < 2 →
    size (Format.jpeg.signature ++ (segmentBytes segments
      ++ 0xFF :: marker :: (bigEndianBytes 2 length ++ rest))) = (100, 100)
  positive : ∀ bytes, 1 ≤ (size bytes).1 ∧ 1 ≤ (size bytes).2

/-- **The size is the one in the header**, if there is one. No side ever has length zero. -/
theorem pixelSize_reads : ReadsHeaders pixelSize where
  png w h _ rest hbetween := pixelSize_png w h hbetween rest
  gif w h _ rest hbetween := pixelSize_gif w h hbetween rest
  jpeg := pixelSize_jpeg
  cut _ _ _ hfront hne := pixelSize_of_isPrefix hfront hne
  stray _ _ rest hb hlast := pixelSize_of_ne hb hlast rest
  short _ _ _ rest hmarker hlength := pixelSize_of_short hmarker hlength rest
  positive := pixelSize_pos

/-- Segments between fill bytes, one of them with a payload that looks like a frame header of one by
one pixel; the file whole, without its last byte, and with others behind the first segments. -/
theorem pixelSize_reads_segments :
    let payload : List UInt8 := [0xFF, 0xC0, 0, 11, 8, 0, 1, 0, 1]
    let front : List Segment := [.fill, .alone 0xD0 rfl, .block 0xE0 payload rfl (by decide)]
    let segments := front ++ [.fill]
    let frame : Frame := ⟨0xC2, 11, 8, 480, 640, rfl⟩
    let file := Format.jpeg.signature ++ (segmentBytes segments ++ frame.bytes)
    let another := Format.jpeg.signature ++ (segmentBytes front ++ [0xC0, 0, 11, 8, 0, 1, 0, 1])
    let short :=
      Format.jpeg.signature ++ (segmentBytes front ++ 0xFF :: 0xE0 :: (bigEndianBytes 2 1 ++ []))
    let gif := Format.gif.signature
      ++ ([0x39, 0x61] ++ ((bigEndianBytes 2 320).reverse ++ ((bigEndianBytes 2 0).reverse ++ [])))
    (file.dropLast <+: file ∧ file.dropLast ≠ file ∧ front.getLast? ≠ some .fill ∧
        startsBlock 0xE0 = true) ∧
      pixelSize file = (640, 480) ∧ pixelSize file.dropLast = (100, 100) ∧
      pixelSize another = (100, 100) ∧ pixelSize short = (100, 100) ∧
      pixelSize gif = (100, 100) := by
  intro payload front segments frame file another short gif
  have hcut : file.dropLast <+: file ∧ file.dropLast ≠ file := by decide
  have hlast : front.getLast? ≠ some .fill := nofun
  have hreads : ReadsHeaders pixelSize := pixelSize_reads
  have hfile : pixelSize file = (640, 480) := by
    have hwhole := hreads.jpeg segments frame []
    rwa [List.append_nil] at hwhole
  exact ⟨⟨hcut.1, hcut.2, hlast, rfl⟩, hfile, hreads.cut segments frame _ hcut.1 hcut.2,
    hreads.stray front 0xC0 _ (by decide) hlast, hreads.short front 0xE0 1 [] rfl (by decide),
    hreads.gif 320 0 [0x39, 0x61] [] rfl⟩

end MailMerge.Image
