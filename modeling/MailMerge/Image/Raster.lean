/-!
# Raster images

The format of a raster image shows in its first bytes, and its size in pixels stands in the header.
`pixelSize` reads the size of PNG, JPEG and GIF images. It always has an answer: where the bytes are
of another format, end too early, are malformed, or give a side of length zero, it is `unknownSize`.
-/

namespace MailMerge.Image

/-- The raster formats that are recognized. -/
inductive Format where
  | png
  | jpeg
  | gif
  deriving DecidableEq, Repr

namespace Format

/-- The media type of a format. -/
def mediaType : Format → String
  | png => "image/png"
  | jpeg => "image/jpeg"
  | gif => "image/gif"

/-- The usual file extension of a format. -/
def extension : Format → String
  | png => "png"
  | jpeg => "jpeg"
  | gif => "gif"

/-- The bytes that files of a format start with. -/
def signature : Format → List UInt8
  | png => [0x89, 0x50, 0x4E, 0x47]
  | jpeg => [0xFF, 0xD8]
  | gif => [0x47, 0x49, 0x46, 0x38]

/-- The format that some bytes are in, going by how they start. -/
def ofBytes? (bytes : List UInt8) : Option Format :=
  [png, jpeg, gif].find? fun format => format.signature.isPrefixOf bytes

end Format

/-- A number written with its most significant byte first. -/
def bigEndian (bytes : List UInt8) : Nat :=
  bytes.foldl (fun n b => 256 * n + b.toNat) 0

/-- The first `count` bytes of `bytes`, if there are so many. -/
def takeExactly? (count : Nat) (bytes : List UInt8) : Option (List UInt8) :=
  if count ≤ bytes.length then some (bytes.take count) else none

/-- The number in the first `count` bytes, the most significant first. -/
def bigEndian? (count : Nat) (bytes : List UInt8) : Option Nat :=
  (takeExactly? count bytes).map bigEndian

/-- The number in the first two bytes, the least significant first. -/
def littleEndian? (bytes : List UInt8) : Option Nat :=
  (takeExactly? 2 bytes).map fun b => bigEndian b.reverse

/-- The width and height in the header of a PNG file. -/
def pngSize? (bytes : List UInt8) : Option (Nat × Nat) := do
  let width ← bigEndian? 4 (bytes.drop 16)
  let height ← bigEndian? 4 (bytes.drop 20)
  return (width, height)

/-- The width and height of the logical screen of a GIF file. -/
def gifSize? (bytes : List UInt8) : Option (Nat × Nat) := do
  let width ← littleEndian? (bytes.drop 6)
  let height ← littleEndian? (bytes.drop 8)
  return (width, height)

/-- A JPEG marker that no length follows. -/
def standsAlone (marker : UInt8) : Bool :=
  marker == 0x01 || (0xD0 ≤ marker && marker ≤ 0xD9)

/-- A JPEG marker of a frame header, which gives the size. -/
def startsFrame (marker : UInt8) : Bool :=
  0xC0 ≤ marker && marker ≤ 0xC3

/-- The width and height in the first frame header of the marker segments of a JPEG file. Fill bytes
before a marker are skipped; the length of a segment counts its own two bytes. -/
def frameSize? (bytes : List UInt8) : Option (Nat × Nat) :=
  match bytes with
  | lead :: marker :: rest =>
    if lead ≠ 0xFF then none
    else if marker = 0xFF then frameSize? (marker :: rest)
    else if standsAlone marker then frameSize? rest
    else if startsFrame marker then do
      let height ← bigEndian? 2 (rest.drop 3)
      let width ← bigEndian? 2 (rest.drop 5)
      return (width, height)
    else
      match bigEndian? 2 rest with
      | none => none
      | some length => if length < 2 then none else frameSize? (rest.drop length)
  | _ => none
termination_by bytes.length
decreasing_by
  all_goals simp only [List.length_cons, List.length_drop]
  all_goals omega

/-- The width and height in the first frame header of a JPEG file. -/
def jpegSize? (bytes : List UInt8) : Option (Nat × Nat) :=
  frameSize? (bytes.drop 2)

/-- The size given for an image whose size cannot be read. -/
def unknownSize : Nat × Nat := (100, 100)

/-- The size that the header gives, for the formats that are recognized. -/
def headerSize? (bytes : List UInt8) : Option (Nat × Nat) :=
  match Format.ofBytes? bytes with
  | some .png => pngSize? bytes
  | some .jpeg => jpegSize? bytes
  | some .gif => gifSize? bytes
  | none => none

/-- The width and height of an image in pixels. -/
def pixelSize (bytes : List UInt8) : Nat × Nat :=
  match headerSize? bytes with
  | some (width, height) => if width = 0 ∨ height = 0 then unknownSize else (width, height)
  | none => unknownSize

/-- No side has length zero. -/
theorem pixelSize_pos (bytes : List UInt8) :
    0 < (pixelSize bytes).1 ∧ 0 < (pixelSize bytes).2 := by
  unfold pixelSize
  split
  · split
    · decide
    · simp only
      omega
  · decide

end MailMerge.Image
