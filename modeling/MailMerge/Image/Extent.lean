import MailMerge.Image.Basic
import MailMerge.Options

/-!
# The size of a picture on the page

Lengths on the page are counted in EMU, of which an inch has `emusPerInch`. A size that is asked for
counts; if only one side is asked for, the other one keeps the ratio of the pixels. Otherwise the
size follows from the pixels, scaled down until no side is longer than allowed.

`sides` computes both sides before they are rounded, in any arithmetic of lengths. The order of its
operations matters for floats: each of them rounds once.
-/

namespace MailMerge

/-- Arithmetic of lengths. -/
class LengthArith (α : Type) extends Mul α, Div α where
  /-- A whole number as a length. -/
  ofNat : Nat → α
  /-- Whether a length is finite and positive. -/
  isUsable : α → Bool
  /-- Whether the second length is the longer one. -/
  isBelow : α → α → Bool

instance : LengthArith Float where
  ofNat := floatOfNat
  isUsable x := x.isFinite && 0.0 < x
  isBelow a b := a < b

namespace Image

/-- The EMU to an inch. -/
def emusPerInch : Nat := 914400

section Sides

variable {α : Type} [LengthArith α]

/-- The EMU in some inches. -/
def inchesToEmu (inches : α) : α :=
  inches * LengthArith.ofNat emusPerInch

/-- The EMU to a pixel. -/
def emuPerPixel (dpi : Nat) : α :=
  LengthArith.ofNat emusPerInch / LengthArith.ofNat (max dpi 1)

/-- The EMU in some pixels. -/
def pixelsToEmu (pixels dpi : Nat) : α :=
  LengthArith.ofNat pixels * emuPerPixel dpi

/-- Both sides after scaling down, first by the width and then by the height, so that neither is
longer than `bound`. -/
def scaleDown (bound width height : α) : α × α :=
  let (width, height) :=
    if LengthArith.isBelow bound width then (bound, height * (bound / width)) else (width, height)
  if LengthArith.isBelow bound height then (width * (bound / height), bound) else (width, height)

/-- Both sides of a picture in EMU, before they are rounded, given its pixels, the sides that are
asked for, the pixels to an inch, and the longest side in inches. -/
def sides (pixels : Nat × Nat) (width height : Option α) (dpi : Nat) (maxInches : α) : α × α :=
  let across := max pixels.1 1
  let down := max pixels.2 1
  match width.filter LengthArith.isUsable, height.filter LengthArith.isUsable with
  | some w, some h => (inchesToEmu w, inchesToEmu h)
  | some w, none =>
    let cx := inchesToEmu w
    (cx, cx * LengthArith.ofNat down / LengthArith.ofNat across)
  | none, some h =>
    let cy := inchesToEmu h
    (cy * LengthArith.ofNat across / LengthArith.ofNat down, cy)
  | none, none =>
    let cx := pixelsToEmu across dpi
    let cy := pixelsToEmu down dpi
    let bound := inchesToEmu maxInches
    if LengthArith.isUsable bound then scaleDown bound cx cy else (cx, cy)

end Sides

/-- The longest length that is written. -/
def maxEmu : Nat := Nat.pow 2 63 - 1

/-- A length in whole EMU; halves go up, and no length is longer than `maxEmu`. A length that is not
finite and positive counts as zero. -/
def roundEmu (emu : Float) : Nat :=
  match Double.ofFloat emu with
  | .finite false significand exponent =>
    min maxEmu
      (roundHalfUp (significand * Nat.pow 2 exponent.toNat) (Nat.pow 2 (-exponent).toNat))
  | _ => 0

/-- The size of a picture on the page, in EMU. -/
structure Extent where
  width : Int
  height : Int
  deriving DecidableEq, Repr

namespace Extent

/-- The size on the page for a size in pixels and the sides that are asked for in inches. -/
def ofPixels (pixels : Nat × Nat) (width height : Option Float) (options : Options) : Extent :=
  let (cx, cy) := sides pixels width height options.dpi options.maxImageInches
  ⟨roundEmu cx, roundEmu cy⟩

/-- The size of a picture on the page. -/
def ofImage (image : Image) (options : Options) : Extent :=
  ofPixels (pixelSize image.bytes) image.width image.height options

end Extent

end Image

end MailMerge
