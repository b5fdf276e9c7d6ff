import Mathlib.Algebra.Order.Field.Power
import Mathlib.Algebra.Order.Floor.Semifield
import Mathlib.Data.Rat.Floor
import Mathlib.Tactic.FieldSimp
import Mathlib.Tactic.Linarith
import Mathlib.Tactic.Positivity
import MailMerge.Image.Extent

/-!
# Sizes on the page, exactly

With rational numbers for lengths, `sides` computes what floats only come near to. A picture whose
size is not asked for is scaled down twice, and the second time changes the side that the first time
has fixed. Together this is one factor for both sides, the largest up to one with which both fit
(`scaleDown_eq`), so the ratio of the pixels is kept, and where the picture is too large, one side
is as long as it may be (`sides_fit`).

Rounding a float is rounding the rational number that it is (`roundEmu_eq_roundExact`).
-/

namespace MailMerge

/-! ### The numbers that doubles are -/

/-- The number that a double is, unless it is infinite or no number. -/
def Double.value? : Double → Option ℚ
  | .finite negative significand exponent =>
    some ((if negative then -1 else 1) * (significand * 2 ^ exponent))
  | _ => none

/-- Halves go up. -/
theorem roundHalfUp_eq_floor (num : ℕ) {den : ℕ} (hden : 0 < den) :
    roundHalfUp num den = ⌊(num : ℚ) / den + 1 / 2⌋₊ := by
  have hne : (den : ℚ) ≠ 0 := Nat.cast_ne_zero.2 hden.ne'
  have hsum : (num : ℚ) / den + 1 / 2 = ((2 * num + den : ℕ) : ℚ) / ((2 * den : ℕ) : ℚ) := by
    push_cast
    field_simp
  rw [hsum, Nat.floor_div_eq_div, roundHalfUp]

/-- A power of two as a fraction of natural numbers. -/
theorem two_zpow_eq_div (exponent : ℤ) :
    (2 : ℚ) ^ exponent = 2 ^ exponent.toNat / 2 ^ (-exponent).toNat := by
  rw [← zpow_natCast, ← zpow_natCast, ← zpow_sub₀ two_ne_zero]
  congr 1
  omega

/-- Lengths as rational numbers, all of which are finite. -/
instance : LengthArith ℚ where
  ofNat n := n
  isUsable x := 0 < x
  isBelow a b := a < b

namespace Image

/-! ### Rounding -/

/-- A length in whole EMU; halves go up, and no length is longer than `maxEmu`. -/
def roundExact (emu : ℚ) : ℕ :=
  min maxEmu ⌊emu + 1 / 2⌋₊

theorem roundExact_of_nonpos {emu : ℚ} (h : emu ≤ 0) : roundExact emu = 0 := by
  have hlt : emu + 1 / 2 < 1 := by linarith
  rw [roundExact, Nat.floor_eq_zero.2 hlt, Nat.min_zero]

/-- A float is rounded as the number that it is. -/
theorem roundEmu_eq_roundExact {x : Float} {emu : ℚ} (h : (Double.ofFloat x).value? = some emu) :
    roundEmu x = roundExact emu := by
  rw [roundEmu]
  cases hx : Double.ofFloat x with
  | nan =>
    rw [hx] at h
    cases h
  | infinite negative =>
    rw [hx] at h
    cases h
  | finite negative significand exponent =>
    rw [hx] at h
    obtain rfl := Option.some.inj h
    cases negative with
    | true =>
      have hnonneg : (0 : ℚ) ≤ significand * 2 ^ exponent := by positivity
      rw [roundExact_of_nonpos (by simpa using hnonneg)]
    | false =>
      have hden : 0 < 2 ^ (-exponent).toNat := by positivity
      have hvalue : ((significand * 2 ^ exponent.toNat : ℕ) : ℚ) / (2 ^ (-exponent).toNat : ℕ)
          = significand * 2 ^ exponent := by
        rw [two_zpow_eq_div]
        push_cast
        rw [mul_div_assoc]
      have hround := roundHalfUp_eq_floor (significand * 2 ^ exponent.toNat) hden
      rw [hvalue] at hround
      simpa [roundExact] using congrArg (min maxEmu) hround

/-- A length that is not too long is rounded by half a unit at most. -/
theorem abs_roundExact_sub_le {emu : ℚ} (hpos : 0 ≤ emu) (hmax : emu ≤ maxEmu + 1 / 2) :
    |(roundExact emu : ℚ) - emu| ≤ 1 / 2 := by
  have hle : (⌊emu + 1 / 2⌋₊ : ℚ) ≤ emu + 1 / 2 := Nat.floor_le (by linarith)
  have hlt : emu + 1 / 2 < ⌊emu + 1 / 2⌋₊ + 1 := Nat.lt_floor_add_one _
  rw [roundExact, Nat.cast_min, abs_le]
  rcases min_cases (maxEmu : ℚ) (⌊emu + 1 / 2⌋₊ : ℚ) with ⟨hmin, hfloor⟩ | ⟨hmin, -⟩
  · rw [hmin]
    constructor <;> linarith
  · rw [hmin]
    constructor <;> linarith

/-! ### Scaling down -/

section Scale

variable {bound width height : ℚ}

/-- The factor by which a picture is scaled so that no side is longer than `bound`. -/
def scale (bound width height : ℚ) : ℚ :=
  min 1 (bound / max width height)

theorem scale_pos (hbound : 0 < bound) (hwidth : 0 < width) : 0 < scale bound width height :=
  lt_min one_pos (div_pos hbound (lt_max_of_lt_left hwidth))

theorem scale_le_one : scale bound width height ≤ 1 :=
  min_le_left _ _

theorem scale_eq_one (h : max width height ≤ bound) (hwidth : 0 < width) :
    scale bound width height = 1 :=
  min_eq_left ((one_le_div (lt_max_of_lt_left hwidth)).2 h)

theorem scale_eq_div (h : bound ≤ max width height) (hwidth : 0 < width) :
    scale bound width height = bound / max width height :=
  min_eq_right ((div_le_one (lt_max_of_lt_left hwidth)).2 h)

/-- The longer side fits, with nothing left where it was too long. -/
theorem max_mul_scale (hwidth : 0 < width) :
    max width height * scale bound width height = min (max width height) bound := by
  have hmax : 0 < max width height := lt_max_of_lt_left hwidth
  rw [scale, mul_min_of_nonneg _ _ hmax.le, mul_one, mul_div_cancel₀ _ hmax.ne']

theorem scaleDown_of_le (hwidth : width ≤ bound) (hheight : height ≤ bound) :
    scaleDown bound width height = (width, height) := by
  simp [scaleDown, LengthArith.isBelow, hwidth.not_gt, hheight.not_gt]

theorem scaleDown_of_width_lt (hwidth : bound < width)
    (hheight : height * (bound / width) ≤ bound) :
    scaleDown bound width height = (bound, height * (bound / width)) := by
  simp [scaleDown, LengthArith.isBelow, hwidth, hheight.not_gt]

theorem scaleDown_of_height_lt (hwidth : width ≤ bound) (hheight : bound < height) :
    scaleDown bound width height = (width * (bound / height), bound) := by
  simp [scaleDown, LengthArith.isBelow, hwidth.not_gt, hheight]

theorem scaleDown_of_lt_of_lt (hwidth : bound < width)
    (hheight : bound < height * (bound / width)) :
    scaleDown bound width height
      = (bound * (bound / (height * (bound / width))), bound) := by
  simp [scaleDown, LengthArith.isBelow, hwidth, hheight]

/-- **Scaling down is scaling both sides by one factor**, whichever sides are too long at first, and
whether or not the second one is so only after the first has been mended. -/
theorem scaleDown_eq (hbound : 0 < bound) (hwidth : 0 < width) (hheight : 0 < height) :
    scaleDown bound width height
      = (width * scale bound width height, height * scale bound width height) := by
  rcases le_or_gt width bound with hw | hw
  · rcases le_or_gt height bound with hh | hh
    · rw [scaleDown_of_le hw hh, scale_eq_one (max_le hw hh) hwidth, mul_one, mul_one]
    · have hmax : max width height = height := max_eq_right (hw.trans hh.le)
      rw [scaleDown_of_height_lt hw hh, scale_eq_div (hh.le.trans_eq hmax.symm) hwidth, hmax,
        mul_div_cancel₀ _ hheight.ne']
  · -- once the width fits, the height is too long if it was the longer side
    have hsecond : height * (bound / width) ≤ bound ↔ height ≤ width := by
      rw [mul_div_left_comm, mul_le_iff_le_one_right hbound, div_le_one hwidth]
    rcases le_or_gt height width with hle | hlt
    · have hmax : max width height = width := max_eq_left hle
      rw [scaleDown_of_width_lt hw (hsecond.2 hle),
        scale_eq_div (hw.le.trans_eq hmax.symm) hwidth, hmax, mul_div_cancel₀ _ hwidth.ne']
    · have hmax : max width height = height := max_eq_right hlt.le
      have hh : bound < height * (bound / width) := lt_of_not_ge fun h => hlt.not_ge (hsecond.1 h)
      rw [scaleDown_of_lt_of_lt hw hh,
        scale_eq_div ((hw.trans hlt).le.trans_eq hmax.symm) hwidth, hmax,
        mul_div_cancel₀ _ hheight.ne']
      congr 1
      field_simp

/-- What becomes of a size when no side may be longer than `bound`: both sides shrink alike, and no
more than they have to. -/
structure Fits (bound : ℚ) (native size : ℚ × ℚ) : Prop where
  width_pos : 0 < size.1
  height_pos : 0 < size.2
  width_le : size.1 ≤ bound
  height_le : size.2 ≤ bound
  width_le_native : size.1 ≤ native.1
  height_le_native : size.2 ≤ native.2
  ratio : size.1 / size.2 = native.1 / native.2
  tight : bound < native.1 ∨ bound < native.2 → size.1 = bound ∨ size.2 = bound

theorem fits_scaleDown (hbound : 0 < bound) (hwidth : 0 < width) (hheight : 0 < height) :
    Fits bound (width, height) (scaleDown bound width height) := by
  have hpos : 0 < scale bound width height := scale_pos hbound hwidth
  have hle : scale bound width height ≤ 1 := scale_le_one
  have hmax : max width height * scale bound width height = min (max width height) bound :=
    max_mul_scale hwidth
  have hfit {side : ℚ} (hside : side ≤ max width height) :
      side * scale bound width height ≤ bound :=
    calc side * scale bound width height
      _ ≤ max width height * scale bound width height := mul_le_mul_of_nonneg_right hside hpos.le
      _ ≤ bound := hmax.trans_le (min_le_right _ _)
  rw [scaleDown_eq hbound hwidth hheight]
  exact
    { width_pos := mul_pos hwidth hpos
      height_pos := mul_pos hheight hpos
      width_le := hfit (le_max_left width height)
      height_le := hfit (le_max_right width height)
      width_le_native := mul_le_of_le_one_right hwidth.le hle
      height_le_native := mul_le_of_le_one_right hheight.le hle
      ratio := mul_div_mul_right width height hpos.ne'
      tight := fun hlong => by
        rw [min_eq_right (lt_max_iff.2 hlong).le] at hmax
        refine (max_choice width height).imp (fun hw => ?_) fun hh => ?_
        · rwa [hw] at hmax
        · rwa [hh] at hmax }

end Scale

/-! ### Sides -/

section Sides

variable {pixels : ℕ × ℕ} {width height : Option ℚ} {dpi : ℕ} {maxInches : ℚ}

/-- A side in EMU as its pixels have it. -/
def nativeSide (pixels dpi : ℕ) : ℚ :=
  pixels * emusPerInch / dpi

/-- The size in EMU of a picture with so many pixels, of which none count as one. -/
def nativeSize (pixels : ℕ × ℕ) (dpi : ℕ) : ℚ × ℚ :=
  (nativeSide (max pixels.1 1) dpi, nativeSide (max pixels.2 1) dpi)

theorem emusPerInch_pos : 0 < (emusPerInch : ℚ) :=
  Nat.cast_pos.2 (by decide)

theorem nativeSide_pos {count : ℕ} (hcount : 0 < count) (hdpi : 0 < dpi) :
    0 < nativeSide count dpi :=
  div_pos (mul_pos (Nat.cast_pos.2 hcount) emusPerInch_pos) (Nat.cast_pos.2 hdpi)

theorem nativeSide_div_nativeSide (across down : ℕ) (hdpi : 0 < dpi) :
    nativeSide across dpi / nativeSide down dpi = across / down := by
  rw [nativeSide, nativeSide, div_div_div_cancel_right₀ (Nat.cast_ne_zero.2 hdpi.ne'),
    mul_div_mul_right _ _ emusPerInch_pos.ne']

theorem pixelsToEmu_eq (count : ℕ) (hdpi : 0 < dpi) :
    pixelsToEmu count dpi = nativeSide count dpi := by
  have hmax : max dpi 1 = dpi := Nat.max_eq_left hdpi
  simp only [pixelsToEmu, emuPerPixel, hmax, nativeSide, mul_div_assoc]
  rfl

theorem filter_isUsable_eq_none (h : ∀ x ∈ width, x ≤ 0) :
    width.filter LengthArith.isUsable = none := by
  rw [Option.filter_eq_none_iff]
  intro x hx
  simpa [LengthArith.isUsable] using h x hx

theorem filter_isUsable_some {x : ℚ} (h : 0 < x) :
    (some x).filter LengthArith.isUsable = some x := by
  simp [LengthArith.isUsable, h]

/-- A size that is not asked for follows from the pixels. -/
theorem sides_of_neither (hwidth : ∀ w ∈ width, w ≤ 0) (hheight : ∀ h ∈ height, h ≤ 0)
    (hdpi : 0 < dpi) :
    sides pixels width height dpi maxInches
      = if 0 < maxInches then scaleDown (maxInches * emusPerInch) (nativeSize pixels dpi).1
          (nativeSize pixels dpi).2
        else nativeSize pixels dpi := by
  have husable : (LengthArith.isUsable (inchesToEmu maxInches) = true) = (0 < maxInches) := by
    rw [← mul_pos_iff_of_pos_right emusPerInch_pos]
    exact decide_eq_true_eq
  simp only [sides, filter_isUsable_eq_none hwidth, filter_isUsable_eq_none hheight,
    pixelsToEmu_eq _ hdpi, husable]
  rfl

/-- One side that is asked for is as long as that, and the other one follows. -/
theorem sides_of_width {w : ℚ} (hw : 0 < w) (hheight : ∀ h ∈ height, h ≤ 0) :
    sides pixels (some w) height dpi maxInches
      = (w * emusPerInch,
        w * emusPerInch * (max pixels.2 1 : ℕ) / (max pixels.1 1 : ℕ)) := by
  simp only [sides, filter_isUsable_some hw, filter_isUsable_eq_none hheight]
  rfl

theorem sides_of_height {h : ℚ} (hh : 0 < h) (hwidth : ∀ w ∈ width, w ≤ 0) :
    sides pixels width (some h) dpi maxInches
      = (h * emusPerInch * (max pixels.1 1 : ℕ) / (max pixels.2 1 : ℕ), h * emusPerInch) := by
  simp only [sides, filter_isUsable_some hh, filter_isUsable_eq_none hwidth]
  rfl

theorem sides_of_both {w h : ℚ} (hw : 0 < w) (hh : 0 < h) :
    sides pixels (some w) (some h) dpi maxInches = (w * emusPerInch, h * emusPerInch) := by
  simp only [sides, filter_isUsable_some hw, filter_isUsable_some hh]
  rfl

theorem nativeSize_pos (pixels : ℕ × ℕ) (hdpi : 0 < dpi) :
    0 < (nativeSize pixels dpi).1 ∧ 0 < (nativeSize pixels dpi).2 :=
  ⟨nativeSide_pos (lt_max_of_lt_right one_pos) hdpi,
    nativeSide_pos (lt_max_of_lt_right one_pos) hdpi⟩

/-- A size that is not asked for fits. -/
theorem fits_sides (pixels : ℕ × ℕ) (hmax : 0 < maxInches) (hwidth : ∀ w ∈ width, w ≤ 0)
    (hheight : ∀ h ∈ height, h ≤ 0) (hdpi : 0 < dpi) :
    Fits (maxInches * emusPerInch) (nativeSize pixels dpi)
      (sides pixels width height dpi maxInches) := by
  obtain ⟨hacross, hdown⟩ := nativeSize_pos pixels hdpi
  rw [sides_of_neither hwidth hheight hdpi, if_pos hmax]
  exact fits_scaleDown (mul_pos hmax emusPerInch_pos) hacross hdown

theorem sides_pos (pixels : ℕ × ℕ) (width height : Option ℚ) (maxInches : ℚ) (hdpi : 0 < dpi) :
    0 < (sides pixels width height dpi maxInches).1 ∧
      0 < (sides pixels width height dpi maxInches).2 := by
  have hacross : (0 : ℚ) < (max pixels.1 1 : ℕ) := Nat.cast_pos.2 (lt_max_of_lt_right one_pos)
  have hdown : (0 : ℚ) < (max pixels.2 1 : ℕ) := Nat.cast_pos.2 (lt_max_of_lt_right one_pos)
  have hinch {x : ℚ} (hx : 0 < x) : 0 < x * emusPerInch := mul_pos hx emusPerInch_pos
  have husable (o : Option ℚ) : (∀ x ∈ o, x ≤ 0) ∨ ∃ x, o = some x ∧ 0 < x := by
    cases o with
    | none => exact .inl nofun
    | some x => simpa using le_or_gt x 0
  rcases husable width with hwidth | ⟨w, rfl, hw⟩ <;>
    rcases husable height with hheight | ⟨h, rfl, hh⟩
  · by_cases hmax : 0 < maxInches
    · have hfits := fits_sides pixels hmax hwidth hheight hdpi
      exact ⟨hfits.width_pos, hfits.height_pos⟩
    · rw [sides_of_neither hwidth hheight hdpi, if_neg hmax]
      exact nativeSize_pos pixels hdpi
  · rw [sides_of_height hh hwidth]
    exact ⟨div_pos (mul_pos (hinch hh) hacross) hdown, hinch hh⟩
  · rw [sides_of_width hw hheight]
    exact ⟨hinch hw, div_pos (mul_pos (hinch hw) hdown) hacross⟩
  · rw [sides_of_both hw hh]
    exact ⟨hinch hw, hinch hh⟩

end Sides

theorem dpi_pos (options : Options) : 0 < options.dpi := by
  rw [Options.dpi]
  split
  · decide
  · next h => exact Nat.pos_of_ne_zero fun hzero => h (UInt32.toNat_inj.1 hzero)

/-- **The size of a picture on the page.** A size that is not asked for fits, and where one side is
asked for, it is as long as that; either way the ratio is that of the pixels. Rounding changes each
side by half a unit at most, and it is what is done to floats. -/
theorem sides_fit (pixels : ℕ × ℕ) (width height : Option ℚ) (options : Options) (maxInches : ℚ) :
    let ratio : ℚ := (max pixels.1 1 : ℕ) / (max pixels.2 1 : ℕ)
    let dpi := if options.pixelDpi = 0 then 96 else options.pixelDpi.toNat
    let size := sides pixels width height options.dpi maxInches
    (0 < maxInches → (∀ w ∈ width, w ≤ 0) → (∀ h ∈ height, h ≤ 0) →
        Fits (maxInches * emusPerInch) (nativeSize pixels dpi) size ∧ size.1 / size.2 = ratio) ∧
      (∀ w, width = some w → 0 < w → (∀ h ∈ height, h ≤ 0) →
        size.1 = w * emusPerInch ∧ size.1 / size.2 = ratio) ∧
      (∀ h, height = some h → 0 < h → (∀ w ∈ width, w ≤ 0) →
        size.2 = h * emusPerInch ∧ size.1 / size.2 = ratio) ∧
      (∀ side, side = size.1 ∨ side = size.2 → side ≤ maxEmu + 1 / 2 →
        |(roundExact side : ℚ) - side| ≤ 1 / 2) ∧
      ∀ (x : Float) (emu : ℚ), (Double.ofFloat x).value? = some emu →
        roundEmu x = roundExact emu := by
  intro ratio dpi size
  have hdpi : 0 < options.dpi := dpi_pos options
  refine ⟨fun hmax hwidth hheight => ?_, ?_, ?_, ?_, fun x emu => roundEmu_eq_roundExact⟩
  · have hfits := fits_sides pixels hmax hwidth hheight hdpi
    exact ⟨hfits, hfits.ratio.trans (nativeSide_div_nativeSide _ _ hdpi)⟩
  · rintro w rfl hw hheight
    have hside : w * emusPerInch ≠ 0 := (mul_pos hw emusPerInch_pos).ne'
    rw [show size = _ from sides_of_width hw hheight]
    refine ⟨rfl, ?_⟩
    dsimp only
    rw [mul_div_assoc (w * _), div_mul_cancel_left₀ hside, inv_div]
  · rintro h rfl hh hwidth
    have hside : h * emusPerInch ≠ 0 := (mul_pos hh emusPerInch_pos).ne'
    rw [show size = _ from sides_of_height hh hwidth]
    refine ⟨rfl, ?_⟩
    dsimp only
    rw [mul_div_assoc (h * _), mul_div_cancel_left₀ _ hside]
  · intro side hside hle
    obtain ⟨hwidth, hheight⟩ := sides_pos pixels width height maxInches hdpi
    have hpos : 0 < side := by
      rcases hside with rfl | rfl
      · exact hwidth
      · exact hheight
    exact abs_roundExact_sub_le hpos.le hle

/-- A picture that is too high still when its width has been mended, and one whose width is asked
for. -/
theorem sides_fit_tall :
    let options : Options := { pixelDpi := 0 }
    let size := sides (1200, 2400) (some (-1 : ℚ)) none options.dpi 6
    let asked := sides (0, 3) (some (1 / 7 : ℚ)) none options.dpi 6
    ((0 : ℚ) < 6 ∧ (∀ w ∈ some (-1 : ℚ), w ≤ 0) ∧ (0 : ℚ) < 1 / 7 ∧ asked.1 ≤ maxEmu + 1 / 2) ∧
      size = (2743200, 5486400) ∧
      Fits (6 * emusPerInch) (nativeSize (1200, 2400) 96) size ∧ size.1 / size.2 = 1200 / 2400 ∧
      asked.1 = 1 / 7 * emusPerInch ∧ asked.1 / asked.2 = 1 / 3 ∧
      |(roundExact asked.1 : ℚ) - asked.1| ≤ 1 / 2 := by
  intro options size asked
  have hneg : ∀ w ∈ some (-1 : ℚ), w ≤ 0 := by decide +kernel
  have hle : asked.1 ≤ maxEmu + 1 / 2 := by decide +kernel
  obtain ⟨hauto, -⟩ := sides_fit (1200, 2400) (some (-1)) none options 6
  obtain ⟨-, hwidth, -, hround, -⟩ := sides_fit (0, 3) (some (1 / 7)) none options 6
  obtain ⟨hfits, hratio⟩ := hauto (by norm_num) hneg nofun
  obtain ⟨hside, hratio'⟩ := hwidth _ rfl (by norm_num) nofun
  refine ⟨⟨by norm_num, hneg, by norm_num, hle⟩, by decide +kernel, hfits, ?_, hside, ?_,
    hround _ (.inl rfl) hle⟩
  · exact hratio.trans (by norm_num)
  · exact hratio'.trans (by norm_num)

end Image

end MailMerge
