import Mathlib.Data.Rat.Floor
import TamuProofs.Ppm.Hue

/-!
# There and back between RGB and HSV (`pr03.cpp`)

`change_hue` gives every pixel of an image the hue of the same pixel of a control image: it goes to HSV with
`RGBtoHSV` and back with `HSVtoRGB`. With the image itself as the control image nothing should change.

`HSVtoRGB` adds 1, in place of the chroma, to the component that the sector of the hue makes the largest, and
leaves all three unassigned for a hue of exactly 240.

* `roundTrips_iff` — a pixel comes back if and only if its components reach from 0 to 255 and it is not pure blue;
* `unchanged_iff` — `change_hue` leaves an image unchanged if and only if this holds for all its pixels.
-/

namespace TamuProofs.Ppm

/-! ### The functions -/

/-- The conversion of a double to an `int`. -/
def trunc (q : ℚ) : ℤ := q.num.tdiv q.den

def fmod (x y : ℚ) : ℚ := x - y * trunc (x / y)

def hsvToRgb (c : HSV) : Option (ℤ × ℤ × ℤ) :=
  let intermediate1 := c.s * c.v
  let intermediate2 := intermediate1 * (1 - |fmod (c.h / 60) 2 - 1|)
  let n := c.v - intermediate1
  let sector :=
    if c.h < 120 then
      some (if c.h < 60 then 1 else intermediate2, if c.h < 60 then intermediate2 else 1, (0 : ℚ))
    else if c.h < 240 then
      some (0, if c.h < 180 then 1 else intermediate2, if c.h < 180 then intermediate2 else 1)
    else if c.h > 240 then
      some (if c.h < 300 then intermediate2 else 1, 0, if c.h < 300 then 1 else intermediate2)
    else none
  sector.map fun (R, G, B) => (trunc ((R + n) * 255), trunc ((G + n) * 255), trunc ((B + n) * 255))

/-- What `RGBtoHSV` computes from a stored pixel. -/
def RGB.hsv (p : RGB) : HSV := rgbToHsv p.red.toNat p.green.toNat p.blue.toNat

/-- The conversion of an `int` to an `unsigned char`. -/
def toUchar (n : ℤ) : UInt8 := UInt8.ofNat (n % 256).toNat

structure Image where
  width : ℕ
  height : ℕ
  pixelMap : ℕ → RGB

/-- The indices in the order of the two loops of `change_hue`. -/
def Image.indices (image : Image) : List ℕ :=
  (List.range image.height).flatMap fun y => (List.range image.width).map fun x => y * image.width + x

/-- The body of the loops of `change_hue`. -/
def changePixel (control : Image) (output : ℕ → RGB) (i : ℕ) : Option (ℕ → RGB) :=
  let hsv := (output i).hsv
  (hsvToRgb { hsv with h := (control.pixelMap i).hsv.h }).map fun (r, g, b) =>
    Function.update output i (RGB.mk (toUchar r) (toUchar g) (toUchar b))

def changeHue (control output : Image) : Option Image :=
  (control.indices.foldlM (changePixel control) output.pixelMap).map fun m => { output with pixelMap := m }

/-! ### What should hold -/

def RoundTrips (p : RGB) : Prop :=
  hsvToRgb p.hsv = some ((p.red.toNat : ℤ), (p.green.toNat : ℤ), (p.blue.toNat : ℤ))

def Unchanged (image : Image) : Prop :=
  ∃ out, changeHue image image = some out ∧
    ∀ i < image.height * image.width, out.pixelMap i = image.pixelMap i

/-- A component is 255, a component is 0, and the pixel is not pure blue. -/
def Saturated (p : RGB) : Prop :=
  (p.red = 255 ∨ p.green = 255 ∨ p.blue = 255) ∧ (p.red = 0 ∨ p.green = 0 ∨ p.blue = 0) ∧ p ≠ RGB.mk 0 0 255

instance (p : RGB) : Decidable (Saturated p) := inferInstanceAs (Decidable (_ ∧ _))

/-! ### Numbers -/

section Numbers

theorem trunc_intCast (n : ℤ) : trunc (n : ℚ) = n := by
  simp [trunc]

theorem trunc_of_nonneg {q : ℚ} (h : 0 ≤ q) : trunc q = ⌊q⌋ := by
  rw [trunc, Int.tdiv_eq_ediv_of_nonneg (Rat.num_nonneg.2 h), Rat.floor_def']

theorem fmod_two {t : ℚ} {k : ℤ} (hk : 0 ≤ k) (h1 : 2 * (k : ℚ) ≤ t) (h2 : t < 2 * k + 2) :
    fmod t 2 = t - 2 * k := by
  have hk' : (0 : ℚ) ≤ k := by exact_mod_cast hk
  have hfloor : ⌊t / 2⌋ = k := by
    rw [Int.floor_eq_iff]
    constructor <;> linarith
  rw [fmod, trunc_of_nonneg (by linarith), hfloor]

end Numbers

/-! ### Back from HSV -/

section Back

variable {c : HSV} {r g b : ℤ} {x : ℚ}

/-- One of the components is 1 before the smallest component is added. -/
theorem exists_full (h : hsvToRgb c = some (r, g, b)) :
    trunc ((1 + (c.v - c.s * c.v)) * 255) = r ∨ trunc ((1 + (c.v - c.s * c.v)) * 255) = g ∨
      trunc ((1 + (c.v - c.s * c.v)) * 255) = b := by
  obtain ⟨⟨R, G, B⟩, hsector, heq⟩ := Option.map_eq_some_iff.1 h
  simp only [Prod.mk.injEq] at heq
  obtain ⟨rfl, rfl, rfl⟩ := heq
  have hone : R = 1 ∨ G = 1 ∨ B = 1 := by
    split at hsector
    · cases hsector
      by_cases h60 : c.h < 60
      · exact .inl (if_pos h60)
      · exact .inr (.inl (if_neg h60))
    · split at hsector
      · cases hsector
        by_cases h180 : c.h < 180
        · exact .inr (.inl (if_pos h180))
        · exact .inr (.inr (if_neg h180))
      · split at hsector
        · cases hsector
          by_cases h300 : c.h < 300
          · exact .inr (.inr (if_pos h300))
          · exact .inl (if_neg h300)
        · cases hsector
  rcases hone with rfl | rfl | rfl
  · exact .inl rfl
  · exact .inr (.inl rfl)
  · exact .inr (.inr rfl)

/-- The component between the largest and the smallest, with saturation and value 1. -/
def middle (h : ℚ) : ℚ := 1 - |fmod (h / 60) 2 - 1|

theorem middle_even {h : ℚ} {k : ℤ} (hk : 0 ≤ k) (h1 : 120 * (k : ℚ) ≤ h) (h2 : h ≤ 120 * k + 60) :
    middle h = h / 60 - 2 * k := by
  rw [middle, fmod_two hk (by linarith) (by linarith), abs_of_nonpos (by linarith)]
  ring

theorem middle_odd {h : ℚ} {k : ℤ} (hk : 0 ≤ k) (h1 : 120 * (k : ℚ) + 60 ≤ h) (h2 : h < 120 * k + 120) :
    middle h = 2 * k + 2 - h / 60 := by
  rw [middle, fmod_two hk (by linarith) (by linarith), abs_of_nonneg (by linarith)]
  ring

theorem trunc_255 : trunc 255 = 255 := by exact_mod_cast trunc_intCast 255

theorem trunc_zero : trunc 0 = 0 := by exact_mod_cast trunc_intCast 0

theorem hsvToRgb_full (h : ℚ) : hsvToRgb { h := h, s := 1, v := 1 } =
    if h < 120 then
      some (if h < 60 then 255 else trunc (middle h * 255), if h < 60 then trunc (middle h * 255) else 255, 0)
    else if h < 240 then
      some (0, if h < 180 then 255 else trunc (middle h * 255), if h < 180 then trunc (middle h * 255) else 255)
    else if h > 240 then
      some (if h < 300 then trunc (middle h * 255) else 255, 0, if h < 300 then 255 else trunc (middle h * 255))
    else none := by
  unfold hsvToRgb middle
  simp only [mul_one, one_mul, sub_self, add_zero]
  split_ifs <;> simp [trunc_255, trunc_zero]

/-! The six sectors, with `x` between 0 and 1. -/

theorem hsvToRgb_redGreen (h0 : 0 ≤ x) (h1 : x ≤ 1) :
    hsvToRgb { h := 60 * x, s := 1, v := 1 } = some (255, trunc (x * 255), 0) := by
  have hmid : middle (60 * x) = x := by
    rw [middle_even (k := 0) le_rfl (by push_cast; linarith) (by push_cast; linarith)]
    push_cast
    ring
  rw [hsvToRgb_full, hmid, if_pos (by linarith)]
  rcases h1.lt_or_eq with h1 | rfl
  · rw [if_pos (by linarith), if_pos (by linarith)]
  · norm_num [trunc_255]

theorem hsvToRgb_greenRed (h0 : 0 < x) (h1 : x < 1) :
    hsvToRgb { h := 120 - 60 * x, s := 1, v := 1 } = some (trunc (x * 255), 255, 0) := by
  have hmid : middle (120 - 60 * x) = x := by
    rw [middle_odd (k := 0) le_rfl (by push_cast; linarith) (by push_cast; linarith)]
    push_cast
    ring
  rw [hsvToRgb_full, hmid, if_pos (by linarith), if_neg (by linarith), if_neg (by linarith)]

theorem hsvToRgb_greenBlue (h0 : 0 ≤ x) (h1 : x ≤ 1) :
    hsvToRgb { h := 120 + 60 * x, s := 1, v := 1 } = some (0, 255, trunc (x * 255)) := by
  have hmid : middle (120 + 60 * x) = x := by
    rw [middle_even (k := 1) (by omega) (by push_cast; linarith) (by push_cast; linarith)]
    push_cast
    ring
  rw [hsvToRgb_full, hmid, if_neg (by linarith), if_pos (by linarith)]
  rcases h1.lt_or_eq with h1 | rfl
  · rw [if_pos (by linarith), if_pos (by linarith)]
  · norm_num [trunc_255]

theorem hsvToRgb_blueGreen (h0 : 0 < x) (h1 : x < 1) :
    hsvToRgb { h := 240 - 60 * x, s := 1, v := 1 } = some (0, trunc (x * 255), 255) := by
  have hmid : middle (240 - 60 * x) = x := by
    rw [middle_odd (k := 1) (by omega) (by push_cast; linarith) (by push_cast; linarith)]
    push_cast
    ring
  rw [hsvToRgb_full, hmid, if_neg (by linarith), if_pos (by linarith), if_neg (by linarith), if_neg (by linarith)]

theorem hsvToRgb_blueRed (h0 : 0 < x) (h1 : x < 1) :
    hsvToRgb { h := 240 + 60 * x, s := 1, v := 1 } = some (trunc (x * 255), 0, 255) := by
  have hmid : middle (240 + 60 * x) = x := by
    rw [middle_even (k := 2) (by omega) (by push_cast; linarith) (by push_cast; linarith)]
    push_cast
    ring
  rw [hsvToRgb_full, hmid, if_neg (by linarith), if_neg (by linarith), if_pos (by linarith), if_pos (by linarith),
    if_pos (by linarith)]

theorem hsvToRgb_redBlue (h0 : 0 < x) (h1 : x ≤ 1) :
    hsvToRgb { h := 360 - 60 * x, s := 1, v := 1 } = some (255, 0, trunc (x * 255)) := by
  have hmid : middle (360 - 60 * x) = x := by
    rw [middle_odd (k := 2) (by omega) (by push_cast; linarith) (by push_cast; linarith)]
    push_cast
    ring
  rw [hsvToRgb_full, hmid, if_neg (by linarith), if_neg (by linarith), if_pos (by linarith), if_neg (by linarith),
    if_neg (by linarith)]

/-- A hue of 240 leaves the components unassigned. -/
theorem hsvToRgb_240 : hsvToRgb { h := 240, s := 1, v := 1 } = none := by
  rw [hsvToRgb_full]
  norm_num

end Back

/-! ### To HSV -/

section There

variable {x : ℚ}

theorem hue_redGreen (h0 : 0 ≤ x) (h1 : x ≤ 1) : hue 1 x 0 = 60 * x := by
  rw [hue_red one_ne_zero h1 zero_le_one (by rw [min_eq_right h0]; exact zero_lt_one), min_eq_right h0]
  norm_num
  rw [if_neg (by linarith)]
  ring

theorem hue_redBlue (h0 : 0 < x) (h1 : x ≤ 1) : hue 1 0 x = 360 - 60 * x := by
  rw [hue_red one_ne_zero zero_le_one h1 (by rw [min_eq_left h0.le]; exact zero_lt_one), min_eq_left h0.le]
  norm_num
  rw [if_pos (by linarith)]
  ring

theorem hue_greenRed (h0 : 0 ≤ x) (h1 : x < 1) : hue x 1 0 = 120 - 60 * x := by
  rw [hue_green one_ne_zero h1 zero_le_one, min_eq_right h0]
  norm_num
  ring

theorem hue_greenBlue (h0 : 0 ≤ x) (h1 : x ≤ 1) : hue 0 1 x = 120 + 60 * x := by
  rw [hue_green one_ne_zero zero_lt_one h1, min_eq_left h0]
  norm_num
  ring

theorem hue_blueRed (h0 : 0 ≤ x) (h1 : x < 1) : hue x 0 1 = 240 + 60 * x := by
  rw [hue_blue one_ne_zero h1 zero_lt_one, min_eq_right h0]
  norm_num
  ring

theorem hue_blueGreen (h0 : 0 ≤ x) (h1 : x < 1) : hue 0 x 1 = 240 - 60 * x := by
  rw [hue_blue one_ne_zero zero_lt_one h1, min_eq_left h0]
  norm_num
  ring

end There

/-! ### There and back -/

section RoundTrip

variable {r g b : ℤ}

theorem min_div_255 (a b : ℤ) : min ((a : ℚ) / 255) (b / 255) = ((min a b : ℤ) : ℚ) / 255 := by
  rw [min_div_div_right (by norm_num : (0 : ℚ) ≤ 255), Int.cast_min]

theorem trunc_div_255 (n : ℤ) : trunc ((n : ℚ) / 255 * 255) = n := by
  rw [div_mul_cancel₀ _ (by norm_num : (255 : ℚ) ≠ 0), trunc_intCast]

theorem div_255_bounds {n : ℤ} (h : 0 ≤ n ∧ n ≤ 255) : 0 ≤ (n : ℚ) / 255 ∧ (n : ℚ) / 255 ≤ 1 := by
  have h0 : (0 : ℚ) ≤ n := by exact_mod_cast h.1
  have h1 : (n : ℚ) ≤ 255 := by exact_mod_cast h.2
  constructor <;> linarith

theorem div_255_pos {n : ℤ} (h : 0 < n) : 0 < (n : ℚ) / 255 := by
  have h0 : (0 : ℚ) < n := by exact_mod_cast h
  linarith

theorem div_255_lt_one {n : ℤ} (h : n < 255) : (n : ℚ) / 255 < 1 := by
  have h1 : (n : ℚ) < 255 := by exact_mod_cast h
  linarith

theorem rgbToHsv_full (hmax : max r (max g b) = 255) (hmin : min r (min g b) = 0) :
    rgbToHsv r g b = { h := hue (r / 255) (g / 255) (b / 255), s := 1, v := 1 } := by
  unfold rgbToHsv
  dsimp only
  rw [max_div_255, max_div_255, min_div_255, min_div_255, hmax, hmin]
  norm_num

theorem rgbToHsv_rest (hr : 0 ≤ r) (hg : 0 ≤ g) (hb : 0 ≤ b) :
    (rgbToHsv r g b).v - (rgbToHsv r g b).s * (rgbToHsv r g b).v = ((min r (min g b) : ℤ) : ℚ) / 255 := by
  unfold rgbToHsv
  dsimp only
  rw [max_div_255, max_div_255, min_div_255, min_div_255]
  split
  · rename_i h0
    have hmax : max r (max g b) = 0 := by
      by_contra hne
      exact div_255_ne_zero hne h0
    rw [hmax, show min r (min g b) = 0 by omega]
    norm_num
  · rename_i h0
    rw [div_mul_cancel₀ _ h0]
    ring

/-- Components that reach from 0 to 255 come back, sector by sector. -/
theorem hsvToRgb_rgbToHsv (hr : 0 ≤ r ∧ r ≤ 255) (hg : 0 ≤ g ∧ g ≤ 255) (hb : 0 ≤ b ∧ b ≤ 255)
    (hmax : max r (max g b) = 255) (hmin : min r (min g b) = 0) (hblue : ¬ (r = 0 ∧ g = 0 ∧ b = 255)) :
    hsvToRgb (rgbToHsv r g b) = some (r, g, b) := by
  have hone : ((255 : ℤ) : ℚ) / 255 = 1 := by norm_num
  have hnil : ((0 : ℤ) : ℚ) / 255 = 0 := by norm_num
  rw [rgbToHsv_full hmax hmin]
  by_cases hr255 : r = 255
  · -- red is 255
    subst hr255
    by_cases hb0 : b = 0
    · subst hb0
      rw [hone, hnil, hue_redGreen (div_255_bounds hg).1 (div_255_bounds hg).2,
        hsvToRgb_redGreen (div_255_bounds hg).1 (div_255_bounds hg).2, trunc_div_255]
    · obtain rfl : g = 0 := by omega
      have hpos := div_255_pos (show 0 < b by omega)
      rw [hone, hnil, hue_redBlue hpos (div_255_bounds hb).2, hsvToRgb_redBlue hpos (div_255_bounds hb).2,
        trunc_div_255]
  · -- green or blue is
    by_cases hg255 : g = 255
    · subst hg255
      by_cases hr0 : r = 0
      · subst hr0
        rw [hone, hnil, hue_greenBlue (div_255_bounds hb).1 (div_255_bounds hb).2,
          hsvToRgb_greenBlue (div_255_bounds hb).1 (div_255_bounds hb).2, trunc_div_255]
      · obtain rfl : b = 0 := by omega
        have hpos := div_255_pos (show 0 < r by omega)
        have hlt := div_255_lt_one (show r < 255 by omega)
        rw [hone, hnil, hue_greenRed hpos.le hlt, hsvToRgb_greenRed hpos hlt, trunc_div_255]
    · obtain rfl : b = 255 := by omega
      by_cases hr0 : r = 0
      · subst hr0
        have hpos := div_255_pos (show 0 < g by omega)
        have hlt := div_255_lt_one (show g < 255 by omega)
        rw [hone, hnil, hue_blueGreen hpos.le hlt, hsvToRgb_blueGreen hpos hlt, trunc_div_255]
      · obtain rfl : g = 0 := by omega
        have hpos := div_255_pos (show 0 < r by omega)
        have hlt := div_255_lt_one (show r < 255 by omega)
        rw [hone, hnil, hue_blueRed hpos.le hlt, hsvToRgb_blueRed hpos hlt, trunc_div_255]

theorem hsvToRgb_blue : hsvToRgb (rgbToHsv 0 0 255) = none := by
  have hhue : rgbToHsv 0 0 255 = { h := 240, s := 1, v := 1 } := by
    rw [rgbToHsv_full (by omega) (by omega)]
    have h240 := hue_blueGreen (x := 0) le_rfl zero_lt_one
    norm_num at h240 ⊢
    exact h240
  rw [hhue, hsvToRgb_240]

theorem exists_component (hr : 0 ≤ r) (hg : 0 ≤ g) (hb : 0 ≤ b) {r' g' b' : ℤ}
    (h : hsvToRgb (rgbToHsv r g b) = some (r', g', b')) :
    r' = 255 + min r (min g b) ∨ g' = 255 + min r (min g b) ∨ b' = 255 + min r (min g b) := by
  have hfull := exists_full h
  have hsum : (1 + ((min r (min g b) : ℤ) : ℚ) / 255) * 255 = ((255 + min r (min g b) : ℤ) : ℚ) := by
    push_cast
    ring
  rw [rgbToHsv_rest hr hg hb, hsum, trunc_intCast] at hfull
  omega

end RoundTrip

/-! ### Pixels -/

section Pixel

variable {p : RGB}

theorem toNat_eq_255 {x : UInt8} : x = 255 ↔ (x.toNat : ℤ) = 255 := by
  rw [← UInt8.toNat_inj]
  show x.toNat = 255 ↔ _
  omega

theorem toNat_eq_0 {x : UInt8} : x = 0 ↔ (x.toNat : ℤ) = 0 := by
  rw [← UInt8.toNat_inj]
  show x.toNat = 0 ↔ _
  omega

theorem saturated_iff : Saturated p ↔
    max (p.red.toNat : ℤ) (max p.green.toNat p.blue.toNat) = 255 ∧
      min (p.red.toNat : ℤ) (min p.green.toNat p.blue.toNat) = 0 ∧
      ¬ ((p.red.toNat : ℤ) = 0 ∧ (p.green.toNat : ℤ) = 0 ∧ (p.blue.toNat : ℤ) = 255) := by
  obtain ⟨r, g, b⟩ := p
  have hr := r.toNat_lt
  have hg := g.toNat_lt
  have hb := b.toNat_lt
  unfold Saturated
  rw [ne_eq, RGB.mk.injEq]
  simp only [toNat_eq_255, toNat_eq_0]
  omega

theorem toUchar_toNat (x : UInt8) : toUchar x.toNat = x := by
  have hx : ((x.toNat : ℤ) % 256).toNat = x.toNat := by
    have := x.toNat_lt
    omega
  rw [toUchar, hx, UInt8.ofNat_toNat]

theorem toNat_toUchar (n : ℤ) : ((toUchar n).toNat : ℤ) = n % 256 := by
  rw [toUchar, UInt8.toNat_ofNat']
  omega

theorem roundTrips_of_saturated (h : Saturated p) : RoundTrips p := by
  have hr := p.red.toNat_lt
  have hg := p.green.toNat_lt
  have hb := p.blue.toNat_lt
  obtain ⟨hmax, hmin, hblue⟩ := saturated_iff.1 h
  exact hsvToRgb_rgbToHsv (by omega) (by omega) (by omega) hmax hmin hblue

/-- What is stored in the pixel, if it is the pixel itself, can only come from a saturated one. -/
theorem saturated_of_toUchar {r g b : ℤ} (h : hsvToRgb p.hsv = some (r, g, b)) (hr : toUchar r = p.red)
    (hg : toUchar g = p.green) (hb : toUchar b = p.blue) : Saturated p := by
  have hcomp := exists_component (by omega) (by omega) (by omega) h
  have hr' := toNat_toUchar r
  have hg' := toNat_toUchar g
  have hb' := toNat_toUchar b
  rw [hr] at hr'
  rw [hg] at hg'
  rw [hb] at hb'
  refine saturated_iff.2 ⟨by omega, by omega, ?_⟩
  rintro ⟨h1, h2, h3⟩
  rw [RGB.hsv, h1, h2, h3, hsvToRgb_blue] at h
  cases h

/-- **A pixel comes back** if and only if it is saturated. -/
theorem roundTrips_iff : RoundTrips p ↔ Saturated p := by
  refine ⟨fun h => ?_, roundTrips_of_saturated⟩
  exact saturated_of_toUchar h (toUchar_toNat _) (toUchar_toNat _) (toUchar_toNat _)

end Pixel

/-! ### Images -/

section Images

variable {image : Image}

theorem indices_eq (image : Image) : image.indices = List.range (image.height * image.width) := by
  unfold Image.indices
  induction image.height with
  | zero => simp
  | succ n ih =>
    rw [List.range_succ, List.flatMap_append, ih, Nat.succ_mul, List.range_add]
    simp

theorem changePixel_of_saturated {output : ℕ → RGB} {i : ℕ} (heq : output i = image.pixelMap i)
    (h : Saturated (image.pixelMap i)) : changePixel image output i = some output := by
  have hback : hsvToRgb (image.pixelMap i).hsv = _ := roundTrips_of_saturated h
  have hself : Function.update output i (image.pixelMap i) = output := by
    rw [← heq]
    exact Function.update_eq_self i output
  unfold changePixel
  dsimp only
  rw [heq, hback]
  simp only [Option.map_some, toUchar_toNat]
  exact congrArg some hself

theorem changePixel_ne {output output' : ℕ → RGB} {i k : ℕ} (h : changePixel image output i = some output')
    (hk : k ≠ i) : output' k = output k := by
  obtain ⟨⟨r, g, b⟩, -, rfl⟩ := Option.map_eq_some_iff.1 h
  exact Function.update_of_ne hk _ _

theorem saturated_of_changePixel {output output' : ℕ → RGB} {i : ℕ} (heq : output i = image.pixelMap i)
    (h : changePixel image output i = some output') (hsame : output' i = image.pixelMap i) :
    Saturated (image.pixelMap i) := by
  obtain ⟨⟨r, g, b⟩, hback, rfl⟩ := Option.map_eq_some_iff.1 h
  dsimp only at hsame
  rw [Function.update_self] at hsame
  rw [heq] at hback
  refine saturated_of_toUchar hback ?_ ?_ ?_
  · exact congrArg RGB.red hsame
  · exact congrArg RGB.green hsame
  · exact congrArg RGB.blue hsame

/-- The first `n` steps: the pixels from `n` on are as they were, and those before are too if and only if they
are saturated. -/
theorem foldlM_changePixel (image : Image) (n : ℕ) :
    (∀ out, (List.range n).foldlM (changePixel image) image.pixelMap = some out →
      ∀ k, n ≤ k → out k = image.pixelMap k) ∧
    ((∃ out, (List.range n).foldlM (changePixel image) image.pixelMap = some out ∧
      ∀ i < n, out i = image.pixelMap i) ↔ ∀ i < n, Saturated (image.pixelMap i)) := by
  induction n with
  | zero =>
    refine ⟨fun out h k _ => ?_, iff_of_true ⟨_, rfl, fun i hi => absurd hi (Nat.not_lt_zero i)⟩
      fun i hi => absurd hi (Nat.not_lt_zero i)⟩
    cases h
    rfl
  | succ n ih =>
    obtain ⟨hkeep, hiff⟩ := ih
    rw [List.range_succ]
    have hsplit : ∀ out, (List.range n ++ [n]).foldlM (changePixel image) image.pixelMap = some out →
        ∃ mid, (List.range n).foldlM (changePixel image) image.pixelMap = some mid ∧
          changePixel image mid n = some out := by
      intro out h
      rw [List.foldlM_append] at h
      obtain ⟨mid, hmid, h⟩ := Option.bind_eq_some_iff.1 h
      rw [List.foldlM_cons] at h
      obtain ⟨out', hout', h⟩ := Option.bind_eq_some_iff.1 h
      cases h
      exact ⟨mid, hmid, hout'⟩
    -- a step writes its own pixel only, so the pixels behind it are still those of the image
    refine ⟨fun out h k hk => ?_, ⟨?_, fun hsat => ?_⟩⟩
    · obtain ⟨mid, hmid, hstep⟩ := hsplit out h
      rw [changePixel_ne hstep (by omega), hkeep mid hmid k (by omega)]
    · rintro ⟨out, h, hsame⟩
      obtain ⟨mid, hmid, hstep⟩ := hsplit out h
      have hbefore : ∀ i < n, mid i = image.pixelMap i := fun i hi => by
        rw [← changePixel_ne hstep (by omega), hsame i (by omega)]
      intro i hi
      rcases Nat.lt_succ_iff_lt_or_eq.1 hi with hi | rfl
      · exact hiff.1 ⟨mid, hmid, hbefore⟩ i hi
      · exact saturated_of_changePixel (hkeep mid hmid i le_rfl) hstep (hsame i hi)
    · obtain ⟨mid, hmid, hbefore⟩ := hiff.2 fun i hi => hsat i (by omega)
      have hn : mid n = image.pixelMap n := hkeep mid hmid n le_rfl
      refine ⟨mid, ?_, fun i hi => ?_⟩
      · rw [List.foldlM_append, hmid]
        show ([n].foldlM (changePixel image) mid) = some mid
        rw [List.foldlM_cons, changePixel_of_saturated hn (hsat n (by omega))]
        rfl
      · rcases Nat.lt_succ_iff_lt_or_eq.1 hi with hi | rfl
        · exact hbefore i hi
        · exact hn

/-- **An image stays as it is** if and only if all its pixels are saturated. -/
theorem unchanged_iff :
    Unchanged image ↔ ∀ i < image.height * image.width, Saturated (image.pixelMap i) := by
  rw [← (foldlM_changePixel image _).2, Unchanged, changeHue, indices_eq]
  constructor
  · rintro ⟨out, h, hsame⟩
    obtain ⟨m, hm, rfl⟩ := Option.map_eq_some_iff.1 h
    exact ⟨m, hm, hsame⟩
  · rintro ⟨m, hm, hsame⟩
    exact ⟨{ image with pixelMap := m }, by rw [hm]; rfl, hsame⟩

end Images

/-- **There and back**: a pixel comes back from HSV, and an image is left unchanged by `change_hue` with itself as
the control image, if and only if the pixel is saturated, or all pixels of the image are. -/
theorem hsv_roundTrip_iff (p : RGB) (image : Image) :
    (RoundTrips p ↔ Saturated p) ∧
      (Unchanged image ↔ ∀ i < image.height * image.width, Saturated (image.pixelMap i)) :=
  ⟨roundTrips_iff, unchanged_iff⟩

/-- A gray pixel does not come back, and an image of one is changed. -/
theorem not_unchanged_gray :
    ¬ RoundTrips (RGB.mk 128 128 128) ∧
      ¬ Unchanged { width := 1, height := 1, pixelMap := fun _ => RGB.mk 128 128 128 } := by
  rw [roundTrips_iff, unchanged_iff]
  exact ⟨by decide, fun h => absurd (h 0 (by decide)) (by decide)⟩

end TamuProofs.Ppm
