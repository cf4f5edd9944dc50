import Mathlib.Algebra.Order.Field.Basic
import Mathlib.Algebra.Order.Field.Rat
import Mathlib.Tactic.Linarith
import Mathlib.Tactic.NormNum
import Mathlib.Tactic.Ring
import TamuProofs.Ppm.Load

/-!
# The hue of a pixel (`RGBtoHSV` of `pr03.cpp`, `get_hue` and `ppm_init_hsv` of `pr05/myppm.h`)

Both functions compute the hue by the same formula (`hue`), with doubles read as rationals. The hue depends on the
differences of the components and on which of them is the largest; it is in a sector that is given by the one
that is strictly largest, or strictly smallest (`hue_redMax`, …, `hue_blueMin`).

`ppm_init_hsv` passes the bytes of the file as signed characters, so that a byte from 128 on is less than one
below 128: the largest component becomes one of the smaller ones.

* `getHue_eq_iff` — for one pixel, the two hues are the same if and only if `SignsAgree`;
* **`hueMap_iff`** — the same, for the maps that the two loaders make of a file.
-/

namespace TamuProofs.Ppm

open TamuProofs.Lib

/-! ### The two functions -/

/-- The hue, from the components divided by 255. -/
def hue (RED GREEN BLUE : ℚ) : ℚ :=
  let MAX := max RED (max GREEN BLUE)
  let MIN := min RED (min GREEN BLUE)
  if MAX = 0 then 0
  else
    let delta := MAX - MIN
    if delta = 0 then 0
    else
      let h := (if RED = MAX then (GREEN - BLUE) / delta
        else if GREEN = MAX then 2 + (BLUE - RED) / delta
        else 4 + (RED - GREEN) / delta) * 60
      if h < 0 then h + 360 else h

structure HSV where
  h : ℚ
  s : ℚ
  v : ℚ

def rgbToHsv (r g b : ℤ) : HSV :=
  let RED : ℚ := r / 255
  let GREEN : ℚ := g / 255
  let BLUE : ℚ := b / 255
  let MAX := max RED (max GREEN BLUE)
  let MIN := min RED (min GREEN BLUE)
  { h := hue RED GREEN BLUE, s := if MAX = 0 then 0 else (MAX - MIN) / MAX, v := MAX }

def getHue (r g b : ℤ) : ℚ := hue (r / 255) (g / 255) (b / 255)

/-- `myppm::ppm_init_hsv`: the bytes of a pixel are signed characters. -/
def ppmInitHsv (file : Bytes) : Option (Loaded ℚ) :=
  ppmLoad (fun r g b => getHue (charVal r) (charVal g) (charVal b)) file

/-! ### The formula -/

section Formula

variable {R G B : ℚ}

theorem hue_of_max_eq_zero (h : max R (max G B) = 0) : hue R G B = 0 := if_pos h

theorem hue_of_eq (hG : G = R) (hB : B = R) : hue R G B = 0 := by
  subst hG hB
  simp [hue]

/-- Red is the largest, not by itself only. -/
theorem hue_red (h0 : R ≠ 0) (hG : G ≤ R) (hB : B ≤ R) (hne : min G B < R) :
    hue R G B = if (G - B) / (R - min G B) * 60 < 0 then (G - B) / (R - min G B) * 60 + 360
      else (G - B) / (R - min G B) * 60 := by
  have hmax : max R (max G B) = R := max_eq_left (max_le hG hB)
  have hmin : min R (min G B) = min G B := min_eq_right hne.le
  unfold hue
  dsimp only
  rw [hmax, hmin, if_neg h0, if_neg (by linarith), if_pos rfl]

theorem hue_green (h0 : G ≠ 0) (hR : R < G) (hB : B ≤ G) :
    hue R G B = (2 + (B - R) / (G - min R B)) * 60 := by
  have hmax : max R (max G B) = G := by rw [max_eq_left hB, max_eq_right hR.le]
  have hmin : min R (min G B) = min R B := by rw [min_eq_right hB]
  have hdelta : 0 < G - min R B := by
    have := min_le_left R B
    linarith
  have hfrac : -1 ≤ (B - R) / (G - min R B) := by
    rw [le_div_iff₀ hdelta]
    rcases min_cases R B with ⟨h, _⟩ | ⟨h, _⟩ <;> rw [h] <;> linarith
  unfold hue
  dsimp only
  rw [hmax, hmin, if_neg h0, if_neg hdelta.ne', if_neg hR.ne, if_pos rfl, if_neg (by linarith)]

theorem hue_blue (h0 : B ≠ 0) (hR : R < B) (hG : G < B) :
    hue R G B = (4 + (R - G) / (B - min R G)) * 60 := by
  have hmax : max R (max G B) = B := by rw [max_eq_right hG.le, max_eq_right hR.le]
  have hmin : min R (min G B) = min R G := by rw [min_eq_left hG.le]
  have hdelta : 0 < B - min R G := by
    have := min_le_left R G
    linarith
  have hfrac : -1 ≤ (R - G) / (B - min R G) := by
    rw [le_div_iff₀ hdelta]
    rcases min_cases R G with ⟨h, _⟩ | ⟨h, _⟩ <;> rw [h] <;> linarith
  unfold hue
  dsimp only
  rw [hmax, hmin, if_neg h0, if_neg hdelta.ne', if_neg hR.ne, if_neg hG.ne, if_neg (by linarith)]

/-! ### Sectors -/

theorem frac_bounds {a d : ℚ} (h1 : -d < a) (h2 : a < d) : -1 < a / d ∧ a / d < 1 := by
  have hd : 0 < d := by linarith
  constructor
  · rw [lt_div_iff₀ hd]
    linarith
  · rw [div_lt_one hd]
    exact h2

theorem hue_redMax (h0 : R ≠ 0) (hG : G < R) (hB : B < R) : hue R G B < 60 ∨ 300 < hue R G B := by
  have hne : min G B < R := (min_le_left _ _).trans_lt hG
  have hfrac : -1 < (G - B) / (R - min G B) ∧ (G - B) / (R - min G B) < 1 := by
    refine frac_bounds ?_ ?_
    · have := min_le_left G B
      linarith
    · have := min_le_right G B
      linarith
  rw [hue_red h0 hG.le hB.le hne]
  split
  · right
    linarith [hfrac.1]
  · left
    linarith [hfrac.2]

theorem hue_greenMax (h0 : G ≠ 0) (hR : R < G) (hB : B < G) : 60 < hue R G B ∧ hue R G B < 180 := by
  have hfrac : -1 < (B - R) / (G - min R B) ∧ (B - R) / (G - min R B) < 1 := by
    refine frac_bounds ?_ ?_
    · have := min_le_right R B
      linarith
    · have := min_le_left R B
      linarith
  rw [hue_green h0 hR hB.le]
  constructor
  · linarith [hfrac.1]
  · linarith [hfrac.2]

theorem hue_blueMax (h0 : B ≠ 0) (hR : R < B) (hG : G < B) : 180 < hue R G B ∧ hue R G B < 300 := by
  have hfrac : -1 < (R - G) / (B - min R G) ∧ (R - G) / (B - min R G) < 1 := by
    refine frac_bounds ?_ ?_
    · have := min_le_left R G
      linarith
    · have := min_le_right R G
      linarith
  rw [hue_blue h0 hR hG]
  constructor
  · linarith [hfrac.1]
  · linarith [hfrac.2]

/-- The smallest component is below both of the others: the quotient has the sign of its numerator. -/
theorem frac_pos_le {a d : ℚ} (h1 : 0 < a) (h2 : a ≤ d) : 0 < a / d ∧ a / d ≤ 1 :=
  ⟨div_pos h1 (h1.trans_le h2), (div_le_one (h1.trans_le h2)).2 h2⟩

theorem frac_pos_lt {a d : ℚ} (h1 : 0 < a) (h2 : a < d) : 0 < a / d ∧ a / d < 1 :=
  ⟨div_pos h1 (h1.trans h2), (div_lt_one (h1.trans h2)).2 h2⟩

theorem hue_redMin (h0 : max G B ≠ 0) (hG : R < G) (hB : R < B) : 120 < hue R G B ∧ hue R G B < 240 := by
  rcases le_or_gt B G with hBG | hGB
  · rw [max_eq_left hBG] at h0
    rw [hue_green h0 hG hBG, min_eq_left hB.le]
    have hfrac := frac_pos_le (sub_pos.2 hB) (sub_le_sub_right hBG R)
    constructor
    · linarith [hfrac.1]
    · linarith [hfrac.2]
  · rw [max_eq_right hGB.le] at h0
    rw [hue_blue h0 hB hGB, min_eq_left hG.le, ← neg_sub G R, neg_div]
    have hfrac := frac_pos_lt (sub_pos.2 hG) (sub_lt_sub_right hGB R)
    constructor
    · linarith [hfrac.2]
    · linarith [hfrac.1]

theorem hue_greenMin (h0 : max R B ≠ 0) (hR : G < R) (hB : G < B) : 240 < hue R G B := by
  rcases le_or_gt B R with hBR | hRB
  · rw [max_eq_left hBR] at h0
    have hneg : (G - B) / (R - G) * 60 < 0 := by
      have := div_neg_of_neg_of_pos (sub_neg.2 hB) (sub_pos.2 hR)
      linarith
    rw [hue_red h0 hR.le hBR ((min_le_left _ _).trans_lt hR), min_eq_left hB.le, if_pos hneg, ← neg_sub B G, neg_div]
    have hfrac := frac_pos_le (sub_pos.2 hB) (sub_le_sub_right hBR G)
    linarith [hfrac.2]
  · rw [max_eq_right hRB.le] at h0
    rw [hue_blue h0 hRB hB, min_eq_right hR.le]
    have := div_pos (sub_pos.2 hR) (sub_pos.2 hB)
    linarith

theorem hue_blueMin (h0 : max R G ≠ 0) (hR : B < R) (hG : B < G) : 0 < hue R G B ∧ hue R G B < 120 := by
  rcases le_or_gt G R with hGR | hRG
  · rw [max_eq_left hGR] at h0
    have hfrac := frac_pos_le (sub_pos.2 hG) (sub_le_sub_right hGR B)
    rw [hue_red h0 hGR hR.le ((min_le_right _ _).trans_lt hR), min_eq_right hG.le, if_neg (by linarith [hfrac.1])]
    constructor
    · linarith [hfrac.1]
    · linarith [hfrac.2]
  · rw [max_eq_right hRG.le] at h0
    rw [hue_green h0 hRG hG.le, min_eq_right hR.le, ← neg_sub R B, neg_div]
    have hfrac := frac_pos_lt (sub_pos.2 hR) (sub_lt_sub_right hRG B)
    constructor
    · linarith [hfrac.2]
    · linarith [hfrac.1]

theorem hue_range (R G B : ℚ) : 0 ≤ hue R G B ∧ hue R G B < 360 := by
  by_cases h0 : max R (max G B) = 0
  · rw [hue_of_max_eq_zero h0]
    norm_num
  rcases le_or_gt (max G B) R with hR | hR
  · -- red is the largest
    rw [max_eq_left hR] at h0
    have hG : G ≤ R := (le_max_left _ _).trans hR
    have hB : B ≤ R := (le_max_right _ _).trans hR
    rcases lt_or_ge (min G B) R with hne | hge
    · have hdelta : 0 < R - min G B := sub_pos.2 hne
      have hlow : -1 ≤ (G - B) / (R - min G B) := by
        rw [le_div_iff₀ hdelta]
        have := min_le_left G B
        linarith
      have hhigh : (G - B) / (R - min G B) ≤ 1 := by
        rw [div_le_one hdelta]
        have := min_le_right G B
        linarith
      rw [hue_red h0 hG hB hne]
      split
      · constructor <;> linarith
      · constructor <;> linarith
    · rw [hue_of_eq (hG.antisymm (hge.trans (min_le_left _ _))) (hB.antisymm (hge.trans (min_le_right _ _)))]
      norm_num
  rcases le_or_gt B G with hBG | hGB
  · -- green is the largest
    rw [max_eq_left hBG] at hR
    rw [max_eq_left hBG, max_eq_right hR.le] at h0
    have hdelta : 0 < G - min R B := sub_pos.2 ((min_le_left _ _).trans_lt hR)
    have hlow : -1 ≤ (B - R) / (G - min R B) := by
      rw [le_div_iff₀ hdelta]
      have := min_le_right R B
      linarith
    have hhigh : (B - R) / (G - min R B) ≤ 1 := by
      rw [div_le_one hdelta]
      have := min_le_left R B
      linarith
    rw [hue_green h0 hR hBG]
    constructor <;> linarith
  · -- blue is the largest
    rw [max_eq_right hGB.le] at hR
    rw [max_eq_right hGB.le, max_eq_right hR.le] at h0
    have hsector := hue_blueMax h0 hR hGB
    constructor <;> linarith [hsector.1, hsector.2]

theorem hue_add (t : ℚ) (h0 : max R (max G B) ≠ 0) (ht : max R (max G B) + t ≠ 0) :
    hue (R + t) (G + t) (B + t) = hue R G B := by
  have hmax : max (R + t) (max (G + t) (B + t)) = max R (max G B) + t := by
    rw [max_add_add_right, max_add_add_right]
  have hmin : min (R + t) (min (G + t) (B + t)) = min R (min G B) + t := by
    rw [min_add_add_right, min_add_add_right]
  unfold hue
  dsimp only
  rw [hmax, hmin, if_neg h0, if_neg ht]
  simp only [add_sub_add_right_eq_sub, add_left_inj]

end Formula

/-! ### Signed characters -/

/-- The bytes of the pixel are all below 128, or all from 128 on, or there is only red. -/
def SignsAgree (p : RGB) : Prop :=
  (p.red < 128 ∧ p.green < 128 ∧ p.blue < 128) ∨ (128 ≤ p.red ∧ 128 ≤ p.green ∧ 128 ≤ p.blue) ∨
    (p.green = 0 ∧ p.blue = 0)

instance (p : RGB) : Decidable (SignsAgree p) := inferInstanceAs (Decidable (_ ∨ _))

/-- The hue that `RGBtoHSV` computes from a stored pixel. -/
def RGB.hue (p : RGB) : ℚ := (rgbToHsv p.red.toNat p.green.toNat p.blue.toNat).h

/-- The hue that `get_hue` computes from the bytes of a pixel. -/
def RGB.signedHue (p : RGB) : ℚ := getHue (charVal p.red) (charVal p.green) (charVal p.blue)

section Signed

theorem charVal_small {b : UInt8} (h : b < 128) : charVal b = b.toNat ∧ b.toNat < 128 :=
  ⟨if_pos h, UInt8.lt_iff_toNat_lt.1 h⟩

theorem charVal_large {b : UInt8} (h : ¬ b < 128) : charVal b = (b.toNat : ℤ) - 256 ∧ 128 ≤ b.toNat := by
  refine ⟨if_neg h, ?_⟩
  rw [UInt8.lt_iff_toNat_lt, Nat.not_lt] at h
  exact h

theorem div_255_lt {a b : ℤ} (h : a < b) : (a : ℚ) / 255 < b / 255 := by
  have : (a : ℚ) < b := by exact_mod_cast h
  linarith

theorem div_255_ne_zero {a : ℤ} (h : a ≠ 0) : (a : ℚ) / 255 ≠ 0 := by
  have : (a : ℚ) ≠ 0 := by exact_mod_cast h
  exact div_ne_zero this (by norm_num)

theorem max_div_255 (a b : ℤ) : max ((a : ℚ) / 255) (b / 255) = ((max a b : ℤ) : ℚ) / 255 := by
  rw [max_div_div_right (by norm_num : (0 : ℚ) ≤ 255), Int.cast_max]

variable {r g b : ℤ}

theorem getHue_of_max_eq_zero (h : max r (max g b) = 0) : getHue r g b = 0 := by
  refine hue_of_max_eq_zero ?_
  rw [max_div_255, max_div_255, h]
  norm_num

theorem getHue_redMax (h0 : r ≠ 0) (hg : g < r) (hb : b < r) : getHue r g b < 60 ∨ 300 < getHue r g b :=
  hue_redMax (div_255_ne_zero h0) (div_255_lt hg) (div_255_lt hb)

theorem getHue_greenMax (h0 : g ≠ 0) (hr : r < g) (hb : b < g) : 60 < getHue r g b ∧ getHue r g b < 180 :=
  hue_greenMax (div_255_ne_zero h0) (div_255_lt hr) (div_255_lt hb)

theorem getHue_blueMax (h0 : b ≠ 0) (hr : r < b) (hg : g < b) : 180 < getHue r g b ∧ getHue r g b < 300 :=
  hue_blueMax (div_255_ne_zero h0) (div_255_lt hr) (div_255_lt hg)

theorem getHue_redMin (h0 : max g b ≠ 0) (hg : r < g) (hb : r < b) : 120 < getHue r g b ∧ getHue r g b < 240 :=
  hue_redMin (max_div_255 g b ▸ div_255_ne_zero h0) (div_255_lt hg) (div_255_lt hb)

theorem getHue_greenMin (h0 : max r b ≠ 0) (hr : g < r) (hb : g < b) : 240 < getHue r g b :=
  hue_greenMin (max_div_255 r b ▸ div_255_ne_zero h0) (div_255_lt hr) (div_255_lt hb)

theorem getHue_blueMin (h0 : max r g ≠ 0) (hr : b < r) (hg : b < g) : 0 < getHue r g b ∧ getHue r g b < 120 :=
  hue_blueMin (max_div_255 r g ▸ div_255_ne_zero h0) (div_255_lt hr) (div_255_lt hg)

/-- Components that are all less by 256. -/
theorem getHue_sub (hr : 128 ≤ r ∧ r < 256) (hg : 128 ≤ g ∧ g < 256) (hb : 128 ≤ b ∧ b < 256) :
    getHue (r - 256) (g - 256) (b - 256) = getHue r g b := by
  have hsub : ∀ a : ℤ, ((a - 256 : ℤ) : ℚ) / 255 = (a : ℚ) / 255 + (-256 / 255) := by
    intro a
    push_cast
    ring
  have hmax : max ((r : ℚ) / 255) (max (g / 255) (b / 255)) = ((max r (max g b) : ℤ) : ℚ) / 255 := by
    rw [max_div_255, max_div_255]
  unfold getHue
  rw [hsub, hsub, hsub]
  refine hue_add _ ?_ ?_
  · rw [hmax]
    exact div_255_ne_zero (by omega)
  · rw [hmax, ← hsub]
    exact div_255_ne_zero (by omega)

/-! A larger byte is read as the smaller one: the hue moves to another sector, or becomes 0. -/

theorem getHue_ne_red (hr : 128 ≤ r ∧ r < 256) (hg : 0 ≤ g ∧ g < 128) (hb : 0 ≤ b ∧ b < 128)
    (h0 : ¬ (g = 0 ∧ b = 0)) : getHue (r - 256) g b ≠ getHue r g b := by
  intro heq
  have hsigned := getHue_redMin (r := r - 256) (g := g) (b := b) (by omega) (by omega) (by omega)
  rw [heq] at hsigned
  rcases getHue_redMax (r := r) (g := g) (b := b) (by omega) (by omega) (by omega) with h | h
  · linarith [hsigned.1]
  · linarith [hsigned.2]

theorem getHue_ne_green (hr : 0 ≤ r ∧ r < 128) (hg : 128 ≤ g ∧ g < 256) (hb : 0 ≤ b ∧ b < 128) :
    getHue r (g - 256) b ≠ getHue r g b := by
  intro heq
  have hunsigned := getHue_greenMax (r := r) (g := g) (b := b) (by omega) (by omega) (by omega)
  rw [← heq] at hunsigned
  by_cases h0 : max r b = 0
  · rw [getHue_of_max_eq_zero (by omega)] at hunsigned
    linarith [hunsigned.1]
  · have hsigned := getHue_greenMin (r := r) (g := g - 256) (b := b) h0 (by omega) (by omega)
    linarith [hunsigned.2]

theorem getHue_ne_blue (hr : 0 ≤ r ∧ r < 128) (hg : 0 ≤ g ∧ g < 128) (hb : 128 ≤ b ∧ b < 256) :
    getHue r g (b - 256) ≠ getHue r g b := by
  intro heq
  have hunsigned := getHue_blueMax (r := r) (g := g) (b := b) (by omega) (by omega) (by omega)
  rw [← heq] at hunsigned
  by_cases h0 : max r g = 0
  · rw [getHue_of_max_eq_zero (by omega)] at hunsigned
    linarith [hunsigned.1]
  · have hsigned := getHue_blueMin (r := r) (g := g) (b := b - 256) h0 (by omega) (by omega)
    linarith [hunsigned.1, hsigned.2]

theorem getHue_ne_redGreen (hr : 128 ≤ r ∧ r < 256) (hg : 128 ≤ g ∧ g < 256) (hb : 0 ≤ b ∧ b < 128) :
    getHue (r - 256) (g - 256) b ≠ getHue r g b := by
  intro heq
  have hunsigned := getHue_blueMin (r := r) (g := g) (b := b) (by omega) (by omega) (by omega)
  rw [← heq] at hunsigned
  by_cases h0 : b = 0
  · rw [getHue_of_max_eq_zero (by omega)] at hunsigned
    linarith [hunsigned.1]
  · have hsigned := getHue_blueMax (r := r - 256) (g := g - 256) (b := b) h0 (by omega) (by omega)
    linarith [hunsigned.2, hsigned.1]

theorem getHue_ne_redBlue (hr : 128 ≤ r ∧ r < 256) (hg : 0 ≤ g ∧ g < 128) (hb : 128 ≤ b ∧ b < 256) :
    getHue (r - 256) g (b - 256) ≠ getHue r g b := by
  intro heq
  have hunsigned := getHue_greenMin (r := r) (g := g) (b := b) (by omega) (by omega) (by omega)
  rw [← heq] at hunsigned
  by_cases h0 : g = 0
  · rw [getHue_of_max_eq_zero (by omega)] at hunsigned
    linarith
  · have hsigned := getHue_greenMax (r := r - 256) (g := g) (b := b - 256) h0 (by omega) (by omega)
    linarith [hsigned.2]

theorem getHue_ne_greenBlue (hr : 0 ≤ r ∧ r < 128) (hg : 128 ≤ g ∧ g < 256) (hb : 128 ≤ b ∧ b < 256) :
    getHue r (g - 256) (b - 256) ≠ getHue r g b := by
  intro heq
  have hunsigned := getHue_redMin (r := r) (g := g) (b := b) (by omega) (by omega) (by omega)
  rw [← heq] at hunsigned
  by_cases h0 : r = 0
  · rw [getHue_of_max_eq_zero (by omega)] at hunsigned
    linarith [hunsigned.1]
  · rcases getHue_redMax (r := r) (g := g - 256) (b := b - 256) h0 (by omega) (by omega) with h | h
    · linarith [hunsigned.1]
    · linarith [hunsigned.2]

theorem getHue_red_only (hr : 0 ≤ r) : getHue r 0 0 = 0 := by
  rcases hr.eq_or_lt with rfl | hr
  · exact getHue_of_max_eq_zero rfl
  · have hpos : (0 : ℚ) < (r : ℚ) / 255 := by
      have := div_255_lt hr
      simpa using this
    unfold getHue
    rw [hue_red hpos.ne' (by simpa using hpos.le) (by simpa using hpos.le) (by simpa using hpos)]
    simp

/-- A byte of value `a` that is read as the signed character `a'`. -/
def ReadAs (a a' : ℤ) : Prop := (0 ≤ a ∧ a < 128) ∧ a' = a ∨ (128 ≤ a ∧ a < 256) ∧ a' = a - 256

theorem readAs_charVal (x : UInt8) : ReadAs x.toNat (charVal x) := by
  have hx := x.toNat_lt
  by_cases h : x < 128
  · obtain ⟨he, hlt⟩ := charVal_small h
    exact Or.inl ⟨by omega, he⟩
  · obtain ⟨he, hle⟩ := charVal_large h
    exact Or.inr ⟨by omega, he⟩

/-- The hue of the components and the hue of what they are read as. -/
theorem getHue_readAs_iff {r' g' b' : ℤ} (hr : ReadAs r r') (hg : ReadAs g g') (hb : ReadAs b b') :
    getHue r' g' b' = getHue r g b ↔
      (r < 128 ∧ g < 128 ∧ b < 128) ∨ (128 ≤ r ∧ 128 ≤ g ∧ 128 ≤ b) ∨ (g = 0 ∧ b = 0) := by
  rcases hr with ⟨hr, rfl⟩ | ⟨hr, rfl⟩
  · rcases hg with ⟨hg, rfl⟩ | ⟨hg, rfl⟩
    · rcases hb with ⟨hb, rfl⟩ | ⟨hb, rfl⟩
      · exact iff_of_true rfl (by omega)
      · exact iff_of_false (getHue_ne_blue hr hg hb) (by omega)
    · rcases hb with ⟨hb, rfl⟩ | ⟨hb, rfl⟩
      · exact iff_of_false (getHue_ne_green hr hg hb) (by omega)
      · exact iff_of_false (getHue_ne_greenBlue hr hg hb) (by omega)
  · rcases hg with ⟨hg, rfl⟩ | ⟨hg, rfl⟩
    · rcases hb with ⟨hb, rfl⟩ | ⟨hb, rfl⟩
      · by_cases hz : g' = 0 ∧ b' = 0
        · obtain ⟨rfl, rfl⟩ := hz
          have hmax : max (r - 256) (max 0 0) = 0 := by omega
          exact iff_of_true ((getHue_of_max_eq_zero hmax).trans (getHue_red_only (by omega)).symm) (by omega)
        · exact iff_of_false (getHue_ne_red hr hg hb hz) (by omega)
      · exact iff_of_false (getHue_ne_redBlue hr hg hb) (by omega)
    · rcases hb with ⟨hb, rfl⟩ | ⟨hb, rfl⟩
      · exact iff_of_false (getHue_ne_redGreen hr hg hb) (by omega)
      · exact iff_of_true (getHue_sub hr hg hb) (by omega)

/-- **The two hues of a pixel** are the same if and only if the signs of its bytes agree. -/
theorem getHue_eq_iff (p : RGB) : p.signedHue = p.hue ↔ SignsAgree p := by
  have key := getHue_readAs_iff (readAs_charVal p.red) (readAs_charVal p.green) (readAs_charVal p.blue)
  refine key.trans ?_
  simp only [SignsAgree, UInt8.lt_iff_toNat_lt, UInt8.le_iff_toNat_le, ← UInt8.toNat_inj, UInt8.reduceToNat]
  omega

end Signed

/-! ### The maps of a file -/

/-- The hue maps agree: at every index, the hue that `ppm_init_hsv` stores is the one of the pixel that `ppm_init`
stores, and is an angle. -/
def HuesAgree (p : Loaded RGB) (q : Loaded ℚ) : Prop :=
  ∀ index px h, p.map index = some px → q.map index = some h → h = px.hue ∧ 0 ≤ h ∧ h < 360

/-- **The hue computations agree** on a file that both loaders accept if and only if the signs agree in every one
of its pixels. -/
theorem hueMap_iff (file : Bytes) (p : Loaded RGB) (q : Loaded ℚ) (hp : ppmInit file = some p)
    (hq : ppmInitHsv file = some q) :
    HuesAgree p q ↔ ∀ index px, p.map index = some px → SignsAgree px := by
  have hmap := ppmLoad_eq_map RGB.signedHue RGB.mk file
  have hload : ppmInitHsv file = (ppmInit file).map fun p =>
      { width := p.width, height := p.height, map := fun k => (p.map k).map RGB.signedHue } := hmap
  rw [hp, hq] at hload
  obtain rfl : q = _ := Option.some.inj hload
  constructor
  · intro h index px hpx
    have hhue := (h index px px.signedHue hpx (by simp [hpx])).1
    exact (getHue_eq_iff px).1 hhue
  · intro h index px v hpx hv
    obtain rfl : px.signedHue = v := by simpa [hpx] using hv
    exact ⟨(getHue_eq_iff px).2 (h index px hpx), hue_range _ _ _⟩

/-- A file with one pixel. -/
def onePixel (px : RGB) : Bytes := ppmFile 1 1 [] [] fun _ _ => px

/-- A dark pixel. -/
theorem huesAgree_dark : ∃ p q, ppmInit (onePixel (RGB.mk 100 20 30)) = some p ∧
    ppmInitHsv (onePixel (RGB.mk 100 20 30)) = some q ∧ HuesAgree p q := by
  obtain ⟨p, hp, hpix⟩ : ∃ p, ppmInit (onePixel (RGB.mk 100 20 30)) = some p ∧
      p.map = Function.update (fun _ => none) 0 (some (RGB.mk 100 20 30)) := ⟨_, rfl, rfl⟩
  obtain ⟨q, hq⟩ : ∃ q, ppmInitHsv (onePixel (RGB.mk 100 20 30)) = some q := ⟨_, rfl⟩
  refine ⟨p, q, hp, hq, (hueMap_iff _ p q hp hq).2 fun index px hpx => ?_⟩
  rw [hpix] at hpx
  by_cases hi : index = 0
  · rw [hi, Function.update_self] at hpx
    cases hpx
    decide
  · rw [Function.update_of_ne hi] at hpx
    cases hpx

/-- A pixel with red 200 and green 100: the signed red is the smallest component, the unsigned one the largest. -/
theorem not_huesAgree_bright : ∃ p q, ppmInit (onePixel (RGB.mk 200 100 0)) = some p ∧
    ppmInitHsv (onePixel (RGB.mk 200 100 0)) = some q ∧ ¬ HuesAgree p q := by
  refine ⟨_, _, rfl, rfl, fun h => ?_⟩
  have hhue := (h 0 (RGB.mk 200 100 0) (RGB.mk 200 100 0).signedHue rfl rfl).1
  exact absurd ((getHue_eq_iff _).1 hhue) (by decide)

end TamuProofs.Ppm
