import TamuProofs.Ppm.Blur

/-!
# Control images (`change_hue` of `pr03.cpp`, `conv_blur` and `dilation` of `pr05/myppm.h`)

All three give a pixel of the input the hue of a control image, and none of them compares the sizes of the two.
`change_hue` runs over the control image and takes the index it has there for an index into the output. The
filters run over the input and take the index they have there for an index into the hue map, of which they do not
know the width.

* `changeHueAt` — `change_hue` with its accesses checked, and `changeHueAt_of_changeHue`;
* `hueFilter` — what the two filters have in common;
* `changeHueSafe_iff`, `hueFilterSafe_iff` — the sizes for which each of them is safe with all images;
* **`controlSafe_iff`** — the sizes for which all of them are.
-/

namespace TamuProofs.Ppm

open TamuProofs.Lib

/-! ### `change_hue` -/

namespace Image

variable (image : Image)

def Inside (i : ℕ) : Prop := i < image.width * image.height

instance (i : ℕ) : Decidable (image.Inside i) := inferInstanceAs (Decidable (_ < _))

def hueAt (x y : ℕ) : Option ℚ :=
  if x < image.width ∧ y < image.height then some (image.pixelMap (y * image.width + x)).hsv.h else none

end Image

/-- The body of the loops of `change_hue`. The index is checked for both arrays; `unassigned` is what the pixel
becomes where `HSVtoRGB` assigns nothing. -/
def changePixelAt (unassigned : ℕ → RGB) (control output : Image) (m : ℕ → RGB) (i : ℕ) : Option (ℕ → RGB) :=
  if control.Inside i ∧ output.Inside i then
    some ((changePixel control m i).getD (Function.update m i (unassigned i)))
  else none

/-- `change_hue`, with its accesses checked. -/
def changeHueAt (unassigned : ℕ → RGB) (control output : Image) : Option Image :=
  (control.indices.foldlM (changePixelAt unassigned control output) output.pixelMap).map fun m =>
    { output with pixelMap := m }

/-- `change_hue` stays inside both arrays, and the hue that it applies is the one that the control image has in
the same column and row. -/
structure ChangeHueSafe (unassigned : ℕ → RGB) (control output : Image) : Prop where
  inside : ∃ out, changeHueAt unassigned control output = some out
  hue : ∀ i ∈ control.indices,
    control.hueAt (i % output.width) (i / output.width) = some (control.pixelMap i).hsv.h

/-! ### The filters -/

/-- What `ppm_init_hsv` leaves of a control image. -/
structure HueMap where
  width : ℤ
  height : ℤ
  hueMap : ℤ → ℚ

namespace HueMap

def ofPixels (width height : ℤ) (pixels : ℤ → RGB) : HueMap := ⟨width, height, fun i => (pixels i).signedHue⟩

variable (c : HueMap)

/-- `hue_map0[i]`. -/
def read (i : ℤ) : Option ℚ := if 0 ≤ i ∧ i < c.width * c.height then some (c.hueMap i) else none

def hueAt (k : ℤ × ℤ) : Option ℚ :=
  if (0 ≤ k.1 ∧ k.1 < c.height) ∧ 0 ≤ k.2 ∧ k.2 < c.width then some (c.hueMap (rowMajor c.width k)) else none

end HueMap

/-! The kernels are the same in both functions: lines of weight 9 through the middle of the window. -/

def kernel0 : List ℤ :=
  [0, 0, 0, 0, 0, 0, 0, 0, 0,
   0, 0, 0, 0, 0, 0, 0, 0, 0,
   0, 0, 0, 0, 0, 0, 0, 0, 0,
   0, 0, 0, 0, 0, 0, 0, 0, 0,
   1, 1, 1, 1, 1, 1, 1, 1, 1,
   0, 0, 0, 0, 0, 0, 0, 0, 0,
   0, 0, 0, 0, 0, 0, 0, 0, 0,
   0, 0, 0, 0, 0, 0, 0, 0, 0,
   0, 0, 0, 0, 0, 0, 0, 0, 0]

def kernel1 : List ℤ :=
  [0, 0, 0, 0, 0, 0, 0, 0, 0,
   0, 0, 0, 0, 0, 0, 0, 0, 0,
   0, 0, 0, 0, 0, 0, 0, 0, 2,
   0, 0, 0, 0, 0, 0, 2, 0, 0,
   0, 0, 0, 0, 1, 0, 0, 0, 0,
   0, 0, 2, 0, 0, 0, 0, 0, 0,
   2, 0, 0, 0, 0, 0, 0, 0, 0,
   0, 0, 0, 0, 0, 0, 0, 0, 0,
   0, 0, 0, 0, 0, 0, 0, 0, 0]

def kernel2 : List ℤ :=
  [0, 0, 0, 0, 0, 0, 0, 0, 1,
   0, 0, 0, 0, 0, 0, 0, 1, 0,
   0, 0, 0, 0, 0, 0, 1, 0, 0,
   0, 0, 0, 0, 0, 1, 0, 0, 0,
   0, 0, 0, 0, 1, 0, 0, 0, 0,
   0, 0, 0, 1, 0, 0, 0, 0, 0,
   0, 0, 1, 0, 0, 0, 0, 0, 0,
   0, 1, 0, 0, 0, 0, 0, 0, 0,
   1, 0, 0, 0, 0, 0, 0, 0, 0]

def kernel3 : List ℤ :=
  [0, 0, 0, 0, 0, 0, 2, 0, 0,
   0, 0, 0, 0, 0, 0, 0, 0, 0,
   0, 0, 0, 0, 0, 2, 0, 0, 0,
   0, 0, 0, 0, 0, 0, 0, 0, 0,
   0, 0, 0, 0, 1, 0, 0, 0, 0,
   0, 0, 0, 0, 0, 0, 0, 0, 0,
   0, 0, 0, 2, 0, 0, 0, 0, 0,
   0, 0, 0, 0, 0, 0, 0, 0, 0,
   0, 0, 2, 0, 0, 0, 0, 0, 0]

def kernel4 : List ℤ :=
  [0, 0, 0, 0, 1, 0, 0, 0, 0,
   0, 0, 0, 0, 1, 0, 0, 0, 0,
   0, 0, 0, 0, 1, 0, 0, 0, 0,
   0, 0, 0, 0, 1, 0, 0, 0, 0,
   0, 0, 0, 0, 1, 0, 0, 0, 0,
   0, 0, 0, 0, 1, 0, 0, 0, 0,
   0, 0, 0, 0, 1, 0, 0, 0, 0,
   0, 0, 0, 0, 1, 0, 0, 0, 0,
   0, 0, 0, 0, 1, 0, 0, 0, 0]

def kernel5 : List ℤ :=
  [0, 0, 2, 0, 0, 0, 0, 0, 0,
   0, 0, 0, 0, 0, 0, 0, 0, 0,
   0, 0, 0, 2, 0, 0, 0, 0, 0,
   0, 0, 0, 0, 0, 0, 0, 0, 0,
   0, 0, 0, 0, 1, 0, 0, 0, 0,
   0, 0, 0, 0, 0, 0, 0, 0, 0,
   0, 0, 0, 0, 0, 2, 0, 0, 0,
   0, 0, 0, 0, 0, 0, 0, 0, 0,
   0, 0, 0, 0, 0, 0, 2, 0, 0]

def kernel6 : List ℤ :=
  [1, 0, 0, 0, 0, 0, 0, 0, 0,
   0, 1, 0, 0, 0, 0, 0, 0, 0,
   0, 0, 1, 0, 0, 0, 0, 0, 0,
   0, 0, 0, 1, 0, 0, 0, 0, 0,
   0, 0, 0, 0, 1, 0, 0, 0, 0,
   0, 0, 0, 0, 0, 1, 0, 0, 0,
   0, 0, 0, 0, 0, 0, 1, 0, 0,
   0, 0, 0, 0, 0, 0, 0, 1, 0,
   0, 0, 0, 0, 0, 0, 0, 0, 1]

def kernel7 : List ℤ :=
  [0, 0, 0, 0, 0, 0, 0, 0, 0,
   0, 0, 0, 0, 0, 0, 0, 0, 0,
   2, 0, 0, 0, 0, 0, 0, 0, 0,
   0, 0, 2, 0, 0, 0, 0, 0, 0,
   0, 0, 0, 0, 1, 0, 0, 0, 0,
   0, 0, 0, 0, 0, 0, 2, 0, 0,
   0, 0, 0, 0, 0, 0, 0, 0, 2,
   0, 0, 0, 0, 0, 0, 0, 0, 0,
   0, 0, 0, 0, 0, 0, 0, 0, 0]

/-- The chain of comparisons. -/
def kernelFor (hue : ℚ) : List ℤ :=
  if hue < 22.5 then kernel0
  else if hue < 45 then kernel1
  else if hue < 67.5 then kernel2
  else if hue < 90 then kernel3
  else if hue < 112.5 then kernel4
  else if hue < 135 then kernel5
  else if hue < 157.5 then kernel6
  else if hue < 180 then kernel7
  else if hue < 202.5 then kernel0
  else if hue < 225 then kernel1
  else if hue < 247.5 then kernel2
  else if hue < 270 then kernel3
  else if hue < 292.5 then kernel4
  else if hue < 315 then kernel5
  else if hue < 337.5 then kernel6
  else kernel7

def kernelAt (kernel : List ℤ) (i : ℤ) : ℤ := kernel.getD i.toNat 0

/-- `acc += value * weight` with a `double` for the weight: only the result has to be an `int`. -/
def addDouble (acc value weight : ℤ) : Option ℤ := checkedInt (acc + value * weight)

namespace Myppm

variable (p : Myppm)

/-- `conv_single_pixel`, with a kernel of `double`s. -/
def convSinglePixelDouble (kernel : ℤ → ℤ) (size : ℤ) (factor : ℚ) (bias x y : ℤ) (newMap : ℤ → RGB) :
    Option (ℤ → RGB) :=
  p.convPixel addDouble kernel size factor bias x y newMap

/-- `morphological_single_pixel`, with a kernel: pixels without a weight are not read. -/
def morphologicalSinglePixelKernel (kernel : ℤ → ℤ) (size x y : ℤ) (newMap : ℤ → RGB) : Option (ℤ → RGB) :=
  let convRange := (size - 1) / 2
  let x0 := x - convRange
  let y0 := y - convRange
  let minima := (window size).foldlM (fun acc k =>
    if kernel (k.1 * size + k.2) ≠ 0 then
      (p.read ((x0 + k.1) * p.width + (y0 + k.2))).map fun px c => min (px.get c) (acc c)
    else some acc) fun _ => 255
  minima.bind fun acc => p.write newMap (x * p.width + y) (RGB.ofAcc acc)

/-- The hue that the filters apply in row `y` and column `x`. -/
def appliedHue (c : HueMap) (y x : ℤ) : Option ℚ := c.read (y * p.width + x)

/-- The loops of the two filters: the hue chooses the kernel, `pixel` is the function for one pixel. -/
def hueFilter (convRange : ℤ) (c : HueMap) (pixel : (ℤ → ℤ) → ℤ → ℤ → (ℤ → RGB) → Option (ℤ → RGB)) :
    Option Myppm :=
  p.filter convRange fun y x newMap => (p.appliedHue c y x).bind fun hue =>
    pixel (kernelAt (kernelFor hue)) y x newMap

def convBlurHue (c : HueMap) (size : ℤ) (factor : ℚ) (bias0 : ℤ) : Option Myppm :=
  p.hueFilter ((size - 1) / 2 + 3) c fun kernel => p.convSinglePixelDouble kernel size factor bias0

def dilationHue (c : HueMap) (size : ℤ) : Option Myppm :=
  p.hueFilter ((size - 1) / 2) c fun kernel => p.morphologicalSinglePixelKernel kernel size

/-- A filter with the margin `d` that ends with `result` stays inside all arrays, and the hue that it applies is
the one that the control image has in the same row and column. -/
structure HueFilterSafe (d : ℤ) (c : HueMap) (result : Option Myppm) : Prop where
  inside : ∃ q, result = some q
  hue : ∀ k ∈ p.interior d, ∃ hue, p.appliedHue c k.1 k.2 = some hue ∧ c.hueAt k = some hue

end Myppm

open Myppm

/-! ### The sizes -/

/-- All three are safe with every control image of `wc` by `hc` pixels and every input of `w` by `h`. -/
structure ControlSafe (wc hc w h : ℕ) (factor : ℚ) (bias : ℤ) : Prop where
  changeHue : ∀ unassigned control output, ChangeHueSafe unassigned ⟨wc, hc, control⟩ ⟨w, h, output⟩
  convBlur : ∀ control pixels, (ofPixels w h pixels).HueFilterSafe ((9 - 1) / 2 + 3) (HueMap.ofPixels wc hc control)
    ((ofPixels w h pixels).convBlurHue (HueMap.ofPixels wc hc control) 9 factor bias)
  dilation : ∀ control pixels, (ofPixels w h pixels).HueFilterSafe ((9 - 1) / 2) (HueMap.ofPixels wc hc control)
    ((ofPixels w h pixels).dilationHue (HueMap.ofPixels wc hc control) 9)

/-- The control image is as wide as the output and not higher, or it is one row that is not wider. -/
def ChangeHueFits (wc hc w h : ℕ) : Prop := wc = w ∧ hc ≤ h ∨ hc = 1 ∧ wc ≤ w

/-- No pixel of the input is as far as `d` from all edges, or the control image is as wide as the input and has
all rows but the last `d`. -/
def FilterFits (d wc hc w h : ℕ) : Prop := w ≤ 2 * d ∨ h ≤ 2 * d ∨ wc = w ∧ h ≤ hc + d

def SizesFit (wc hc w h : ℕ) : Prop := ChangeHueFits wc hc w h ∧ FilterFits 7 wc hc w h ∧ FilterFits 4 wc hc w h

instance (wc hc w h : ℕ) : Decidable (ChangeHueFits wc hc w h) := inferInstanceAs (Decidable (_ ∨ _))
instance (d wc hc w h : ℕ) : Decidable (FilterFits d wc hc w h) := inferInstanceAs (Decidable (_ ∨ _))
instance (wc hc w h : ℕ) : Decidable (SizesFit wc hc w h) := inferInstanceAs (Decidable (_ ∧ _))

/-! ### Two hues -/

/-- Two places that have the same hue in all images are one. -/
theorem eq_of_forall_hue {ι : Type*} [DecidableEq ι] {hue : RGB → ℚ} (hne : hue ⟨0, 100, 0⟩ ≠ hue ⟨0, 0, 0⟩)
    {i j : ι} (h : ∀ pixels : ι → RGB, hue (pixels i) = hue (pixels j)) : i = j := by
  by_contra hij
  apply hne
  have hpixels := h (Function.update (fun _ => ⟨0, 0, 0⟩) i ⟨0, 100, 0⟩)
  rwa [Function.update_self, Function.update_of_ne (Ne.symm hij)] at hpixels

theorem hue_ne : (RGB.mk 0 100 0).hue ≠ (RGB.mk 0 0 0).hue := by
  have hgreen : 60 < getHue 0 100 0 := (getHue_greenMax (by decide) (by decide) (by decide)).1
  have hblack : getHue 0 0 0 = 0 := getHue_red_only le_rfl
  show getHue 0 100 0 ≠ getHue 0 0 0
  rw [hblack]
  intro h
  linarith

theorem signedHue_ne : (RGB.mk 0 100 0).signedHue ≠ (RGB.mk 0 0 0).signedHue := hue_ne

/-! ### `change_hue` -/

section ChangeHue

variable {wc hc w h : ℕ} {unassigned : ℕ → RGB} {control output : Image}

/-- Where both arrays are long enough the checks change nothing. -/
theorem changeHueAt_of_changeHue (hsize : control.width * control.height ≤ output.width * output.height)
    {out : Image} (hout : changeHue control output = some out) :
    changeHueAt unassigned control output = some out := by
  obtain ⟨m, hm, rfl⟩ := Option.map_eq_some_iff.1 hout
  have hloop : control.indices.foldlM (changePixelAt unassigned control output) output.pixelMap = some m := by
    apply foldlM_mono _ hm
    intro m i hi m' hstep
    have hi' : i < control.width * control.height := by
      rw [mul_comm]
      exact List.mem_range.1 (indices_eq control ▸ hi)
    rw [changePixelAt, if_pos ⟨hi', hi'.trans_le hsize⟩, hstep]
    rfl
  rw [changeHueAt, hloop]
  rfl

/-- It stays inside the arrays exactly when the output has as many pixels as the control image. -/
theorem changeHueAt_isSome :
    (∃ out, changeHueAt unassigned control output = some out) ↔
      control.width * control.height ≤ output.width * output.height := by
  unfold changeHueAt
  rw [indices_eq, mul_comm control.height]
  constructor
  · rintro ⟨out, hout⟩
    obtain ⟨m, hm, -⟩ := Option.map_eq_some_iff.1 hout
    have hstep : ∀ m i m', changePixelAt unassigned control output m i = some m' → output.Inside i := by
      intro m i m' hstep
      rw [changePixelAt] at hstep
      split_ifs at hstep with hi
      exact hi.2
    have hinside := forall_of_foldlM hstep hm
    by_contra hlt
    exact lt_irrefl _ (hinside (output.width * output.height) (List.mem_range.2 (by omega)))
  · intro hsize
    have hdefined : ∀ (m : ℕ → RGB), ∀ i ∈ List.range (control.width * control.height),
        ∃ m', changePixelAt unassigned control output m i = some m' := by
      intro m i hi
      have hi' := List.mem_range.1 hi
      exact ⟨_, if_pos ⟨hi', hi'.trans_le hsize⟩⟩
    obtain ⟨m, hm⟩ := exists_foldlM hdefined output.pixelMap
    exact ⟨_, Option.map_eq_some_iff.2 ⟨m, hm, rfl⟩⟩

theorem hueAt_eq_iff {x y i : ℕ} :
    (∀ control : ℕ → RGB, (Image.mk wc hc control).hueAt x y = some (control i).hsv.h) ↔
      x < wc ∧ y < hc ∧ y * wc + x = i := by
  unfold Image.hueAt
  dsimp only
  constructor
  · intro hall
    have hxy : x < wc ∧ y < hc := by
      by_contra hno
      have hnone := hall fun _ => ⟨0, 0, 0⟩
      rw [if_neg hno] at hnone
      cases hnone
    refine ⟨hxy.1, hxy.2, eq_of_forall_hue hue_ne fun pixels => ?_⟩
    have hpixels := hall pixels
    rw [if_pos hxy] at hpixels
    exact Option.some.inj hpixels
  · rintro ⟨hx, hy, rfl⟩ control
    exact if_pos ⟨hx, hy⟩

/-- Which sizes give every index of the control image the same column and row in the output. -/
theorem fits_of_indices (hwc : 0 < wc) (hsize : wc * hc ≤ w * h) (hhc : 0 < hc)
    (hsame : ∀ i < wc * hc, i % w < wc ∧ i / w < hc ∧ i / w * wc + i % w = i) : ChangeHueFits wc hc w h := by
  rcases Nat.lt_or_ge 1 hc with hrows | hone
  · -- the second row of the control image begins in the second row of the output
    obtain ⟨hcol, -, hindex⟩ := hsame wc (by nlinarith)
    have hquot : wc / w = 1 := by
      rcases Nat.lt_or_ge (wc / w) 1 with h0 | h1
      · rw [Nat.lt_one_iff.1 h0] at hindex
        omega
      · by_contra hne
        have htwo : 2 * wc ≤ wc / w * wc := Nat.mul_le_mul_right wc (by omega)
        omega
    have hrem : wc % w = 0 := by
      rw [hquot] at hindex
      omega
    have hwidth : wc = w := by
      have hdiv := Nat.div_add_mod wc w
      rw [hquot, hrem] at hdiv
      omega
    subst hwidth
    exact .inl ⟨rfl, Nat.le_of_mul_le_mul_left hsize hwc⟩
  · -- one row: its last pixel must be in the first row of the output
    obtain rfl : hc = 1 := by omega
    obtain ⟨-, hrow, -⟩ := hsame (wc - 1) (by omega)
    have hlt : wc - 1 < w := by
      rcases Nat.eq_zero_or_pos w with rfl | hw
      · omega
      · exact (Nat.div_eq_zero_iff_lt hw).1 (Nat.lt_one_iff.1 hrow)
    exact .inr ⟨rfl, by omega⟩

theorem indices_of_fits (hh : 0 < h) (hfits : ChangeHueFits wc hc w h) :
    wc * hc ≤ w * h ∧ ∀ i < wc * hc, i % w < wc ∧ i / w < hc ∧ i / w * wc + i % w = i := by
  rcases hfits with ⟨rfl, hle⟩ | ⟨rfl, hle⟩
  · refine ⟨Nat.mul_le_mul_left wc hle, fun i hi => ⟨Nat.mod_lt i ?_, ?_, ?_⟩⟩
    · exact Nat.pos_of_mul_pos_right (Nat.zero_lt_of_lt hi)
    · exact Nat.div_lt_of_lt_mul hi
    · exact Nat.div_add_mod' i wc
  · refine ⟨by nlinarith, fun i hi => ?_⟩
    have hiw : i < w := by omega
    rw [Nat.mod_eq_of_lt hiw, Nat.div_eq_of_lt hiw]
    omega

/-- **`change_hue` is safe for exactly these sizes.** -/
theorem changeHueSafe_iff (hwc : 0 < wc) (hhc : 0 < hc) (hh : 0 < h) :
    (∀ unassigned control output, ChangeHueSafe unassigned ⟨wc, hc, control⟩ ⟨w, h, output⟩) ↔
      ChangeHueFits wc hc w h := by
  have hmem : ∀ (control : ℕ → RGB) (i : ℕ), i ∈ (Image.mk wc hc control).indices ↔ i < wc * hc := by
    intro control i
    rw [indices_eq, List.mem_range, mul_comm]
  constructor
  · intro hsafe
    have hblack := fun control => hsafe (fun _ => ⟨0, 0, 0⟩) control fun _ => ⟨0, 0, 0⟩
    have hsize := changeHueAt_isSome.1 (hblack fun _ => ⟨0, 0, 0⟩).inside
    refine fits_of_indices hwc hsize hhc fun i hi => hueAt_eq_iff.1 fun control => ?_
    exact (hblack control).hue i ((hmem control i).2 hi)
  · intro hfits unassigned control output
    obtain ⟨hsize, hsame⟩ := indices_of_fits hh hfits
    exact ⟨changeHueAt_isSome.2 hsize, fun i hi => hueAt_eq_iff.2 (hsame i ((hmem control i).1 hi)) control⟩

end ChangeHue

/-! ### The hue map -/

section Hues

variable {wc hc w h : ℕ} (pixels : ℤ → RGB)

/-- In one pixel the filters apply the hue of that pixel for all control images exactly when the pixel is in the
control image and has the same index there. -/
theorem appliedHue_eq_iff {y x : ℤ} :
    (∀ control, ∃ hue, (ofPixels w h pixels).appliedHue (HueMap.ofPixels wc hc control) y x = some hue ∧
      (HueMap.ofPixels wc hc control).hueAt (y, x) = some hue) ↔
      ((0 ≤ y ∧ y < hc) ∧ 0 ≤ x ∧ x < wc) ∧ y * w + x = y * wc + x := by
  have hat_eq : ∀ control, (HueMap.ofPixels wc hc control).hueAt (y, x) =
      if (0 ≤ y ∧ y < (hc : ℤ)) ∧ 0 ≤ x ∧ x < (wc : ℤ) then some (control (y * wc + x)).signedHue else none :=
    fun _ => rfl
  have happlied_eq : ∀ control, (ofPixels w h pixels).appliedHue (HueMap.ofPixels wc hc control) y x =
      if 0 ≤ y * (w : ℤ) + x ∧ y * (w : ℤ) + x < wc * hc then some (control (y * w + x)).signedHue else none :=
    fun _ => rfl
  simp only [hat_eq, happlied_eq]
  constructor
  · -- the pixel lies in the control image, else it has no hue there
    intro hall
    have hpixel : (0 ≤ y ∧ y < hc) ∧ 0 ≤ x ∧ x < (wc : ℤ) := by
      obtain ⟨hue, -, hin⟩ := hall fun _ => ⟨0, 0, 0⟩
      by_contra hout
      rw [if_neg hout] at hin
      cases hin
    refine ⟨hpixel, eq_of_forall_hue signedHue_ne fun control => ?_⟩
    obtain ⟨hue, happlied, hat⟩ := hall control
    rw [if_pos hpixel] at hat
    split_ifs at happlied
    exact Option.some.inj (happlied.trans hat.symm)
  · rintro ⟨hpixel, hindex⟩ control
    have hinside : 0 ≤ y * w + x ∧ y * w + x < (wc : ℤ) * hc := by
      rw [hindex]
      exact rowMajor_mem (k := (y, x)) hpixel.1 hpixel.2
    refine ⟨(control (y * w + x)).signedHue, if_pos hinside, ?_⟩
    rw [hindex]
    exact if_pos hpixel

theorem fits_iff {d : ℕ} (hd : 0 < d) :
    (∀ k ∈ (ofPixels w h pixels).interior d,
      ((0 ≤ k.1 ∧ k.1 < (hc : ℤ)) ∧ 0 ≤ k.2 ∧ k.2 < (wc : ℤ)) ∧ k.1 * w + k.2 = k.1 * wc + k.2) ↔
      FilterFits d wc hc w h := by
  constructor
  · intro hall
    by_contra hno
    obtain ⟨hw, hno⟩ := not_or.1 hno
    obtain ⟨hh, hno⟩ := not_or.1 hno
    -- the first pixel shows the width, the last row the height
    have hfirst : ((d : ℤ), (d : ℤ)) ∈ (ofPixels w h pixels).interior d := by
      rw [mem_interior]
      dsimp only [ofPixels]
      omega
    have hlast : ((h : ℤ) - d - 1, (d : ℤ)) ∈ (ofPixels w h pixels).interior d := by
      rw [mem_interior]
      dsimp only [ofPixels]
      omega
    have hwidth : (w : ℤ) = wc := by
      have hindex := add_right_cancel (hall _ hfirst).2
      exact mul_left_cancel₀ (by omega) hindex
    have hheight := (hall _ hlast).1.1.2
    dsimp only at hheight
    exact hno (by omega)
  · rintro hfits ⟨y, x⟩ hk
    obtain ⟨⟨hy0, hy1⟩, hx0, hx1⟩ := mem_interior.1 hk
    dsimp only [ofPixels] at hy1 hx1
    rcases hfits with hw | hh | ⟨rfl, hh⟩
    · omega
    · omega
    · exact ⟨by omega, rfl⟩

end Hues

/-! ### The filters -/

section Filters

variable {p : Myppm} {c : HueMap} {d : ℤ}

theorem hueFilter_isSome {pixel : (ℤ → ℤ) → ℤ → ℤ → (ℤ → RGB) → Option (ℤ → RGB)}
    (hpixel : ∀ hue, ∀ k ∈ p.interior d, ∀ m, ∃ m', pixel (kernelAt (kernelFor hue)) k.1 k.2 m = some m')
    (hhue : ∀ k ∈ p.interior d, ∃ hue, p.appliedHue c k.1 k.2 = some hue) :
    ∃ q, p.hueFilter d c pixel = some q := by
  have hstep : ∀ m, ∀ k ∈ p.interior d, ∃ m', ((p.appliedHue c k.1 k.2).bind fun hue =>
      pixel (kernelAt (kernelFor hue)) k.1 k.2 m) = some m' := by
    intro m k hk
    obtain ⟨hue, happlied⟩ := hhue k hk
    rw [happlied]
    exact hpixel hue k hk m
  obtain ⟨m, hm⟩ := exists_foldlM hstep p.newMap
  exact ⟨_, Option.map_eq_some_iff.2 ⟨m, hm, rfl⟩⟩

/-- **A filter is safe for exactly these sizes**, if the function for one pixel is defined where the window is
inside the image. -/
theorem hueFilterSafe_iff {wc hc w h d : ℕ} (hd : 0 < d)
    (pixel : Myppm → (ℤ → ℤ) → ℤ → ℤ → (ℤ → RGB) → Option (ℤ → RGB))
    (hpixel : ∀ p : Myppm, ∀ hue, ∀ k ∈ p.interior d, ∀ m, ∃ m',
      pixel p (kernelAt (kernelFor hue)) k.1 k.2 m = some m') :
    (∀ control pixels, (ofPixels w h pixels).HueFilterSafe d (HueMap.ofPixels wc hc control)
      ((ofPixels w h pixels).hueFilter d (HueMap.ofPixels wc hc control) (pixel (ofPixels w h pixels)))) ↔
      FilterFits d wc hc w h := by
  constructor
  · intro hsafe
    refine (fits_iff (fun _ => ⟨0, 0, 0⟩) hd).1 fun k hk => ?_
    exact (appliedHue_eq_iff fun _ => ⟨0, 0, 0⟩).1 fun control => (hsafe control fun _ => ⟨0, 0, 0⟩).hue k hk
  · intro hfits control pixels
    have hhue : ∀ k ∈ (ofPixels w h pixels).interior d,
        ∃ hue, (ofPixels w h pixels).appliedHue (HueMap.ofPixels wc hc control) k.1 k.2 = some hue ∧
          (HueMap.ofPixels wc hc control).hueAt k = some hue :=
      fun k hk => (appliedHue_eq_iff pixels).2 ((fits_iff pixels hd).2 hfits k hk) control
    refine ⟨hueFilter_isSome (hpixel _) fun k hk => ?_, hhue⟩
    obtain ⟨hue, happlied, -⟩ := hhue k hk
    exact ⟨hue, happlied⟩

theorem interior_mono {d d' : ℤ} (h : d ≤ d') {k : ℤ × ℤ} (hk : k ∈ p.interior d') : k ∈ p.interior d := by
  obtain ⟨hrow, hcol⟩ := mem_interior.1 hk
  exact mem_interior.2 (by omega)

end Filters

/-! ### The kernels -/

section Kernels

theorem kernelFor_ind {P : List ℤ → Prop} (h0 : P kernel0) (h1 : P kernel1) (h2 : P kernel2) (h3 : P kernel3)
    (h4 : P kernel4) (h5 : P kernel5) (h6 : P kernel6) (h7 : P kernel7) (hue : ℚ) : P (kernelFor hue) := by
  have hite : ∀ {c : Prop} [Decidable c] {a b : List ℤ}, P a → P b → P (if c then a else b) :=
    fun ha hb => iteInduction (fun _ => ha) fun _ => hb
  exact hite h0 <| hite h1 <| hite h2 <| hite h3 <| hite h4 <| hite h5 <| hite h6 <| hite h7 <|
    hite h0 <| hite h1 <| hite h2 <| hite h3 <| hite h4 <| hite h5 <| hite h6 h7

theorem kernelAt_nonneg (hue : ℚ) (i : ℤ) : 0 ≤ kernelAt (kernelFor hue) i := by
  have hall : ∀ a ∈ kernelFor hue, 0 ≤ a := by
    apply kernelFor_ind (P := fun kernel => ∀ a ∈ kernel, 0 ≤ a) <;> decide
  rw [kernelAt, List.getD_eq_getElem?_getD]
  cases h : (kernelFor hue)[i.toNat]? with
  | none => exact le_rfl
  | some a => exact hall a (List.mem_of_getElem? h)

theorem kernelSum_kernelFor (hue : ℚ) : kernelSum (kernelAt (kernelFor hue)) 9 = 9 := by
  apply kernelFor_ind (P := fun kernel => kernelSum (kernelAt kernel) 9 = 9) <;> decide +kernel

end Kernels

/-! ### One pixel -/

section Pixel

variable {p : Myppm} {size : ℤ} {kernel : ℤ → ℤ}

theorem adds_addDouble : Adds addDouble := by
  intro acc value weight hacc hterm
  have hmin : intMin ≤ 0 := by decide
  unfold addDouble checkedInt
  by_cases h : acc + value * weight ≤ intMax
  · rw [if_pos h, if_pos ⟨by omega, h⟩]
  · rw [if_neg h, if_neg fun hsum => h hsum.2]

theorem weightedSum_le (hweight : ∀ k ∈ window size, 0 ≤ kernel (k.1 * size + k.2)) (x y : ℤ) (c : Channel) :
    p.weightedSum kernel size x y c ≤ 255 * kernelSum kernel size := by
  unfold weightedSum kernelSum
  rw [← List.sum_map_mul_left]
  apply List.sum_le_sum
  intro k hk
  exact mul_le_mul_of_nonneg_right (RGB.get_bounds _ c).2 (hweight k hk)

theorem convSinglePixelDouble_isSome (p : Myppm) (factor : ℚ) (bias : ℤ) (hue : ℚ) {k : ℤ × ℤ}
    (hk : k ∈ p.interior ((9 - 1) / 2)) (m : ℤ → RGB) :
    ∃ m', p.convSinglePixelDouble (kernelAt (kernelFor hue)) 9 factor bias k.1 k.2 m = some m' := by
  have hweight : ∀ k ∈ window 9, 0 ≤ kernelAt (kernelFor hue) (k.1 * 9 + k.2) := fun k _ => kernelAt_nonneg hue _
  have hfit : ∀ c, p.weightedSum (kernelAt (kernelFor hue)) 9 k.1 k.2 c ≤ intMax := by
    intro c
    have hsum := weightedSum_le (p := p) hweight k.1 k.2 c
    rw [kernelSum_kernelFor] at hsum
    exact hsum.trans (by decide)
  rw [convSinglePixelDouble, convPixel_eq adds_addDouble (by decide) (by decide) hweight factor hk, blurred,
    if_pos hfit]
  exact ⟨_, rfl⟩

theorem morphologicalSinglePixelKernel_isSome (p : Myppm) (kernel : ℤ → ℤ) (hodd : size % 2 = 1) (hsize : 1 ≤ size)
    {k : ℤ × ℤ} (hk : k ∈ p.interior ((size - 1) / 2)) (m : ℤ → RGB) :
    ∃ m', p.morphologicalSinglePixelKernel kernel size k.1 k.2 m = some m' := by
  have hstep : ∀ acc : Channel → ℤ, ∀ k' ∈ window size, ∃ acc' : Channel → ℤ,
      (if kernel (k'.1 * size + k'.2) ≠ 0 then
        (p.read ((k.1 - (size - 1) / 2 + k'.1) * p.width + (k.2 - (size - 1) / 2 + k'.2))).map fun px c =>
          min (px.get c) (acc c)
      else some acc) = some acc' := by
    intro acc k' hk'
    rw [Myppm.read, if_pos (inside_of_mem_window hodd hk hk')]
    split_ifs
    · exact ⟨_, rfl⟩
    · exact ⟨_, rfl⟩
  obtain ⟨acc, hacc⟩ := exists_foldlM hstep fun _ => 255
  rw [morphologicalSinglePixelKernel, hacc]
  exact ⟨_, write_eq (by omega) hk m _⟩

end Pixel

end TamuProofs.Ppm
