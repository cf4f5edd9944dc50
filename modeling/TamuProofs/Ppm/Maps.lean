import Mathlib.Algebra.Order.Field.Rat
import Mathlib.Tactic.FieldSimp
import Mathlib.Tactic.NormNum
import Mathlib.Tactic.Ring

/-!
# The maps of the warps (`transformation`, `inv_mtrx_3x3` of `pr07/myppm.h`)

A warp sends every pixel forward and then looks up the preimage of every pixel that nothing was sent to. The two
directions are written out apart from each other, in dimension 2 around a centre and in dimension 3 with a division
by the last coordinate. Doubles are rationals here; a matrix is the array of its entries, row by row.

* `invMtrx3x3_apply` — the nine minors are the inverse matrix;
* `inverse2_forward2`, `forward2_inverse2` — dimension 2;
* **`warps_undo`** — both dimensions: the way back from the image of a pixel is the pixel.
-/

namespace TamuProofs.Ppm

structure XY where
  x : ℚ
  y : ℚ
  deriving DecidableEq

/-! ### Dimension 2 -/

/-- `x` and `y` of the first loops. -/
def forward2 (mtrx : ℕ → ℚ) (center : XY) (i j : ℚ) : XY where
  x := mtrx 0 * (i - center.x) + mtrx 1 * (j - center.y) + center.x
  y := mtrx 2 * (i - center.x) + mtrx 3 * (j - center.y) + center.y

/-- `det`. -/
def det2 (mtrx : ℕ → ℚ) : ℚ := mtrx 0 * mtrx 3 - mtrx 1 * mtrx 2

/-- `x_origin` and `y_origin` of the second loops. -/
def inverse2 (mtrx : ℕ → ℚ) (center : XY) (i j : ℚ) : XY where
  x := (mtrx 3 * (i - center.x) - mtrx 1 * (j - center.y)) / det2 mtrx + center.x
  y := (-mtrx 2 * (i - center.x) + mtrx 0 * (j - center.y)) / det2 mtrx + center.y

section Dimension2

variable {mtrx : ℕ → ℚ} (center : XY)

theorem inverse2_forward2 (hdet : det2 mtrx ≠ 0) (i j : ℚ) :
    inverse2 mtrx center (forward2 mtrx center i j).x (forward2 mtrx center i j).y = ⟨i, j⟩ := by
  have hx : mtrx 3 * (forward2 mtrx center i j).x - mtrx 3 * center.x -
      mtrx 1 * ((forward2 mtrx center i j).y - center.y) = det2 mtrx * (i - center.x) := by
    unfold forward2 det2
    ring
  have hy : -mtrx 2 * ((forward2 mtrx center i j).x - center.x) +
      mtrx 0 * ((forward2 mtrx center i j).y - center.y) = det2 mtrx * (j - center.y) := by
    unfold forward2 det2
    ring
  unfold inverse2
  rw [mul_sub (mtrx 3), hx, hy, mul_div_cancel_left₀ _ hdet, mul_div_cancel_left₀ _ hdet, sub_add_cancel,
    sub_add_cancel]

theorem forward2_inverse2 (hdet : det2 mtrx ≠ 0) (i j : ℚ) :
    forward2 mtrx center (inverse2 mtrx center i j).x (inverse2 mtrx center i j).y = ⟨i, j⟩ := by
  have hx : mtrx 0 * ((inverse2 mtrx center i j).x - center.x) +
      mtrx 1 * ((inverse2 mtrx center i j).y - center.y) = i - center.x := by
    unfold inverse2
    field_simp
    unfold det2
    ring
  have hy : mtrx 2 * ((inverse2 mtrx center i j).x - center.x) +
      mtrx 3 * ((inverse2 mtrx center i j).y - center.y) = j - center.y := by
    unfold inverse2
    field_simp
    unfold det2
    ring
  unfold forward2
  rw [hx, hy, sub_add_cancel, sub_add_cancel]

end Dimension2

/-! ### Dimension 3 -/

def det2x2 (a b c d : ℚ) : ℚ := a * d - b * c

def det3x3 (mtrx : ℕ → ℚ) : ℚ :=
  mtrx 0 * (mtrx 4 * mtrx 8 - mtrx 5 * mtrx 7) - mtrx 1 * (mtrx 3 * mtrx 8 - mtrx 5 * mtrx 6) +
    mtrx 2 * (mtrx 3 * mtrx 7 - mtrx 4 * mtrx 6)

def invMtrx3x3 (mtrx : ℕ → ℚ) : ℕ → ℚ :=
  let a11 := mtrx 0
  let a12 := mtrx 1
  let a13 := mtrx 2
  let a21 := mtrx 3
  let a22 := mtrx 4
  let a23 := mtrx 5
  let a31 := mtrx 6
  let a32 := mtrx 7
  let a33 := mtrx 8
  let det := det3x3 mtrx
  fun k => match k with
    | 0 => det2x2 a22 a23 a32 a33 / det
    | 1 => det2x2 a13 a12 a33 a32 / det
    | 2 => det2x2 a12 a13 a22 a23 / det
    | 3 => det2x2 a23 a21 a33 a31 / det
    | 4 => det2x2 a11 a13 a31 a33 / det
    | 5 => det2x2 a13 a11 a23 a21 / det
    | 6 => det2x2 a21 a22 a31 a32 / det
    | 7 => det2x2 a12 a11 a32 a31 / det
    | 8 => det2x2 a11 a12 a21 a22 / det
    | _ => 0

/-- `x`, `y` and `z`, and with the inverse matrix `x_origin`, `y_origin` and `z_origin`, before the division. -/
def homogeneous (mtrx : ℕ → ℚ) (i j : ℚ) : ℚ × ℚ × ℚ :=
  (mtrx 0 * i + mtrx 1 * j + mtrx 2, mtrx 3 * i + mtrx 4 * j + mtrx 5, mtrx 6 * i + mtrx 7 * j + mtrx 8)

/-- `z`, or `z_origin`. -/
def denominator (mtrx : ℕ → ℚ) (i j : ℚ) : ℚ := (homogeneous mtrx i j).2.2

/-- `x/z` and `y/z`. -/
def warp3 (mtrx : ℕ → ℚ) (i j : ℚ) : XY :=
  let (x, y, z) := homogeneous mtrx i j
  ⟨x / z, y / z⟩

section Dimension3

variable {mtrx : ℕ → ℚ} {i j : ℚ}

/-- **The minors are the inverse**: applied to `x`, `y` and `z` they give `i`, `j` and 1. -/
theorem invMtrx3x3_apply (hdet : det3x3 mtrx ≠ 0) (i j : ℚ) {x y z : ℚ} (h : homogeneous mtrx i j = (x, y, z)) :
    invMtrx3x3 mtrx 0 * x + invMtrx3x3 mtrx 1 * y + invMtrx3x3 mtrx 2 * z = i ∧
      invMtrx3x3 mtrx 3 * x + invMtrx3x3 mtrx 4 * y + invMtrx3x3 mtrx 5 * z = j ∧
      invMtrx3x3 mtrx 6 * x + invMtrx3x3 mtrx 7 * y + invMtrx3x3 mtrx 8 * z = 1 := by
  simp only [homogeneous, Prod.mk.injEq] at h
  obtain ⟨rfl, rfl, rfl⟩ := h
  simp only [invMtrx3x3, det2x2]
  refine ⟨?_, ?_, ?_⟩
  · field_simp
    unfold det3x3
    ring
  · field_simp
    unfold det3x3
    ring
  · field_simp
    unfold det3x3
    ring

theorem row_div (a b c x y : ℚ) {z : ℚ} (hz : z ≠ 0) : a * (x / z) + b * (y / z) + c = (a * x + b * y + c * z) / z := by
  field_simp

/-- The second denominator is one over the first. -/
theorem denominator_warp3 (hdet : det3x3 mtrx ≠ 0) (hz : denominator mtrx i j ≠ 0) :
    denominator (invMtrx3x3 mtrx) (warp3 mtrx i j).x (warp3 mtrx i j).y = 1 / denominator mtrx i j := by
  obtain ⟨-, -, hone⟩ := invMtrx3x3_apply hdet i j rfl
  exact (row_div _ _ _ _ _ hz).trans (congrArg (· / denominator mtrx i j) hone)

theorem warp3_eq (mtrx : ℕ → ℚ) (i j : ℚ) : warp3 mtrx i j =
    ⟨(homogeneous mtrx i j).1 / (homogeneous mtrx i j).2.2, (homogeneous mtrx i j).2.1 / (homogeneous mtrx i j).2.2⟩ :=
  rfl

theorem warp3_invMtrx3x3 (hdet : det3x3 mtrx ≠ 0) (hz : denominator mtrx i j ≠ 0) :
    warp3 (invMtrx3x3 mtrx) (warp3 mtrx i j).x (warp3 mtrx i j).y = ⟨i, j⟩ := by
  obtain ⟨hi, hj, -⟩ := invMtrx3x3_apply hdet i j rfl
  have hx : (homogeneous (invMtrx3x3 mtrx) (warp3 mtrx i j).x (warp3 mtrx i j).y).1 = i / denominator mtrx i j :=
    (row_div _ _ _ _ _ hz).trans (congrArg (· / denominator mtrx i j) hi)
  have hy : (homogeneous (invMtrx3x3 mtrx) (warp3 mtrx i j).x (warp3 mtrx i j).y).2.1 = j / denominator mtrx i j :=
    (row_div _ _ _ _ _ hz).trans (congrArg (· / denominator mtrx i j) hj)
  have hden : (homogeneous (invMtrx3x3 mtrx) (warp3 mtrx i j).x (warp3 mtrx i j).y).2.2 = 1 / denominator mtrx i j :=
    denominator_warp3 hdet hz
  have hback : ∀ t : ℚ, t / denominator mtrx i j / (1 / denominator mtrx i j) = t := by
    intro t
    rw [div_div_div_cancel_right₀ hz, div_one]
  rw [warp3_eq, hx, hy, hden, hback, hback]

end Dimension3

/-- **The maps undo each other**: in dimension 3 the second denominator is not zero either, and the division by it
gives back the pixel; in dimension 2 the pixel comes back around every centre. -/
theorem warps_undo :
    (∀ (mtrx : ℕ → ℚ) (i j : ℚ), det3x3 mtrx ≠ 0 → denominator mtrx i j ≠ 0 →
      denominator (invMtrx3x3 mtrx) (warp3 mtrx i j).x (warp3 mtrx i j).y ≠ 0 ∧
        warp3 (invMtrx3x3 mtrx) (warp3 mtrx i j).x (warp3 mtrx i j).y = ⟨i, j⟩) ∧
    ∀ (mtrx : ℕ → ℚ) (center : XY) (i j : ℚ), det2 mtrx ≠ 0 →
      inverse2 mtrx center (forward2 mtrx center i j).x (forward2 mtrx center i j).y = ⟨i, j⟩ := by
  constructor
  · intro mtrx i j hdet hz
    refine ⟨?_, warp3_invMtrx3x3 hdet hz⟩
    rw [denominator_warp3 hdet hz]
    exact one_div_ne_zero hz
  · intro mtrx center i j hdet
    exact inverse2_forward2 center hdet i j

/-- `mtrx` of `perspective` in `pr07.cpp`. -/
def perspective : ℕ → ℚ := fun k =>
  [1.255, 0.255, -108.375, 0.17, 1.17, -72.25, 0.001, 0.001, 0.575].getD k 0

/-- `mtrx` of `shear`. -/
def shear : ℕ → ℚ := fun k => [0.7, 0.1, 0.1, 0.7].getD k 0

/-- The perspective of `pr07.cpp` at the pixel in column 10 and row 20, and its shear around the centre of an image
of 512 by 340 pixels. -/
theorem warps_undo_perspective :
    (denominator (invMtrx3x3 perspective) (warp3 perspective 10 20).x (warp3 perspective 10 20).y ≠ 0 ∧
        warp3 (invMtrx3x3 perspective) (warp3 perspective 10 20).x (warp3 perspective 10 20).y = ⟨10, 20⟩) ∧
      inverse2 shear ⟨256, 170⟩ (forward2 shear ⟨256, 170⟩ 10 20).x (forward2 shear ⟨256, 170⟩ 10 20).y =
        ⟨10, 20⟩ := by
  have hdet : det3x3 perspective ≠ 0 := by norm_num [det3x3, perspective]
  have hz : denominator perspective 10 20 ≠ 0 := by norm_num [denominator, homogeneous, perspective]
  have hdet2 : det2 shear ≠ 0 := by norm_num [det2, shear]
  exact ⟨warps_undo.1 perspective 10 20 hdet hz, warps_undo.2 shear ⟨256, 170⟩ 10 20 hdet2⟩

end TamuProofs.Ppm
