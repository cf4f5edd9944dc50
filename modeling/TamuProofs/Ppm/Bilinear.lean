import Mathlib.Algebra.Order.Floor.Ring
import TamuProofs.Ppm.Filter
import TamuProofs.Ppm.Maps

/-!
# Sampling between pixels (`getpixel` and `bilinear` of `pr06/myppm.h` and `pr07/myppm.h`)

The class is that of `Filter`; what is `new_map` there is called `output_map` here. Doubles are rationals. A read
outside an array, `exit`, and a call that comes to its end without a `return` are `none`.

* `bilinear_eq_interpolated`, `bilinear_eq_none` — only the first of the four branches returns a pixel;
* `interpolated_between`, `interpolated_intCast` — what it returns;
* **`samples_iff`** — a point of the image is sampled if it is neither in the last column nor in the last row.
-/

namespace TamuProofs.Ppm

open TamuProofs.Lib

theorem RGB.ext_get {a b : RGB} (h : ∀ c, a.get c = b.get c) : a = b := by
  obtain ⟨hr, hg, hb⟩ := Channel.forall_iff.1 h
  simp only [RGB.get, Int.natCast_inj, UInt8.toNat_inj] at hr hg hb
  cases a
  cases b
  simp_all

namespace Myppm

variable (p : Myppm)

/-! ### The functions -/

def getpixel (point : XY) : Option RGB :=
  let index := trunc point.y * p.width + trunc point.x
  if 0 ≤ index ∧ index ≤ p.width * p.height then p.read index else none

/-- The sum of two pixels in the direction of `x`, in a channel. -/
def blend (x x1 x2 : ℚ) (q1 q2 : ℤ) : ℚ := q1 * (x2 - x) / (x2 - x1) + q2 * (x - x1) / (x2 - x1)

/-- `xy`, from what is assigned to its channels. -/
def pixelOf (value : Channel → ℚ) : RGB := RGB.ofAcc fun c => trunc (value c)

/-- A branch that assigns `xy` and does not return it. -/
def noReturn (_xy : RGB) : Option RGB := none

def bilinear (point : XY) : Option RGB :=
  let x := point.x
  let y := point.y
  let x1 : ℚ := ⌊x⌋
  let x2 := x1 + 1
  let y1 : ℚ := ⌊y⌋
  let y2 := y1 + 1
  if x2 < p.width ∧ y2 < p.height then do
    let q11 ← p.getpixel ⟨x1, y1⟩
    let q21 ← p.getpixel ⟨x2, y1⟩
    let q12 ← p.getpixel ⟨x1, y2⟩
    let q22 ← p.getpixel ⟨x2, y2⟩
    some (pixelOf fun c => (y2 - y) / (y2 - y1) * blend x x1 x2 (q11.get c) (q21.get c) +
      (y - y1) / (y2 - y1) * blend x x1 x2 (q12.get c) (q22.get c) + 0.5)
  else if x2 = p.width ∧ y2 < p.height then do
    let q11 ← p.getpixel ⟨x1, y1⟩
    let q12 ← p.getpixel ⟨x1, y2⟩
    noReturn (pixelOf fun c => (y2 - y) / (y2 - y1) * q11.get c + (y - y1) / (y2 - y1) * q12.get c + 0.5)
  else if x2 < p.width ∧ y2 = p.width then do
    let q11 ← p.getpixel ⟨x1, y1⟩
    let q21 ← p.getpixel ⟨x2, y1⟩
    noReturn (pixelOf fun c => blend x x1 x2 (q11.get c) (q21.get c) + 0.5)
  else noReturn (p.newMap (p.width * p.width - 1))

/-! ### Interpolation -/

/-- The four neighbours, from the floors of the coordinates on. -/
def neighbours : List (ℤ × ℤ) := [(0, 0), (1, 0), (0, 1), (1, 1)]

/-- The weight of a coordinate for the neighbour at its floor, or for the one after it. -/
def weight1 (t : ℚ) (d : ℤ) : ℚ := if d = 0 then 1 - (t - ⌊t⌋) else t - ⌊t⌋

def weight (point : XY) (d : ℤ × ℤ) : ℚ := weight1 point.x d.1 * weight1 point.y d.2

def neighbour (point : XY) (d : ℤ × ℤ) : RGB := p.pixelAt (⌊point.y⌋ + d.2) (⌊point.x⌋ + d.1)

def mean (point : XY) (c : Channel) : ℚ :=
  (neighbours.map fun d => ((p.neighbour point d).get c : ℚ) * weight point d).sum

/-- The bilinear interpolation, to the nearest byte. -/
def interpolated (point : XY) : RGB := RGB.ofAcc fun c => ⌊p.mean point c + 1 / 2⌋

/-- The neighbours that are pixels of the image. -/
def existing (point : XY) : List (ℤ × ℤ) :=
  neighbours.filter fun d => ⌊point.x⌋ + d.1 < p.width ∧ ⌊point.y⌋ + d.2 < p.height

/-- The point is sampled: a pixel is returned, it lies between the existing neighbours in every channel, and where
the coordinates are integers it is the pixel there. -/
def Samples (point : XY) : Prop :=
  ∃ px, p.bilinear point = some px ∧
    (∀ c, (∃ d ∈ p.existing point, (p.neighbour point d).get c ≤ px.get c) ∧
      ∃ d ∈ p.existing point, px.get c ≤ (p.neighbour point d).get c) ∧
    ∀ i j : ℤ, point = ⟨i, j⟩ → px = p.pixelAt j i

section Interpolation

variable {p} {point : XY}

theorem weight1_nonneg (t : ℚ) (d : ℤ) : 0 ≤ weight1 t d := by
  have h0 := Int.floor_le t
  have h1 := Int.lt_floor_add_one t
  unfold weight1
  split <;> linarith

theorem weight_nonneg (point : XY) (d : ℤ × ℤ) : 0 ≤ weight point d :=
  mul_nonneg (weight1_nonneg _ _) (weight1_nonneg _ _)

theorem sum_weight (point : XY) : (neighbours.map (weight point)).sum = 1 := by
  simp only [neighbours, List.map_cons, List.map_nil, List.sum_cons, List.sum_nil, weight, weight1, if_true,
    one_ne_zero, if_false]
  ring

/-- The mean lies between two of the neighbours that have a weight. -/
theorem mean_between (p : Myppm) (point : XY) (c : Channel) :
    (∃ d ∈ neighbours, 0 < weight point d ∧ ((p.neighbour point d).get c : ℚ) ≤ p.mean point c) ∧
      ∃ d ∈ neighbours, 0 < weight point d ∧ p.mean point c ≤ (p.neighbour point d).get c := by
  have hw : ∀ d ∈ neighbours, 0 ≤ weight point d := fun d _ => weight_nonneg point d
  have hsum := sum_weight point
  have hpos : 0 < (neighbours.map (weight point)).sum := by
    rw [hsum]
    exact one_pos
  constructor
  · obtain ⟨d, hd, hwd, hle⟩ := exists_mul_sum_le hw hpos fun d => ((p.neighbour point d).get c : ℚ)
    rw [hsum, mul_one] at hle
    exact ⟨d, hd, hwd, hle⟩
  · obtain ⟨d, hd, hwd, hle⟩ := exists_sum_le_mul hw hpos fun d => ((p.neighbour point d).get c : ℚ)
    rw [hsum, mul_one] at hle
    exact ⟨d, hd, hwd, hle⟩

theorem round_between {q : ℚ} {a b : ℤ} (ha : (a : ℚ) ≤ q) (hb : q ≤ b) : a ≤ ⌊q + 1 / 2⌋ ∧ ⌊q + 1 / 2⌋ ≤ b := by
  constructor
  · rw [Int.le_floor]
    linarith
  · rw [← Int.lt_add_one_iff, Int.floor_lt]
    push_cast
    linarith

theorem mean_bounds (p : Myppm) (point : XY) (c : Channel) : 0 ≤ p.mean point c ∧ p.mean point c ≤ 255 := by
  obtain ⟨⟨d, -, -, hlow⟩, d', -, -, hhigh⟩ := mean_between p point c
  have h0 : (0 : ℚ) ≤ (p.neighbour point d).get c := by exact_mod_cast (RGB.get_bounds _ c).1
  have h1 : ((p.neighbour point d').get c : ℚ) ≤ 255 := by exact_mod_cast (RGB.get_bounds _ c).2
  constructor <;> linarith

/-- The interpolation is not cut off by the type of the channels. -/
theorem get_interpolated (p : Myppm) (point : XY) (c : Channel) :
    (p.interpolated point).get c = ⌊p.mean point c + 1 / 2⌋ := by
  obtain ⟨h0, h1⟩ := mean_bounds p point c
  have hround := round_between (a := 0) (b := 255) (by exact_mod_cast h0) (by exact_mod_cast h1)
  rw [interpolated, RGB.get_ofAcc, Int.emod_eq_of_lt hround.1 (by omega)]

/-- **The interpolation** lies between two of the neighbours that have a weight. -/
theorem interpolated_between (p : Myppm) (point : XY) (c : Channel) :
    (∃ d ∈ neighbours, 0 < weight point d ∧ (p.neighbour point d).get c ≤ (p.interpolated point).get c) ∧
      ∃ d ∈ neighbours, 0 < weight point d ∧ (p.interpolated point).get c ≤ (p.neighbour point d).get c := by
  obtain ⟨⟨d, hd, hwd, hlow⟩, d', hd', hwd', hhigh⟩ := mean_between p point c
  rw [get_interpolated]
  exact ⟨⟨d, hd, hwd, (round_between hlow hhigh).1⟩, d', hd', hwd', (round_between hlow hhigh).2⟩

theorem interpolated_intCast (p : Myppm) (i j : ℤ) : p.interpolated ⟨i, j⟩ = p.pixelAt j i := by
  apply RGB.ext_get
  intro c
  have hmean : p.mean ⟨i, j⟩ c = ((p.pixelAt j i).get c : ℤ) := by
    simp [mean, neighbours, weight, weight1, neighbour]
  have hround := round_between hmean.ge hmean.le
  rw [get_interpolated]
  exact le_antisymm hround.2 hround.1

end Interpolation

/-! ### Which branch returns -/

section Branches

variable {p} {point : XY}

theorem getpixel_intCast {i j : ℤ} (hi : 0 ≤ i ∧ i < p.width) (hj : 0 ≤ j ∧ j < p.height) :
    p.getpixel ⟨i, j⟩ = some (p.pixelAt j i) := by
  have hmem : p.Inside (j * p.width + i) := rowMajor_mem (k := (j, i)) hj hi
  unfold getpixel
  dsimp only
  rw [trunc_intCast, trunc_intCast, if_pos ⟨hmem.1, hmem.2.le⟩]
  exact if_pos hmem

/-- **The first branch** returns the interpolation. -/
theorem bilinear_eq_interpolated (hx0 : 0 ≤ point.x) (hy0 : 0 ≤ point.y) (hx : ⌊point.x⌋ + 1 < p.width)
    (hy : ⌊point.y⌋ + 1 < p.height) : p.bilinear point = some (p.interpolated point) := by
  have hx1 : 0 ≤ ⌊point.x⌋ := Int.floor_nonneg.2 hx0
  have hy1 : 0 ≤ ⌊point.y⌋ := Int.floor_nonneg.2 hy0
  have hbranch : (⌊point.x⌋ : ℚ) + 1 < p.width ∧ (⌊point.y⌋ : ℚ) + 1 < p.height := by
    constructor
    · exact_mod_cast hx
    · exact_mod_cast hy
  -- the four neighbours lie inside the image
  have hread : ∀ dx dy : ℤ, (dx = 0 ∨ dx = 1) → (dy = 0 ∨ dy = 1) →
      p.getpixel ⟨((⌊point.x⌋ + dx : ℤ) : ℚ), ((⌊point.y⌋ + dy : ℤ) : ℚ)⟩ = some (p.neighbour point (dx, dy)) := by
    intro dx dy hdx hdy
    exact getpixel_intCast (by omega) (by omega)
  have h00 := hread 0 0 (.inl rfl) (.inl rfl)
  have h10 := hread 1 0 (.inr rfl) (.inl rfl)
  have h01 := hread 0 1 (.inl rfl) (.inr rfl)
  have h11 := hread 1 1 (.inr rfl) (.inr rfl)
  simp only [Int.cast_add, Int.cast_one, add_zero] at h00 h10 h01 h11
  unfold bilinear
  dsimp only
  rw [if_pos hbranch, h00, h10, h01, h11]
  dsimp only [Option.bind_eq_bind, Option.bind_some]
  refine congrArg (fun a => some (RGB.ofAcc a)) (funext fun c => ?_)
  -- the blends in x, blended in y, are the weighted mean
  have hmean : (⌊point.y⌋ + 1 - point.y) / (⌊point.y⌋ + 1 - ⌊point.y⌋) *
        blend point.x ⌊point.x⌋ (⌊point.x⌋ + 1) ((p.neighbour point (0, 0)).get c) ((p.neighbour point (1, 0)).get c) +
      (point.y - ⌊point.y⌋) / (⌊point.y⌋ + 1 - ⌊point.y⌋) *
        blend point.x ⌊point.x⌋ (⌊point.x⌋ + 1) ((p.neighbour point (0, 1)).get c) ((p.neighbour point (1, 1)).get c) +
      0.5 = p.mean point c + 1 / 2 := by
    simp only [blend, mean, neighbours, weight, weight1, List.map_cons, List.map_nil, List.sum_cons, List.sum_nil,
      if_true, one_ne_zero, if_false, add_sub_cancel_left, div_one]
    ring
  have h0 := (mean_bounds p point c).1
  exact (congrArg trunc hmean).trans (trunc_of_nonneg (by linarith))

/-- **The other branches** do not return. -/
theorem bilinear_eq_none (h : ¬ (⌊point.x⌋ + 1 < p.width ∧ ⌊point.y⌋ + 1 < p.height)) : p.bilinear point = none := by
  have hbranch : ¬ ((⌊point.x⌋ : ℚ) + 1 < p.width ∧ (⌊point.y⌋ : ℚ) + 1 < p.height) := by
    rintro ⟨hx, hy⟩
    exact h ⟨by exact_mod_cast hx, by exact_mod_cast hy⟩
  unfold bilinear
  dsimp only
  rw [if_neg hbranch]
  split
  · simp [noReturn]
  · split <;> simp [noReturn]

theorem floor_add_one_lt {t : ℚ} {n : ℤ} : ⌊t⌋ + 1 < n ↔ t < n - 1 := by
  have hcast : ((n - 1 : ℤ) : ℚ) = n - 1 := by push_cast; rfl
  rw [← hcast, ← Int.floor_lt]
  omega

/-- A point from which both coordinates go on to another pixel. -/
theorem bilinear_isSome_iff (hx0 : 0 ≤ point.x) (hy0 : 0 ≤ point.y) :
    (∃ px, p.bilinear point = some px) ↔ point.x < p.width - 1 ∧ point.y < p.height - 1 := by
  rw [← floor_add_one_lt, ← floor_add_one_lt]
  constructor
  · rintro ⟨px, hpx⟩
    by_contra hno
    rw [bilinear_eq_none hno] at hpx
    cases hpx
  · rintro ⟨hx, hy⟩
    exact ⟨_, bilinear_eq_interpolated hx0 hy0 hx hy⟩

end Branches

/-- **Sampling** works at a point of the image if and only if the point is neither in the last column nor in the last
row. -/
theorem samples_iff (p : Myppm) {point : XY} (hx : 0 ≤ point.x ∧ point.x ≤ p.width - 1)
    (hy : 0 ≤ point.y ∧ point.y ≤ p.height - 1) :
    p.Samples point ↔ point.x < p.width - 1 ∧ point.y < p.height - 1 := by
  constructor
  · rintro ⟨px, hpx, -, -⟩
    exact (bilinear_isSome_iff hx.1 hy.1).1 ⟨px, hpx⟩
  · rintro ⟨hx1, hy1⟩
    have hx2 := floor_add_one_lt.2 hx1
    have hy2 := floor_add_one_lt.2 hy1
    have hexist : ∀ d ∈ neighbours, d ∈ p.existing point := by
      intro d hd
      refine List.mem_filter.2 ⟨hd, decide_eq_true ?_⟩
      simp only [neighbours, List.mem_cons, List.not_mem_nil, or_false] at hd
      rcases hd with rfl | rfl | rfl | rfl
      all_goals
        dsimp only
        omega
    refine ⟨_, bilinear_eq_interpolated hx.1 hy.1 hx2 hy2, fun c => ?_, ?_⟩
    · obtain ⟨⟨d, hd, -, hlow⟩, d', hd', -, hhigh⟩ := interpolated_between p point c
      exact ⟨⟨d, hexist d hd, hlow⟩, d', hexist d' hd', hhigh⟩
    · rintro i j rfl
      exact interpolated_intCast p i j

/-- A point between four pixels that are all different. -/
theorem samples_between : (ofPixels 2 2 fun i => ⟨(50 * i.toNat).toUInt8, 20, 30⟩).Samples ⟨0.5, 0.25⟩ :=
  (samples_iff _ (by norm_num [ofPixels]) (by norm_num [ofPixels])).2 (by norm_num [ofPixels])

/-- The last pixel of a row is not sampled. -/
theorem not_samples_corner : ¬ (ofPixels 2 2 fun _ => ⟨10, 20, 30⟩).Samples ⟨1, 0⟩ := by
  rintro ⟨px, hpx, -, -⟩
  obtain ⟨hx, -⟩ := (bilinear_isSome_iff zero_le_one le_rfl).1 ⟨px, hpx⟩
  norm_num [ofPixels] at hx

end Myppm

end TamuProofs.Ppm
