import TamuProofs.Lib.Grid
import TamuProofs.Ppm.Load

/-!
# The size of the array (`ppm_init` of `pr04/myppm.h` and `pr07/myppm.h`)

`width` and `height` come from the file and are multiplied for the allocation, in 32-bit arithmetic that wraps here.
The loops over the pixels multiply once more.

* `readHeader_eq` — the header of `Load` is this one, with a product that fits;
* `fitsArray_iff` — the array has its size, and the indices are inside, if and only if the product fits;
* **`ppmInit_fitsArray_iff`** — for every file.
-/

namespace TamuProofs.Ppm

open TamuProofs.Lib

/-! ### Arithmetic in 32 bits -/

/-- The value of an `int` expression. -/
def wrapInt (n : ℤ) : ℤ := n.bmod (2 ^ 32)

theorem wrapInt_of_fits {n : ℤ} (hlow : intMin ≤ n) (hhigh : n ≤ intMax) : wrapInt n = n := by
  unfold intMin at hlow
  unfold intMax at hhigh
  exact Int.bmod_eq_of_le_mul_two (by push_cast; omega) (by push_cast; omega)

theorem wrapInt_fits (n : ℤ) : intMin ≤ wrapInt n ∧ wrapInt n ≤ intMax := by
  have hlow := Int.le_bmod (x := n) (m := 2 ^ 32) (by omega)
  have hhigh := Int.bmod_lt (x := n) (m := 2 ^ 32) (by omega)
  unfold wrapInt intMin intMax
  constructor <;> omega

/-! ### The allocation and the loops -/

/-- `ppm_init` up to the allocation: `width`, `height` and the stream. -/
def header (file : Bytes) : Option (ℤ × ℤ × IStream) :=
  match getline (IStream.ofFile file) [] with
  | (magic, s) =>
    if magic = ascii "P6" then
      match getline (cleanUp s) magic with
      | (sizes, s) =>
        match dims sizes with
        | none => none
        | some (width, height) =>
          match getline (cleanUp s) sizes with
          | (range, s) =>
            match stoi range with
            | none => none
            | some _ => some (width, height, cleanUp s)
    else none

/-- `size`, the argument of `new RGB[size]`. -/
def elementCount (width height : ℤ) : ℤ := wrapInt (width * height)

/-- `index` in the loops over the pixels, in their order; `new` throws if the count is negative. -/
def pixelIndices (width height : ℤ) : List ℤ :=
  if elementCount width height < 0 then []
  else (Int.range 0 (wrapInt (height - 1) + 1)).reverse.flatMap fun i =>
    (Int.range 0 width).map fun j => wrapInt (wrapInt (i * width) + j)

/-- The array has an element for every pixel, and the loops stay inside. -/
structure FitsArray (width height : ℤ) : Prop where
  count : elementCount width height = width * height
  index : ∀ i ∈ pixelIndices width height, 0 ≤ i ∧ i < width * height

/-- The header as the loader has it, without the check of the product. -/
theorem readHeader_eq (file : Bytes) : readHeader file =
    (header file).filter fun r => decide (0 ≤ r.1 * r.2.1 ∧ r.1 * r.2.1 ≤ intMax) := by
  unfold readHeader header
  generalize getline (IStream.ofFile file) [] = first
  dsimp only
  by_cases hmagic : first.1 = ascii "P6"
  · rw [if_pos hmagic, if_pos hmagic]
    generalize getline (cleanUp first.2) first.1 = second
    cases dims second.1 with
    | none => rfl
    | some size =>
      obtain ⟨width, height⟩ := size
      dsimp only
      generalize getline (cleanUp second.2) second.1 = third
      cases stoi third.1 with
      | none => rfl
      | some range => simp [Option.filter]
  · rw [if_neg hmagic, if_neg hmagic]
    rfl

section Fits

variable {width height : ℤ}

/-- With a product that fits, nothing wraps. -/
theorem index_mem_of_fits (hlow : intMin ≤ width * height) (hhigh : width * height ≤ intMax) {i : ℤ}
    (hi : i ∈ pixelIndices width height) : 0 ≤ i ∧ i < width * height := by
  unfold pixelIndices elementCount at hi
  rw [wrapInt_of_fits hlow hhigh] at hi
  split at hi
  · exact absurd hi List.not_mem_nil
  rename_i hcount
  simp only [List.mem_flatMap, List.mem_reverse, List.mem_map, Int.mem_range_iff] at hi
  obtain ⟨r, ⟨hr0, hr1⟩, c, ⟨hc0, hc1⟩, rfl⟩ := hi
  -- a column, so the width is positive and the height is not negative
  have hwidth : 1 ≤ width := by omega
  have hheight : 0 ≤ height := nonneg_of_mul_nonneg_right (not_lt.1 hcount) (by omega)
  have hle : height ≤ width * height := le_mul_of_one_le_left hheight hwidth
  rw [wrapInt_of_fits (by unfold intMin; omega) (by omega), sub_add_cancel] at hr1
  obtain ⟨h0, h1⟩ := rowMajor_mem (k := (r, c)) (w := width) ⟨hr0, hr1⟩ ⟨hc0, hc1⟩
  have hprod : 0 ≤ r * width := mul_nonneg hr0 (by omega)
  simp only [rowMajor] at h0 h1
  have hmin : intMin ≤ 0 := by decide
  rw [wrapInt_of_fits (n := r * width) (by omega) (by omega), wrapInt_of_fits (by omega) (by omega)]
  exact ⟨h0, h1⟩

theorem fitsArray_iff : FitsArray width height ↔ intMin ≤ width * height ∧ width * height ≤ intMax := by
  constructor
  · intro h
    rw [← h.count]
    exact wrapInt_fits _
  · rintro ⟨hlow, hhigh⟩
    exact ⟨wrapInt_of_fits hlow hhigh, fun i hi => index_mem_of_fits hlow hhigh hi⟩

end Fits

/-- **The array fits the image** of a file if and only if the product of its dimensions does not wrap. -/
theorem ppmInit_fitsArray_iff (file : Bytes) :
    (∀ width height s, header file = some (width, height, s) → FitsArray width height) ↔
      ∀ width height s, header file = some (width, height, s) →
        intMin ≤ width * height ∧ width * height ≤ intMax := by
  constructor
  · intro h width height s hfile
    exact fitsArray_iff.1 (h width height s hfile)
  · intro h width height s hfile
    exact fitsArray_iff.2 (h width height s hfile)

/-- 65536 by 65536 pixels make an array of none. -/
def hugeFile : Bytes := lineBytes (ascii "P6") ++ lineBytes (ascii "65536 65536") ++ lineBytes (ascii "255")

theorem not_fitsArray_huge :
    ¬ ∀ width height s, header hugeFile = some (width, height, s) → FitsArray width height := by
  intro h
  have hfile : header hugeFile = some (65536, 65536, { rest := [], good := false }) := by decide +kernel
  have hcount : elementCount 65536 65536 = 0 := by decide
  have hfits := (h 65536 65536 _ hfile).count
  rw [hcount] at hfits
  omega

end TamuProofs.Ppm
