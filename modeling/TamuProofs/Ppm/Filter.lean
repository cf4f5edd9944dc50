import TamuProofs.Lib.Grid
import TamuProofs.Ppm.Hsv

/-!
# Window filters (`pr04/myppm.h`)

A filter computes every pixel of `new_map` that has a whole window around it from the pixels of `pixel_map` in
that window; at the edges `new_map` keeps what `ppm_init` put there, which is the image. The parameters `x` and
`y` of the functions for one pixel are its row and its column.

A read or a write outside the arrays, of `width * height` pixels each, is `none` here.

* `Myppm.sweep` — the two loops over the window, `Myppm.filter` — the two loops over the image;
* `sweep_eq` — for a pixel with a whole window around it all the reads are inside;
* `filter_spec` — a filter whose pixels do not depend on `new_map` writes each of them and nothing else;
* **`dilation_eroded`** — `dilation`, which is an erosion, takes the minimum of the window in every channel.
-/

namespace TamuProofs.Ppm

open TamuProofs.Lib

/-! ### Pixels by channel -/

inductive Channel
  | red
  | green
  | blue
  deriving DecidableEq

theorem Channel.forall_iff {P : Channel → Prop} : (∀ c, P c) ↔ P .red ∧ P .green ∧ P .blue := by
  refine ⟨fun h => ⟨h .red, h .green, h .blue⟩, fun h c => ?_⟩
  cases c with
  | red => exact h.1
  | green => exact h.2.1
  | blue => exact h.2.2

instance (P : Channel → Prop) [DecidablePred P] : Decidable (∀ c, P c) := decidable_of_iff' _ Channel.forall_iff

/-- `int(px.red)` and so on. -/
def RGB.get (px : RGB) : Channel → ℤ
  | .red => px.red.toNat
  | .green => px.green.toNat
  | .blue => px.blue.toNat

/-- The pixel stored from the three accumulators. -/
def RGB.ofAcc (a : Channel → ℤ) : RGB := ⟨toUchar (a .red), toUchar (a .green), toUchar (a .blue)⟩

theorem RGB.get_ofAcc (a : Channel → ℤ) (c : Channel) : (RGB.ofAcc a).get c = a c % 256 := by
  cases c <;> exact toNat_toUchar _

theorem RGB.get_bounds (px : RGB) (c : Channel) : 0 ≤ px.get c ∧ px.get c ≤ 255 := by
  have hr := px.red.toNat_lt
  have hg := px.green.toNat_lt
  have hb := px.blue.toNat_lt
  cases c <;> simp only [RGB.get] <;> omega

/-! ### The class -/

/-- The class `myppm`: both arrays have `width * height` pixels. -/
structure Myppm where
  width : ℤ
  height : ℤ
  pixelMap : ℤ → RGB
  newMap : ℤ → RGB

/-- What `ppm_init` leaves: every pixel in both arrays. -/
def Myppm.ofPixels (width height : ℤ) (pixels : ℤ → RGB) : Myppm := ⟨width, height, pixels, pixels⟩

/-- The offsets in the window, in the order of the two loops: `xk`, which runs in the inner loop, and `yk`. -/
def window (size : ℤ) : List (ℤ × ℤ) :=
  (Int.range 0 size).flatMap fun yk => (Int.range 0 size).map fun xk => (xk, yk)

theorem mem_window {size : ℤ} {k : ℤ × ℤ} :
    k ∈ window size ↔ (0 ≤ k.1 ∧ k.1 < size) ∧ 0 ≤ k.2 ∧ k.2 < size := by
  obtain ⟨xk, yk⟩ := k
  simp only [window, List.mem_flatMap, List.mem_map, Int.mem_range_iff, Prod.mk.injEq]
  constructor
  · rintro ⟨yk, hy, xk, hx, rfl, rfl⟩
    exact ⟨hx, hy⟩
  · rintro ⟨hx, hy⟩
    exact ⟨yk, hy, xk, hx, rfl, rfl⟩

namespace Myppm

variable {α : Type*} (p : Myppm)

/-- The index is one of the arrays. -/
def Inside (i : ℤ) : Prop := 0 ≤ i ∧ i < p.width * p.height

instance (i : ℤ) : Decidable (p.Inside i) := by unfold Inside; infer_instance

def read (i : ℤ) : Option RGB := if p.Inside i then some (p.pixelMap i) else none

/-- `new_map[i]` is assigned. -/
def write (newMap : ℤ → RGB) (i : ℤ) (px : RGB) : Option (ℤ → RGB) :=
  if p.Inside i then some (Function.update newMap i px) else none

def pixelAt (r c : ℤ) : RGB := p.pixelMap (rowMajor p.width (r, c))

/-- The loops over the window around row `x` and column `y`: `f` is given the accumulators, the index into a
kernel, and the pixel read. -/
def sweep (size x y : ℤ) (f : α → ℤ → RGB → Option α) (init : α) : Option α :=
  let convRange := (size - 1) / 2
  let x0 := x - convRange
  let y0 := y - convRange
  (window size).foldlM
    (fun a k => (p.read ((x0 + k.1) * p.width + (y0 + k.2))).bind (f a (k.1 * size + k.2))) init

/-- The pixels with a whole window around them, in the order of the two loops. -/
def interior (convRange : ℤ) : List (ℤ × ℤ) :=
  cells convRange (p.height - convRange) convRange (p.width - convRange)

/-- The loops over the image; `pixel` is the function for one pixel, which gets and leaves `new_map`. -/
def filter (convRange : ℤ) (pixel : ℤ → ℤ → (ℤ → RGB) → Option (ℤ → RGB)) : Option Myppm :=
  ((p.interior convRange).foldlM (fun newMap k => pixel k.1 k.2 newMap) p.newMap).map fun m =>
    { p with newMap := m }

def morphologicalSinglePixel (size x y : ℤ) (newMap : ℤ → RGB) : Option (ℤ → RGB) :=
  (p.sweep size x y (fun acc _ px => some fun c => min (px.get c) (acc c)) fun _ => 255).bind fun acc =>
    p.write newMap (x * p.width + y) (RGB.ofAcc acc)

def dilation (size : ℤ) : Option Myppm := p.filter ((size - 1) / 2) (p.morphologicalSinglePixel size)

/-! ### Windows inside the image -/

variable {p} {size x y : ℤ}

theorem mem_interior {d : ℤ} : (x, y) ∈ p.interior d ↔ (d ≤ x ∧ x < p.height - d) ∧ d ≤ y ∧ y < p.width - d :=
  mem_cells

theorem inside_of_mem_window (hodd : size % 2 = 1) (hxy : (x, y) ∈ p.interior ((size - 1) / 2)) {k : ℤ × ℤ}
    (hk : k ∈ window size) :
    p.Inside ((x - (size - 1) / 2 + k.1) * p.width + (y - (size - 1) / 2 + k.2)) := by
  obtain ⟨⟨hx0, hx1⟩, hy0, hy1⟩ := mem_interior.1 hxy
  obtain ⟨⟨hk0, hk1⟩, hk2, hk3⟩ := mem_window.1 hk
  have hrow : 0 ≤ x - (size - 1) / 2 + k.1 ∧ x - (size - 1) / 2 + k.1 < p.height := by omega
  have hcol : 0 ≤ y - (size - 1) / 2 + k.2 ∧ y - (size - 1) / 2 + k.2 < p.width := by omega
  exact rowMajor_mem (k := (x - (size - 1) / 2 + k.1, y - (size - 1) / 2 + k.2)) hrow hcol

theorem inside_of_mem_interior {d : ℤ} (hd : 0 ≤ d) (hxy : (x, y) ∈ p.interior d) : p.Inside (x * p.width + y) := by
  obtain ⟨⟨hx0, hx1⟩, hy0, hy1⟩ := mem_interior.1 hxy
  have hrow : 0 ≤ x ∧ x < p.height := by omega
  have hcol : 0 ≤ y ∧ y < p.width := by omega
  exact rowMajor_mem (k := (x, y)) hrow hcol

/-- The pixel of the window at the offset `k`. -/
def windowPixel (p : Myppm) (size x y : ℤ) (k : ℤ × ℤ) : RGB :=
  p.pixelAt (x - (size - 1) / 2 + k.1) (y - (size - 1) / 2 + k.2)

/-- **In the interior every read is inside.** -/
theorem sweep_eq (hodd : size % 2 = 1) (hxy : (x, y) ∈ p.interior ((size - 1) / 2)) (f : α → ℤ → RGB → Option α)
    (init : α) : p.sweep size x y f init =
      (window size).foldlM (fun a k => f a (k.1 * size + k.2) (p.windowPixel size x y k)) init := by
  apply foldlM_congr
  intro a k hk
  rw [read, if_pos (inside_of_mem_window hodd hxy hk)]
  rfl

theorem write_eq {d : ℤ} (hd : 0 ≤ d) (hxy : (x, y) ∈ p.interior d) (newMap : ℤ → RGB) (px : RGB) :
    p.write newMap (x * p.width + y) px = some (Function.update newMap (rowMajor p.width (x, y)) px) :=
  if_pos (inside_of_mem_interior hd hxy)

theorem interior_inj {d : ℤ} (hd : 0 ≤ d) : ∀ k ∈ p.interior d, ∀ k' ∈ p.interior d,
    rowMajor p.width k = rowMajor p.width k' → k = k' := by
  intro k hk k' hk'
  have hcol : ∀ k ∈ p.interior d, 0 ≤ k.2 ∧ k.2 < p.width := by
    intro k hk
    obtain ⟨-, h0, h1⟩ := mem_interior.1 hk
    omega
  exact rowMajor_inj (hcol k hk) (hcol k' hk')

section Filter

variable {d : ℤ} {pixel : ℤ → ℤ → (ℤ → RGB) → Option (ℤ → RGB)} {value : ℤ × ℤ → Option RGB}

/-- **A filter** whose pixels come from `pixel_map` alone: each pixel of the interior gets its value, and the
others stay. -/
theorem filter_spec (hd : 0 ≤ d)
    (hpixel : ∀ k ∈ p.interior d, ∀ m, pixel k.1 k.2 m =
      (value k).map (Function.update m (rowMajor p.width k))) {q : Myppm} (h : p.filter d pixel = some q) :
    (∀ k ∈ p.interior d, value k = some (q.newMap (rowMajor p.width k))) ∧
      ∀ i, (∀ k ∈ p.interior d, rowMajor p.width k ≠ i) → q.newMap i = p.newMap i := by
  obtain ⟨m, hm, rfl⟩ := Option.map_eq_some_iff.1 h
  exact foldlM_writes (fun m k hk => hpixel k hk m) (interior_inj hd) hm

theorem filter_isSome (hpixel : ∀ k ∈ p.interior d, ∀ m, pixel k.1 k.2 m =
      (value k).map (Function.update m (rowMajor p.width k))) :
    (∃ q, p.filter d pixel = some q) ↔ ∀ k ∈ p.interior d, ∃ px, value k = some px := by
  rw [← isSome_of_foldlM_writes (fun m k hk => hpixel k hk m) p.newMap]
  simp [filter]

end Filter

/-! ### The minimum of the window -/

/-- The accumulator of a channel after the loops of `morphological_single_pixel`. -/
def windowMin (p : Myppm) (size x y : ℤ) (c : Channel) : ℤ :=
  (window size).foldl (fun a k => min ((p.windowPixel size x y k).get c) a) 255

/-- The values of a channel in the window around row `x` and column `y`. -/
def windowValues (p : Myppm) (size x y : ℤ) (c : Channel) : Set ℤ :=
  {v | ∃ k ∈ window size, (p.windowPixel size x y k).get c = v}

/-- The accumulator is the least value in the window. -/
theorem isLeast_windowMin (hsize : 1 ≤ size) (c : Channel) :
    IsLeast (p.windowValues size x y c) (p.windowMin size x y c) := by
  obtain ⟨hmem, hle⟩ := isLeast_foldl_min (fun k => (p.windowPixel size x y k).get c) (window size) 255
  refine ⟨?_, fun v hv => hle (.inr hv)⟩
  rcases hmem with h255 | hmem
  · -- nothing was below 255, so the first pixel of the window is 255
    have hzero : (0, 0) ∈ window size := mem_window.2 ⟨⟨le_rfl, hsize⟩, le_rfl, hsize⟩
    have hge : 255 ≤ (p.windowPixel size x y (0, 0)).get c := h255 ▸ hle (.inr ⟨(0, 0), hzero, rfl⟩)
    refine ⟨(0, 0), hzero, ?_⟩
    exact (le_antisymm (RGB.get_bounds _ c).2 hge).trans h255.symm
  · exact hmem

theorem foldl_min_channel (l : List (ℤ × ℤ)) (v : ℤ × ℤ → Channel → ℤ) (a : Channel → ℤ) (c : Channel) :
    l.foldl (fun a k c => min (v k c) (a c)) a c = l.foldl (fun a k => min (v k c) a) (a c) := by
  induction l generalizing a with
  | nil => rfl
  | cons k l ih => exact ih _

theorem morphologicalSinglePixel_eq (hodd : size % 2 = 1) (hsize : 1 ≤ size) {k : ℤ × ℤ}
    (hk : k ∈ p.interior ((size - 1) / 2)) (newMap : ℤ → RGB) :
    p.morphologicalSinglePixel size k.1 k.2 newMap =
      (some (RGB.ofAcc (p.windowMin size k.1 k.2))).map (Function.update newMap (rowMajor p.width k)) := by
  have hacc : (window size).foldl (fun acc k' c => min ((p.windowPixel size k.1 k.2 k').get c) (acc c))
      (fun _ => 255) = p.windowMin size k.1 k.2 := by
    funext c
    exact foldl_min_channel _ (fun k' c => (p.windowPixel size k.1 k.2 k').get c) _ c
  rw [morphologicalSinglePixel, sweep_eq hodd hk, foldlM_eq_some (fun a k' _ => rfl), hacc]
  exact write_eq (by omega) hk newMap _

/-! ### Erosion -/

/-- `q` is `p` after an erosion: in the interior the minimum of the window in every channel, elsewhere the
image. -/
structure Eroded (p q : Myppm) (size : ℤ) : Prop where
  interior : ∀ k ∈ p.interior ((size - 1) / 2), ∀ c,
    IsLeast (p.windowValues size k.1 k.2 c) ((q.newMap (rowMajor p.width k)).get c)
  edge : ∀ i, (∀ k ∈ p.interior ((size - 1) / 2), rowMajor p.width k ≠ i) → q.newMap i = p.pixelMap i

section Erosion

variable {q : Myppm}

/-- The erosion is defined, and is one. -/
theorem eroded_dilation (hodd : size % 2 = 1) (hsize : 1 ≤ size) (hnew : p.newMap = p.pixelMap) :
    ∃ q, p.dilation size = some q ∧ p.Eroded q size := by
  have hd : 0 ≤ (size - 1) / 2 := by omega
  have hpixel : ∀ k ∈ p.interior ((size - 1) / 2), ∀ m, p.morphologicalSinglePixel size k.1 k.2 m =
      (some (RGB.ofAcc (p.windowMin size k.1 k.2))).map (Function.update m (rowMajor p.width k)) :=
    fun k hk m => morphologicalSinglePixel_eq hodd hsize hk m
  obtain ⟨q, hq⟩ := (filter_isSome hpixel).2 fun k _ => ⟨_, rfl⟩
  obtain ⟨hin, hout⟩ := filter_spec hd hpixel hq
  refine ⟨q, hq, fun k hk c => ?_, fun i hi => (hout i hi).trans (congrFun hnew i)⟩
  have hleast := isLeast_windowMin (p := p) (x := k.1) (y := k.2) hsize c
  obtain ⟨k', -, hk'⟩ := hleast.1
  have hbounds := (p.windowPixel size k.1 k.2 k').get_bounds c
  rw [← Option.some.inj (hin k hk), RGB.get_ofAcc, Int.emod_eq_of_lt (by omega) (by omega)]
  exact hleast

theorem mem_windowValues_self (hsize : 1 ≤ size) (k : ℤ × ℤ) (c : Channel) :
    (p.pixelMap (rowMajor p.width k)).get c ∈ p.windowValues size k.1 k.2 c := by
  refine ⟨((size - 1) / 2, (size - 1) / 2), mem_window.2 (by omega), ?_⟩
  rw [windowPixel, pixelAt, Int.sub_add_cancel, Int.sub_add_cancel]

theorem Eroded.le (h : p.Eroded q size) (hsize : 1 ≤ size) (i : ℤ) (c : Channel) :
    (q.newMap i).get c ≤ (p.pixelMap i).get c := by
  by_cases hi : ∃ k ∈ p.interior ((size - 1) / 2), rowMajor p.width k = i
  · obtain ⟨k, hk, rfl⟩ := hi
    exact (h.interior k hk c).2 (mem_windowValues_self hsize k c)
  · rw [h.edge i fun k hk heq => hi ⟨k, hk, heq⟩]

theorem Eroded.mono {p' q' : Myppm} (h : p.Eroded q size) (h' : p'.Eroded q' size) (hodd : size % 2 = 1)
    (hwidth : p'.width = p.width) (hheight : p'.height = p.height)
    (hle : ∀ i, p.Inside i → ∀ c, (p.pixelMap i).get c ≤ (p'.pixelMap i).get c) {i : ℤ} (hi : p.Inside i)
    (c : Channel) : (q.newMap i).get c ≤ (q'.newMap i).get c := by
  have hinterior : p'.interior ((size - 1) / 2) = p.interior ((size - 1) / 2) := by
    rw [Myppm.interior, Myppm.interior, hwidth, hheight]
  by_cases hk : ∃ k ∈ p.interior ((size - 1) / 2), rowMajor p.width k = i
  · obtain ⟨k, hk, rfl⟩ := hk
    obtain ⟨k', hk', hmin⟩ := (h'.interior k (hinterior ▸ hk) c).1
    calc (q.newMap (rowMajor p.width k)).get c ≤ (p.windowPixel size k.1 k.2 k').get c :=
          (h.interior k hk c).2 ⟨k', hk', rfl⟩
      _ ≤ (p'.windowPixel size k.1 k.2 k').get c := by
          rw [windowPixel, windowPixel, pixelAt, pixelAt, hwidth]
          exact hle _ (inside_of_mem_window hodd hk hk') c
      _ = (q'.newMap (rowMajor p.width k)).get c := by rw [hmin, hwidth]
  · have hedge : ∀ k ∈ p.interior ((size - 1) / 2), rowMajor p.width k ≠ i := fun k hk' heq => hk ⟨k, hk', heq⟩
    rw [h.edge i hedge, h'.edge i (by rwa [hinterior, hwidth])]
    exact hle i hi c

end Erosion

end Myppm

open Myppm

/-- **`dilation` is the erosion by a square window**: for every image and every odd size no index leaves the
arrays, the interior takes the minimum of its window in every channel and the edge stays; the result is at most
the image, and grows with it. -/
theorem dilation_eroded (width height : ℤ) (pixels : ℤ → RGB) (size : ℤ) (hodd : size % 2 = 1) (hsize : 1 ≤ size) :
    ∃ q, (ofPixels width height pixels).dilation size = some q ∧
      (ofPixels width height pixels).Eroded q size ∧
      (∀ i c, (q.newMap i).get c ≤ (pixels i).get c) ∧
      ∀ (pixels' : ℤ → RGB) (q' : Myppm), (ofPixels width height pixels').dilation size = some q' →
        (∀ i, 0 ≤ i → i < width * height → ∀ c, (pixels i).get c ≤ (pixels' i).get c) →
        ∀ i, 0 ≤ i → i < width * height → ∀ c, (q.newMap i).get c ≤ (q'.newMap i).get c := by
  obtain ⟨q, hq, heroded⟩ := eroded_dilation (p := ofPixels width height pixels) hodd hsize rfl
  refine ⟨q, hq, heroded, heroded.le hsize, fun pixels' q' hq' hle i h0 hlt c => ?_⟩
  obtain ⟨q'', hq'', heroded'⟩ := eroded_dilation (p := ofPixels width height pixels') hodd hsize rfl
  obtain rfl : q'' = q' := Option.some.inj (hq''.symm.trans hq')
  exact heroded.mono heroded' hodd rfl rfl (fun i hi c => hle i hi.1 hi.2 c) ⟨h0, hlt⟩ c

/-- Three rows of four pixels: two windows. -/
theorem dilation_eroded_four :
    (3 : ℤ) % 2 = 1 ∧ (1 : ℤ) ≤ 3 ∧
      ∃ q, (ofPixels 4 3 fun i => ⟨toUchar i, 0, 0⟩).dilation 3 = some q ∧
        (ofPixels 4 3 fun i => ⟨toUchar i, 0, 0⟩).Eroded q 3 := by
  obtain ⟨q, hq, heroded, -⟩ := dilation_eroded 4 3 (fun i => ⟨toUchar i, 0, 0⟩) 3 (by decide) (by decide)
  exact ⟨by decide, by decide, q, hq, heroded⟩

end TamuProofs.Ppm
