import TamuProofs.Ppm.Bilinear

/-!
# Warps in dimension 2 (`transformation` of `pr06/myppm.h` and `pr07/myppm.h`)

The first loops send every pixel forward and assign `output_map` where it falls; what `output_map` holds before is
left from the allocation. The second loops take every pixel of `output_map` that is black for a hole, and sample the
image at its preimage. The centre comes from an integer division.

An element of `output_map` that was not assigned is `none` here, and what is in the memory is `newMap`. A run that
takes a sample that is not returned is `none` as a whole.

* `newIndex_eq_some_iff`, `forwardPass_eq` — the first loops: the last pixel that falls in a cell stays;
* `fillHole_eq`, `warp2_isSome_iff`, `warp2_eq` — the second loops: every cell by itself;
* **`noHoles_iff`** — when every cell with its preimage in the image is assigned a pixel that belongs there.
-/

namespace TamuProofs.Ppm

open TamuProofs.Lib

/-- `red == 0 && green == 0 && blue == 0`. -/
def RGB.IsBlack (c : RGB) : Prop := c.red = 0 ∧ c.green = 0 ∧ c.blue = 0

instance (c : RGB) : Decidable c.IsBlack := by unfold RGB.IsBlack; infer_instance

namespace Myppm

variable (p : Myppm) (mtrx : ℕ → ℚ)

/-! ### The function -/

def center : XY := ⟨(p.width.tdiv 2 : ℤ), (p.height.tdiv 2 : ℤ)⟩

/-- `i` and `j` in the order of the loops. -/
def columns : List (ℤ × ℤ) := cells 0 p.width 0 p.height

def index (k : ℤ × ℤ) : ℤ := rowMajor p.width (k.2, k.1)

/-- `new_index`, if there is an assignment. -/
def newIndex (k : ℤ × ℤ) : Option ℤ :=
  let q := forward2 mtrx p.center k.1 k.2
  if 0 ≤ q.x ∧ q.x < p.width ∧ 0 ≤ q.y ∧ q.y < p.height then
    let newIndex := trunc q.y * p.width + trunc q.x
    if newIndex < p.width * p.height ∧ 0 ≤ newIndex then some newIndex else none
  else none

/-- The first loops: what is assigned to the elements of `output_map`. -/
def forwardPass : ℤ → Option RGB :=
  p.columns.foldl
    (fun out k => (p.newIndex mtrx k).elim out fun n => Function.update out n (some (p.pixelMap (p.index k))))
    fun _ => none

/-- The conditions on `x_origin`, `y_origin` and `index_origin`. -/
def InRange (origin : XY) : Prop :=
  (0 ≤ origin.x ∧ 0 ≤ origin.y ∧ origin.x ≤ p.width ∧ origin.y ≤ p.height) ∧
    0 ≤ trunc origin.y * p.width + trunc origin.x ∧
    trunc origin.y * p.width + trunc origin.x < p.width * p.height

instance (origin : XY) : Decidable (p.InRange origin) := by unfold InRange; infer_instance

/-- `x_origin` and `y_origin`. -/
def origin (k : ℤ × ℤ) : XY := inverse2 mtrx p.center k.1 k.2

/-- `output_map[i]`. -/
def content (out : ℤ → Option RGB) (i : ℤ) : RGB := (out i).getD (p.newMap i)

/-- The body of the second loops. -/
def fillHole (out : ℤ → Option RGB) (k : ℤ × ℤ) : Option (ℤ → Option RGB) :=
  if (p.content out (p.index k)).IsBlack then
    if p.InRange (p.origin mtrx k) then
      (p.bilinear (p.origin mtrx k)).map fun px => Function.update out (p.index k) (some px)
    else some out
  else some out

/-- Both pairs of loops: what is assigned to the elements of `output_map`. -/
def warp2 : Option (ℤ → Option RGB) := p.columns.foldlM (p.fillHole mtrx) (p.forwardPass mtrx)

/-- `transformation` with dimension 2. -/
def transformation2 : Option Myppm := (p.warp2 mtrx).map fun out => { p with newMap := p.content out }

/-! ### What should hold -/

/-- The forward image of the pixel `s` falls in the cell `k`. -/
def FallsIn (s k : ℤ × ℤ) : Prop :=
  ⌊(forward2 mtrx p.center s.1 s.2).x⌋ = k.1 ∧ ⌊(forward2 mtrx p.center s.1 s.2).y⌋ = k.2

instance (s k : ℤ × ℤ) : Decidable (p.FallsIn mtrx s k) := by unfold FallsIn; infer_instance

/-- A point from the first to the last pixel in both directions. -/
def InImage (point : XY) : Prop := (0 ≤ point.x ∧ point.x ≤ p.width - 1) ∧ 0 ≤ point.y ∧ point.y ≤ p.height - 1

instance (point : XY) : Decidable (p.InImage point) := by unfold InImage; infer_instance

/-- Every pixel of the output whose preimage is in the image has been assigned, a pixel that falls there or the
interpolation at the preimage. -/
def NoHoles : Prop :=
  ∃ out, p.warp2 mtrx = some out ∧ ∀ k ∈ p.columns, ∀ q : XY, forward2 mtrx p.center q.x q.y = ⟨k.1, k.2⟩ →
    p.InImage q → ∃ px, out (p.index k) = some px ∧
      ((∃ s ∈ p.columns, p.FallsIn mtrx s k ∧ px = p.pixelMap (p.index s)) ∨ px = p.interpolated q)

/-- The pixels that fall in the cell, in the order of the loops. -/
def landing (k : ℤ × ℤ) : List (ℤ × ℤ) := p.columns.filter fun s => p.FallsIn mtrx s k

/-- What is in the cell before the second loops: the last pixel that falls there, or what was in the memory. -/
def afterForward (k : ℤ × ℤ) : RGB :=
  ((p.landing mtrx k).getLast?.map fun s => p.pixelMap (p.index s)).getD (p.newMap (p.index k))

section Forward

variable {p mtrx} {k s : ℤ × ℤ}

theorem mem_columns : k ∈ p.columns ↔ (0 ≤ k.1 ∧ k.1 < p.width) ∧ 0 ≤ k.2 ∧ k.2 < p.height := mem_cells

theorem inside_index (hk : k ∈ p.columns) : p.Inside (p.index k) :=
  rowMajor_mem (mem_columns.1 hk).2 (mem_columns.1 hk).1

theorem index_inj {i j i' j' : ℤ} (hi : 0 ≤ i ∧ i < p.width) (hi' : 0 ≤ i' ∧ i' < p.width)
    (heq : p.index (i, j) = p.index (i', j')) : i = i' ∧ j = j' := by
  have hpair : (j, i) = (j', i') := rowMajor_inj hi hi' heq
  exact ⟨congrArg Prod.snd hpair, congrArg Prod.fst hpair⟩

theorem nodup_index (p : Myppm) : (p.columns.map p.index).Nodup := by
  refine List.Nodup.map_on (fun k hk k' hk' heq => ?_) (nodup_cells _ _ _ _)
  have hpair := index_inj (mem_columns.1 hk).1 (mem_columns.1 hk').1 heq
  exact Prod.ext hpair.1 hpair.2

/-- **Where a pixel is assigned**: to the cell in which its forward image falls. -/
theorem newIndex_eq_some_iff (hk : k ∈ p.columns) :
    p.newIndex mtrx s = some (p.index k) ↔ p.FallsIn mtrx s k := by
  obtain ⟨⟨hi0, hi1⟩, hj0, hj1⟩ := mem_columns.1 hk
  unfold newIndex FallsIn
  generalize forward2 mtrx p.center s.1 s.2 = q
  dsimp only
  constructor
  · intro h
    rw [Option.ite_none_right_eq_some] at h
    obtain ⟨⟨hx0, hx1, hy0, hy1⟩, h⟩ := h
    rw [Option.ite_none_right_eq_some] at h
    obtain ⟨-, h⟩ := h
    rw [trunc_of_nonneg hx0, trunc_of_nonneg hy0] at h
    have hx : 0 ≤ ⌊q.x⌋ ∧ ⌊q.x⌋ < p.width := ⟨Int.floor_nonneg.2 hx0, Int.floor_lt.2 hx1⟩
    exact index_inj (i := ⌊q.x⌋) (j := ⌊q.y⌋) hx ⟨hi0, hi1⟩ (Option.some.inj h)
  · rintro ⟨hx, hy⟩
    have hx0 : 0 ≤ q.x := Int.floor_nonneg.1 (hx ▸ hi0)
    have hy0 : 0 ≤ q.y := Int.floor_nonneg.1 (hy ▸ hj0)
    have hx1 : q.x < p.width := Int.floor_lt.1 (hx ▸ hi1)
    have hy1 : q.y < p.height := Int.floor_lt.1 (hy ▸ hj1)
    have hin := inside_index hk
    rw [if_pos ⟨hx0, hx1, hy0, hy1⟩, trunc_of_nonneg hx0, trunc_of_nonneg hy0, hx, hy]
    exact if_pos ⟨hin.2, hin.1⟩

/-- **The first loops.** -/
theorem forwardPass_eq (hk : k ∈ p.columns) : p.forwardPass mtrx (p.index k) =
    (p.landing mtrx k).getLast?.map fun s => p.pixelMap (p.index s) := by
  have hlanding : (p.columns.filter fun s => decide (p.newIndex mtrx s = some (p.index k))) = p.landing mtrx k :=
    List.filter_congr fun s _ => decide_eq_decide.2 (newIndex_eq_some_iff hk)
  rw [forwardPass, foldl_lastWrite, hlanding]
  cases (p.landing mtrx k).getLast? with
  | none => rfl
  | some s => rfl

theorem content_forwardPass (hk : k ∈ p.columns) :
    p.content (p.forwardPass mtrx) (p.index k) = p.afterForward mtrx k := by
  rw [content, forwardPass_eq hk]
  rfl

end Forward

/-! ### The second loops -/

/-- What the second loops make of an element of `output_map`. -/
def filled (k : ℤ × ℤ) (a : Option RGB) : Option (Option RGB) :=
  if (a.getD (p.newMap (p.index k))).IsBlack ∧ p.InRange (p.origin mtrx k) then
    (p.bilinear (p.origin mtrx k)).map some
  else some a

section Backward

variable {p mtrx} {k : ℤ × ℤ} {out : ℤ → Option RGB}

theorem fillHole_eq (out : ℤ → Option RGB) (k : ℤ × ℤ) : p.fillHole mtrx out k =
    (p.filled mtrx k (out (p.index k))).map (Function.update out (p.index k)) := by
  have hsame : some out = (some (out (p.index k))).map (Function.update out (p.index k)) := by
    rw [Option.map_some, Function.update_eq_self]
  unfold fillHole filled content
  by_cases hblack : ((out (p.index k)).getD (p.newMap (p.index k))).IsBlack
  · by_cases hrange : p.InRange (p.origin mtrx k)
    · rw [if_pos hblack, if_pos hrange, if_pos ⟨hblack, hrange⟩, Option.map_map]
      rfl
    · rw [if_pos hblack, if_neg hrange, if_neg fun h => hrange h.2, ← hsame]
  · rw [if_neg hblack, if_neg fun h => hblack h.1, ← hsame]

/-- **The second loops**: every cell is filled from what the first loops left in it. -/
theorem warp2_eq (h : p.warp2 mtrx = some out) (hk : k ∈ p.columns) :
    p.filled mtrx k (p.forwardPass mtrx (p.index k)) = some (out (p.index k)) :=
  (foldlM_own (fun m k _ => fillHole_eq m k) (nodup_index p) h).1 k hk

theorem warp2_isSome_iff : (∃ out, p.warp2 mtrx = some out) ↔
    ∀ k ∈ p.columns, ∃ a, p.filled mtrx k (p.forwardPass mtrx (p.index k)) = some a :=
  isSome_of_foldlM_own (fun m k _ => fillHole_eq m k) (nodup_index p) _

theorem filled_of_not_isBlack (hk : k ∈ p.columns) (hblack : ¬ (p.afterForward mtrx k).IsBlack) :
    p.filled mtrx k (p.forwardPass mtrx (p.index k)) = some (p.forwardPass mtrx (p.index k)) := by
  rw [← content_forwardPass hk] at hblack
  exact if_neg fun h => hblack h.1

theorem filled_of_not_inRange (a : Option RGB) (hrange : ¬ p.InRange (p.origin mtrx k)) :
    p.filled mtrx k a = some a :=
  if_neg fun h => hrange h.2

theorem filled_of_isBlack (hk : k ∈ p.columns) (hblack : (p.afterForward mtrx k).IsBlack)
    (hrange : p.InRange (p.origin mtrx k)) : p.filled mtrx k (p.forwardPass mtrx (p.index k)) =
      (p.bilinear (p.origin mtrx k)).map some := by
  rw [← content_forwardPass hk] at hblack
  exact if_pos ⟨hblack, hrange⟩

/-- Both pairs of loops come to their end if every sample they take is returned. -/
theorem warp2_isSome_iff_samples : (∃ out, p.warp2 mtrx = some out) ↔
    ∀ k ∈ p.columns, (p.afterForward mtrx k).IsBlack → p.InRange (p.origin mtrx k) →
      (p.origin mtrx k).x < p.width - 1 ∧ (p.origin mtrx k).y < p.height - 1 := by
  rw [warp2_isSome_iff]
  refine forall₂_congr fun k hk => ?_
  constructor
  · rintro ⟨a, ha⟩ hblack hrange
    rw [filled_of_isBlack hk hblack hrange] at ha
    obtain ⟨px, hpx, -⟩ := Option.map_eq_some_iff.1 ha
    exact (bilinear_isSome_iff hrange.1.1 hrange.1.2.1).1 ⟨px, hpx⟩
  · intro h
    by_cases hblack : (p.afterForward mtrx k).IsBlack
    · by_cases hrange : p.InRange (p.origin mtrx k)
      · obtain ⟨px, hpx⟩ := (bilinear_isSome_iff hrange.1.1 hrange.1.2.1).2 (h hblack hrange)
        exact ⟨some px, by rw [filled_of_isBlack hk hblack hrange, hpx]; rfl⟩
      · exact ⟨_, filled_of_not_inRange _ hrange⟩
    · exact ⟨_, filled_of_not_isBlack hk hblack⟩

theorem inRange_of_inImage {q : XY} (hq : p.InImage q) : p.InRange q := by
  obtain ⟨⟨hx0, hx1⟩, hy0, hy1⟩ := hq
  refine ⟨⟨hx0, hy0, by linarith, by linarith⟩, ?_⟩
  rw [trunc_of_nonneg hx0, trunc_of_nonneg hy0]
  have hx : ⌊q.x⌋ < p.width := Int.floor_lt.2 (by linarith)
  have hy : ⌊q.y⌋ < p.height := Int.floor_lt.2 (by linarith)
  exact rowMajor_mem (k := (⌊q.y⌋, ⌊q.x⌋)) ⟨Int.floor_nonneg.2 hy0, hy⟩ ⟨Int.floor_nonneg.2 hx0, hx⟩

end Backward

/-! ### Holes -/

section Holes

variable {p mtrx} {k : ℤ × ℤ}

theorem forward2_eq_iff (hdet : det2 mtrx ≠ 0) {q : XY} :
    forward2 mtrx p.center q.x q.y = ⟨k.1, k.2⟩ ↔ q = p.origin mtrx k := by
  constructor
  · intro hq
    have hback := inverse2_forward2 p.center hdet q.x q.y
    rw [hq] at hback
    exact hback.symm
  · rintro rfl
    exact forward2_inverse2 p.center hdet k.1 k.2

theorem afterForward_of_landing_nil (h : p.landing mtrx k = []) : p.afterForward mtrx k = p.newMap (p.index k) := by
  rw [afterForward, h]
  rfl

/-- In a run without holes, a cell of the image in which nothing falls was black in the memory. -/
theorem NoHoles.isBlack (hdet : det2 mtrx ≠ 0) (h : p.NoHoles mtrx) (hk : k ∈ p.columns)
    (hnil : p.landing mtrx k = []) (himage : p.InImage (p.origin mtrx k)) : (p.newMap (p.index k)).IsBlack := by
  obtain ⟨out, hout, hassigned⟩ := h
  by_contra hblack
  rw [← afterForward_of_landing_nil hnil] at hblack
  have hstay := (filled_of_not_isBlack hk hblack).symm.trans (warp2_eq hout hk)
  obtain ⟨px, hpx, -⟩ := hassigned k hk _ ((forward2_eq_iff hdet).2 rfl) himage
  rw [forwardPass_eq hk, hnil, hpx] at hstay
  cases hstay

/-- A cell with its preimage in the image is assigned, if what the memory held is not in the way. -/
theorem exists_assigned {out : ℤ → Option RGB} (hout : p.warp2 mtrx = some out)
    (hsamples : ∀ k ∈ p.columns, (p.afterForward mtrx k).IsBlack → p.InRange (p.origin mtrx k) →
      (p.origin mtrx k).x < p.width - 1 ∧ (p.origin mtrx k).y < p.height - 1) (hk : k ∈ p.columns)
    (hmemory : p.landing mtrx k = [] → (p.newMap (p.index k)).IsBlack) (himage : p.InImage (p.origin mtrx k)) :
    ∃ px, out (p.index k) = some px ∧
      ((∃ s ∈ p.columns, p.FallsIn mtrx s k ∧ px = p.pixelMap (p.index s)) ∨
        px = p.interpolated (p.origin mtrx k)) := by
  have hfilled := warp2_eq hout hk
  by_cases hblack : (p.afterForward mtrx k).IsBlack
  · obtain ⟨hx, hy⟩ := hsamples k hk hblack (inRange_of_inImage himage)
    rw [filled_of_isBlack hk hblack (inRange_of_inImage himage), bilinear_eq_interpolated himage.1.1 himage.2.1
      (floor_add_one_lt.2 hx) (floor_add_one_lt.2 hy)] at hfilled
    exact ⟨_, (Option.some.inj hfilled).symm, .inr rfl⟩
  · rw [filled_of_not_isBlack hk hblack, forwardPass_eq hk] at hfilled
    cases hlast : (p.landing mtrx k).getLast? with
    | none =>
      have hnil := List.getLast?_eq_none_iff.1 hlast
      rw [afterForward_of_landing_nil hnil] at hblack
      exact absurd (hmemory hnil) hblack
    | some s =>
      rw [hlast] at hfilled
      obtain ⟨hs, hfalls⟩ := List.mem_filter.1 (List.mem_of_getLast? hlast)
      exact ⟨_, (Option.some.inj hfilled).symm, .inl ⟨s, hs, of_decide_eq_true hfalls, rfl⟩⟩

end Holes

/-- **No holes**: a warp leaves none if and only if every cell that is black after the first loops and is looked up
has its preimage before the last column and the last row, and every cell of the image in which nothing falls was
black in the memory. -/
theorem noHoles_iff (p : Myppm) {mtrx : ℕ → ℚ} (hdet : det2 mtrx ≠ 0) : p.NoHoles mtrx ↔
    (∀ k ∈ p.columns, (p.afterForward mtrx k).IsBlack → p.InRange (p.origin mtrx k) →
      (p.origin mtrx k).x < p.width - 1 ∧ (p.origin mtrx k).y < p.height - 1) ∧
    ∀ k ∈ p.columns, p.landing mtrx k = [] → p.InImage (p.origin mtrx k) → (p.newMap (p.index k)).IsBlack := by
  constructor
  · intro h
    obtain ⟨out, hout, -⟩ := id h
    exact ⟨warp2_isSome_iff_samples.1 ⟨out, hout⟩, fun k hk hnil himage => h.isBlack hdet hk hnil himage⟩
  · rintro ⟨hsamples, hmemory⟩
    obtain ⟨out, hout⟩ := warp2_isSome_iff_samples.2 hsamples
    refine ⟨out, hout, fun k hk q hq himage => ?_⟩
    obtain rfl := (forward2_eq_iff hdet).1 hq
    exact exists_assigned hout hsamples hk (fun hnil => hmemory k hk hnil himage) himage

/-- An image of 3 by 3 pixels that get lighter, with this pixel everywhere in the memory of the output. -/
def lighter (memory : RGB) : Myppm := ⟨3, 3, fun i => ⟨128, 128, (20 * i.toNat).toUInt8⟩, fun _ => memory⟩

/-- `mtrx` of `scaling` in `pr07.cpp`. -/
def scaling : ℕ → ℚ := fun k => [2, 0, 0, 2].getD k 0

/-- Only the pixel in the middle stays in the picture, and the second loops fill the other eight cells. -/
theorem noHoles_scaling : (lighter ⟨0, 0, 0⟩).NoHoles scaling :=
  (noHoles_iff _ (by decide +kernel)).2 ⟨by decide +kernel, by decide +kernel⟩

/-- Between the pixels that were moved apart, the memory stays, if it is not black. -/
theorem not_noHoles_scaling : ¬ (lighter ⟨255, 255, 255⟩).NoHoles scaling := by
  intro h
  have hnil : (lighter ⟨255, 255, 255⟩).landing scaling (0, 1) = [] := by decide +kernel
  have himage : (lighter ⟨255, 255, 255⟩).InImage ((lighter ⟨255, 255, 255⟩).origin scaling (0, 1)) := by
    decide +kernel
  have hblack := h.isBlack (by decide +kernel) (mem_columns.2 (by decide)) hnil himage
  exact absurd hblack (by decide)

end Myppm

end TamuProofs.Ppm
