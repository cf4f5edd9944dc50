import Mathlib.Data.Rat.Floor
import TamuProofs.Lib.Polyline
import TamuProofs.Ppm.Blur

/-!
# Piecewise linear curves (`pr03/myppm.h`)

`piecewise_linear_single` makes the table of a curve, `color_manipulation` looks every component of an image up in
the tables. Doubles are rationals; a read outside an array, and a conversion to an `int` that does not fit, are
`none`.

* `fill_eq` — one segment of the curve, `piecewiseLinearSingle_eq` — the table is that of the polyline;
* **`piecewiseLinearSingle_table`** — the table is complete, in range and monotone;
* `piecewiseLinearRGB_eq` — the green table is made from the values for blue;
* **`ownCurves_iff`** — when every component has gone through its own curve.
-/

namespace TamuProofs.Ppm

open TamuProofs.Lib

/-! ### The functions -/

/-- The conversion of a double to an `int`. -/
def toInt (q : ℚ) : Option ℤ := checkedInt (trunc q)

structure XYPair where
  x : ℚ
  y : ℚ
  deriving DecidableEq

def linearSlope (n : ℕ) (rn : List ℚ) : Option (List ℚ) :=
  (List.range n).mapM fun i => do
    let y₁ ← rn[i + 1]?
    let y₀ ← rn[i]?
    some ((y₁ - y₀) * n)

def dot (n : ℕ) (rn : List ℚ) : Option (List XYPair) := do
  let dots ← (List.range n).mapM fun i : ℕ => rn[i]?.map fun y => XYPair.mk ((i : ℚ) / n) y
  let y ← rn[n]?
  some (dots ++ [⟨1, y⟩])

/-- `rgb_index`, and what was assigned to the elements of `color_map` so far, in order. -/
structure Filling where
  rgbIndex : ℕ
  written : List (ℕ × ℤ)

def fill (lBoundary rBoundary : ℚ) (value : ℕ → ℚ) (s : Filling) : Option Filling :=
  if lBoundary ≤ s.rgbIndex ∧ (s.rgbIndex : ℚ) < rBoundary then
    (toInt (value s.rgbIndex)).bind fun v =>
      fill lBoundary rBoundary value ⟨s.rgbIndex + 1, s.written ++ [(s.rgbIndex, v)]⟩
  else some s
termination_by ⌈rBoundary⌉₊ - s.rgbIndex
decreasing_by
  rename_i h
  have hlt : s.rgbIndex < ⌈rBoundary⌉₊ := Nat.lt_ceil.2 h.2
  show ⌈rBoundary⌉₊ - (s.rgbIndex + 1) < ⌈rBoundary⌉₊ - s.rgbIndex
  omega

/-- The body of the loop over the segments. -/
def fillSegment (slopes : List ℚ) (dots : List XYPair) (s : Filling) (i : ℕ) : Option Filling := do
  let slope ← slopes[i]?
  let d ← dots[i]?
  let next ← dots[i + 1]?
  fill (d.x * 255) (next.x * 255) (fun j => (slope * (j / 255 - d.x) + d.y) * 255) s

/-- `piecewise_linear_single`: what it assigns to the elements of `color_map`, in order. -/
def piecewiseLinearSingle (n : ℕ) (rn : List ℚ) : Option (List (ℕ × ℤ)) := do
  let slopes ← linearSlope n rn
  let dots ← dot n rn
  let s ← (List.range n).foldlM (fillSegment slopes dots) ⟨0, []⟩
  let last ← dots[n]?
  let v ← toInt (255 * last.y)
  some (s.written ++ [(s.rgbIndex, v)])

/-! ### One segment -/

def tableTo (v : ℕ → ℤ) (m : ℕ) : List (ℕ × ℤ) := (List.range m).map fun j => (j, v j)

theorem tableTo_succ (v : ℕ → ℤ) (m : ℕ) : tableTo v (m + 1) = tableTo v m ++ [(m, v m)] := by
  simp [tableTo, List.range_succ]

section Fill

variable {l r : ℚ} {value : ℕ → ℚ} {v : ℕ → ℤ}

/-- **The `while` loop** goes on to the first index that is not below the right boundary. -/
theorem fill_eq {m : ℕ} (hl : l ≤ m) (hr : m ≤ ⌈r⌉₊)
    (hv : ∀ j, m ≤ j → (j : ℚ) < r → toInt (value j) = some (v j)) :
    fill l r value ⟨m, tableTo v m⟩ = some ⟨⌈r⌉₊, tableTo v ⌈r⌉₊⟩ := by
  induction hd : ⌈r⌉₊ - m generalizing m with
  | zero =>
    obtain rfl : m = ⌈r⌉₊ := by omega
    rw [fill, if_neg]
    rintro ⟨-, hlt⟩
    exact absurd (Nat.lt_ceil.2 hlt) (lt_irrefl _)
  | succ d ih =>
    have hlt : (m : ℚ) < r := Nat.lt_ceil.1 (by omega)
    rw [fill, if_pos ⟨hl, hlt⟩]
    dsimp only
    rw [hv m le_rfl hlt, Option.bind_some, ← tableTo_succ]
    apply ih
    · push_cast
      linarith
    · omega
    · intro j hj hjr
      exact hv j (by omega) hjr
    · omega

end Fill

/-! ### The table -/

def nodeValue (rn : List ℚ) (k : ℕ) : ℚ := rn.getD k 0

/-- The polyline through the first `n + 1` values of `rn`, at `j / 255` and in the scale of the components. -/
def curveAt (n : ℕ) (rn : List ℚ) (j : ℕ) : ℤ := trunc (255 * polyline n (nodeValue rn) (j / 255))

section Table

variable {n : ℕ} {rn : List ℚ}

theorem getElem?_eq_nodeValue {k : ℕ} (h : k < rn.length) : rn[k]? = some (nodeValue rn k) := by
  simp [nodeValue, h]

def slopes (n : ℕ) (rn : List ℚ) : List ℚ :=
  (List.range n).map fun i => (nodeValue rn (i + 1) - nodeValue rn i) * n

def dots (n : ℕ) (rn : List ℚ) : List XYPair :=
  (List.range (n + 1)).map fun i : ℕ => ⟨(i : ℚ) / n, nodeValue rn i⟩

theorem linearSlope_eq (hlen : n < rn.length) : linearSlope n rn = some (slopes n rn) := by
  apply mapM_eq_some
  intro i hi
  have hi := List.mem_range.1 hi
  rw [getElem?_eq_nodeValue (by omega), getElem?_eq_nodeValue (by omega)]
  rfl

theorem dot_eq (hn : 1 ≤ n) (hlen : n < rn.length) : dot n rn = some (dots n rn) := by
  have hn' : (n : ℚ) ≠ 0 := Nat.cast_ne_zero.2 (by omega)
  have hdots : ((List.range n).mapM fun i : ℕ => rn[i]?.map fun y => XYPair.mk ((i : ℚ) / n) y) =
      some ((List.range n).map fun i => ⟨(i : ℚ) / n, nodeValue rn i⟩) := by
    apply mapM_eq_some
    intro i hi
    have hi := List.mem_range.1 hi
    rw [getElem?_eq_nodeValue (by omega)]
    rfl
  unfold dot dots
  rw [hdots, getElem?_eq_nodeValue hlen, List.range_succ, List.map_append, List.map_singleton, div_self hn']
  rfl

theorem piecewiseLinearSingle_eq_none (hlen : rn.length ≤ n) : piecewiseLinearSingle n rn = none := by
  have hdot : dot n rn = none := by
    unfold dot
    rw [List.getElem?_eq_none hlen]
    cases (List.range n).mapM fun i : ℕ => rn[i]?.map fun y => XYPair.mk ((i : ℚ) / n) y with
    | none => rfl
    | some dots => rfl
  unfold piecewiseLinearSingle
  rw [hdot]
  cases linearSlope n rn with
  | none => rfl
  | some slopes => rfl

def InUnit (n : ℕ) (rn : List ℚ) : Prop := ∀ k ≤ n, 0 ≤ nodeValue rn k ∧ nodeValue rn k ≤ 1

theorem div_255_mem {j : ℕ} (hj : j ≤ 255) : (0 : ℚ) ≤ j / 255 ∧ (j : ℚ) / 255 ≤ 1 :=
  div_255_bounds (n := j) (by omega)

theorem trunc_mem {q : ℚ} (h0 : 0 ≤ q) (h1 : q ≤ 1) : 0 ≤ trunc (255 * q) ∧ trunc (255 * q) ≤ 255 := by
  have h0' : 0 ≤ 255 * q := by linarith
  rw [trunc_of_nonneg h0']
  refine ⟨Int.floor_nonneg.2 h0', ?_⟩
  have hle : ⌊255 * q⌋ ≤ ⌊(255 : ℚ)⌋ := Int.floor_le_floor (by linarith)
  simpa using hle

theorem trunc_mono {q q' : ℚ} (h0 : 0 ≤ q) (h : q ≤ q') : trunc q ≤ trunc q' := by
  rw [trunc_of_nonneg h0, trunc_of_nonneg (h0.trans h)]
  exact Int.floor_le_floor h

theorem toInt_of_mem {q : ℚ} (h0 : 0 ≤ q) (h1 : q ≤ 1) : toInt (255 * q) = some (trunc (255 * q)) := by
  have hmem := trunc_mem h0 h1
  exact if_pos ⟨by unfold intMin; omega, by unfold intMax; omega⟩

theorem polyline_unit (hn : 1 ≤ n) (hrn : InUnit n rn) {j : ℕ} (hj : j ≤ 255) :
    0 ≤ polyline n (nodeValue rn) (j / 255 : ℚ) ∧ polyline n (nodeValue rn) (j / 255 : ℚ) ≤ 1 :=
  polyline_mem hn hrn (div_255_mem hj).1 (div_255_mem hj).2

theorem curveAt_mem (hn : 1 ≤ n) (hrn : InUnit n rn) {j : ℕ} (hj : j ≤ 255) :
    0 ≤ curveAt n rn j ∧ curveAt n rn j ≤ 255 :=
  trunc_mem (polyline_unit hn hrn hj).1 (polyline_unit hn hrn hj).2

/-- `rgb_index` at the left boundary of segment `i`. -/
def boundary (n i : ℕ) : ℕ := ⌈(i : ℚ) / n * 255⌉₊

theorem boundary_mono {i : ℕ} : boundary n i ≤ boundary n (i + 1) := by
  apply Nat.ceil_mono
  push_cast
  gcongr
  linarith

/-- Between the boundaries of a segment, the polyline is that segment. -/
theorem polyline_of_boundaries {i j : ℕ} (hi : i < n) (hl : (i : ℚ) / n * 255 ≤ j)
    (hr : (j : ℚ) < ((i + 1 : ℕ) : ℚ) / n * 255) :
    polyline n (nodeValue rn) (j / 255 : ℚ) = piece (nodeValue rn) i (j / 255 * n) := by
  have hn : (0 : ℚ) < n := Nat.cast_pos.2 (by omega)
  apply polyline_eq_piece hi
  · rw [div_mul_eq_mul_div, div_le_iff₀ hn] at hl
    linarith
  · rw [div_mul_eq_mul_div, lt_div_iff₀ hn] at hr
    linarith

/-- **A segment** fills the table from its left boundary to its right boundary. -/
theorem fillSegment_eq (hrn : InUnit n rn) {i : ℕ} (hi : i < n) :
    fillSegment (slopes n rn) (dots n rn) ⟨boundary n i, tableTo (curveAt n rn) (boundary n i)⟩ i =
      some ⟨boundary n (i + 1), tableTo (curveAt n rn) (boundary n (i + 1))⟩ := by
  have hn : (n : ℚ) ≠ 0 := Nat.cast_ne_zero.2 (by omega)
  have hr255 : ((i + 1 : ℕ) : ℚ) / n * 255 ≤ 255 := by
    have hle : ((i + 1 : ℕ) : ℚ) / n ≤ 1 := div_le_one_of_le₀ (Nat.cast_le.2 hi) (Nat.cast_nonneg n)
    linarith
  have hread : (dots n rn)[i]? = some ⟨(i : ℚ) / n, nodeValue rn i⟩ := by
    simp [dots, List.getElem?_range (show i < n + 1 by omega)]
  have hnext : (dots n rn)[i + 1]? = some ⟨((i + 1 : ℕ) : ℚ) / n, nodeValue rn (i + 1)⟩ := by
    simp [dots, List.getElem?_range (show i + 1 < n + 1 by omega)]
  have hslope : (slopes n rn)[i]? = some ((nodeValue rn (i + 1) - nodeValue rn i) * n) := by
    simp [slopes, List.getElem?_range hi]
  unfold fillSegment
  rw [hslope, hread, hnext]
  dsimp only [Option.bind_eq_bind, Option.bind_some]
  apply fill_eq (Nat.le_ceil _) boundary_mono
  intro j hj hjr
  have hl : (i : ℚ) / n * 255 ≤ j := (Nat.le_ceil _).trans (Nat.cast_le.2 hj)
  have hj255 : j ≤ 255 := by
    have hlt := hjr.trans_le hr255
    exact_mod_cast hlt.le
  -- on this segment the value written is that of the polyline
  have hvalue : ((nodeValue rn (i + 1) - nodeValue rn i) * n * (j / 255 - i / n) + nodeValue rn i) * 255 =
      255 * polyline n (nodeValue rn) (j / 255 : ℚ) := by
    rw [polyline_of_boundaries hi hl hjr]
    unfold piece
    field_simp
    ring
  rw [hvalue]
  have hunit := polyline_unit (by omega) hrn hj255
  exact toInt_of_mem hunit.1 hunit.2

/-- **The table of a curve.** -/
theorem piecewiseLinearSingle_eq (hn : 1 ≤ n) (hlen : n < rn.length) (hrn : InUnit n rn) :
    piecewiseLinearSingle n rn = some (tableTo (curveAt n rn) 256) := by
  have hn' : (n : ℚ) ≠ 0 := Nat.cast_ne_zero.2 (by omega)
  unfold piecewiseLinearSingle
  rw [linearSlope_eq hlen, dot_eq hn hlen]
  have hloop : ∀ i ≤ n, (List.range i).foldlM (fillSegment (slopes n rn) (dots n rn)) ⟨0, []⟩ =
      some ⟨boundary n i, tableTo (curveAt n rn) (boundary n i)⟩ := by
    intro i hi
    induction i with
    | zero => simp [boundary, tableTo]
    | succ i ih =>
      rw [List.range_succ, List.foldlM_append, ih (by omega), Option.bind_eq_bind, Option.bind_some,
        List.foldlM_cons, fillSegment_eq hrn hi]
      rfl
  have hlast : boundary n n = 255 := by
    rw [boundary, div_self hn', one_mul]
    exact Nat.ceil_natCast 255
  have hread : (dots n rn)[n]? = some ⟨(n : ℚ) / n, nodeValue rn n⟩ := by
    simp [dots]
  have hnode : curveAt n rn 255 = trunc (255 * nodeValue rn n) := by
    rw [curveAt, polyline_node hn le_rfl (by norm_num)]
  dsimp only [Option.bind_eq_bind, Option.bind_some]
  rw [hloop n le_rfl, hlast, hread]
  dsimp only [Option.bind_some]
  rw [toInt_of_mem (hrn n le_rfl).1 (hrn n le_rfl).2, ← hnode, Option.bind_some, ← tableTo_succ]

end Table

/-! ### Curves -/

/-- A curve of `n` segments: `n + 1` values between 0 and 1. -/
structure Curve where
  n : ℕ
  rn : List ℚ
  pos : 1 ≤ n
  length : rn.length = n + 1
  mem : ∀ y ∈ rn, 0 ≤ y ∧ y ≤ 1

section Curves

variable (c : Curve)

theorem Curve.lt_length {k : ℕ} (hk : k ≤ c.n) : k < c.rn.length := by
  rw [c.length]
  omega

theorem Curve.inUnit {n : ℕ} (hn : n ≤ c.n) : InUnit n c.rn := by
  intro k hk
  exact c.mem _ (List.mem_of_getElem? (getElem?_eq_nodeValue (c.lt_length (hk.trans hn))))

theorem Curve.eq_table : piecewiseLinearSingle c.n c.rn = some (tableTo (curveAt c.n c.rn) 256) :=
  piecewiseLinearSingle_eq c.pos (c.lt_length le_rfl) (c.inUnit le_rfl)

variable {c}

theorem Curve.nodeValue_mono (hmono : c.rn.Pairwise (· ≤ ·)) {k k' : ℕ} (hkk : k ≤ k') (hk' : k' ≤ c.n) :
    nodeValue c.rn k ≤ nodeValue c.rn k' := by
  have hlen := c.lt_length hk'
  rcases hkk.lt_or_eq with hlt | rfl
  · have hle := List.pairwise_iff_getElem.1 hmono k k' (hlt.trans hlen) hlen hlt
    simpa [nodeValue, hlen, hlt.trans hlen] using hle
  · exact le_rfl

theorem Curve.curveAt_mono (hmono : c.rn.Pairwise (· ≤ ·)) {j j' : ℕ} (hjj : j ≤ j') (hj' : j' ≤ 255) :
    curveAt c.n c.rn j ≤ curveAt c.n c.rn j' := by
  have hle : (j : ℚ) / 255 ≤ (j' : ℚ) / 255 := by
    have hcast : (j : ℚ) ≤ j' := Nat.cast_le.2 hjj
    linarith
  have hpoly : polyline c.n (nodeValue c.rn) (j / 255 : ℚ) ≤ polyline c.n (nodeValue c.rn) (j' / 255 : ℚ) :=
    polyline_mono c.pos (fun k k' => Curve.nodeValue_mono hmono) (div_255_mem (hjj.trans hj')).1 hle (div_255_mem hj').2
  have hunit := polyline_unit c.pos (c.inUnit le_rfl) (hjj.trans hj')
  exact trunc_mono (by linarith [hunit.1]) (by linarith)

theorem Curve.curveAt_node {i j : ℕ} (hi : i ≤ c.n) (hij : j * c.n = 255 * i) :
    curveAt c.n c.rn j = trunc (255 * nodeValue c.rn i) := by
  have hnode : (j : ℚ) / 255 * c.n = i := by
    have hcast : (j : ℚ) * c.n = 255 * i := by exact_mod_cast hij
    linarith
  rw [curveAt, polyline_node c.pos hi hnode]

end Curves

/-- **The table of a curve** is complete, in range, exact at the nodes, and monotone if the values are. -/
theorem piecewiseLinearSingle_table (c : Curve) :
    ∃ written, piecewiseLinearSingle c.n c.rn = some written ∧
      written.map Prod.fst = List.range 256 ∧
      (∀ w ∈ written, 0 ≤ w.2 ∧ w.2 ≤ 255) ∧
      (∀ i y k v, c.rn[i]? = some y → (k, v) ∈ written → k * c.n = 255 * i → v = trunc (255 * y)) ∧
      (c.rn.Pairwise (· ≤ ·) → (written.map Prod.snd).Pairwise (· ≤ ·)) := by
  refine ⟨_, c.eq_table, ?_, ?_, ?_, ?_⟩
  · exact (List.map_map (l := List.range 256)).trans (List.map_id _)
  · intro w hw
    obtain ⟨j, hj, rfl⟩ := List.mem_map.1 hw
    have hj := List.mem_range.1 hj
    exact curveAt_mem c.pos (c.inUnit le_rfl) (by omega)
  · intro i y k v hy hkv hnode
    obtain ⟨j, -, heq⟩ := List.mem_map.1 hkv
    cases heq
    have hi : i < c.rn.length := (List.getElem?_eq_some_iff.1 hy).1
    rw [getElem?_eq_nodeValue hi] at hy
    rw [c.length] at hi
    rw [Curve.curveAt_node (by omega) hnode, Option.some.inj hy]
  · intro hmono
    have hsnd : (tableTo (curveAt c.n c.rn) 256).map Prod.snd = (List.range 256).map (curveAt c.n c.rn) := by
      simp [tableTo]
    rw [hsnd, List.pairwise_map]
    refine List.pairwise_lt_range.imp_of_mem fun {j j'} _ hj' hlt => ?_
    have hj' := List.mem_range.1 hj'
    exact Curve.curveAt_mono hmono hlt.le (by omega)

/-- The curve for red in `pr03.cpp`. -/
def arr1 : Curve where
  n := 5
  rn := [0, 0.5, 0.6, 0.8, 0.9, 1.0]
  pos := by decide
  length := rfl
  mem := by
    intro y hy
    simp only [List.mem_cons, List.not_mem_nil, or_false] at hy
    rcases hy with rfl | rfl | rfl | rfl | rfl | rfl <;> norm_num

/-- Its table is monotone, and at index 51 it is 127. -/
theorem piecewiseLinearSingle_table_arr1 :
    ∃ written, piecewiseLinearSingle arr1.n arr1.rn = some written ∧
      (written.map Prod.snd).Pairwise (· ≤ ·) ∧ ∀ v, (51, v) ∈ written → v = 127 := by
  have hmono : arr1.rn.Pairwise (· ≤ ·) := by
    unfold arr1
    norm_num
  have hhalf : trunc (255 * 0.5) = 127 := by
    rw [trunc_of_nonneg (by norm_num), Int.floor_eq_iff]
    norm_num
  obtain ⟨written, heq, -, -, hnode, hpair⟩ := piecewiseLinearSingle_table arr1
  exact ⟨written, heq, hpair hmono, fun v hv => (hnode 1 0.5 51 v rfl hv rfl).trans hhalf⟩

/-! ### Images -/

/-- `manipulation_map`. -/
structure ManipulationMap where
  rMap : ℕ → ℤ
  gMap : ℕ → ℤ
  bMap : ℕ → ℤ

/-- The array after assignments to its elements. -/
def assign (colorMap : ℕ → ℤ) (written : List (ℕ × ℤ)) : ℕ → ℤ :=
  written.foldl (fun m w => Function.update m w.1 w.2) colorMap

def piecewiseLinearRGB (maps : ManipulationMap) (n₁ : ℕ) (rn₁ : List ℚ) (n₂ : ℕ) (_rn₂ : List ℚ) (n₃ : ℕ)
    (rn₃ : List ℚ) : Option ManipulationMap := do
  let r ← piecewiseLinearSingle n₁ rn₁
  let g ← piecewiseLinearSingle n₂ rn₃
  let b ← piecewiseLinearSingle n₃ rn₃
  some ⟨assign maps.rMap r, assign maps.gMap g, assign maps.bMap b⟩

/-- The three assignments in `color_manipulation`. -/
def ManipulationMap.apply (maps : ManipulationMap) (p : RGB) : RGB :=
  ⟨toUchar (maps.rMap p.red.toNat), toUchar (maps.gMap p.green.toNat), toUchar (maps.bMap p.blue.toNat)⟩

def colorManipulation (maps : ManipulationMap) (image : Image) : Image :=
  { image with pixelMap := image.indices.foldl (fun m i => Function.update m i (maps.apply (m i))) image.pixelMap }

/-- Every component of every pixel went through its own curve. -/
def OwnCurves (maps : ManipulationMap) (image : Image) (c₁ c₂ c₃ : Curve) : Prop :=
  ∃ maps', piecewiseLinearRGB maps c₁.n c₁.rn c₂.n c₂.rn c₃.n c₃.rn = some maps' ∧
    ∀ i < image.height * image.width,
      (((colorManipulation maps' image).pixelMap i).red.toNat : ℤ) =
          curveAt c₁.n c₁.rn (image.pixelMap i).red.toNat ∧
        (((colorManipulation maps' image).pixelMap i).green.toNat : ℤ) =
          curveAt c₂.n c₂.rn (image.pixelMap i).green.toNat ∧
        (((colorManipulation maps' image).pixelMap i).blue.toNat : ℤ) =
          curveAt c₃.n c₃.rn (image.pixelMap i).blue.toNat

section Images

variable {maps : ManipulationMap} {image : Image} {c₁ c₂ c₃ : Curve}

theorem assign_tableTo (colorMap : ℕ → ℤ) (v : ℕ → ℤ) {m j : ℕ} (hj : j < m) :
    assign colorMap (tableTo v m) j = v j := by
  induction m with
  | zero => omega
  | succ m ih =>
    rw [tableTo_succ, assign, List.foldl_append, List.foldl_cons, List.foldl_nil]
    by_cases hjm : j = m
    · rw [hjm, Function.update_self]
    · rw [Function.update_of_ne hjm]
      exact ih (by omega)

theorem pixelMap_colorManipulation {i : ℕ} (hi : i < image.height * image.width) :
    (colorManipulation maps image).pixelMap i = maps.apply (image.pixelMap i) := by
  have hloop : image.indices.foldlM (fun m i => some (Function.update m i (maps.apply (m i)))) image.pixelMap =
      some (colorManipulation maps image).pixelMap := foldlM_eq_some (fun m k _ => rfl) _
  have hnodup : (image.indices.map id).Nodup := by
    rw [List.map_id, indices_eq]
    exact List.nodup_range
  have hown := (foldlM_own (g := fun _ p => some (maps.apply p)) (fun m k _ => rfl) hnodup hloop).1 i
    (by rw [indices_eq]; exact List.mem_range.2 hi)
  exact (Option.some.inj hown).symm

theorem toNat_toUchar_assign (colorMap : ℕ → ℤ) {n : ℕ} {rn : List ℚ} (hn : 1 ≤ n) (hrn : InUnit n rn) (x : UInt8) :
    ((toUchar (assign colorMap (tableTo (curveAt n rn) 256) x.toNat)).toNat : ℤ) = curveAt n rn x.toNat := by
  have hx := x.toNat_lt
  have hmem := curveAt_mem hn hrn (j := x.toNat) (by omega)
  rw [assign_tableTo _ _ (by omega), toNat_toUchar]
  omega

/-- **The three tables**: the one for green is made from the values for blue, which have to be enough. -/
theorem piecewiseLinearRGB_eq (maps : ManipulationMap) (c₁ c₂ c₃ : Curve) :
    piecewiseLinearRGB maps c₁.n c₁.rn c₂.n c₂.rn c₃.n c₃.rn =
      if c₂.n ≤ c₃.n then some
        ⟨assign maps.rMap (tableTo (curveAt c₁.n c₁.rn) 256), assign maps.gMap (tableTo (curveAt c₂.n c₃.rn) 256),
          assign maps.bMap (tableTo (curveAt c₃.n c₃.rn) 256)⟩
      else none := by
  unfold piecewiseLinearRGB
  rw [c₁.eq_table, c₃.eq_table]
  split
  · rename_i hle
    rw [piecewiseLinearSingle_eq c₂.pos (c₃.lt_length hle) (c₃.inUnit hle)]
    rfl
  · rw [piecewiseLinearSingle_eq_none (by rw [c₃.length]; omega)]
    rfl

theorem components_colorManipulation (maps : ManipulationMap) (c₁ c₃ : Curve) (hle : c₂.n ≤ c₃.n) {i : ℕ}
    (hi : i < image.height * image.width) :
    let out := colorManipulation
      ⟨assign maps.rMap (tableTo (curveAt c₁.n c₁.rn) 256), assign maps.gMap (tableTo (curveAt c₂.n c₃.rn) 256),
        assign maps.bMap (tableTo (curveAt c₃.n c₃.rn) 256)⟩ image
    ((out.pixelMap i).red.toNat : ℤ) = curveAt c₁.n c₁.rn (image.pixelMap i).red.toNat ∧
      ((out.pixelMap i).green.toNat : ℤ) = curveAt c₂.n c₃.rn (image.pixelMap i).green.toNat ∧
      ((out.pixelMap i).blue.toNat : ℤ) = curveAt c₃.n c₃.rn (image.pixelMap i).blue.toNat := by
  dsimp only
  rw [pixelMap_colorManipulation hi]
  dsimp only [ManipulationMap.apply]
  exact ⟨toNat_toUchar_assign _ c₁.pos (c₁.inUnit le_rfl) _, toNat_toUchar_assign _ c₂.pos (c₃.inUnit hle) _,
    toNat_toUchar_assign _ c₃.pos (c₃.inUnit le_rfl) _⟩

/-- If green has its own curve, the values for blue give the same. -/
theorem OwnCurves.green (h : OwnCurves maps image c₁ c₂ c₃) : c₂.n ≤ c₃.n ∧ ∀ i < image.height * image.width,
    curveAt c₂.n c₃.rn (image.pixelMap i).green.toNat = curveAt c₂.n c₂.rn (image.pixelMap i).green.toNat := by
  obtain ⟨maps', heq, hown⟩ := h
  rw [piecewiseLinearRGB_eq] at heq
  split at heq
  · rename_i hle
    cases heq
    refine ⟨hle, fun i hi => ?_⟩
    obtain ⟨-, hgreen, -⟩ := components_colorManipulation maps c₁ c₃ hle hi
    exact hgreen.symm.trans (hown i hi).2.1
  · cases heq

end Images

/-- **When every component has its own curve**: the values for blue are enough for the segments for green, and at the
green components of the image they give what the values for green give. -/
theorem ownCurves_iff (maps : ManipulationMap) (image : Image) (c₁ c₂ c₃ : Curve) :
    OwnCurves maps image c₁ c₂ c₃ ↔ c₂.n ≤ c₃.n ∧ ∀ i < image.height * image.width,
      curveAt c₂.n c₃.rn (image.pixelMap i).green.toNat = curveAt c₂.n c₂.rn (image.pixelMap i).green.toNat := by
  refine ⟨OwnCurves.green, ?_⟩
  rintro ⟨hle, hsame⟩
  refine ⟨_, (piecewiseLinearRGB_eq maps c₁ c₂ c₃).trans (if_pos hle), fun i hi => ?_⟩
  rw [← hsame i hi]
  exact components_colorManipulation maps c₁ c₃ hle hi

def ramp (y : ℚ) (h : 0 ≤ y ∧ y ≤ 1) : Curve where
  n := 1
  rn := [0, y]
  pos := le_rfl
  length := rfl
  mem := by simp [h]

/-- A green pixel loses its green to the curve for blue. -/
theorem not_ownCurves_green :
    ¬ OwnCurves ⟨fun _ => 0, fun _ => 0, fun _ => 0⟩ { width := 1, height := 1, pixelMap := fun _ => RGB.mk 0 255 0 }
      (ramp 1 ⟨zero_le_one, le_rfl⟩) (ramp 1 ⟨zero_le_one, le_rfl⟩) (ramp 0 ⟨le_rfl, zero_le_one⟩) := by
  intro h
  have hgreen := h.green.2 0 (by decide)
  have hblue : curveAt 1 [0, 0] 255 = 0 := by decide +kernel
  have hown : curveAt 1 [0, 1] 255 = 255 := by decide +kernel
  exact absurd (hblue.symm.trans (hgreen.trans hown)) (by decide)

end TamuProofs.Ppm
