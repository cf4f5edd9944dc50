import TamuProofs.Ppm.Warp

/-!
# The mirror (`pr06.cpp`, `pr07.cpp`)

A warp with the matrix `[1, 0; 0, -1]` should reverse the rows. The centre is half the height, rounded down, and a
row `y` is sent to twice the centre minus `y`: this is the row `height - 1 - y` for an odd height and the row after it
for an even one, so that row 0 of the output comes from outside of the image.

* `fallsIn_mirror_iff` — where a pixel falls;
* `transformation2_mirror` — for an odd height the rows are reversed, `not_reversed_of_even` — for an even one row 0
  stays black;
* **`mirrorsRows_iff`** — the mirror reverses the rows if and only if the height is odd.
-/

namespace TamuProofs.Ppm

open TamuProofs.Lib

/-- `mtrx` of `mirror`. -/
def mirror : ℕ → ℚ := fun k => [1, 0, 0, -1].getD k 0

theorem forward2_mirror (c : XY) (i j : ℚ) : forward2 mirror c i j = ⟨i, 2 * c.y - j⟩ := by
  simp only [forward2, mirror, List.getD_cons_zero, List.getD_cons_succ, XY.mk.injEq]
  constructor <;> ring

theorem inverse2_mirror (c : XY) (i j : ℚ) : inverse2 mirror c i j = ⟨i, 2 * c.y - j⟩ := by
  simp only [inverse2, det2, mirror, List.getD_cons_zero, List.getD_cons_succ, XY.mk.injEq]
  constructor <;> ring

def black : RGB := ⟨0, 0, 0⟩

namespace Myppm

def NoBlack (p : Myppm) : Prop := ∀ i, p.Inside i → ¬ (p.pixelMap i).IsBlack

/-- The rows of the output are those of the image, from the last to the first. -/
def Reversed (p q : Myppm) : Prop :=
  ∀ x y, 0 ≤ x ∧ x < p.width → 0 ≤ y ∧ y < p.height →
    q.newMap (rowMajor p.width (y, x)) = p.pixelAt (p.height - 1 - y) x

/-- The output as an image, with an output that is all zero. -/
def again (q : Myppm) : Myppm := { q with pixelMap := q.newMap, newMap := fun _ => black }

/-- The mirror reverses the rows, and a second time it gives back the image. -/
def MirrorsRows (p : Myppm) : Prop :=
  ∃ q, p.transformation2 mirror = some q ∧ p.Reversed q ∧
    ∃ q', q.again.transformation2 mirror = some q' ∧ ∀ i, p.Inside i → q'.newMap i = p.pixelMap i

section Mirror

variable {p q : Myppm} {k s : ℤ × ℤ}

/-- **Where a pixel falls.** -/
theorem fallsIn_mirror_iff : p.FallsIn mirror s k ↔ s.1 = k.1 ∧ 2 * p.height.tdiv 2 - s.2 = k.2 := by
  have hy : 2 * p.center.y - (s.2 : ℚ) = ((2 * p.height.tdiv 2 - s.2 : ℤ) : ℚ) := by
    simp [center]
  rw [FallsIn, forward2_mirror]
  dsimp only
  rw [hy, Int.floor_intCast, Int.floor_intCast]

theorem exists_index {i : ℤ} (hw : 1 ≤ p.width) (hi : p.Inside i) : ∃ k ∈ p.columns, p.index k = i := by
  obtain ⟨h0, h1⟩ := hi
  have hmod := Int.emod_nonneg i (show p.width ≠ 0 by omega)
  have hlt := Int.emod_lt_of_pos i (show 0 < p.width by omega)
  refine ⟨(i % p.width, i / p.width), mem_columns.2 ⟨⟨hmod, hlt⟩, ?_, ?_⟩, ?_⟩
  · exact Int.ediv_nonneg h0 (by omega)
  · exact Int.ediv_lt_of_lt_mul (by omega) (by rwa [mul_comm])
  · exact Int.ediv_mul_add_emod i p.width

theorem otherRow_mem (hk : k ∈ p.columns) : (k.1, p.height - 1 - k.2) ∈ p.columns := by
  obtain ⟨hi, hj⟩ := mem_columns.1 hk
  refine mem_columns.2 ⟨hi, ?_⟩
  dsimp only
  omega

/-- The pixel in the other row is the only one that falls in a cell. -/
theorem forwardPass_mirror (hodd : p.height % 2 = 1) (hk : k ∈ p.columns) :
    p.forwardPass mirror (p.index k) = some (p.pixelMap (p.index (k.1, p.height - 1 - k.2))) := by
  obtain ⟨hi, hj⟩ := mem_columns.1 hk
  have hcenter : 2 * p.height.tdiv 2 = p.height - 1 := by
    rw [Int.tdiv_eq_ediv_of_nonneg (by omega)]
    omega
  have hmem : (k.1, p.height - 1 - k.2) ∈ p.landing mirror k := by
    refine List.mem_filter.2 ⟨otherRow_mem hk, decide_eq_true (fallsIn_mirror_iff.2 ⟨rfl, ?_⟩)⟩
    dsimp only
    omega
  obtain ⟨s, hs⟩ := Option.isSome_iff_exists.1 (List.getLast?_isSome.2 (List.ne_nil_of_mem hmem))
  obtain ⟨-, hfalls⟩ := List.mem_filter.1 (List.mem_of_getLast? hs)
  obtain ⟨hx, hy⟩ := fallsIn_mirror_iff.1 (of_decide_eq_true hfalls)
  have hsame : s = (k.1, p.height - 1 - k.2) := Prod.ext hx (by dsimp only; omega)
  rw [forwardPass_eq hk, hs, hsame]
  rfl

/-- **For an odd height** the rows are reversed. -/
theorem transformation2_mirror (hodd : p.height % 2 = 1) (hcolor : p.NoBlack) :
    ∃ m, p.transformation2 mirror = some { p with newMap := m } ∧
      ∀ k ∈ p.columns, m (p.index k) = p.pixelMap (p.index (k.1, p.height - 1 - k.2)) := by
  have hstay : ∀ k ∈ p.columns, p.filled mirror k (p.forwardPass mirror (p.index k)) =
      some (some (p.pixelMap (p.index (k.1, p.height - 1 - k.2)))) := by
    intro k hk
    have hcontent : p.afterForward mirror k = p.pixelMap (p.index (k.1, p.height - 1 - k.2)) := by
      rw [← content_forwardPass hk, content, forwardPass_mirror hodd hk]
      rfl
    rw [filled_of_not_isBlack hk (hcontent ▸ hcolor _ (inside_index (otherRow_mem hk))), forwardPass_mirror hodd hk]
  obtain ⟨out, hout⟩ := warp2_isSome_iff.2 fun k hk => ⟨_, hstay k hk⟩
  refine ⟨p.content out, by rw [transformation2, hout]; rfl, fun k hk => ?_⟩
  have hcell := (warp2_eq hout hk).symm.trans (hstay k hk)
  rw [content, Option.some.inj hcell]
  rfl

/-- **For an even height** row 0 stays black. -/
theorem not_reversed_of_even (hw : 1 ≤ p.width) (hh : 1 ≤ p.height) (heven : p.height % 2 = 0) (hcolor : p.NoBlack)
    (hzero : ∀ i, p.Inside i → p.newMap i = black) (hq : p.transformation2 mirror = some q) : ¬ p.Reversed q := by
  obtain ⟨out, hout, rfl⟩ := Option.map_eq_some_iff.1 hq
  have hk : (0, 0) ∈ p.columns := mem_columns.2 (by dsimp only; omega)
  have hlast : (0, p.height - 1) ∈ p.columns := mem_columns.2 (by dsimp only; omega)
  have hcenter : 2 * p.height.tdiv 2 = p.height := by
    rw [Int.tdiv_eq_ediv_of_nonneg (by omega)]
    omega
  -- only a row behind the last one would fall in row 0
  have hnil : p.landing mirror (0, 0) = [] := by
    refine List.filter_eq_nil_iff.2 fun s hs hfalls => ?_
    obtain ⟨-, hj⟩ := mem_columns.1 hs
    obtain ⟨-, hy⟩ := fallsIn_mirror_iff.1 (of_decide_eq_true hfalls)
    dsimp only at hy
    omega
  -- and its preimage is that row
  have hrange : ¬ p.InRange (p.origin mirror (0, 0)) := by
    have horigin : p.origin mirror (0, 0) = ⟨0, (p.height : ℚ)⟩ := by
      rw [origin, inverse2_mirror]
      have hy : 2 * p.center.y = (p.height : ℚ) := by
        rw [center, ← hcenter]
        simp
      simp [hy]
    rw [horigin, InRange]
    dsimp only
    rintro ⟨-, -, hlt⟩
    rw [trunc_zero, trunc_intCast, mul_comm, add_zero] at hlt
    exact lt_irrefl _ hlt
  have hcell := warp2_eq hout hk
  rw [filled_of_not_inRange _ hrange, forwardPass_eq hk, hnil] at hcell
  have hblack : p.content out (p.index (0, 0)) = black := by
    rw [content, ← Option.some.inj hcell]
    exact hzero _ (inside_index hk)
  intro hrev
  have hrow := hrev 0 0 ⟨le_rfl, by omega⟩ ⟨le_rfl, by omega⟩
  have hpixel : p.pixelMap (p.index (0, p.height - 1)) = black := by
    rw [sub_zero] at hrow
    exact hrow.symm.trans hblack
  exact hcolor _ (inside_index hlast) (hpixel ▸ ⟨rfl, rfl, rfl⟩)

end Mirror

/-- **The mirror** reverses the rows of an image without black pixels if and only if the height is odd. -/
theorem mirrorsRows_iff {p : Myppm} (hw : 1 ≤ p.width) (hh : 1 ≤ p.height) (hcolor : p.NoBlack)
    (hzero : ∀ i, p.Inside i → p.newMap i = black) : p.MirrorsRows ↔ p.height % 2 = 1 := by
  constructor
  · rintro ⟨q, hq, hrev, -⟩
    by_contra hodd
    exact not_reversed_of_even hw hh (by omega) hcolor hzero hq hrev
  · intro hodd
    obtain ⟨m, hm, hpixels⟩ := transformation2_mirror hodd hcolor
    have hcolor' : (again { p with newMap := m }).NoBlack := by
      intro i hi
      obtain ⟨k, hk, rfl⟩ := exists_index (p := p) hw hi
      show ¬ (m (p.index k)).IsBlack
      rw [hpixels k hk]
      exact hcolor _ (inside_index (otherRow_mem hk))
    obtain ⟨m', hm', hpixels'⟩ := transformation2_mirror (p := again { p with newMap := m }) hodd hcolor'
    refine ⟨_, hm, ?_, _, hm', ?_⟩
    · intro x y hx hy
      exact hpixels (x, y) (mem_columns.2 ⟨hx, hy⟩)
    · intro i hi
      obtain ⟨k, hk, rfl⟩ := exists_index hw hi
      refine (hpixels' k hk).trans ((hpixels _ (otherRow_mem hk)).trans ?_)
      have hback : p.height - 1 - (p.height - 1 - k.2) = k.2 := by omega
      show p.pixelMap (p.index (k.1, p.height - 1 - (p.height - 1 - k.2))) = _
      rw [hback]

/-- An image whose pixels all differ, up to 256 of them, and an output that is all zero. -/
def shaded (width height : ℤ) : Myppm := ⟨width, height, fun i => ⟨128, 128, i.toNat.toUInt8⟩, fun _ => black⟩

theorem noBlack_shaded (width height : ℤ) : (shaded width height).NoBlack := by
  rintro i - ⟨hred, -⟩
  have hne : (128 : UInt8) ≠ 0 := by decide
  exact hne hred

theorem mirrorsRows_shaded : (shaded 2 3).MirrorsRows :=
  (mirrorsRows_iff (by decide) (by decide) (noBlack_shaded 2 3) fun _ _ => rfl).2 (by decide)

/-- Two rows are not reversed. -/
theorem not_mirrorsRows_shaded : ¬ (shaded 1 2).MirrorsRows := by
  rintro ⟨q, hq, hrev, -⟩
  exact not_reversed_of_even (by decide) (by decide) (by decide) (noBlack_shaded 1 2) (fun _ _ => rfl) hq hrev

end Myppm

end TamuProofs.Ppm
