import Mathlib.Tactic.LinearCombination
import TamuProofs.Ppm.Filter

/-!
# Convolution (`pr04/myppm.h`)

`conv_blur` stores in every channel the weighted sum of the window, times a factor and plus a bias, reduced by
`remainder`, which rounds to the nearest multiple of 255 and so goes below 0 from the middle of the range on. The
negative `int` is then stored into a byte, modulo 256 and not 255.

* `mulAdd` — one term of an `int` accumulator; an overflow is `none`;
* `roundHalfEven`, `remainder` — `remainder` of the C library, on rationals;
* `convChannel_eq` — what the weighted mean becomes: itself below the middle, one more than itself above;
* **`staysBetween_iff`**: for an averaging kernel, the pixels at which the result lies between the least and the
  greatest value that the kernel reads.
-/

namespace TamuProofs.Ppm

open TamuProofs.Lib

/-! ### The C functions -/

/-- An `int` result. -/
def checkedInt (n : ℤ) : Option ℤ := if intMin ≤ n ∧ n ≤ intMax then some n else none

/-- `acc += value * weight`. -/
def mulAdd (acc value weight : ℤ) : Option ℤ := (checkedInt (value * weight)).bind fun t => checkedInt (acc + t)

/-- The nearest integer, and of two nearest ones the even one. -/
def roundHalfEven (q : ℚ) : ℤ :=
  if q - ⌊q⌋ < 1 / 2 then ⌊q⌋
  else if 1 / 2 < q - ⌊q⌋ then ⌊q⌋ + 1
  else if ⌊q⌋ % 2 = 0 then ⌊q⌋
  else ⌊q⌋ + 1

def remainder (x y : ℚ) : ℚ := x - y * roundHalfEven (x / y)

/-! ### The filter -/

/-- The three accumulators after one pixel of the window; `i` is the index into the kernel, and `add` adds a
product to an accumulator. -/
def convStep (add : ℤ → ℤ → ℤ → Option ℤ) (kernel : ℤ → ℤ) (acc : Channel → ℤ) (i : ℤ) (px : RGB) :
    Option (Channel → ℤ) :=
  (add (acc .red) (px.get .red) (kernel i)).bind fun r =>
    (add (acc .green) (px.get .green) (kernel i)).bind fun g =>
      (add (acc .blue) (px.get .blue) (kernel i)).map fun b c =>
        match c with
        | .red => r
        | .green => g
        | .blue => b

/-- `accumulator = remainder(accumulator * factor + bias, 255)`. -/
def convChannel (acc : ℤ) (factor : ℚ) (bias : ℤ) : ℤ := trunc (remainder (acc * factor + bias) 255)

namespace Myppm

variable (p : Myppm)

/-- The body of `conv_single_pixel`; the field `bias` is an argument. -/
def convPixel (add : ℤ → ℤ → ℤ → Option ℤ) (kernel : ℤ → ℤ) (size : ℤ) (factor : ℚ) (bias x y : ℤ)
    (newMap : ℤ → RGB) : Option (ℤ → RGB) :=
  (p.sweep size x y (convStep add kernel) fun _ => 0).bind fun acc =>
    p.write newMap (x * p.width + y) (RGB.ofAcc fun c => convChannel (acc c) factor bias)

/-- `conv_single_pixel`, with a kernel of `int`s. -/
def convSinglePixel (kernel : ℤ → ℤ) (size : ℤ) (factor : ℚ) (bias x y : ℤ) (newMap : ℤ → RGB) :
    Option (ℤ → RGB) :=
  p.convPixel mulAdd kernel size factor bias x y newMap

/-- `conv_blur`; without a kernel it says so and does nothing. -/
def convBlur (kernel : Option (ℤ → ℤ)) (size : ℤ) (factor : ℚ) (bias : ℤ) : Option Myppm :=
  match kernel with
  | none => some p
  | some kernel => p.filter ((size - 1) / 2) (p.convSinglePixel kernel size factor bias)

end Myppm

/-! ### Rounding -/

section Round

variable {q : ℚ} {n : ℤ}

theorem roundHalfEven_of_near (h : |q - n| < 1 / 2) : roundHalfEven q = n := by
  obtain ⟨hlo, hhi⟩ := abs_lt.1 h
  rcases le_or_gt 0 (q - n) with hpos | hneg
  · have hfloor : ⌊q⌋ = n := by
      rw [Int.floor_eq_iff]
      constructor <;> linarith
    rw [roundHalfEven, hfloor, if_pos hhi]
  · have hfloor : ⌊q⌋ = n - 1 := by
      rw [Int.floor_eq_iff]
      push_cast
      constructor <;> linarith
    rw [roundHalfEven, hfloor, if_neg (by push_cast; linarith), if_pos (by push_cast; linarith),
      sub_add_cancel]

theorem roundHalfEven_of_tie (heven : n % 2 = 0) (h : |q - n| = 1 / 2) : roundHalfEven q = n := by
  rcases (abs_eq (by norm_num)).1 h with h | h
  · have hfloor : ⌊q⌋ = n := by
      rw [Int.floor_eq_iff]
      constructor <;> linarith
    rw [roundHalfEven, hfloor, if_neg (by linarith), if_neg (by linarith), if_pos heven]
  · have hfloor : ⌊q⌋ = n - 1 := by
      rw [Int.floor_eq_iff]
      push_cast
      constructor <;> linarith
    have hodd : ¬ (n - 1) % 2 = 0 := by omega
    rw [roundHalfEven, hfloor, if_neg (by push_cast; linarith), if_neg (by push_cast; linarith), if_neg hodd,
      sub_add_cancel]

/-- The multiple of `y` that `remainder` takes off is the nearest one, -/
theorem remainder_of_near {x y : ℚ} (hy : 0 < y) (h : |x - y * n| < y / 2) : remainder x y = x - y * n := by
  have hdiv : x / y - n = (x - y * n) / y := by field_simp
  have hround : roundHalfEven (x / y) = n := by
    apply roundHalfEven_of_near
    rw [hdiv, abs_div, abs_of_pos hy, div_lt_iff₀ hy]
    linarith
  rw [remainder, hround]

/-- and in the middle between two that with the even factor. -/
theorem remainder_of_tie {x y : ℚ} (hy : 0 < y) (heven : n % 2 = 0) (h : |x - y * n| = y / 2) :
    remainder x y = x - y * n := by
  have hdiv : x / y - n = (x - y * n) / y := by field_simp
  have hround : roundHalfEven (x / y) = n := by
    apply roundHalfEven_of_tie heven
    rw [hdiv, abs_div, abs_of_pos hy, h]
    field_simp
  rw [remainder, hround]

theorem trunc_neg (q : ℚ) : trunc (-q) = -trunc q := by
  simp [trunc, Int.neg_tdiv]

theorem trunc_div {a s : ℤ} (ha : 0 ≤ a) (hs : 0 < s) : trunc ((a : ℚ) / s) = a / s := by
  have ha' : (0 : ℚ) ≤ a := by exact_mod_cast ha
  have hs' : (0 : ℚ) < s := by exact_mod_cast hs
  obtain ⟨d, rfl⟩ := Int.eq_ofNat_of_zero_le hs.le
  rw [trunc_of_nonneg (div_nonneg ha' hs'.le)]
  exact Rat.floor_intCast_div_natCast a d

end Round

/-! ### The mean of a window -/

section Mean

variable {a s bias : ℤ}

/-- The mean `a / s` is below the middle of the range, or on it with the bias 0. -/
def BelowMiddle (a s bias : ℤ) : Prop := 2 * a < 255 * s ∨ 2 * a = 255 * s ∧ bias = 0

instance (a s bias : ℤ) : Decidable (BelowMiddle a s bias) := inferInstanceAs (Decidable (_ ∨ _))

theorem mean_lt_iff (hs : 0 < s) : (a : ℚ) / s < 255 / 2 ↔ 2 * a < 255 * s := by
  have hs' : (0 : ℚ) < s := by exact_mod_cast hs
  rw [div_lt_div_iff₀ hs' (by norm_num), mul_comm (a : ℚ)]
  exact_mod_cast Iff.rfl

theorem mean_eq_iff (hs : 0 < s) : (a : ℚ) / s = 255 / 2 ↔ 2 * a = 255 * s := by
  have hs' : (s : ℚ) ≠ 0 := by exact_mod_cast hs.ne'
  rw [div_eq_div_iff hs' (by norm_num), mul_comm (a : ℚ)]
  exact_mod_cast Iff.rfl

theorem mean_bounds (hs : 0 < s) (ha : 0 ≤ a) (hle : a ≤ 255 * s) : 0 ≤ (a : ℚ) / s ∧ (a : ℚ) / s ≤ 255 := by
  have hs' : (0 : ℚ) < s := by exact_mod_cast hs
  have ha' : (0 : ℚ) ≤ a := by exact_mod_cast ha
  refine ⟨div_nonneg ha' hs'.le, ?_⟩
  rw [div_le_iff₀ hs']
  exact_mod_cast hle

/-- Below the middle `remainder` takes off the bias, and leaves the mean. -/
theorem remainder_below (hs : 0 < s) (ha : 0 ≤ a) (hle : a ≤ 255 * s) (hbias : bias = 0 ∨ bias = 255)
    (h : BelowMiddle a s bias) : remainder (a * (1 / (s : ℚ)) + bias) 255 = a / s := by
  obtain ⟨h0, h255⟩ := mean_bounds hs ha hle
  have hle' : (a : ℚ) / s ≤ 255 / 2 := by
    rcases h with hlt | ⟨heq, -⟩
    · exact ((mean_lt_iff hs).2 hlt).le
    · exact ((mean_eq_iff hs).2 heq).le
  rw [mul_one_div]
  rcases hbias with rfl | rfl
  · have hrem : remainder (a / s + (0 : ℤ)) 255 = a / s + (0 : ℤ) - 255 * (0 : ℤ) := by
      rcases eq_or_lt_of_le hle' with heq | hlt
      · apply remainder_of_tie (by norm_num) rfl
        rw [heq, abs_of_nonneg] <;> norm_num
      · apply remainder_of_near (by norm_num)
        rw [abs_lt]
        push_cast
        constructor <;> linarith
    rw [hrem]
    push_cast
    ring
  · have hlt : (a : ℚ) / s < 255 / 2 :=
      (mean_lt_iff hs).2 (h.resolve_right fun h => absurd h.2 (by decide))
    have hrem : remainder (a / s + (255 : ℤ)) 255 = a / s + (255 : ℤ) - 255 * (1 : ℤ) := by
      apply remainder_of_near (by norm_num)
      rw [abs_lt]
      push_cast
      constructor <;> linarith
    rw [hrem]
    push_cast
    ring

/-- From the middle on it takes off 255 more. -/
theorem remainder_above (hs : 0 < s) (ha : 0 ≤ a) (hle : a ≤ 255 * s) (hbias : bias = 0 ∨ bias = 255)
    (h : ¬ BelowMiddle a s bias) : remainder (a * (1 / (s : ℚ)) + bias) 255 = -(255 - a / s) := by
  obtain ⟨h0, h255⟩ := mean_bounds hs ha hle
  obtain ⟨hge, hne⟩ := not_or.1 h
  have hge' : (255 : ℚ) / 2 ≤ a / s := not_lt.1 (mt (mean_lt_iff hs).1 hge)
  rw [mul_one_div]
  rcases hbias with rfl | rfl
  · have hgt : (255 : ℚ) / 2 < a / s := by
      exact lt_of_le_of_ne hge' fun heq => hne ⟨(mean_eq_iff hs).1 heq.symm, rfl⟩
    have hrem : remainder (a / s + (0 : ℤ)) 255 = a / s + (0 : ℤ) - 255 * (1 : ℤ) := by
      apply remainder_of_near (by norm_num)
      rw [abs_lt]
      push_cast
      constructor <;> linarith
    rw [hrem]
    push_cast
    ring
  · have hrem : remainder (a / s + (255 : ℤ)) 255 = a / s + (255 : ℤ) - 255 * (2 : ℤ) := by
      rcases eq_or_lt_of_le hge' with heq | hgt
      · apply remainder_of_tie (by norm_num) rfl
        rw [← heq, abs_of_nonpos] <;> norm_num
      · apply remainder_of_near (by norm_num)
        rw [abs_lt]
        push_cast
        constructor <;> linarith
    rw [hrem]
    push_cast
    ring

/-- **What a mean becomes**: itself, truncated, below the middle; from there on its distance from 255, truncated
and negative. -/
theorem convChannel_eq (hs : 0 < s) (ha : 0 ≤ a) (hle : a ≤ 255 * s) (hbias : bias = 0 ∨ bias = 255) :
    convChannel a (1 / s) bias = if BelowMiddle a s bias then a / s else -((255 * s - a) / s) := by
  have hs' : (s : ℚ) ≠ 0 := by exact_mod_cast hs.ne'
  unfold convChannel
  split_ifs with h
  · rw [remainder_below hs ha hle hbias h, trunc_div ha hs]
  · have hdist : (255 : ℚ) - a / s = ((255 * s - a : ℤ) : ℚ) / s := by
      push_cast
      field_simp
    rw [remainder_above hs ha hle hbias h, hdist, trunc_neg, trunc_div (by omega) hs]

/-! ### Between the extremes -/

/-- The number lies between two of the values. -/
def Between (values : Set ℤ) (n : ℤ) : Prop := (∃ v ∈ values, v ≤ n) ∧ ∃ v ∈ values, n ≤ v

/-- The mean is below the middle; or a value exceeds it by 1 at least; or it is above 254 and a value is 0. -/
def Kept (a s bias : ℤ) (values : Set ℤ) : Prop :=
  BelowMiddle a s bias ∨ (∃ v ∈ values, a + s ≤ v * s) ∨ (254 * s < a ∧ 0 ∈ values)

/-- Below the middle the byte stored is the mean, rounded down. -/
theorem between_below {values : Set ℤ} (hs : 0 < s) (hlow : ∃ v ∈ values, v * s ≤ a)
    (hhigh : ∃ v ∈ values, a ≤ v * s) : Between values (a / s) := by
  obtain ⟨v, hv, hle⟩ := hlow
  obtain ⟨v', hv', hge⟩ := hhigh
  exact ⟨⟨v, hv, (Int.le_ediv_iff_mul_le hs).2 hle⟩, v', hv', Int.ediv_le_of_le_mul hs hge⟩

/-- From the middle on the byte stored is 0 for a mean above 254, and else one more than the mean, rounded up. -/
theorem between_above {values : Set ℤ} (hs : 0 < s) (hvalues : ∀ v ∈ values, 0 ≤ v ∧ v ≤ 255)
    (hlow : ∃ v ∈ values, v * s ≤ a) (hle : a ≤ 255 * s) (hmiddle : 255 * s ≤ 2 * a) :
    Between values (-((255 * s - a) / s) % 256) ↔
      (∃ v ∈ values, a + s ≤ v * s) ∨ (254 * s < a ∧ 0 ∈ values) := by
  -- `t` is the distance from 255, rounded down, and the byte stored is -t
  obtain ⟨t, ht⟩ : ∃ t, t = (255 * s - a) / s := ⟨_, rfl⟩
  have hrest : ∀ k : ℤ, k ≤ t ↔ k * s ≤ 255 * s - a := fun k => ht ▸ Int.le_ediv_iff_mul_le hs
  have ht0 : 0 ≤ t := (hrest 0).2 (by omega)
  have ht128 : ¬ 128 ≤ t := by
    rw [hrest]
    omega
  obtain ⟨v₀, hv₀, hv₀a⟩ := hlow
  rw [← ht]
  by_cases hzero : t = 0
  · -- the byte wraps around to 0
    have hmean : 254 * s < a := by
      have hnot : ¬ 1 ≤ t := by omega
      rw [hrest] at hnot
      omega
    have hnone : ¬ ∃ v ∈ values, a + s ≤ v * s := by
      rintro ⟨v, hv, hle⟩
      have hv255 : v * s ≤ 255 * s := mul_le_mul_of_nonneg_right (hvalues v hv).2 hs.le
      omega
    rw [hzero, or_iff_right hnone, and_iff_right hmean]
    constructor
    · rintro ⟨⟨v, hv, hv0⟩, -⟩
      have hv0' : v = 0 := le_antisymm hv0 (hvalues v hv).1
      exact hv0' ▸ hv
    · intro h0
      exact ⟨⟨0, h0, le_rfl⟩, 0, h0, le_rfl⟩
  · -- the byte is 256 - t
    have hbyte : -t % 256 = 256 - t := by omega
    have hmean : ¬ 254 * s < a := by
      have hone : 1 ≤ t := by omega
      rw [hrest] at hone
      omega
    -- the value below the mean is below the byte, and one above the byte exceeds the mean by 1
    have hlow' : ∃ v ∈ values, v ≤ 256 - t := by
      refine ⟨v₀, hv₀, ?_⟩
      by_contra hlt
      have hge : 257 - t ≤ v₀ := by omega
      have hmul : (257 - t) * s ≤ v₀ * s := mul_le_mul_of_nonneg_right hge hs.le
      have hts : t * s ≤ 255 * s - a := (hrest t).1 le_rfl
      have hexpand : (257 - t) * s = 257 * s - t * s := by ring
      omega
    have hhigh : ∀ v, 256 - t ≤ v ↔ a + s ≤ v * s := by
      intro v
      have hexpand : (256 - v) * s = 256 * s - v * s := by ring
      have hiff := hrest (256 - v)
      rw [hexpand] at hiff
      omega
    rw [hbyte, Between, and_iff_right hlow']
    simp only [hhigh, hmean, false_and, or_false]

/-- The byte stored stays between the values around the mean exactly then. -/
theorem between_iff {values : Set ℤ} (hs : 0 < s) (hbias : bias = 0 ∨ bias = 255)
    (hvalues : ∀ v ∈ values, 0 ≤ v ∧ v ≤ 255) (hlow : ∃ v ∈ values, v * s ≤ a) (hhigh : ∃ v ∈ values, a ≤ v * s) :
    Between values (convChannel a (1 / s) bias % 256) ↔ Kept a s bias values := by
  have ha : 0 ≤ a := by
    obtain ⟨v, hv, hva⟩ := hlow
    exact (mul_nonneg (hvalues v hv).1 hs.le).trans hva
  have hle : a ≤ 255 * s := by
    obtain ⟨v, hv, hva⟩ := hhigh
    exact hva.trans (mul_le_mul_of_nonneg_right (hvalues v hv).2 hs.le)
  rw [convChannel_eq hs ha hle hbias, Kept]
  split_ifs with h
  · -- below the middle the mean is rounded down
    have hbyte : a / s % 256 = a / s := by
      apply Int.emod_eq_of_lt (Int.ediv_nonneg ha hs.le)
      rw [Int.ediv_lt_iff_lt_mul hs]
      omega
    rw [hbyte]
    exact iff_of_true (between_below hs hlow hhigh) (.inl h)
  · -- from there on it is rounded up
    have hmiddle : 255 * s ≤ 2 * a := not_lt.1 fun hlt => h (.inl hlt)
    rw [between_above hs hvalues hlow hle hmiddle, or_iff_right h]

end Mean

/-! ### The accumulators -/

/-- Adding a term that is not negative to an accumulator that is not gives the sum as long as it is an `int`. -/
def Adds (add : ℤ → ℤ → ℤ → Option ℤ) : Prop := ∀ acc value weight : ℤ, 0 ≤ acc → 0 ≤ value * weight →
  add acc value weight = if acc + value * weight ≤ intMax then some (acc + value * weight) else none

theorem adds_mulAdd : Adds mulAdd := by
  intro acc value weight hacc hterm
  have hmin : intMin ≤ 0 := by decide
  unfold mulAdd checkedInt
  by_cases h : acc + value * weight ≤ intMax
  · rw [if_pos h, if_pos ⟨by omega, by omega⟩]
    exact if_pos ⟨by omega, h⟩
  · rw [if_neg h]
    split_ifs
    · exact if_neg fun hsum => h hsum.2
    · rfl

theorem convStep_eq {add : ℤ → ℤ → ℤ → Option ℤ} (hadds : Adds add) {kernel : ℤ → ℤ} {acc : Channel → ℤ} {i : ℤ}
    (hacc : ∀ c, 0 ≤ acc c) (hweight : 0 ≤ kernel i) (px : RGB) : convStep add kernel acc i px =
      if ∀ c, acc c + px.get c * kernel i ≤ intMax then some fun c => acc c + px.get c * kernel i else none := by
  have hadd : ∀ c, add (acc c) (px.get c) (kernel i) =
      if acc c + px.get c * kernel i ≤ intMax then some (acc c + px.get c * kernel i) else none :=
    fun c => hadds _ _ _ (hacc c) (mul_nonneg (px.get_bounds c).1 hweight)
  have hpick : ∀ f : Channel → ℤ, (fun c : Channel => match c with
      | .red => f .red
      | .green => f .green
      | .blue => f .blue) = f := by
    intro f
    funext c
    cases c <;> rfl
  unfold convStep
  rw [hadd, hadd, hadd]
  by_cases hall : ∀ c, acc c + px.get c * kernel i ≤ intMax
  · -- no channel overflows
    rw [if_pos (hall .red), if_pos (hall .green), if_pos (hall .blue), if_pos hall]
    exact congrArg some (hpick fun c => acc c + px.get c * kernel i)
  · -- the first channel that overflows decides
    rw [if_neg hall]
    by_cases hr : acc .red + px.get .red * kernel i ≤ intMax
    · by_cases hg : acc .green + px.get .green * kernel i ≤ intMax
      · have hb : ¬ acc .blue + px.get .blue * kernel i ≤ intMax :=
          fun hb => hall (Channel.forall_iff.2 ⟨hr, hg, hb⟩)
        rw [if_pos hr, if_pos hg, if_neg hb]
        rfl
      · rw [if_pos hr, if_neg hg]
        rfl
    · rw [if_neg hr]
      rfl

/-- **All pixels of the window**: the accumulators are the weighted sums, as long as these are `int`s. -/
theorem foldlM_convStep {κ : Type*} {add : ℤ → ℤ → ℤ → Option ℤ} (hadds : Adds add) {kernel : ℤ → ℤ} (idx : κ → ℤ)
    (px : κ → RGB) {l : List κ} (hweight : ∀ k ∈ l, 0 ≤ kernel (idx k)) {acc : Channel → ℤ}
    (hacc : ∀ c, 0 ≤ acc c ∧ acc c ≤ intMax) :
    l.foldlM (fun acc k => convStep add kernel acc (idx k) (px k)) acc =
      if ∀ c, acc c + (l.map fun k => (px k).get c * kernel (idx k)).sum ≤ intMax then
        some fun c => acc c + (l.map fun k => (px k).get c * kernel (idx k)).sum
      else none := by
  induction l generalizing acc with
  | nil =>
    have hall : ∀ c, acc c ≤ intMax := fun c => (hacc c).2
    simp only [List.map_nil, List.sum_nil, add_zero]
    exact (if_pos hall).symm
  | cons k l ih =>
    obtain ⟨hk, hl⟩ := List.forall_mem_cons.1 hweight
    have hterm : ∀ c, 0 ≤ (px k).get c * kernel (idx k) := fun c => mul_nonneg ((px k).get_bounds c).1 hk
    -- the other terms are not negative, so a sum that is too large stays so
    have hrest : ∀ c, 0 ≤ (l.map fun k => (px k).get c * kernel (idx k)).sum := by
      intro c
      apply List.sum_nonneg
      intro x hx
      obtain ⟨k', hk', rfl⟩ := List.mem_map.1 hx
      exact mul_nonneg ((px k').get_bounds c).1 (hl k' hk')
    rw [List.foldlM_cons, convStep_eq hadds (fun c => (hacc c).1) hk]
    simp only [List.map_cons, List.sum_cons]
    by_cases hall : ∀ c, acc c + (px k).get c * kernel (idx k) ≤ intMax
    · -- the others start from an accumulator in range
      rw [if_pos hall]
      have hnext : ∀ c, 0 ≤ acc c + (px k).get c * kernel (idx k) ∧
          acc c + (px k).get c * kernel (idx k) ≤ intMax :=
        fun c => ⟨add_nonneg (hacc c).1 (hterm c), hall c⟩
      refine (ih hl hnext).trans ?_
      simp only [add_assoc]
    · -- the first pixel overflows
      have hno : ¬ ∀ c, acc c + ((px k).get c * kernel (idx k) +
          (l.map fun k => (px k).get c * kernel (idx k)).sum) ≤ intMax := by
        intro h
        apply hall
        intro c
        have hc := h c
        have hc0 := hrest c
        omega
      rw [if_neg hall, if_neg hno]
      rfl

/-! ### Averaging kernels -/

def kernelSum (kernel : ℤ → ℤ) (size : ℤ) : ℤ := ((window size).map fun k => kernel (k.1 * size + k.2)).sum

namespace Myppm

/-- The weighted sum of a channel over the window around row `x` and column `y`. -/
def weightedSum (p : Myppm) (kernel : ℤ → ℤ) (size x y : ℤ) (c : Channel) : ℤ :=
  ((window size).map fun k => (p.windowPixel size x y k).get c * kernel (k.1 * size + k.2)).sum

/-- The values of a channel that the kernel reads with a weight that is not 0. -/
def supportValues (p : Myppm) (kernel : ℤ → ℤ) (size x y : ℤ) (c : Channel) : Set ℤ :=
  {v | ∃ k ∈ window size, 0 < kernel (k.1 * size + k.2) ∧ (p.windowPixel size x y k).get c = v}

/-- **The blur stays between the extremes of the window**: it is defined, and in the interior every channel is
between two of the values that the kernel reads there. -/
def StaysBetween (p : Myppm) (kernel : ℤ → ℤ) (size bias : ℤ) : Prop :=
  ∃ q, p.convBlur (some kernel) size (1 / kernelSum kernel size) bias = some q ∧
    ∀ k ∈ p.interior ((size - 1) / 2), ∀ c,
      Between (p.supportValues kernel size k.1 k.2 c) ((q.newMap (rowMajor p.width k)).get c)

/-- The condition on a window. -/
def Good (p : Myppm) (kernel : ℤ → ℤ) (size bias x y : ℤ) (c : Channel) : Prop :=
  p.weightedSum kernel size x y c ≤ intMax ∧
    Kept (p.weightedSum kernel size x y c) (kernelSum kernel size) bias (p.supportValues kernel size x y c)

section Blur

variable {p : Myppm} {kernel : ℤ → ℤ} {size bias : ℤ}

/-- What `conv_single_pixel` stores, if no accumulator overflows. -/
def blurred (p : Myppm) (kernel : ℤ → ℤ) (size : ℤ) (factor : ℚ) (bias : ℤ) (k : ℤ × ℤ) : Option RGB :=
  if ∀ c, p.weightedSum kernel size k.1 k.2 c ≤ intMax then
    some (RGB.ofAcc fun c => convChannel (p.weightedSum kernel size k.1 k.2 c) factor bias)
  else none

theorem convPixel_eq {add : ℤ → ℤ → ℤ → Option ℤ} (hadds : Adds add) (hodd : size % 2 = 1) (hsize : 1 ≤ size)
    (hweight : ∀ k ∈ window size, 0 ≤ kernel (k.1 * size + k.2)) (factor : ℚ) {k : ℤ × ℤ}
    (hk : k ∈ p.interior ((size - 1) / 2)) (newMap : ℤ → RGB) :
    p.convPixel add kernel size factor bias k.1 k.2 newMap =
      (p.blurred kernel size factor bias k).map (Function.update newMap (rowMajor p.width k)) := by
  have hacc : ∀ _ : Channel, (0 : ℤ) ≤ 0 ∧ (0 : ℤ) ≤ intMax := fun _ => ⟨le_rfl, by decide⟩
  rw [convPixel, sweep_eq hodd hk,
    foldlM_convStep hadds (fun k' : ℤ × ℤ => k'.1 * size + k'.2) (p.windowPixel size k.1 k.2) hweight hacc]
  simp only [zero_add]
  by_cases hall : ∀ c, p.weightedSum kernel size k.1 k.2 c ≤ intMax
  · rw [blurred, if_pos hall]
    exact (congrArg (fun o : Option (Channel → ℤ) => o.bind _) (if_pos hall)).trans
      (write_eq (by omega) hk newMap _)
  · rw [blurred, if_neg hall]
    exact congrArg (fun o : Option (Channel → ℤ) => o.bind _) (if_neg hall)

theorem between_blurred_iff (hweight : ∀ k ∈ window size, 0 ≤ kernel (k.1 * size + k.2))
    (hpos : 0 < kernelSum kernel size) (hbias : bias = 0 ∨ bias = 255) (x y : ℤ) (c : Channel) :
    Between (p.supportValues kernel size x y c)
        (convChannel (p.weightedSum kernel size x y c) (1 / kernelSum kernel size) bias % 256) ↔
      Kept (p.weightedSum kernel size x y c) (kernelSum kernel size) bias (p.supportValues kernel size x y c) := by
  have hvalues : ∀ v ∈ p.supportValues kernel size x y c, 0 ≤ v ∧ v ≤ 255 := by
    rintro v ⟨k, -, -, rfl⟩
    exact RGB.get_bounds _ c
  obtain ⟨k, hk, hwk, hlow⟩ := exists_mul_sum_le hweight hpos fun k => (p.windowPixel size x y k).get c
  obtain ⟨k', hk', hwk', hhigh⟩ := exists_sum_le_mul hweight hpos fun k => (p.windowPixel size x y k).get c
  exact between_iff hpos hbias hvalues ⟨_, ⟨k, hk, hwk, rfl⟩, hlow⟩ ⟨_, ⟨k', hk', hwk', rfl⟩, hhigh⟩

theorem blurred_of_convBlur (hodd : size % 2 = 1) (hsize : 1 ≤ size)
    (hweight : ∀ k ∈ window size, 0 ≤ kernel (k.1 * size + k.2)) {factor : ℚ} {q : Myppm}
    (hq : p.convBlur (some kernel) size factor bias = some q) {k : ℤ × ℤ} (hk : k ∈ p.interior ((size - 1) / 2)) :
    p.blurred kernel size factor bias k = some (q.newMap (rowMajor p.width k)) :=
  (filter_spec (by omega) (fun _ hk' m => convPixel_eq adds_mulAdd hodd hsize hweight factor hk' m) hq).1 k hk

theorem convBlur_isSome (hodd : size % 2 = 1) (hsize : 1 ≤ size)
    (hweight : ∀ k ∈ window size, 0 ≤ kernel (k.1 * size + k.2)) (factor : ℚ)
    (hfit : ∀ k ∈ p.interior ((size - 1) / 2), ∀ c, p.weightedSum kernel size k.1 k.2 c ≤ intMax) :
    ∃ q, p.convBlur (some kernel) size factor bias = some q :=
  (filter_isSome fun _ hk m => convPixel_eq adds_mulAdd hodd hsize hweight factor hk m).2
    fun k hk => ⟨_, if_pos (hfit k hk)⟩

theorem good_of_staysBetween (hodd : size % 2 = 1) (hsize : 1 ≤ size)
    (hweight : ∀ k ∈ window size, 0 ≤ kernel (k.1 * size + k.2)) (hpos : 0 < kernelSum kernel size)
    (hbias : bias = 0 ∨ bias = 255) (h : p.StaysBetween kernel size bias) {k : ℤ × ℤ}
    (hk : k ∈ p.interior ((size - 1) / 2)) (c : Channel) : p.Good kernel size bias k.1 k.2 c := by
  obtain ⟨q, hq, hbetween⟩ := h
  have hvalue := blurred_of_convBlur hodd hsize hweight hq hk
  have hc := hbetween k hk c
  unfold blurred at hvalue
  split_ifs at hvalue with hall
  rw [← Option.some.inj hvalue, RGB.get_ofAcc, between_blurred_iff hweight hpos hbias] at hc
  exact ⟨hall c, hc⟩

theorem staysBetween_of_good (hodd : size % 2 = 1) (hsize : 1 ≤ size)
    (hweight : ∀ k ∈ window size, 0 ≤ kernel (k.1 * size + k.2)) (hpos : 0 < kernelSum kernel size)
    (hbias : bias = 0 ∨ bias = 255)
    (hgood : ∀ k ∈ p.interior ((size - 1) / 2), ∀ c, p.Good kernel size bias k.1 k.2 c) :
    p.StaysBetween kernel size bias := by
  have hfit : ∀ k ∈ p.interior ((size - 1) / 2), ∀ c, p.weightedSum kernel size k.1 k.2 c ≤ intMax :=
    fun k hk c => (hgood k hk c).1
  obtain ⟨q, hq⟩ := convBlur_isSome hodd hsize hweight (1 / kernelSum kernel size) hfit
  refine ⟨q, hq, fun k hk c => ?_⟩
  have hvalue := blurred_of_convBlur hodd hsize hweight hq hk
  rw [blurred, if_pos (hfit k hk)] at hvalue
  rw [← Option.some.inj hvalue, RGB.get_ofAcc, between_blurred_iff hweight hpos hbias]
  exact (hgood k hk c).2

end Blur

end Myppm

open Myppm

/-- **Where an averaging blur stays between the extremes**: exactly where no weighted sum overflows, and every
mean is below the middle, or exceeded by a value of the window by 1 at least, or above 254 with a 0 in the
window. -/
theorem staysBetween_iff (p : Myppm) (kernel : ℤ → ℤ) (size : ℤ) (hodd : size % 2 = 1) (hsize : 1 ≤ size)
    (hweight : ∀ k ∈ window size, 0 ≤ kernel (k.1 * size + k.2)) (hpos : 0 < kernelSum kernel size) (bias : ℤ)
    (hbias : bias = 0 ∨ bias = 255) :
    p.StaysBetween kernel size bias ↔
      ∀ k ∈ p.interior ((size - 1) / 2), ∀ c, p.Good kernel size bias k.1 k.2 c :=
  ⟨fun h _ hk c => good_of_staysBetween hodd hsize hweight hpos hbias h hk c,
    staysBetween_of_good hodd hsize hweight hpos hbias⟩

/-! ### Constant images -/

def gray (width height : ℤ) (v : UInt8) : Myppm := ofPixels width height fun _ => ⟨v, v, v⟩

theorem windowPixel_gray (width height : ℤ) (v : UInt8) (size x y : ℤ) (k : ℤ × ℤ) (c : Channel) :
    ((gray width height v).windowPixel size x y k).get c = v.toNat := by
  cases c <;> rfl

theorem weightedSum_gray (width height : ℤ) (v : UInt8) (kernel : ℤ → ℤ) (size x y : ℤ) (c : Channel) :
    (gray width height v).weightedSum kernel size x y c = v.toNat * kernelSum kernel size := by
  unfold weightedSum kernelSum
  simp only [windowPixel_gray]
  exact List.sum_map_mul_left (window size) (fun k => kernel (k.1 * size + k.2)) _

def box : ℤ → ℤ := fun _ => 1

theorem kernelSum_box : kernelSum box 5 = 25 := rfl

theorem box_nonneg : ∀ k ∈ window 5, 0 ≤ box (k.1 * 5 + k.2) := fun _ _ => zero_le_one' ℤ

def stripes : Myppm := ofPixels 6 5 fun i => if i % 2 = 0 then ⟨250, 40, 90⟩ else ⟨100, 60, 80⟩

/-- The blur of columns in turn: the red is above the middle of the range and below the lighter columns, the green and
the blue are below the middle. -/
theorem staysBetween_stripes : stripes.StaysBetween box 5 255 := by
  refine (staysBetween_iff stripes box 5 (by decide) (by decide) box_nonneg (by decide) 255 (.inr rfl)).2 ?_
  intro k hk c
  have hcells : stripes.interior ((5 - 1) / 2) = [(2, 2), (2, 3)] := by decide
  rw [hcells, List.mem_cons, List.mem_singleton] at hk
  have hlight : ∀ y, y = 2 ∨ y = 3 → (250 : ℤ) ∈ stripes.supportValues box 5 2 y .red := by
    rintro y (rfl | rfl)
    · exact ⟨(0, 0), by decide, by decide, by decide⟩
    · exact ⟨(0, 1), by decide, by decide, by decide⟩
  rcases hk with rfl | rfl
  all_goals
    cases c with
    | red => exact ⟨by decide +kernel, .inr (.inl ⟨250, hlight _ (by decide), by decide +kernel⟩)⟩
    | green => exact ⟨by decide +kernel, .inl (by decide +kernel)⟩
    | blue => exact ⟨by decide +kernel, .inl (by decide +kernel)⟩

/-- The blur of a light gray: 200 becomes 201. -/
theorem not_staysBetween_light :
    ¬ (gray 6 5 200).StaysBetween box 5 255 ∧
      ∃ q, (gray 6 5 200).convBlur (some box) 5 (1 / kernelSum box 5) 255 = some q ∧
        (q.newMap (rowMajor 6 (2, 2))).get .red = 201 := by
  have hk : (2, 2) ∈ (gray 6 5 200).interior ((5 - 1) / 2) := mem_interior.2 (by decide)
  have hfit : ∀ k ∈ (gray 6 5 200).interior ((5 - 1) / 2), ∀ c,
      (gray 6 5 200).weightedSum box 5 k.1 k.2 c ≤ intMax := by
    intro k _ c
    rw [weightedSum_gray, kernelSum_box]
    decide
  refine ⟨fun h => ?_, ?_⟩
  · obtain ⟨-, hkept⟩ := good_of_staysBetween (by decide) (by decide) box_nonneg (by decide) (.inr rfl) h hk .red
    rw [weightedSum_gray, kernelSum_box] at hkept
    rcases hkept with hbelow | ⟨v, ⟨k, -, -, rfl⟩, hv⟩ | ⟨habove, -⟩
    · exact absurd hbelow (by decide)
    · rw [windowPixel_gray] at hv
      exact absurd hv (by decide)
    · exact absurd habove (by decide)
  · obtain ⟨q, hq⟩ := convBlur_isSome (by decide) (by decide) box_nonneg (1 / kernelSum box 5) hfit
    refine ⟨q, hq, ?_⟩
    have hvalue := blurred_of_convBlur (by decide) (by decide) box_nonneg hq hk
    rw [blurred, if_pos (hfit _ hk)] at hvalue
    have hpixel : (q.newMap (rowMajor (gray 6 5 200).width (2, 2))).get .red = 201 := by
      rw [← Option.some.inj hvalue, RGB.get_ofAcc, weightedSum_gray,
        convChannel_eq (by decide) (by decide) (by decide) (.inr rfl)]
      decide
    exact hpixel

end TamuProofs.Ppm
