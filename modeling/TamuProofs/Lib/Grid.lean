import Mathlib.Algebra.BigOperators.Ring.List
import Mathlib.Algebra.Order.BigOperators.Group.List
import Mathlib.Algebra.Order.Ring.Int
import Mathlib.Data.Int.Range
import Mathlib.Data.List.Induction
import Mathlib.Data.List.Nodup
import Mathlib.Logic.Function.Basic
import Mathlib.Order.Bounds.Basic
import Mathlib.Tactic.Ring

/-!
Rectangles of an array stored row by row, loops over them, and what such loops compute.

* `cells`, `rowMajor` — the cells of a rectangle, and the index of a cell; `rowMajor_mem`, `rowMajor_inj`;
* `foldlM_eq_some`, `mapM_eq_some`, `exists_foldlM` — a loop whose steps are all defined, and `forall_of_foldlM`, the
  converse;
* `foldlM_writes`, `isSome_of_foldlM_writes` — a loop that writes one cell of a map in each step;
* `foldl_lastWrite` — what a cell holds after a loop of writes that may meet it several times;
* `foldlM_own`, `isSome_of_foldlM_own` — a loop whose steps change each a cell of its own;
* `isLeast_foldl_min` — a running minimum;
* `exists_mul_sum_le`, `exists_sum_le_mul` — a weighted mean lies between two of its values of positive weight.
-/

namespace TamuProofs.Lib

/-! ### Rectangles -/

/-- The cells with a row from `r₀` and below `r₁` and a column from `c₀` and below `c₁`, row by row. -/
def cells (r₀ r₁ c₀ c₁ : ℤ) : List (ℤ × ℤ) :=
  (Int.range r₀ r₁).flatMap fun r => (Int.range c₀ c₁).map fun c => (r, c)

@[simp] theorem mem_cells {r₀ r₁ c₀ c₁ : ℤ} {k : ℤ × ℤ} :
    k ∈ cells r₀ r₁ c₀ c₁ ↔ (r₀ ≤ k.1 ∧ k.1 < r₁) ∧ c₀ ≤ k.2 ∧ k.2 < c₁ := by
  obtain ⟨r, c⟩ := k
  simp [cells, Int.mem_range_iff]

theorem nodup_cells (r₀ r₁ c₀ c₁ : ℤ) : (cells r₀ r₁ c₀ c₁).Nodup := by
  have hrange : ∀ m n : ℤ, (Int.range m n).Nodup := by
    intro m n
    refine List.Nodup.map (fun a b hab => ?_) List.nodup_range
    omega
  exact List.Nodup.product (hrange r₀ r₁) (hrange c₀ c₁)

/-- The index of a cell in an array whose rows have `w` cells. -/
def rowMajor (w : ℤ) (k : ℤ × ℤ) : ℤ := k.1 * w + k.2

section RowMajor

variable {w h : ℤ} {k k' : ℤ × ℤ}

theorem rowMajor_mem (hr : 0 ≤ k.1 ∧ k.1 < h) (hc : 0 ≤ k.2 ∧ k.2 < w) :
    0 ≤ rowMajor w k ∧ rowMajor w k < w * h := by
  obtain ⟨hr0, hrh⟩ := hr
  obtain ⟨hc0, hcw⟩ := hc
  have hlow : 0 ≤ k.1 * w := mul_nonneg hr0 (by omega)
  have hhigh : (k.1 + 1) * w ≤ h * w := mul_le_mul_of_nonneg_right (by omega) (by omega)
  have hexpand : (k.1 + 1) * w = k.1 * w + w := by ring
  have hcomm : h * w = w * h := mul_comm h w
  unfold rowMajor
  omega

theorem rowMajor_inj (hc : 0 ≤ k.2 ∧ k.2 < w) (hc' : 0 ≤ k'.2 ∧ k'.2 < w) (heq : rowMajor w k = rowMajor w k') :
    k = k' := by
  unfold rowMajor at heq
  have hdiv : ∀ r c : ℤ, 0 ≤ c ∧ c < w → (r * w + c) / w = r := by
    rintro r c ⟨h0, hw⟩
    rw [add_comm, Int.add_mul_ediv_right _ _ (by omega), Int.ediv_eq_zero_of_lt h0 hw, zero_add]
  have hrow : k.1 = k'.1 := by rw [← hdiv k.1 k.2 hc, heq, hdiv k'.1 k'.2 hc']
  rw [hrow] at heq
  exact Prod.ext hrow (by omega)

end RowMajor

/-! ### Loops -/

section Loops

variable {α β κ ι : Type*}

theorem foldlM_congr {f g : α → κ → Option α} {l : List κ} (h : ∀ a, ∀ k ∈ l, f a k = g a k) (a : α) :
    l.foldlM f a = l.foldlM g a := by
  induction l generalizing a with
  | nil => rfl
  | cons k l ih =>
    rw [List.foldlM_cons, List.foldlM_cons, h a k List.mem_cons_self]
    exact congrArg _ (funext fun b => ih (fun a k' hk' => h a k' (List.mem_cons_of_mem k hk')) b)

theorem foldlM_eq_some {f : α → κ → Option α} {g : α → κ → α} {l : List κ}
    (hf : ∀ a, ∀ k ∈ l, f a k = some (g a k)) (a : α) : l.foldlM f a = some (l.foldl g a) := by
  induction l generalizing a with
  | nil => rfl
  | cons k l ih =>
    rw [List.foldlM_cons, hf a k List.mem_cons_self, List.foldl_cons]
    exact ih (fun a k' hk' => hf a k' (List.mem_cons_of_mem k hk')) _

theorem mapM_eq_some {f : κ → Option β} {g : κ → β} {l : List κ} (hf : ∀ k ∈ l, f k = some (g k)) :
    l.mapM f = some (l.map g) := by
  rw [List.mapM_eq_reverse_foldlM_cons, foldlM_eq_some (g := fun acc k => g k :: acc)]
  · simp
  · intro acc k hk
    rw [hf k hk]
    rfl

theorem exists_foldlM {f : α → κ → Option α} {l : List κ} (hf : ∀ a, ∀ k ∈ l, ∃ b, f a k = some b) (a : α) :
    ∃ b, l.foldlM f a = some b := by
  induction l generalizing a with
  | nil => exact ⟨a, rfl⟩
  | cons k l ih =>
    obtain ⟨b, hb⟩ := hf a k List.mem_cons_self
    rw [List.foldlM_cons, hb]
    exact ih (fun a k' hk' => hf a k' (List.mem_cons_of_mem k hk')) b

theorem forall_of_foldlM {f : α → κ → Option α} {P : κ → Prop} (hf : ∀ a k b, f a k = some b → P k) {l : List κ}
    {a b : α} (h : l.foldlM f a = some b) : ∀ k ∈ l, P k := by
  induction l generalizing a with
  | nil => exact fun k hk => absurd hk List.not_mem_nil
  | cons k l ih =>
    rw [List.foldlM_cons] at h
    obtain ⟨a', ha', h⟩ := Option.bind_eq_some_iff.1 h
    exact List.forall_mem_cons.2 ⟨hf a k a' ha', ih h⟩

theorem foldlM_mono {f g : α → κ → Option α} {l : List κ} (hfg : ∀ a, ∀ k ∈ l, ∀ b, f a k = some b → g a k = some b)
    {a b : α} (h : l.foldlM f a = some b) : l.foldlM g a = some b := by
  induction l generalizing a with
  | nil => exact h
  | cons k l ih =>
    rw [List.foldlM_cons] at h ⊢
    obtain ⟨a', ha', h⟩ := Option.bind_eq_some_iff.1 h
    rw [hfg a k List.mem_cons_self a' ha']
    exact ih (fun a k' hk' => hfg a k' (List.mem_cons_of_mem k hk')) h

variable [DecidableEq ι] {f : (ι → β) → κ → Option (ι → β)} {idx : κ → ι} {val : κ → Option β} {l : List κ}

/-- **A loop of writes**: each cell written holds its value in the end, and the others are as they were. -/
theorem foldlM_writes (hf : ∀ m, ∀ k ∈ l, f m k = (val k).map (Function.update m (idx k)))
    (hinj : ∀ k ∈ l, ∀ k' ∈ l, idx k = idx k' → k = k') {m m' : ι → β} (h : l.foldlM f m = some m') :
    (∀ k ∈ l, val k = some (m' (idx k))) ∧ ∀ i, (∀ k ∈ l, idx k ≠ i) → m' i = m i := by
  induction l using List.reverseRecOn generalizing m' with
  | nil =>
    cases h
    exact ⟨fun k hk => absurd hk List.not_mem_nil, fun i _ => rfl⟩
  | append_singleton l k ih =>
    rw [List.foldlM_append] at h
    obtain ⟨m₁, h₁, h⟩ := Option.bind_eq_some_iff.1 h
    obtain ⟨hval, hold⟩ := ih (fun m k' hk' => hf m k' (List.mem_append_left _ hk'))
      (fun a ha b hb => hinj a (List.mem_append_left _ ha) b (List.mem_append_left _ hb)) h₁
    have hk : k ∈ l ++ [k] := List.mem_append_right _ List.mem_cons_self
    rw [List.foldlM_cons, hf m₁ k hk] at h
    obtain ⟨m₂, hupd, h⟩ := Option.bind_eq_some_iff.1 h
    obtain ⟨v, hv, rfl⟩ := Option.map_eq_some_iff.1 hupd
    cases h
    refine ⟨fun k' hk' => ?_, fun i hi => ?_⟩
    · by_cases heq : idx k' = idx k
      · rw [hinj k' hk' k hk heq, hv, Function.update_self]
      · rw [Function.update_of_ne heq]
        rcases List.mem_append.1 hk' with hk' | hk'
        · exact hval k' hk'
        · exact absurd (congrArg idx (List.mem_singleton.1 hk')) heq
    · rw [Function.update_of_ne (hi k hk).symm]
      exact hold i fun k' hk' => hi k' (List.mem_append_left _ hk')

/-- A loop of writes is defined exactly when all the values are. -/
theorem isSome_of_foldlM_writes (hf : ∀ m, ∀ k ∈ l, f m k = (val k).map (Function.update m (idx k))) (m : ι → β) :
    (∃ m', l.foldlM f m = some m') ↔ ∀ k ∈ l, ∃ v, val k = some v := by
  induction l generalizing m with
  | nil => exact iff_of_true ⟨m, rfl⟩ fun k hk => absurd hk List.not_mem_nil
  | cons k l ih =>
    have hl : ∀ m, ∀ k' ∈ l, f m k' = (val k').map (Function.update m (idx k')) :=
      fun m k' hk' => hf m k' (List.mem_cons_of_mem k hk')
    rw [List.foldlM_cons, hf m k List.mem_cons_self, List.forall_mem_cons]
    cases hv : val k with
    | none => simp
    | some v => simpa using ih hl _

/-- **The last write** to a cell is what it holds in the end. -/
theorem foldl_lastWrite (target : κ → Option ι) (val : κ → β) (l : List κ) (m : ι → β) (i : ι) :
    l.foldl (fun m k => (target k).elim m fun n => Function.update m n (val k)) m i =
      ((l.filter fun k => decide (target k = some i)).getLast?.map val).getD (m i) := by
  induction l using List.reverseRecOn with
  | nil => rfl
  | append_singleton l k ih =>
    rw [List.foldl_append, List.foldl_cons, List.foldl_nil, List.filter_append]
    cases hk : target k with
    | none => simpa [hk] using ih
    | some n =>
      by_cases hn : n = i
      · subst hn
        simp [hk]
      · simpa [hk, hn, Function.update_of_ne (Ne.symm hn)] using ih

variable {g : κ → β → Option β}

/-- **A loop over its own cells**: each step takes what the cell holds, and no cell is met twice. -/
theorem foldlM_own (hf : ∀ m, ∀ k ∈ l, f m k = (g k (m (idx k))).map (Function.update m (idx k)))
    (hnodup : (l.map idx).Nodup) {m m' : ι → β} (h : l.foldlM f m = some m') :
    (∀ k ∈ l, g k (m (idx k)) = some (m' (idx k))) ∧ ∀ i, (∀ k ∈ l, idx k ≠ i) → m' i = m i := by
  induction l generalizing m with
  | nil =>
    cases h
    exact ⟨fun k hk => absurd hk List.not_mem_nil, fun i _ => rfl⟩
  | cons k l ih =>
    obtain ⟨hk, hnodup⟩ := List.nodup_cons.1 hnodup
    have hne : ∀ k' ∈ l, idx k' ≠ idx k := fun k' hk' heq => hk (heq ▸ List.mem_map_of_mem hk')
    rw [List.foldlM_cons, hf m k List.mem_cons_self] at h
    obtain ⟨m₁, hupd, h⟩ := Option.bind_eq_some_iff.1 h
    obtain ⟨v, hv, rfl⟩ := Option.map_eq_some_iff.1 hupd
    obtain ⟨hval, hold⟩ := ih (fun m k' hk' => hf m k' (List.mem_cons_of_mem k hk')) hnodup h
    refine ⟨List.forall_mem_cons.2 ⟨?_, fun k' hk' => ?_⟩, fun i hi => ?_⟩
    · rw [hold (idx k) hne, Function.update_self, hv]
    · rw [← hval k' hk', Function.update_of_ne (hne k' hk')]
    · rw [hold i fun k' hk' => hi k' (List.mem_cons_of_mem k hk'),
        Function.update_of_ne (hi k List.mem_cons_self).symm]

/-- Such a loop is defined exactly when all its steps are, at what the cells hold before. -/
theorem isSome_of_foldlM_own (hf : ∀ m, ∀ k ∈ l, f m k = (g k (m (idx k))).map (Function.update m (idx k)))
    (hnodup : (l.map idx).Nodup) (m : ι → β) :
    (∃ m', l.foldlM f m = some m') ↔ ∀ k ∈ l, ∃ v, g k (m (idx k)) = some v := by
  constructor
  · rintro ⟨m', h⟩ k hk
    exact ⟨_, (foldlM_own hf hnodup h).1 k hk⟩
  · intro hall
    induction l generalizing m with
    | nil => exact ⟨m, rfl⟩
    | cons k l ih =>
      obtain ⟨hk, hnodup⟩ := List.nodup_cons.1 hnodup
      obtain ⟨v, hv⟩ := hall k List.mem_cons_self
      rw [List.foldlM_cons, hf m k List.mem_cons_self, hv]
      refine ih (fun m k' hk' => hf m k' (List.mem_cons_of_mem k hk')) hnodup _ fun k' hk' => ?_
      have hne : idx k' ≠ idx k := fun heq => hk (heq ▸ List.mem_map_of_mem hk')
      rw [Function.update_of_ne hne]
      exact hall k' (List.mem_cons_of_mem k hk')

end Loops

/-! ### A running minimum -/

theorem isLeast_foldl_min {α κ : Type*} [LinearOrder α] (v : κ → α) (l : List κ) (a : α) :
    IsLeast (insert a {x | ∃ k ∈ l, v k = x}) (l.foldl (fun a k => min (v k) a) a) := by
  induction l generalizing a with
  | nil => simp
  | cons k l ih =>
    obtain ⟨hmem, hle⟩ := ih (min (v k) a)
    rw [List.foldl_cons]
    constructor
    · rcases hmem with heq | ⟨k', hk', heq⟩
      · rw [heq]
        rcases min_choice (v k) a with h | h
        · exact .inr ⟨k, List.mem_cons_self, h.symm⟩
        · exact .inl h
      · exact .inr ⟨k', List.mem_cons_of_mem k hk', heq⟩
    · have hmin := hle (Set.mem_insert _ _)
      rintro x (rfl | ⟨k', hk', rfl⟩)
      · exact hmin.trans (min_le_right _ _)
      · rcases List.mem_cons.1 hk' with rfl | hk'
        · exact hmin.trans (min_le_left _ _)
        · exact hle (.inr ⟨k', hk', rfl⟩)

/-! ### Weighted means -/

section Mean

variable {κ R : Type*} [CommRing R] [LinearOrder R] [IsStrictOrderedRing R] {l : List κ} {w : κ → R}

/-- Some value of positive weight is at most the mean. -/
theorem exists_mul_sum_le (hw : ∀ k ∈ l, 0 ≤ w k) (hpos : 0 < (l.map w).sum) (v : κ → R) :
    ∃ k ∈ l, 0 < w k ∧ v k * (l.map w).sum ≤ (l.map fun k => v k * w k).sum := by
  by_contra hno
  have habove : ∀ k ∈ l, 0 < w k → (l.map fun k => v k * w k).sum < v k * (l.map w).sum := by
    intro k hk hwk
    by_contra hle
    exact hno ⟨k, hk, hwk, not_lt.1 hle⟩
  obtain ⟨k₀, hk₀, hwk₀⟩ : ∃ k ∈ l, 0 < w k := by
    by_contra hnone
    have hzero : ∀ k ∈ l, w k = 0 := by
      intro k hk
      by_contra hne
      exact hnone ⟨k, hk, lt_of_le_of_ne (hw k hk) (Ne.symm hne)⟩
    rw [List.map_congr_left hzero] at hpos
    simp at hpos
  -- if every value were above the mean, so would be the mean of the values
  have hlt : (l.map fun k => (l.map fun k => v k * w k).sum * w k).sum <
      (l.map fun k => v k * (l.map w).sum * w k).sum := by
    apply List.sum_lt_sum
    · intro k hk
      rcases eq_or_lt_of_le (hw k hk) with hz | hwk
      · simp [← hz]
      · exact (mul_lt_mul_of_pos_right (habove k hk hwk) hwk).le
    · exact ⟨k₀, hk₀, mul_lt_mul_of_pos_right (habove k₀ hk₀ hwk₀) hwk₀⟩
  have hleft : (l.map fun k => (l.map fun k => v k * w k).sum * w k).sum =
      (l.map fun k => v k * w k).sum * (l.map w).sum := List.sum_map_mul_left l w _
  have hright : (l.map fun k => v k * (l.map w).sum * w k).sum =
      (l.map fun k => v k * w k).sum * (l.map w).sum := by
    rw [← List.sum_map_mul_right]
    exact congrArg List.sum (List.map_congr_left fun k _ => by ring)
  rw [hleft, hright] at hlt
  exact lt_irrefl _ hlt

theorem exists_sum_le_mul (hw : ∀ k ∈ l, 0 ≤ w k) (hpos : 0 < (l.map w).sum) (v : κ → R) :
    ∃ k ∈ l, 0 < w k ∧ (l.map fun k => v k * w k).sum ≤ v k * (l.map w).sum := by
  obtain ⟨k, hk, hwk, hle⟩ := exists_mul_sum_le hw hpos fun k => -v k
  have hneg : (l.map fun k => -v k * w k).sum = -(l.map fun k => v k * w k).sum := by
    rw [neg_eq_neg_one_mul, ← List.sum_map_mul_left]
    exact congrArg List.sum (List.map_congr_left fun k _ => by ring)
  refine ⟨k, hk, hwk, ?_⟩
  rw [hneg, neg_mul] at hle
  exact neg_le_neg_iff.1 hle

end Mean

end TamuProofs.Lib
