import Mathlib.Algebra.Order.Floor.Semiring
import Mathlib.Tactic.Linarith
import Mathlib.Tactic.Ring

/-!
The polyline through equally spaced nodes, over an ordered field.

* `piece` — the line between two nodes, in the coordinate in which the nodes are the natural numbers;
* `polyline` — the piece whose nodes are next to the argument; `polyline_eq_piece`: at a node either piece will do;
* `polyline_node`, `polyline_mem`, `polyline_mono` — through the nodes, between their values, monotone with them.
-/

namespace TamuProofs.Lib

variable {K : Type*} [Field K]

/-- The line through `(k, y k)` and `(k + 1, y (k + 1))`. -/
def piece (y : ℕ → K) (k : ℕ) (s : K) : K := y k + (y (k + 1) - y k) * (s - k)

/-- The polyline through the points `(k / n, y k)` for `k ≤ n`. -/
def polyline [LinearOrder K] [FloorSemiring K] (n : ℕ) (y : ℕ → K) (t : K) : K := piece y (min ⌊t * n⌋₊ (n - 1)) (t * n)

section Segment

variable {y : ℕ → K} {k : ℕ} {s s' : K}

@[simp] theorem piece_left (y : ℕ → K) (k : ℕ) : piece y k k = y k := by
  simp [piece]

@[simp] theorem piece_right (y : ℕ → K) (k : ℕ) : piece y k ((k + 1 : ℕ) : K) = y (k + 1) := by
  simp [piece]

variable [LinearOrder K] [IsStrictOrderedRing K]

theorem piece_mem {a b : K} (hk : a ≤ y k ∧ y k ≤ b) (hk' : a ≤ y (k + 1) ∧ y (k + 1) ≤ b) (hs : (k : K) ≤ s)
    (hs' : s ≤ (k + 1 : ℕ)) : a ≤ piece y k s ∧ piece y k s ≤ b := by
  push_cast at hs'
  have hmean : piece y k s = (1 - (s - k)) * y k + (s - k) * y (k + 1) := by
    unfold piece
    ring
  have h0 : 0 ≤ s - k := by linarith
  have h1 : 0 ≤ 1 - (s - k) := by linarith
  have hlow := add_le_add (mul_le_mul_of_nonneg_left hk.1 h1) (mul_le_mul_of_nonneg_left hk'.1 h0)
  have hhigh := add_le_add (mul_le_mul_of_nonneg_left hk.2 h1) (mul_le_mul_of_nonneg_left hk'.2 h0)
  rw [hmean]
  constructor <;> linarith

theorem piece_mono (hy : y k ≤ y (k + 1)) (hss : s ≤ s') : piece y k s ≤ piece y k s' := by
  have hle := mul_le_mul_of_nonneg_left (sub_le_sub_right hss (k : K)) (sub_nonneg.2 hy)
  unfold piece
  linarith

end Segment

section Polyline

variable [LinearOrder K] [IsStrictOrderedRing K] [FloorSemiring K] {n : ℕ} {y : ℕ → K} {t t' : K}

/-- The piece that `polyline` takes is next to its argument. -/
theorem exists_piece (hn : 1 ≤ n) (h0 : 0 ≤ t) (h1 : t ≤ 1) :
    ∃ k < n, (k : K) ≤ t * n ∧ t * n ≤ (k + 1 : ℕ) ∧ polyline n y t = piece y k (t * n) := by
  have hpos : 0 ≤ t * n := mul_nonneg h0 (Nat.cast_nonneg n)
  have hle : t * n ≤ n := mul_le_of_le_one_left (Nat.cast_nonneg n) h1
  refine ⟨min ⌊t * n⌋₊ (n - 1), by omega, ?_, ?_, rfl⟩
  · exact (Nat.cast_le.2 (min_le_left _ _)).trans (Nat.floor_le hpos)
  · rcases min_choice ⌊t * n⌋₊ (n - 1) with h | h
    · rw [h, Nat.cast_succ]
      exact (Nat.lt_floor_add_one _).le
    · rw [h, Nat.sub_add_cancel hn]
      exact hle

/-- **The polyline on a piece**, both ends included. -/
theorem polyline_eq_piece {k : ℕ} (hk : k < n) (hs : (k : K) ≤ t * n) (hs' : t * n ≤ (k + 1 : ℕ)) :
    polyline n y t = piece y k (t * n) := by
  rcases hs'.lt_or_eq with hlt | heq
  · have hfloor : ⌊t * n⌋₊ = k := by
      rw [Nat.floor_eq_iff ((Nat.cast_nonneg k).trans hs)]
      exact ⟨hs, by exact_mod_cast hlt⟩
    rw [polyline, hfloor, min_eq_left (by omega)]
  · -- the right end, which the next piece has too, unless there is none
    rw [polyline, heq, Nat.floor_natCast, piece_right]
    by_cases hlast : k + 1 ≤ n - 1
    · rw [min_eq_left hlast, piece_left]
    · have hk' : n - 1 = k := by omega
      rw [min_eq_right (by omega), hk', piece_right]

/-- **The polyline goes through its nodes.** -/
theorem polyline_node (hn : 1 ≤ n) {k : ℕ} (hk : k ≤ n) (ht : t * n = k) : polyline n y t = y k := by
  rcases hk.lt_or_eq with hlt | rfl
  · rw [polyline_eq_piece hlt ht.ge (by rw [ht]; exact Nat.cast_le.2 k.le_succ), ht, piece_left]
  · obtain ⟨m, rfl⟩ : ∃ m, k = m + 1 := ⟨k - 1, by omega⟩
    rw [polyline_eq_piece m.lt_succ_self (by rw [ht]; exact Nat.cast_le.2 m.le_succ) ht.le, ht, piece_right]

/-- **The polyline stays between the bounds of its nodes.** -/
theorem polyline_mem {a b : K} (hn : 1 ≤ n) (hy : ∀ k ≤ n, a ≤ y k ∧ y k ≤ b) (h0 : 0 ≤ t) (h1 : t ≤ 1) :
    a ≤ polyline n y t ∧ polyline n y t ≤ b := by
  obtain ⟨k, hk, hs, hs', heq⟩ := exists_piece (y := y) hn h0 h1
  rw [heq]
  exact piece_mem (hy k hk.le) (hy (k + 1) hk) hs hs'

/-- **The polyline is monotone** if its nodes are. -/
theorem polyline_mono (hn : 1 ≤ n) (hy : ∀ k k', k ≤ k' → k' ≤ n → y k ≤ y k') (h0 : 0 ≤ t) (htt : t ≤ t')
    (h1 : t' ≤ 1) : polyline n y t ≤ polyline n y t' := by
  obtain ⟨k, hk, hs, hs', heq⟩ := exists_piece (y := y) hn h0 (htt.trans h1)
  obtain ⟨k', hk', ht, ht', heq'⟩ := exists_piece (y := y) hn (h0.trans htt) h1
  have hss : t * n ≤ t' * n := mul_le_mul_of_nonneg_right htt (Nat.cast_nonneg n)
  have hpiece : ∀ m < n, y m ≤ y (m + 1) := fun m hm => hy m (m + 1) m.le_succ hm
  rcases lt_trichotomy k k' with hlt | rfl | hgt
  · -- the end of the first piece is between them
    calc polyline n y t = piece y k (t * n) := heq
      _ ≤ piece y k ((k + 1 : ℕ) : K) := piece_mono (hpiece k hk) hs'
      _ = y (k + 1) := piece_right y k
      _ ≤ y k' := hy _ _ hlt hk'.le
      _ = piece y k' k' := (piece_left y k').symm
      _ ≤ piece y k' (t' * n) := piece_mono (hpiece k' hk') ht
      _ = polyline n y t' := heq'.symm
  · rw [heq, heq']
    exact piece_mono (hpiece k hk) hss
  · -- then both are at the node between the pieces
    have hnode : ((k' + 1 : ℕ) : K) ≤ k := Nat.cast_le.2 hgt
    have hend : t * n = t' * n := le_antisymm hss ((ht'.trans hnode).trans hs)
    unfold polyline
    rw [hend]

end Polyline

end TamuProofs.Lib
