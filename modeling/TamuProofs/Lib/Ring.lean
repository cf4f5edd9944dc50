import Mathlib.Data.List.Basic
import Mathlib.Data.Int.ModEq
import Mathlib.Logic.Function.Basic

/-!
A circular array: the `n` cells that follow position `a`, taken modulo the capacity `c`, and what a
write just behind them and a read of the first of them do to that list.
-/

namespace TamuProofs.Lib

variable {α : Type*} {m : ℕ → α} {a b n c : ℕ}

/-- The contents of the `n` cells at positions `a, a + 1, …` of a circular array of capacity `c`. -/
def ring (m : ℕ → α) (a n c : ℕ) : List α := (List.range n).map fun i => m ((a + i) % c)

@[simp] theorem ring_length : (ring m a n c).length = n := by simp [ring]

theorem ring_congr_mod (h : a % c = b % c) : ring m a n c = ring m b n c := by
  unfold ring
  apply List.map_congr_left
  intro i _
  rw [Nat.add_mod a i c, h, ← Nat.add_mod]

/-- Reading the first cell: what is left starts one position later. -/
theorem ring_succ : ring m a (n + 1) c = m (a % c) :: ring m (a + 1) n c := by
  unfold ring
  rw [List.range_succ_eq_map, List.map_cons, List.map_map]
  refine congrArg₂ List.cons (by simp) (List.map_congr_left fun i _ => ?_)
  simp only [Function.comp, Nat.succ_eq_add_one]
  congr 2
  omega

theorem add_mod_ne {i : ℕ} (hi : i < n) (hn : n < c) : (a + i) % c ≠ (a + n) % c := by
  intro h
  have h1 : i ≡ n [MOD c] := Nat.ModEq.add_left_cancel' a h
  have h2 : i = n := h1.eq_of_lt_of_lt (by omega) hn
  omega

/-- Writing just behind the cells in use appends to their contents, as long as a cell is free. -/
theorem ring_update (x : α) (hn : n < c) :
    ring (Function.update m ((a + n) % c) x) a (n + 1) c = ring m a n c ++ [x] := by
  unfold ring
  rw [List.range_succ, List.map_append]
  congr 1
  · apply List.map_congr_left
    intro i hi
    rw [Function.update_of_ne (add_mod_ne (List.mem_range.1 hi) hn)]
  · simp

end TamuProofs.Lib
