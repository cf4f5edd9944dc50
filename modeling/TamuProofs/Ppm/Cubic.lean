import Mathlib.LinearAlgebra.Lagrange
import TamuProofs.Ppm.Curves

/-!
# Cubic curves (`cubic_curve_single` of `pr03/myppm.h`)

The curve through four points, with a table as in `Curves`. The sum of the products is Lagrange's form of the
polynomial through the points, and Mathlib has that there is only one of degree at most 3.

* `fraction_eq`, `result_eq` — the loops;
* `result_eq_eval` — the value of any polynomial through the points;
* **`cubicCurveSingle_spec`** — the table, and that the order of the points does not matter.
-/

namespace TamuProofs.Ppm

open Polynomial TamuProofs.Lib

/-! ### The function -/

def fraction (point : Fin 4 → XYPair) (t : ℚ) (j : Fin 4) : ℚ :=
  (List.finRange 4).foldl
    (fun fraction k => if k ≠ j then fraction * (t - (point k).x) / ((point j).x - (point k).x) else fraction)
    (point j).y

def result (point : Fin 4 → XYPair) (t : ℚ) : ℚ :=
  (List.finRange 4).foldl (fun result j => result + fraction point t j) 0

/-- `cubic_curve_single`: the elements of `color_map`. -/
def cubicCurveSingle (point : Fin 4 → XYPair) : List (Option ℤ) :=
  (List.range 256).map fun i : ℕ => toInt (result point (i / 255) * 255)

/-! ### The loops -/

section Loops

variable {point : Fin 4 → XYPair} {q : ℚ[X]}

theorem foldl_mul_div {κ : Type*} [DecidableEq κ] (a b : κ → ℚ) (j : κ) (l : List κ) (y : ℚ) :
    l.foldl (fun f k => if k ≠ j then f * a k / b k else f) y =
      y * (l.map fun k => if k ≠ j then a k / b k else 1).prod := by
  induction l generalizing y with
  | nil => simp
  | cons k l ih =>
    rw [List.foldl_cons, ih, List.map_cons, List.prod_cons]
    split
    · ring
    · ring

/-- **The inner loop** gives a polynomial of the basis. -/
theorem fraction_eq (point : Fin 4 → XYPair) (t : ℚ) (j : Fin 4) :
    fraction point t j =
      (point j).y * (Lagrange.basis Finset.univ (fun k => (point k).x) j).eval t := by
  have hprod : (Lagrange.basis Finset.univ (fun k => (point k).x) j).eval t =
      ∏ k : Fin 4, if k ≠ j then (t - (point k).x) / ((point j).x - (point k).x) else 1 := by
    rw [Lagrange.basis, eval_prod, ← Finset.filter_ne', Finset.prod_filter]
    refine Finset.prod_congr rfl fun k _ => ?_
    split
    · rw [Lagrange.basisDivisor, eval_mul, eval_C, eval_sub, eval_X, eval_C, div_eq_inv_mul]
    · rfl
  rw [hprod, fraction, foldl_mul_div, Fin.prod_univ_def]

/-- **Both loops** give the polynomial through the points. -/
theorem result_eq (point : Fin 4 → XYPair) (t : ℚ) :
    result point t =
      (Lagrange.interpolate Finset.univ (fun k => (point k).x) fun k => (point k).y).eval t := by
  have hsum : result point t = ((List.finRange 4).map (fraction point t)).sum := by
    rw [List.sum_eq_foldl, List.foldl_map]
    rfl
  rw [hsum, Lagrange.interpolate_apply, eval_finsetSum, Fin.sum_univ_def]
  refine congrArg List.sum (List.map_congr_left fun j _ => ?_)
  rw [fraction_eq, eval_mul, eval_C]

/-- The result is the value of any polynomial of degree at most 3 through the points. -/
theorem result_eq_eval (hx : Function.Injective fun k => (point k).x) (hq : q.natDegree ≤ 3)
    (hthrough : ∀ k, q.eval (point k).x = (point k).y) (t : ℚ) : result point t = q.eval t := by
  have hdeg : q.degree < (Finset.univ : Finset (Fin 4)).card := by
    rw [Finset.card_fin]
    exact (degree_le_of_natDegree_le hq).trans_lt (WithBot.coe_lt_coe.2 (by omega))
  rw [result_eq, ← Lagrange.eq_interpolate_of_eval_eq _ hx.injOn hdeg fun k _ => hthrough k]

theorem result_perm (hx : Function.Injective fun k => (point k).x) (σ : Equiv.Perm (Fin 4)) (t : ℚ) :
    result (point ∘ σ) t = result point t := by
  have hdeg := Lagrange.degree_interpolate_lt (s := Finset.univ) (fun k => (point k).y) (hx.injOn)
  have hnode : ∀ k, (Lagrange.interpolate Finset.univ (fun k => (point k).x) fun k => (point k).y).eval (point k).x =
      (point k).y := fun k => Lagrange.eval_interpolate_at_node _ hx.injOn (Finset.mem_univ k)
  rw [result_eq point, result_eq (point ∘ σ)]
  have hx' : Function.Injective fun k => ((point ∘ σ) k).x := hx.comp σ.injective
  exact congrArg (eval t) (Lagrange.eq_interpolate_of_eval_eq _ hx'.injOn hdeg fun k _ => hnode (σ k)).symm

theorem getElem?_cubicCurveSingle (hx : Function.Injective fun k => (point k).x) (hq : q.natDegree ≤ 3)
    (hthrough : ∀ k, q.eval (point k).x = (point k).y) {i : ℕ} (hi : i < 256) :
    (cubicCurveSingle point)[i]? = some (toInt (255 * q.eval (i / 255 : ℚ))) := by
  rw [cubicCurveSingle, List.getElem?_map, List.getElem?_range hi, Option.map_some, result_eq_eval hx hq hthrough,
    mul_comm]

end Loops

/-- **The table of a cubic curve** holds the values of any polynomial of degree at most 3 through the four points, as
far as their truncations are of type `int`, and does not depend on the order of the points. -/
theorem cubicCurveSingle_spec {point : Fin 4 → XYPair} (hx : Function.Injective fun k => (point k).x) {q : ℚ[X]}
    (hq : q.natDegree ≤ 3) (hthrough : ∀ k, q.eval (point k).x = (point k).y) :
    (∀ i : ℕ, i < 256 → intMin ≤ trunc (255 * q.eval (i / 255 : ℚ)) → trunc (255 * q.eval (i / 255 : ℚ)) ≤ intMax →
        (cubicCurveSingle point)[i]? = some (some (trunc (255 * q.eval (i / 255 : ℚ))))) ∧
      ∀ σ : Equiv.Perm (Fin 4), cubicCurveSingle (point ∘ σ) = cubicCurveSingle point := by
  constructor
  · intro i hi hlow hhigh
    rw [getElem?_cubicCurveSingle hx hq hthrough hi, toInt, checkedInt, if_pos ⟨hlow, hhigh⟩]
  · intro σ
    unfold cubicCurveSingle
    simp only [result_perm hx σ]

/-- `R_point` of `pr03.cpp`. -/
def rPoint : Fin 4 → XYPair := ![⟨0, 0.5⟩, ⟨0.25, 0.75⟩, ⟨0.75, 0.25⟩, ⟨1, 0.5⟩]

/-- Its table begins with 127. -/
theorem cubicCurveSingle_spec_rPoint :
    (cubicCurveSingle rPoint)[0]? = some (some 127) ∧
      cubicCurveSingle (rPoint ∘ Equiv.swap 0 3) = cubicCurveSingle rPoint := by
  have hx : Function.Injective fun k => (rPoint k).x := by decide +kernel
  have hdeg : (C (16 / 3) * X ^ 3 + C (-8) * X ^ 2 + C (8 / 3) * X + C (1 / 2) : ℚ[X]).natDegree ≤ 3 :=
    natDegree_cubic_le
  obtain ⟨htable, hperm⟩ := cubicCurveSingle_spec hx hdeg (by
    intro k
    fin_cases k <;> norm_num [rPoint])
  have heval : trunc (255 * (C (16 / 3) * X ^ 3 + C (-8) * X ^ 2 + C (8 / 3) * X + C (1 / 2) : ℚ[X]).eval
      ((0 : ℕ) / 255 : ℚ)) = 127 := by
    rw [trunc_of_nonneg (by norm_num), Int.floor_eq_iff]
    norm_num
  have hentry := htable 0 (by omega) (by rw [heval]; decide) (by rw [heval]; decide)
  rw [heval] at hentry
  exact ⟨hentry, hperm _⟩

/-- Four points so high that the truncations are no values of type `int`. -/
def highPoint : Fin 4 → XYPair := fun k => ⟨(k : ℕ), 100000000⟩

theorem not_cubicCurveSingle_high :
    ¬ ∀ (point : Fin 4 → XYPair) (q : ℚ[X]), (Function.Injective fun k => (point k).x) → q.natDegree ≤ 3 →
      (∀ k, q.eval (point k).x = (point k).y) →
        ∀ i : ℕ, i < 256 → (cubicCurveSingle point)[i]? = some (some (trunc (255 * q.eval (i / 255 : ℚ)))) := by
  intro h
  have hx : Function.Injective fun k => (highPoint k).x := fun k k' heq => Fin.ext (Nat.cast_injective heq)
  have hdeg : (C 100000000 : ℚ[X]).natDegree ≤ 3 := by simp
  have hthrough : ∀ k, (C 100000000 : ℚ[X]).eval (highPoint k).x = (highPoint k).y := fun k => eval_C
  have hentry := h highPoint (C 100000000) hx hdeg hthrough 0 (by omega)
  rw [getElem?_cubicCurveSingle hx hdeg hthrough (by omega), eval_C] at hentry
  have hnone : toInt (255 * 100000000) = none := by decide +kernel
  rw [hnone] at hentry
  cases hentry

end TamuProofs.Ppm
