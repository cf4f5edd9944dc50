import Mathlib.Algebra.Ring.Nat
import Mathlib.Tactic.Common

/-!
A clock divider: a counter of `w` bits that toggles the slower clock each time it is full.

`phase_onClk` says that the divider goes round a period of `2 ^ (w + 1)` edges, `rises_iff` at which of them the slower
clock rises, and `risesBy_succ` how many rises there are in a given time.
-/

namespace TamuProofs.Lib

structure Divider (w : ℕ) where
  counter : BitVec w
  clkOut : Bool

namespace Divider

variable {w : ℕ}

def onClk (d : Divider w) : Divider w :=
  if d.counter = BitVec.allOnes w then { counter := 0, clkOut := !d.clkOut } else { d with counter := d.counter + 1 }

/-- The slower clock rises at the next edge. -/
def rises (d : Divider w) : Bool := !d.clkOut && d.onClk.clkOut

/-- The edges since the slower clock fell. -/
def phase (d : Divider w) : ℕ := d.counter.toNat + if d.clkOut then 2 ^ w else 0

theorem counter_full_iff (d : Divider w) : d.counter = BitVec.allOnes w ↔ d.counter.toNat + 1 = 2 ^ w := by
  have hpos : 0 < 2 ^ w := Nat.two_pow_pos w
  rw [BitVec.toNat_eq, BitVec.toNat_allOnes]
  omega

theorem phase_lt (d : Divider w) : d.phase < 2 ^ (w + 1) := by
  have hlt := d.counter.isLt
  rw [phase, Nat.pow_succ]
  split <;> omega

/-- **The period of the divider.** -/
theorem phase_onClk (d : Divider w) : d.onClk.phase = (d.phase + 1) % 2 ^ (w + 1) := by
  have hlt := d.counter.isLt
  have hpos : 0 < 2 ^ w := Nat.two_pow_pos w
  have hpow : 2 ^ (w + 1) = 2 ^ w + 2 ^ w := by omega
  unfold onClk
  by_cases hfull : d.counter = BitVec.allOnes w
  · -- a full counter starts again and toggles the output
    rw [if_pos hfull]
    rw [counter_full_iff] at hfull
    cases hout : d.clkOut with
    | false =>
      rw [phase, phase, hout, Nat.mod_eq_of_lt] <;> simp <;> omega
    | true =>
      have hend : d.phase + 1 = 2 ^ (w + 1) := by
        rw [phase, hout, if_pos rfl]
        omega
      rw [hend, Nat.mod_self, phase]
      simp
  · -- else it counts
    rw [if_neg hfull]
    rw [counter_full_iff] at hfull
    have hnext : (d.counter + 1).toNat = d.counter.toNat + 1 := by
      have hone : (1 : BitVec w).toNat = 1 % 2 ^ w := rfl
      rw [BitVec.toNat_add, hone, Nat.add_mod_mod, Nat.mod_eq_of_lt (by omega)]
    have hsum : d.phase + 1 < 2 ^ (w + 1) := by
      rw [phase]
      split <;> omega
    rw [Nat.mod_eq_of_lt hsum]
    show (d.counter + 1).toNat + (if d.clkOut then 2 ^ w else 0) = _
    rw [hnext, phase]
    omega

/-- **When the slower clock rises.** -/
theorem rises_iff (d : Divider w) : d.rises = true ↔ d.phase + 1 = 2 ^ w := by
  have hlt := d.counter.isLt
  have hout : d.onClk.clkOut = if d.counter = BitVec.allOnes w then !d.clkOut else d.clkOut := by
    unfold onClk
    split <;> rfl
  rw [rises, hout, phase]
  cases hclk : d.clkOut with
  | false =>
    have hfull := counter_full_iff d
    by_cases h : d.counter = BitVec.allOnes w <;> simpa [h] using hfull
  | true =>
    have hlate : ¬ d.counter.toNat + 2 ^ w + 1 = 2 ^ w := by omega
    simpa using hlate

/-- How often the slower clock rises in the first `t` edges of its period. -/
def risesBy (w t : ℕ) : ℕ := (t + 2 ^ w) / 2 ^ (w + 1)

theorem risesBy_mono {t t' : ℕ} (h : t ≤ t') : risesBy w t ≤ risesBy w t' :=
  Nat.div_le_div_right (Nat.add_le_add_right h _)

/-- **One more edge** brings a rise if it is the one in the middle of the period. -/
theorem risesBy_succ (t : ℕ) :
    risesBy w (t + 1) = risesBy w t + if t % 2 ^ (w + 1) + 1 = 2 ^ w then 1 else 0 := by
  have hpos : 0 < 2 ^ w := Nat.two_pow_pos w
  have hpow : 2 ^ (w + 1) = 2 ^ w + 2 ^ w := by omega
  have hdvd : 2 ^ (w + 1) ∣ t + 2 ^ w + 1 ↔ t % 2 ^ (w + 1) + 1 = 2 ^ w := by
    have hlt := Nat.mod_lt t (Nat.two_pow_pos (w + 1))
    have hsplit : t + 2 ^ w + 1 = 2 ^ (w + 1) * (t / 2 ^ (w + 1)) + (t % 2 ^ (w + 1) + 2 ^ w + 1) := by
      have hdiv := Nat.div_add_mod t (2 ^ (w + 1))
      omega
    rw [hsplit, Nat.dvd_add_right (Nat.dvd_mul_right _ _)]
    constructor
    · rintro ⟨c, hc⟩
      rcases c with _ | _ | c
      · omega
      · -- the one multiple between one half and three halves of the period
        omega
      · rw [Nat.mul_add, Nat.mul_add] at hc
        omega
    · intro h
      exact ⟨1, by omega⟩
  rw [risesBy, risesBy, show t + 1 + 2 ^ w = t + 2 ^ w + 1 by omega, Nat.succ_div, if_congr hdvd rfl rfl]

end Divider

end TamuProofs.Lib
