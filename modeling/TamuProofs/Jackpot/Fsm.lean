import Mathlib.Data.Nat.Init
import Mathlib.Order.Basic
import Mathlib.Tactic.Common

/-!
The state machine of `jackpot.v`, clock edge by clock edge. The player stops a running light by pushing the
switches, and wins if they are the pattern that was on when the push was seen. The pattern itself, which runs
on a slower clock, is an input here.

`zero_between` is why a switch that is held down wins nothing: after a try the machine is back in `IDLE` only
by an edge at which all switches are off. **`trace_fair`** puts it together with how `WIN` is entered and left.
-/

namespace TamuProofs.Jackpot

/-! ### The state machine -/

inductive State
  | idle
  | pushed
  | missed
  | win
  deriving DecidableEq, Repr

structure Input where
  switches : BitVec 4
  reset : Bool
  ledPattern : BitVec 4
  deriving DecidableEq, Repr

/-- The registers of the module that the machine uses. -/
structure Fsm where
  state : State
  leds : BitVec 4
  deriving DecidableEq, Repr

/-- The `always` block at a rising edge of `CLOCK`. -/
def Fsm.onClk (s : Fsm) (i : Input) : Fsm :=
  match s.state with
  | .idle => { state := if i.switches ≠ 0 then .pushed else .idle, leds := i.ledPattern }
  | .pushed => { s with state := if i.switches ≠ s.leds then .missed else .win }
  | .missed => { state := if i.switches = 0 then .idle else .missed, leds := i.ledPattern }
  | .win =>
    { state := if i.reset then (if i.switches ≠ 0 then .missed else .idle) else .win, leds := 0b1111 }

def trace (leds : BitVec 4) (inp : ℕ → Input) : ℕ → Fsm
  | 0 => { state := .idle, leds := leds }
  | n + 1 => (trace leds inp n).onClk (inp n)

/-! ### One edge -/

section Edge

variable {s : Fsm} {i : Input}

theorem state_of_pushed (h : s.state = .pushed) : (s.onClk i).state = .missed ∨ (s.onClk i).state = .win := by
  by_cases hsw : i.switches = s.leds <;> simp [Fsm.onClk, h, hsw]

theorem state_of_tried (h : s.state = .missed ∨ s.state = .win) :
    i.switches = 0 ∨ (s.onClk i).state = .missed ∨ (s.onClk i).state = .win := by
  by_cases hsw : i.switches = 0
  · exact .inl hsw
  · rcases h with h | h
    · exact .inr (.inl (by simp only [Fsm.onClk, h, if_neg hsw]))
    · cases hr : i.reset with
      | true => exact .inr (.inl (by simp only [Fsm.onClk, h, hr, if_pos, if_pos hsw]))
      | false => exact .inr (.inr (by simp [Fsm.onClk, h, hr]))

/-- `PUSHED` is entered from `IDLE`, and the pattern is latched by that edge. -/
theorem pushed_entered (h : (s.onClk i).state = .pushed) : s.state = .idle ∧ (s.onClk i).leds = i.ledPattern := by
  unfold Fsm.onClk at h ⊢
  cases hs : s.state with
  | idle => exact ⟨rfl, rfl⟩
  | pushed => rw [hs] at h; dsimp only at h; split_ifs at h
  | missed => rw [hs] at h; dsimp only at h; split_ifs at h
  | win => rw [hs] at h; dsimp only at h; split_ifs at h

theorem win_entered (hs : s.state ≠ .win) (h : (s.onClk i).state = .win) :
    s.state = .pushed ∧ i.switches = s.leds := by
  unfold Fsm.onClk at h
  cases hst : s.state with
  | idle => rw [hst] at h; dsimp only at h; split_ifs at h
  | pushed =>
    rw [hst] at h
    dsimp only at h
    split_ifs at h with hsw
    exact ⟨rfl, not_not.1 hsw⟩
  | missed => rw [hst] at h; dsimp only at h; split_ifs at h
  | win => exact absurd hst hs

theorem win_left (hs : s.state = .win) (h : (s.onClk i).state ≠ .win) : i.reset = true := by
  by_contra hr
  simp [Fsm.onClk, hs, hr] at h

end Edge

/-! ### Traces -/

section Trace

variable {leds : BitVec 4} {inp : ℕ → Input}

theorem tried_until_zero {i : ℕ} (hi : (trace leds inp i).state = .pushed) {n : ℕ} (hn : i + 1 ≤ n) :
    (∃ k, i < k ∧ k < n ∧ (inp k).switches = 0) ∨ (trace leds inp n).state = .missed ∨
      (trace leds inp n).state = .win := by
  induction n, hn using Nat.le_induction with
  | base => exact .inr (state_of_pushed hi)
  | succ n hn ih =>
    rcases ih with ⟨k, hik, hkn, hk⟩ | htried
    · exact .inl ⟨k, hik, by omega, hk⟩
    · rcases state_of_tried (i := inp n) htried with hzero | hst
      · exact .inl ⟨n, by omega, by omega, hzero⟩
      · exact .inr hst

/-- **One try for each release**: between two tries the switches are off at some edge. -/
theorem zero_between {i j : ℕ} (hij : i < j) (hi : (trace leds inp i).state = .pushed)
    (hj : (trace leds inp j).state = .pushed) : ∃ k, i < k ∧ k < j ∧ (inp k).switches = 0 := by
  rcases tried_until_zero hi hij with hzero | htried | htried
  · exact hzero
  · rw [hj] at htried
    cases htried
  · rw [hj] at htried
    cases htried

/-- In `PUSHED` the lights are the pattern of the edge that left `IDLE`, which was the last one. -/
theorem pushed_latched {n : ℕ} (h : (trace leds inp n).state = .pushed) :
    ∃ m, n = m + 1 ∧ (trace leds inp m).state = .idle ∧ (trace leds inp n).leds = (inp m).ledPattern := by
  cases n with
  | zero => cases h
  | succ m =>
    obtain ⟨hidle, hleds⟩ := pushed_entered h
    exact ⟨m, rfl, hidle, hleds⟩

end Trace

/-- What a trace owes the player and the house: a release between any two tries; a win only from a try whose
switches are the pattern latched at the edge that left `IDLE`; a win that ends only with `RESET`. -/
structure Fair (t : ℕ → Fsm) (inp : ℕ → Input) : Prop where
  released : ∀ i j, i < j → (t i).state = .pushed → (t j).state = .pushed →
    ∃ k, i < k ∧ k < j ∧ (inp k).switches = 0
  won : ∀ n, (t n).state ≠ .win → (t (n + 1)).state = .win → (t n).state = .pushed ∧
    ∃ m, n = m + 1 ∧ (t m).state = .idle ∧ (inp n).switches = (inp m).ledPattern
  kept : ∀ n, (t n).state = .win → (t (n + 1)).state ≠ .win → (inp n).reset = true

/-- **The game is fair**, for all inputs at every clock edge. -/
theorem trace_fair (leds : BitVec 4) (inp : ℕ → Input) : Fair (trace leds inp) inp where
  released _ _ hij hi hj := zero_between hij hi hj
  won n hn hwin := by
    obtain ⟨hpushed, hsw⟩ := win_entered hn hwin
    obtain ⟨m, hm, hidle, hleds⟩ := pushed_latched hpushed
    exact ⟨hpushed, m, hm, hidle, hsw.trans hleds⟩
  kept _ hwin hleft := win_left hwin hleft

end TamuProofs.Jackpot
