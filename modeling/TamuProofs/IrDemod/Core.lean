import Mathlib.Algebra.Ring.Nat
import Mathlib.Data.List.Basic
import Mathlib.Tactic.Common

/-!
The demodulator of `ir_demod_v2_0_S00_AXI.v`, edge by edge. Two clocks drive it: the rising edges of
`S_AXI_ACLK` count how long `IR_signal` has been low and classify the count, the rising edges of
`IR_signal` take the class of the pulse that just ended and build the message.

* `Demod.onClk`, `Demod.onRise` — the two `always` blocks;
* `Demod.run` — any interleaving of the edges of the two signals;
* `Phase` — one low phase of `IR_signal` and the high phase after it, by the clock edges in each;
* `run_toRise`, `run_phase` — what one phase does: the class sampled after `n` low clock edges is that of
  the count `n - 1`, both registers being written from their old values.
-/

namespace TamuProofs.IrDemod

/-! ### Registers and edges -/

inductive PulseState
  | start
  | len0
  | len1
  | other
  deriving DecidableEq, Repr

/-- The registers of the demodulator, and the level of its input. -/
structure Demod where
  irSignal : Bool
  pulseLengthCounter : BitVec 32
  state : PulseState
  pulseIdx : BitVec 4
  tempReg0 : BitVec 12
  slvReg0 : BitVec 32
  slvReg1 : BitVec 32
  deriving DecidableEq, Repr

/-- An edge of `S_AXI_ACLK`, with the level of `S_AXI_ARESETN` at it, or of `IR_signal`. -/
inductive Edge
  | clk (aresetn : Bool)
  | fall
  | rise
  deriving DecidableEq, Repr

def classify (count : BitVec 32) : PulseState :=
  if 40000 < count ∧ count ≤ 50000 then .len0
  else if 85000 < count ∧ count ≤ 95000 then .len1
  else if 175000 < count ∧ count ≤ 185000 then .start
  else .other

theorem classify_ofNat {n : Nat} (hn : n < 2 ^ 32) : classify (BitVec.ofNat 32 n) =
    if 40000 < n ∧ n ≤ 50000 then .len0
    else if 85000 < n ∧ n ≤ 95000 then .len1
    else if 175000 < n ∧ n ≤ 185000 then .start
    else .other := by
  have hmod : n % 4294967296 = n := Nat.mod_eq_of_lt hn
  simp [classify, BitVec.lt_def, BitVec.le_def, hmod]

/-- `temp_reg0[i] <= b`. -/
def setBit (x : BitVec 12) (i : Nat) (b : Bool) : BitVec 12 :=
  if b then x ||| BitVec.twoPow 12 i else x &&& ~~~ BitVec.twoPow 12 i

namespace Demod

/-- The first `always` block. Both assignments are non-blocking: the class is that of the old count. -/
def onClk (s : Demod) (aresetn : Bool) : Demod :=
  if !aresetn then { s with pulseLengthCounter := 0, state := .other }
  else
    { s with
      pulseLengthCounter := if !s.irSignal then s.pulseLengthCounter + 1 else 0
      state := classify s.pulseLengthCounter }

/-- A decoded message: `slv_reg0` takes it and `slv_reg1` counts it. -/
def pushed (s : Demod) (msg : BitVec 32) : Demod :=
  { s with slvReg0 := msg, slvReg1 := if 1 ≤ s.slvReg1 then s.slvReg1 + 1 else 1 }

/-- The second `always` block, on the rising edge of `IR_signal`. -/
def onRise (s : Demod) : Demod :=
  match s.state with
  | .start => { s with tempReg0 := 0, pulseIdx := 0 }
  | .len0 =>
    if s.pulseIdx < 11 then
      { s with tempReg0 := setBit s.tempReg0 (11 - s.pulseIdx.toNat) false, pulseIdx := s.pulseIdx + 1 }
    else if s.pulseIdx = 11 then s.pushed (s.tempReg0.setWidth 32)
    else s
  | .len1 =>
    if s.pulseIdx < 11 then
      { s with tempReg0 := setBit s.tempReg0 (11 - s.pulseIdx.toNat) true, pulseIdx := s.pulseIdx + 1 }
    else if s.pulseIdx = 11 then s.pushed (s.tempReg0.setWidth 32 + 1)
    else s
  | .other => { s with pulseIdx := 15 }

/-- One edge. A rising edge of a signal that is already high is none. -/
def step (s : Demod) : Edge → Demod
  | .clk aresetn => s.onClk aresetn
  | .fall => { s with irSignal := false }
  | .rise => if s.irSignal then s else { s.onRise with irSignal := true }

def run (s : Demod) (edges : List Edge) : Demod := edges.foldl step s

@[simp] theorem run_nil (s : Demod) : s.run [] = s := rfl

@[simp] theorem run_cons (s : Demod) (e : Edge) (es : List Edge) : s.run (e :: es) = (s.step e).run es := rfl

theorem run_append (s : Demod) (es fs : List Edge) : s.run (es ++ fs) = (s.run es).run fs :=
  List.foldl_append

/-! ### What a rising edge does to the message registers -/

/-- The counter of messages wraps like any other: starting at 1 from 0 is counting from 0. -/
theorem pushed_slvReg1 (s : Demod) (msg : BitVec 32) : (s.pushed msg).slvReg1 = s.slvReg1 + 1 := by
  unfold pushed
  dsimp only
  split
  · rfl
  · have h0 : s.slvReg1 = 0 := by grind
    rw [h0]
    rfl

theorem onRise_bit {s : Demod} {b : Bool} (hs : s.state = if b then .len1 else .len0) (hidx : s.pulseIdx < 11) :
    s.onRise = { s with tempReg0 := setBit s.tempReg0 (11 - s.pulseIdx.toNat) b, pulseIdx := s.pulseIdx + 1 } := by
  unfold onRise
  cases b with
  | true =>
    rw [hs, if_pos rfl]
    exact if_pos hidx
  | false =>
    rw [hs, if_neg Bool.false_ne_true]
    exact if_pos hidx

theorem onRise_last {s : Demod} {b : Bool} (hs : s.state = if b then .len1 else .len0) (hidx : s.pulseIdx = 11) :
    s.onRise = s.pushed (s.tempReg0.setWidth 32 + if b then 1 else 0) := by
  have hnot : ¬ s.pulseIdx < 11 := by simp [hidx]
  unfold onRise
  cases b with
  | true =>
    rw [hs, if_pos rfl]
    exact (if_neg hnot).trans (if_pos hidx)
  | false =>
    rw [hs, if_neg Bool.false_ne_true, if_neg Bool.false_ne_true, show ∀ x : BitVec 32, x + 0 = x from
      BitVec.add_zero]
    exact (if_neg hnot).trans (if_pos hidx)

theorem onRise_irSignal (s : Demod) (b : Bool) :
    ({ s with irSignal := b } : Demod).onRise = { s.onRise with irSignal := b } := by
  obtain ⟨_, _, c, _, _, _, _⟩ := s
  unfold onRise pushed
  cases c with
  | start => rfl
  | len0 => dsimp only; split_ifs <;> rfl
  | len1 => dsimp only; split_ifs <;> rfl
  | other => rfl

/-! ### Clock edges at one level of the signal -/

/-- Low clock edges count, and leave the class of the count before the last of them. -/
theorem run_low : ∀ (n : Nat) (s : Demod), s.irSignal = false →
    s.run (List.replicate (n + 1) (.clk true)) =
      { s with
        pulseLengthCounter := s.pulseLengthCounter + BitVec.ofNat 32 (n + 1)
        state := classify (s.pulseLengthCounter + BitVec.ofNat 32 n) } := by
  intro n
  induction n with
  | zero =>
    intro s hs
    simp [step, onClk, hs]
  | succ n ih =>
    intro s hs
    have hstep : s.step (.clk true) =
        { s with pulseLengthCounter := s.pulseLengthCounter + 1, state := classify s.pulseLengthCounter } := by
      simp [step, onClk, hs]
    have hadd : ∀ m : Nat, s.pulseLengthCounter + 1 + BitVec.ofNat 32 m =
        s.pulseLengthCounter + BitVec.ofNat 32 (m + 1) := by
      intro m
      rw [BitVec.add_assoc, BitVec.add_comm 1, BitVec.ofNat_add]
      rfl
    have hs' : (s.step (.clk true)).irSignal = false := by rw [hstep]; exact hs
    rw [List.replicate_succ, run_cons, ih _ hs', hstep]
    simp only [hadd]

/-- High clock edges clear the counter and touch nothing but it and the class. -/
theorem run_high : ∀ (n : Nat) (s : Demod), s.irSignal = true →
    ∃ c, s.run (List.replicate (n + 1) (.clk true)) = { s with pulseLengthCounter := 0, state := c } := by
  intro n
  induction n with
  | zero =>
    intro s hs
    exact ⟨classify s.pulseLengthCounter, by simp [step, onClk, hs]⟩
  | succ n ih =>
    intro s hs
    have hstep : s.step (.clk true) =
        { s with pulseLengthCounter := 0, state := classify s.pulseLengthCounter } := by
      simp [step, onClk, hs]
    have hs' : (s.step (.clk true)).irSignal = true := by rw [hstep]; exact hs
    obtain ⟨c, hc⟩ := ih _ hs'
    refine ⟨c, ?_⟩
    rw [List.replicate_succ, run_cons, hc, hstep]

end Demod

/-! ### Phases -/

/-- A low phase of `IR_signal` and the high phase after it, by the number of rising edges of `S_AXI_ACLK`
in each. -/
structure Phase where
  low : Nat
  high : Nat
  low_pos : 1 ≤ low
  low_lt : low < 2 ^ 32
  high_pos : 1 ≤ high

namespace Phase

def toRise (p : Phase) : List Edge := .fall :: List.replicate p.low (.clk true) ++ [.rise]

def edges (p : Phase) : List Edge := p.toRise ++ List.replicate p.high (.clk true)

/-- The class the demodulator samples at the end of the low phase. -/
def pulse (p : Phase) : PulseState := classify (BitVec.ofNat 32 (p.low - 1))

def IsStart (p : Phase) : Prop := 175002 ≤ p.low ∧ p.low ≤ 185001

def IsBit (b : Bool) (p : Phase) : Prop :=
  if b then 85002 ≤ p.low ∧ p.low ≤ 95001 else 40002 ≤ p.low ∧ p.low ≤ 50001

def IsNoise (p : Phase) : Prop := ¬ p.IsStart ∧ ¬ p.IsBit true ∧ ¬ p.IsBit false

/-- The classes by the number of clock edges: the windows of `classify`, moved by one. -/
theorem pulse_eq (p : Phase) : p.pulse =
    if 40002 ≤ p.low ∧ p.low ≤ 50001 then .len0
    else if 85002 ≤ p.low ∧ p.low ≤ 95001 then .len1
    else if 175002 ≤ p.low ∧ p.low ≤ 185001 then .start
    else .other := by
  have hpos := p.low_pos
  have hlt := p.low_lt
  have h0 : (40000 < p.low - 1 ∧ p.low - 1 ≤ 50000) ↔ 40002 ≤ p.low ∧ p.low ≤ 50001 := by omega
  have h1 : (85000 < p.low - 1 ∧ p.low - 1 ≤ 95000) ↔ 85002 ≤ p.low ∧ p.low ≤ 95001 := by omega
  have hs : (175000 < p.low - 1 ∧ p.low - 1 ≤ 185000) ↔ 175002 ≤ p.low ∧ p.low ≤ 185001 := by omega
  rw [pulse, classify_ofNat (by omega)]
  simp only [h0, h1, hs]

theorem IsStart.pulse {p : Phase} (h : p.IsStart) : p.pulse = .start := by
  obtain ⟨h1, h2⟩ := h
  rw [pulse_eq, if_neg (by omega), if_neg (by omega), if_pos ⟨h1, h2⟩]

theorem IsBit.pulse {p : Phase} {b : Bool} (h : p.IsBit b) : p.pulse = if b then .len1 else .len0 := by
  cases b with
  | true =>
    obtain ⟨h1, h2⟩ := h
    rw [pulse_eq, if_neg (by omega), if_pos ⟨h1, h2⟩, if_pos rfl]
  | false =>
    obtain ⟨h1, h2⟩ := h
    rw [pulse_eq, if_pos ⟨h1, h2⟩, if_neg Bool.false_ne_true]

theorem IsNoise.pulse {p : Phase} (h : p.IsNoise) : p.pulse = .other := by
  obtain ⟨hs, h1, h0⟩ := h
  rw [pulse_eq, if_neg (by exact h0), if_neg (by exact h1), if_neg (by exact hs)]

end Phase

namespace Demod

/-- The signal is high and the counter has been cleared: where every phase begins. -/
def Idle (s : Demod) : Prop := s.irSignal = true ∧ s.pulseLengthCounter = 0

def timed (s : Demod) (p : Phase) : Demod :=
  { s with pulseLengthCounter := BitVec.ofNat 32 p.low, state := p.pulse }

/-- **One low phase**: at its rising edge the second block runs on the class of the phase. -/
theorem run_toRise {s : Demod} (hs : s.Idle) (p : Phase) : s.run p.toRise = (s.timed p).onRise := by
  have hpos := p.low_pos
  obtain ⟨n, hn⟩ : ∃ n, p.low = n + 1 := ⟨p.low - 1, by omega⟩
  have hlow := run_low n ({ s with irSignal := false } : Demod) rfl
  have hrun : s.run p.toRise =
      (({ s with irSignal := false } : Demod).run (List.replicate p.low (.clk true))).run [.rise] := by
    rw [Phase.toRise, List.cons_append, run_cons, run_append]
    rfl
  have hclass : classify (BitVec.ofNat 32 n) = p.pulse := by
    rw [Phase.pulse, hn, Nat.add_sub_cancel]
  have hzero : ∀ x : BitVec 32, s.pulseLengthCounter + x = x := by
    intro x
    rw [hs.2]
    exact BitVec.zero_add x
  rw [hrun, hn, hlow]
  simp only [hzero, hclass]
  rw [run_cons, run_nil, step, if_neg Bool.false_ne_true]
  have hlevel := onRise_irSignal
    ({ s with pulseLengthCounter := BitVec.ofNat 32 (n + 1), state := p.pulse } : Demod)
  rw [hlevel false, ← hlevel true, ← hs.1, timed, hn]

theorem onRise_frame (s : Demod) :
    s.onRise.irSignal = s.irSignal ∧ s.onRise.pulseLengthCounter = s.pulseLengthCounter := by
  unfold onRise pushed
  cases s.state with
  | start => exact ⟨rfl, rfl⟩
  | len0 => dsimp only; split_ifs <;> exact ⟨rfl, rfl⟩
  | len1 => dsimp only; split_ifs <;> exact ⟨rfl, rfl⟩
  | other => exact ⟨rfl, rfl⟩

/-- A high phase of at least one clock edge ends where a low phase may begin. -/
theorem run_hold {s : Demod} (hs : s.irSignal = true) {n : Nat} (hn : 1 ≤ n) :
    ∃ c, s.run (List.replicate n (.clk true)) = { s with pulseLengthCounter := 0, state := c } := by
  obtain ⟨m, rfl⟩ : ∃ m, n = m + 1 := ⟨n - 1, by omega⟩
  exact run_high m s hs

/-- **One phase**: the registers of the second block are those after its rising edge, and the next phase
may begin. -/
theorem run_phase {s : Demod} (hs : s.Idle) (p : Phase) :
    ∃ c, s.run p.edges = { s.run p.toRise with pulseLengthCounter := 0, state := c } ∧
      (s.run p.edges).Idle := by
  have hlevel : (s.run p.toRise).irSignal = true := by
    rw [run_toRise hs, (onRise_frame _).1]
    exact hs.1
  obtain ⟨c, hc⟩ := run_hold hlevel p.high_pos
  refine ⟨c, ?_, ?_⟩
  · rw [Phase.edges, run_append, hc]
  · rw [Phase.edges, run_append, hc]
    exact ⟨hlevel, rfl⟩

end Demod

end TamuProofs.IrDemod
