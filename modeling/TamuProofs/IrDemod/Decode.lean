import TamuProofs.IrDemod.Core

/-!
The demodulator decodes every well-formed transmission. A `Frame` is one word on the wire, by the phases
that carry it: phases of noise, a start mark, then the twelve bits of the word, most significant first.

`Holding w k` is the state after the first `k` bits of `w`: `pulse_idx` counts them and `temp_reg0` has them
in its top places, with zeros below. `holding_start` begins it, `holding_bit` takes it one bit further,
`run_last` turns the twelfth bit into a message.

**`decodes_words`**: after the last rising edge of each word of a transmission `slv_reg0` is the word and
`slv_reg1` has counted the words so far.
-/

namespace TamuProofs.IrDemod

/-! ### Frames -/

/-- One word on the wire: noise, a start mark, and the twelve bits by their place from the top. -/
structure Frame where
  word : BitVec 12
  noise : List Phase
  start : Phase
  bits : Nat → Phase
  noise_isNoise : ∀ p ∈ noise, p.IsNoise
  start_isStart : start.IsStart
  bits_isBit : ∀ k < 12, (bits k).IsBit (word.getMsbD k)

namespace Frame

def toLastRise (f : Frame) : List Edge :=
  f.noise.flatMap Phase.edges ++ f.start.edges ++ (List.range 11).flatMap (fun k => (f.bits k).edges) ++
    (f.bits 11).toRise

def edges (f : Frame) : List Edge := f.toLastRise ++ List.replicate (f.bits 11).high (.clk true)

end Frame

/-- The waveform of a transmission: a high phase, and the frames. -/
def wave (hold : Nat) (frames : List Frame) : List Edge :=
  List.replicate hold (.clk true) ++ frames.flatMap Frame.edges

/-! ### Bits of the temporary register -/

theorem getLsbD_setBit (x : BitVec 12) (i : Nat) (b : Bool) (j : Nat) (hj : j < 12) :
    (setBit x i b).getLsbD j = if j = i then b else x.getLsbD j := by
  unfold setBit
  cases b with
  | true =>
    rw [if_pos rfl, BitVec.getLsbD_or, BitVec.getLsbD_twoPow]
    by_cases h : j = i
    · subst h; simp [hj]
    · have hne : ¬ i = j := fun he => h he.symm
      simp [h, hne]
  | false =>
    rw [if_neg Bool.false_ne_true, BitVec.getLsbD_and, BitVec.getLsbD_not, BitVec.getLsbD_twoPow]
    by_cases h : j = i
    · subst h; simp [hj]
    · have hne : ¬ i = j := fun he => h he.symm
      simp [h, hj, hne]

/-- Adding the last bit to a register whose place for it is empty sets it. -/
theorem setWidth_add_last (x w : BitVec 12)
    (hx : ∀ i < 12, x.getLsbD i = (decide (12 ≤ i + 11) && w.getLsbD i)) (hw : w.getLsbD 0 = true) :
    x.setWidth 32 + 1 = w.setWidth 32 := by
  have h0 : x.getLsbD 0 = false := by simpa using hx 0 (by omega)
  have hand : x.setWidth 32 &&& 1 = 0 := by
    apply BitVec.eq_of_getLsbD_eq
    intro i _
    by_cases hi : i = 0
    · subst hi
      rw [BitVec.getLsbD_and, BitVec.getLsbD_setWidth, h0]
      simp
    · simp [hi]
  rw [BitVec.add_eq_or_of_and_eq_zero _ _ hand]
  apply BitVec.eq_of_getLsbD_eq
  intro i hi
  by_cases h : i = 0
  · subst h; simp [hw]
  · by_cases h12 : i < 12
    · have hd : 12 ≤ i + 11 := by omega
      simp [h, hi, hx i h12, hd]
    · simp [h, BitVec.getLsbD_of_ge x i (by omega), BitVec.getLsbD_of_ge w i (by omega)]

/-- The register with the first eleven bits of a word, and the last bit, make the word. -/
theorem setWidth_add_bit (x w : BitVec 12)
    (hx : ∀ i < 12, x.getLsbD i = (decide (12 ≤ i + 11) && w.getLsbD i)) :
    x.setWidth 32 + (if w.getLsbD 0 then 1 else 0) = w.setWidth 32 := by
  cases hb : w.getLsbD 0 with
  | true =>
    rw [if_pos rfl]
    exact setWidth_add_last _ _ hx hb
  | false =>
    have hxw : x = w := by
      apply BitVec.eq_of_getLsbD_eq
      intro i hi
      rw [hx i hi]
      by_cases h : i = 0
      · subst h
        rw [hb, Bool.and_false]
      · simp [show 12 ≤ i + 11 by omega]
    rw [if_neg Bool.false_ne_true, hxw]
    exact BitVec.add_zero _

namespace Demod

/-! ### One phase, by its class -/

theorem run_start {s : Demod} (hs : s.Idle) {p : Phase} (hp : p.IsStart) :
    (s.run p.edges).Idle ∧ (s.run p.edges).tempReg0 = 0 ∧ (s.run p.edges).pulseIdx = 0 ∧
      (s.run p.edges).slvReg1 = s.slvReg1 := by
  obtain ⟨c, hrun, hidle⟩ := run_phase hs p
  refine ⟨hidle, ?_⟩
  rw [hrun, run_toRise hs, timed, hp.pulse]
  exact ⟨rfl, rfl, rfl⟩

theorem run_noise {s : Demod} (hs : s.Idle) {p : Phase} (hp : p.IsNoise) :
    (s.run p.edges).Idle ∧ (s.run p.edges).slvReg1 = s.slvReg1 := by
  obtain ⟨c, hrun, hidle⟩ := run_phase hs p
  refine ⟨hidle, ?_⟩
  rw [hrun, run_toRise hs, timed, hp.pulse]
  rfl

theorem run_bit {s : Demod} (hs : s.Idle) {p : Phase} {b : Bool} (hp : p.IsBit b) (hidx : s.pulseIdx < 11) :
    (s.run p.edges).Idle ∧ (s.run p.edges).tempReg0 = setBit s.tempReg0 (11 - s.pulseIdx.toNat) b ∧
      (s.run p.edges).pulseIdx = s.pulseIdx + 1 ∧ (s.run p.edges).slvReg1 = s.slvReg1 := by
  obtain ⟨c, hrun, hidle⟩ := run_phase hs p
  refine ⟨hidle, ?_⟩
  rw [hrun, run_toRise hs, onRise_bit (s := s.timed p) hp.pulse hidx]
  exact ⟨rfl, rfl, rfl⟩

theorem run_last {s : Demod} (hs : s.Idle) {p : Phase} {b : Bool} (hp : p.IsBit b) (hidx : s.pulseIdx = 11) :
    (s.run p.toRise).slvReg0 = s.tempReg0.setWidth 32 + (if b then 1 else 0) ∧
      (s.run p.toRise).slvReg1 = s.slvReg1 + 1 := by
  rw [run_toRise hs, onRise_last (s := s.timed p) hp.pulse hidx]
  exact ⟨rfl, pushed_slvReg1 _ _⟩

/-! ### The bits of a word -/

/-- The demodulator after the first `k` bits of the word `w`, with `n` counted so far. -/
structure Holding (w : BitVec 12) (n : BitVec 32) (k : Nat) (s : Demod) : Prop where
  idle : s.Idle
  idx : s.pulseIdx = BitVec.ofNat 4 k
  temp : ∀ i < 12, s.tempReg0.getLsbD i = (decide (12 ≤ i + k) && w.getLsbD i)
  count : s.slvReg1 = n

theorem holding_start {s : Demod} (hs : s.Idle) {p : Phase} (hp : p.IsStart) (w : BitVec 12) :
    Holding w s.slvReg1 0 (s.run p.edges) := by
  obtain ⟨hidle, htemp, hidx, hcount⟩ := run_start hs hp
  refine ⟨hidle, hidx, fun i hi => ?_, hcount⟩
  have hd : ¬ 12 ≤ i + 0 := by omega
  rw [htemp, decide_eq_false hd]
  simp

theorem holding_bit {s : Demod} {w : BitVec 12} {n : BitVec 32} {k : Nat} (hs : Holding w n k s) (hk : k < 11)
    {p : Phase} (hp : p.IsBit (w.getMsbD k)) : Holding w n (k + 1) (s.run p.edges) := by
  have hnat : s.pulseIdx.toNat = k := by
    rw [hs.idx, BitVec.toNat_ofNat]
    exact Nat.mod_eq_of_lt (by omega)
  have hlt : s.pulseIdx < 11 := by
    rw [BitVec.lt_def, hnat]
    exact hk
  obtain ⟨hidle, htemp, hidx, hcount⟩ := run_bit hs.idle hp hlt
  refine ⟨hidle, ?_, fun i hi => ?_, hcount.trans hs.count⟩
  · rw [hidx, hs.idx, BitVec.ofNat_add]
    rfl
  · rw [htemp, hnat, getLsbD_setBit _ _ _ _ hi, hs.temp i hi]
    by_cases h : i = 11 - k
    · have hge : 12 ≤ i + (k + 1) := by omega
      have hmsb : w.getMsbD k = w.getLsbD i := by
        rw [BitVec.getMsbD_eq_getLsbD, h]
        simp [show k < 12 by omega]
      rw [if_pos h, hmsb]
      simp [hge]
    · have hiff : 12 ≤ i + k ↔ 12 ≤ i + (k + 1) := by omega
      rw [if_neg h]
      simp only [hiff]

theorem holding_bits (f : Frame) {s : Demod} {c : BitVec 32} (hs : Holding f.word c 0 s) : ∀ n ≤ 11,
    Holding f.word c n (s.run ((List.range n).flatMap fun k => (f.bits k).edges)) := by
  intro n
  induction n with
  | zero => intro _; exact hs
  | succ n ih =>
    intro hn
    have hbit := holding_bit (ih (by omega)) (by omega) (f.bits_isBit n (by omega))
    rw [List.range_succ, List.flatMap_append, run_append]
    simpa using hbit

theorem holding_last {s : Demod} {w : BitVec 12} {n : BitVec 32} (hs : Holding w n 11 s) {p : Phase}
    (hp : p.IsBit (w.getMsbD 11)) :
    (s.run p.toRise).slvReg0 = w.setWidth 32 ∧ (s.run p.toRise).slvReg1 = n + 1 := by
  obtain ⟨hmsg, hcount⟩ := run_last hs.idle hp hs.idx
  have hlsb : w.getMsbD 11 = w.getLsbD 0 := by simp [BitVec.getMsbD_eq_getLsbD]
  refine ⟨?_, by rw [hcount, hs.count]⟩
  rw [hmsg, hlsb]
  exact setWidth_add_bit _ _ hs.temp

/-! ### Frames and transmissions -/

theorem run_noises {s : Demod} (hs : s.Idle) : ∀ ps : List Phase, (∀ p ∈ ps, p.IsNoise) →
    (s.run (ps.flatMap Phase.edges)).Idle ∧ (s.run (ps.flatMap Phase.edges)).slvReg1 = s.slvReg1 := by
  intro ps
  induction ps generalizing s with
  | nil => intro _; exact ⟨hs, rfl⟩
  | cons p ps ih =>
    intro hp
    obtain ⟨hidle, hcount⟩ := run_noise hs (hp p List.mem_cons_self)
    obtain ⟨hidle', hcount'⟩ := ih hidle fun q hq => hp q (List.mem_cons_of_mem p hq)
    rw [List.flatMap_cons, run_append]
    exact ⟨hidle', hcount'.trans hcount⟩

theorem holding_frame {s : Demod} (hs : s.Idle) (f : Frame) :
    ∃ t, s.run f.toLastRise = Demod.run t (f.bits 11).toRise ∧ Holding f.word s.slvReg1 11 t := by
  obtain ⟨hidle, hcount⟩ := run_noises hs f.noise f.noise_isNoise
  have hstart := holding_start hidle f.start_isStart f.word
  have hbits := holding_bits f hstart 11 (by omega)
  refine ⟨_, ?_, hcount ▸ hbits⟩
  rw [Frame.toLastRise, run_append, run_append, run_append]

theorem run_frame {s : Demod} (hs : s.Idle) (f : Frame) :
    (s.run f.toLastRise).slvReg0 = f.word.setWidth 32 ∧ (s.run f.toLastRise).slvReg1 = s.slvReg1 + 1 := by
  obtain ⟨t, hrun, hold⟩ := holding_frame hs f
  rw [hrun]
  exact holding_last hold (f.bits_isBit 11 (by omega))

/-- A frame leaves the demodulator ready for the next one. -/
theorem run_frame_idle {s : Demod} (hs : s.Idle) (f : Frame) :
    (s.run f.edges).Idle ∧ (s.run f.edges).slvReg1 = s.slvReg1 + 1 := by
  obtain ⟨t, hrun, hold⟩ := holding_frame hs f
  have hedges : s.run f.edges = Demod.run t (f.bits 11).edges := by
    rw [Frame.edges, run_append, hrun, Phase.edges, run_append]
  obtain ⟨c, hc, hidle⟩ := run_phase hold.idle (f.bits 11)
  rw [hedges]
  refine ⟨hidle, ?_⟩
  rw [hc, ← (run_frame hs f).2, hrun]

theorem run_frames {s : Demod} (hs : s.Idle) : ∀ fs : List Frame,
    (s.run (fs.flatMap Frame.edges)).Idle ∧
      (s.run (fs.flatMap Frame.edges)).slvReg1 = s.slvReg1 + BitVec.ofNat 32 fs.length := by
  intro fs
  induction fs generalizing s with
  | nil => exact ⟨hs, (BitVec.add_zero _).symm⟩
  | cons f fs ih =>
    obtain ⟨hidle, hcount⟩ := run_frame_idle hs f
    obtain ⟨hidle', hcount'⟩ := ih hidle
    rw [List.flatMap_cons, run_append]
    refine ⟨hidle', ?_⟩
    rw [hcount', hcount, BitVec.add_assoc, List.length_cons, Nat.add_comm, BitVec.ofNat_add]
    rfl

end Demod

open Demod

/-- **Every well-formed transmission is decoded.** From any state of the registers with the signal high,
after the last rising edge of each word `slv_reg0` is the word and `slv_reg1` has counted one more; over a
whole transmission it has counted all of them. -/
theorem decodes_words (s : Demod) (hs : s.irSignal = true) {hold : Nat} (hhold : 1 ≤ hold)
    (frames : List Frame) :
    (∀ before f after, frames = before ++ f :: after →
      wave hold before ++ f.toLastRise <+: wave hold frames ∧
      (s.run (wave hold before ++ f.toLastRise)).slvReg0 = f.word.setWidth 32 ∧
      (s.run (wave hold before ++ f.toLastRise)).slvReg1 =
        s.slvReg1 + BitVec.ofNat 32 (before.length + 1)) ∧
    (s.run (wave hold frames)).slvReg1 = s.slvReg1 + BitVec.ofNat 32 frames.length := by
  obtain ⟨c, hc⟩ := run_hold hs hhold
  have hidle : (s.run (List.replicate hold (.clk true))).Idle := by
    rw [hc]
    exact ⟨hs, rfl⟩
  have hcount : (s.run (List.replicate hold (.clk true))).slvReg1 = s.slvReg1 := by rw [hc]
  -- between two frames the demodulator waits, with all of them counted
  have hwave : ∀ fs, (s.run (wave hold fs)).Idle ∧
      (s.run (wave hold fs)).slvReg1 = s.slvReg1 + BitVec.ofNat 32 fs.length := by
    intro fs
    obtain ⟨h1, h2⟩ := run_frames hidle fs
    rw [wave, run_append]
    exact ⟨h1, by rw [h2, hcount]⟩
  refine ⟨?_, (hwave frames).2⟩
  rintro before f after rfl
  obtain ⟨hmsg, hone⟩ := run_frame (hwave before).1 f
  refine ⟨?_, ?_, ?_⟩
  · refine ⟨List.replicate (f.bits 11).high (.clk true) ++ after.flatMap Frame.edges, ?_⟩
    simp [wave, Frame.edges, List.flatMap_append]
  · rw [run_append, hmsg]
  · rw [run_append, hone, (hwave before).2, BitVec.add_assoc, BitVec.ofNat_add]
    rfl

/-! ### A transmission of one word -/

def Phase.ofBit (b : Bool) : Phase where
  low := if b then 90000 else 45000
  high := 1
  low_pos := by cases b <;> simp
  low_lt := by cases b <;> simp
  high_pos := by omega

def Frame.ofWord (w : BitVec 12) : Frame where
  word := w
  noise := [⟨1, 1, by omega, by omega, by omega⟩]
  start := ⟨180000, 1, by omega, by omega, by omega⟩
  bits k := .ofBit (w.getMsbD k)
  noise_isNoise := by simp [Phase.IsNoise, Phase.IsStart, Phase.IsBit]
  start_isStart := by simp [Phase.IsStart]
  bits_isBit k _ := by cases h : w.getMsbD k <;> simp [Phase.IsBit, Phase.ofBit]

def Demod.full : Demod := ⟨true, 7, .len0, 3, 5, 9, 4294967295⟩

theorem decodes_words_wrap :
    (Demod.full.run (wave 1 [] ++ (Frame.ofWord 0xA81).toLastRise)).slvReg0 = 0xA81 ∧
      (Demod.full.run (wave 1 [.ofWord 0xA81, .ofWord 0x7FF])).slvReg1 = 1 := by
  obtain ⟨heach, hall⟩ := decodes_words .full rfl (Nat.le_refl 1) [.ofWord 0xA81, .ofWord 0x7FF]
  obtain ⟨-, hword, -⟩ := heach [] _ _ rfl
  exact ⟨hword, hall⟩

end TamuProofs.IrDemod
