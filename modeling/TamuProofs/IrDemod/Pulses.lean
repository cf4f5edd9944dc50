import Mathlib.Data.List.GetD
import Mathlib.Data.List.Induction
import TamuProofs.IrDemod.Decode

/-!
The two `always` blocks of the demodulator on signals that no transmitter sends: low phases of any length,
and pulses in any order.

`state_run_low` is the class sampled after `n` low clock edges: that of the count `n - 1`, which has 32 bits.

`Demod.rises` runs the block of the rising edges on the classes of a list of pulses. `Following s bits` is the
state after a start mark and the bits `bits`: `pulse_idx` counts them up to 11 and stays there, so that every
bit from the twelfth on makes a message. **`oneMessagePerStart_iff`**: there is one message for each complete
word exactly when no start mark is followed by more than twelve bits.
-/

namespace TamuProofs.IrDemod

open Demod

/-! ### Low phases of any length -/

/-- The number of low clock edges of a pulse stands in the window of one of the three classes. -/
def InWindow (n : Nat) : Prop :=
  (40002 ≤ n ∧ n ≤ 50001) ∨ (85002 ≤ n ∧ n ≤ 95001) ∨ (175002 ≤ n ∧ n ≤ 185001)

instance (n : Nat) : Decidable (InWindow n) := by unfold InWindow; infer_instance

/-- The class of a pulse of `n` low clock edges, by the windows alone. -/
def classOf (n : Nat) : PulseState :=
  if 40002 ≤ n ∧ n ≤ 50001 then .len0
  else if 85002 ≤ n ∧ n ≤ 95001 then .len1
  else if 175002 ≤ n ∧ n ≤ 185001 then .start
  else .other

theorem classOf_eq_other_iff (n : Nat) : classOf n = .other ↔ ¬ InWindow n := by
  unfold classOf InWindow
  split_ifs <;> simp <;> omega

def lowEdges (n : Nat) : List Edge := .fall :: List.replicate n (.clk true)

/-- The class at the end of a low phase of any length: the counter wraps at 2³². -/
theorem state_run_low {s : Demod} (hs : s.pulseLengthCounter = 0) {n : Nat} (hn : 1 ≤ n) :
    (s.run (lowEdges n)).state = classOf ((n - 1) % 2 ^ 32 + 1) := by
  obtain ⟨m, rfl⟩ : ∃ m, n = m + 1 := ⟨n - 1, by omega⟩
  have hlow := run_low m ({ s with irSignal := false } : Demod) rfl
  have hrun : s.run (lowEdges (m + 1)) =
      ({ s with irSignal := false } : Demod).run (List.replicate (m + 1) (.clk true)) := rfl
  have hmod : BitVec.ofNat 32 m = BitVec.ofNat 32 (m % 2 ^ 32) := by
    apply BitVec.eq_of_toNat_eq
    rw [BitVec.toNat_ofNat, BitVec.toNat_ofNat, Nat.mod_mod]
  have hlt : m % 2 ^ 32 < 2 ^ 32 := Nat.mod_lt _ (by omega)
  rw [hrun, hlow, Nat.add_sub_cancel]
  dsimp only
  rw [hs, show (0 : BitVec 32) + BitVec.ofNat 32 m = BitVec.ofNat 32 m from BitVec.zero_add _, hmod,
    classify_ofNat hlt]
  unfold classOf
  generalize m % 2 ^ 32 = k
  have h0 : (40000 < k ∧ k ≤ 50000) ↔ 40002 ≤ k + 1 ∧ k + 1 ≤ 50001 := by omega
  have h1 : (85000 < k ∧ k ≤ 95000) ↔ 85002 ≤ k + 1 ∧ k + 1 ≤ 95001 := by omega
  have h2 : (175000 < k ∧ k ≤ 185000) ↔ 175002 ≤ k + 1 ∧ k + 1 ≤ 185001 := by omega
  simp only [h0, h1, h2]

/-- **The class of a pulse is that of its length** exactly when the counter has not wrapped, or the count
it has wrapped to is in no window. -/
theorem sampled_class_iff (s : Demod) (hs : s.pulseLengthCounter = 0) (n : Nat) (hn : 1 ≤ n) :
    (s.run (lowEdges n)).state = classOf n ↔ n ≤ 2 ^ 32 ∨ ¬ InWindow ((n - 1) % 2 ^ 32 + 1) := by
  rw [state_run_low hs hn]
  by_cases hle : n ≤ 2 ^ 32
  · have hmod : (n - 1) % 2 ^ 32 + 1 = n := by
      rw [Nat.mod_eq_of_lt (by omega)]
      omega
    rw [hmod]
    exact iff_of_true rfl (.inl hle)
  · have hother : classOf n = .other := by
      rw [classOf_eq_other_iff]
      unfold InWindow
      omega
    rw [hother, classOf_eq_other_iff]
    exact (or_iff_right hle).symm

theorem sampled_class_iff_hour :
    (Demod.full.step (.clk true)).pulseLengthCounter = 0 ∧
      (((Demod.full.step (.clk true)).run (lowEdges 270000000000)).state = classOf 270000000000 ↔
        270000000000 ≤ 2 ^ 32 ∨ ¬ InWindow ((270000000000 - 1) % 2 ^ 32 + 1)) :=
  ⟨rfl, sampled_class_iff _ rfl 270000000000 (by omega)⟩

/-- A line held low for almost a minute ends in a bit. -/
theorem sampled_class_wraps :
    (Demod.full.step (.clk true)).pulseLengthCounter = 0 ∧
      ((Demod.full.step (.clk true)).run (lowEdges (2 ^ 32 + 40002))).state = .len0 ∧
      classOf (2 ^ 32 + 40002) = .other := by
  refine ⟨rfl, ?_, ?_⟩
  · rw [state_run_low rfl (by omega)]
    rfl
  · rw [classOf_eq_other_iff]
    decide

/-! ### Pulses in any order -/

def PulseState.ofBit (b : Bool) : PulseState := if b then .len1 else .len0

namespace Demod

/-- The second block at the end of a pulse of class `p`. -/
def rise (s : Demod) (p : PulseState) : Demod := ({ s with state := p } : Demod).onRise

def rises (s : Demod) (pulses : List PulseState) : Demod := pulses.foldl rise s

@[simp] theorem rises_nil (s : Demod) : s.rises [] = s := rfl

theorem rises_snoc (s : Demod) (ps : List PulseState) (p : PulseState) :
    s.rises (ps ++ [p]) = (s.rises ps).rise p := by
  simp [rises]

/-- The message registers are as they were. -/
def SameMessage (s t : Demod) : Prop := t.slvReg0 = s.slvReg0 ∧ t.slvReg1 = s.slvReg1

/-! ### After a start mark -/

/-- The registers after a start mark and the bits `bits`: only the first eleven are kept. -/
structure Following (s : Demod) (bits : List Bool) : Prop where
  idx : s.pulseIdx = BitVec.ofNat 4 (min bits.length 11)
  temp : ∀ i < 12, s.tempReg0.getLsbD i = (bits.take 11).getD (11 - i) false

theorem following_start (s : Demod) : Following (s.rise .start) [] ∧ SameMessage s (s.rise .start) := by
  refine ⟨⟨rfl, fun i _ => ?_⟩, rfl, rfl⟩
  simp [rise, onRise]

theorem following_bit {s : Demod} {bits : List Bool} (hs : Following s bits) (hlen : bits.length < 11) (b : Bool) :
    Following (s.rise (.ofBit b)) (bits ++ [b]) ∧ SameMessage s (s.rise (.ofBit b)) := by
  have hmin : min bits.length 11 = bits.length := by omega
  have hnat : s.pulseIdx.toNat = bits.length := by
    rw [hs.idx, BitVec.toNat_ofNat, hmin]
    exact Nat.mod_eq_of_lt (by omega)
  have hlt : ({ s with state := .ofBit b } : Demod).pulseIdx < 11 := by
    rw [BitVec.lt_def]
    show s.pulseIdx.toNat < 11
    omega
  rw [rise, onRise_bit rfl hlt]
  refine ⟨⟨?_, fun i hi => ?_⟩, rfl, rfl⟩
  · show s.pulseIdx + 1 = _
    rw [hs.idx, hmin, List.length_append, List.length_singleton, Nat.min_eq_left (by omega), BitVec.ofNat_add]
    rfl
  · show (setBit s.tempReg0 (11 - s.pulseIdx.toNat) b).getLsbD i = _
    rw [getLsbD_setBit _ _ _ _ hi, hs.temp i hi, hnat, List.take_of_length_le (by omega),
      List.take_of_length_le (by simp; omega)]
    by_cases h : i = 11 - bits.length
    · have h' : 11 - i = bits.length := by omega
      rw [if_pos h, h']
      simp
    · rw [if_neg h]
      by_cases hin : 11 - i < bits.length
      · rw [List.getD_append _ _ _ _ hin]
      · rw [List.getD_eq_default _ _ (by omega), List.getD_eq_default _ _ (by simp; omega)]

/-- Every bit from the twelfth on makes a message of the first eleven bits and itself. -/
theorem following_more {s : Demod} {bits : List Bool} (hs : Following s bits) (hlen : 11 ≤ bits.length) (b : Bool) :
    Following (s.rise (.ofBit b)) (bits ++ [b]) ∧
      (s.rise (.ofBit b)).slvReg0 = s.tempReg0.setWidth 32 + (if b then 1 else 0) ∧
      (s.rise (.ofBit b)).slvReg1 = s.slvReg1 + 1 := by
  have hidx : ({ s with state := .ofBit b } : Demod).pulseIdx = 11 := by
    show s.pulseIdx = 11
    rw [hs.idx, Nat.min_eq_right hlen]
    rfl
  rw [rise, onRise_last rfl hidx]
  refine ⟨⟨?_, fun i hi => ?_⟩, rfl, pushed_slvReg1 _ _⟩
  · show s.pulseIdx = _
    rw [hs.idx, Nat.min_eq_right hlen, Nat.min_eq_right (by simp; omega)]
  · show s.tempReg0.getLsbD i = _
    rw [hs.temp i hi, List.take_append_of_le_length hlen]

theorem message_of_word {s : Demod} {bits : List Bool} (hs : Following s bits) (hlen : bits.length = 11) (b : Bool) :
    s.tempReg0.setWidth 32 + (if b then 1 else 0) = (BitVec.ofBoolListBE (bits ++ [b])).setWidth 32 := by
  obtain ⟨w, hw⟩ : ∃ w : BitVec 12, w = (BitVec.ofBoolListBE (bits ++ [b])).setWidth 12 := ⟨_, rfl⟩
  have hbit : ∀ i < 12, w.getLsbD i = (bits ++ [b]).getD (11 - i) false := by
    intro i hi
    rw [hw, BitVec.getLsbD_setWidth, BitVec.getLsbD_ofBoolListBE]
    simp [hlen, hi]
  have hlast : w.getLsbD 0 = b := by
    rw [hbit 0 (by omega), List.getD_append_right _ _ _ _ (by omega), hlen]
    rfl
  have htemp : ∀ i < 12, s.tempReg0.getLsbD i = (decide (12 ≤ i + 11) && w.getLsbD i) := by
    intro i hi
    rw [hs.temp i hi, List.take_of_length_le (by omega)]
    by_cases h : i = 0
    · subst h
      rw [List.getD_eq_default _ _ (by omega)]
      rfl
    · rw [hbit i hi, List.getD_append _ _ _ _ (by omega)]
      simp [show 12 ≤ i + 11 by omega]
  have hwide : w.setWidth 32 = (BitVec.ofBoolListBE (bits ++ [b])).setWidth 32 := by
    rw [hw]
    apply BitVec.eq_of_getLsbD_eq
    intro i hi
    by_cases h : i < 12 <;> simp [hlen, hi, h]
  rw [← hwide, ← setWidth_add_bit _ _ htemp, hlast]

/-! ### The last mark -/

/-- Bits, and a start mark before them: the registers follow the bits. -/
theorem following_rises (s : Demod) (earlier : List PulseState) (bits : List Bool) :
    Following (s.rises (earlier ++ .start :: bits.map .ofBit)) bits := by
  induction bits using List.reverseRecOn with
  | nil =>
    rw [List.map_nil, rises_snoc]
    exact (following_start _).1
  | append_singleton bits b ih =>
    rw [List.map_append, List.map_singleton, ← List.cons_append, ← List.append_assoc, rises_snoc]
    by_cases hlen : bits.length < 11
    · exact (following_bit ih hlen b).1
    · exact (following_more ih (by omega) b).1

/-- With the index at its impossible value a bit does nothing. -/
theorem rise_bit_of_other {s : Demod} (hs : s.pulseIdx = 15) (b : Bool) :
    (s.rise (.ofBit b)).pulseIdx = 15 ∧ SameMessage s (s.rise (.ofBit b)) := by
  cases b <;> simp [rise, onRise, PulseState.ofBit, SameMessage, hs]

theorem pulseIdx_rises_other (s : Demod) (earlier : List PulseState) (bits : List Bool) :
    (s.rises (earlier ++ .other :: bits.map .ofBit)).pulseIdx = 15 := by
  induction bits using List.reverseRecOn with
  | nil =>
    rw [List.map_nil, rises_snoc]
    rfl
  | append_singleton bits b ih =>
    rw [List.map_append, List.map_singleton, ← List.cons_append, ← List.append_assoc, rises_snoc]
    exact (rise_bit_of_other ih b).1

end Demod

/-- A start mark or a pulse of no class. -/
def PulseState.IsMark (p : PulseState) : Prop := p = .start ∨ p = .other

theorem PulseState.IsMark.ne_ofBit {p : PulseState} (hp : p.IsMark) (b : Bool) : p ≠ .ofBit b := by
  rcases hp with rfl | rfl <;> cases b <;> simp [PulseState.ofBit]

theorem PulseState.isMark_or_ofBit (p : PulseState) : p.IsMark ∨ ∃ b, p = .ofBit b := by
  cases p with
  | start => exact .inl (.inl rfl)
  | other => exact .inl (.inr rfl)
  | len0 => exact .inr ⟨false, rfl⟩
  | len1 => exact .inr ⟨true, rfl⟩

theorem exists_last_mark (pulses : List PulseState) :
    ∃ (earlier : List PulseState) (mark : PulseState) (bits : List Bool),
      .start :: pulses = earlier ++ mark :: bits.map .ofBit ∧ mark.IsMark := by
  induction pulses using List.reverseRecOn with
  | nil => exact ⟨[], .start, [], rfl, .inl rfl⟩
  | append_singleton ps p ih =>
    obtain ⟨earlier, mark, bits, h, hmark⟩ := ih
    rcases p.isMark_or_ofBit with hp | ⟨b, rfl⟩
    · exact ⟨.start :: ps, p, [], rfl, hp⟩
    · refine ⟨earlier, mark, bits ++ [b], ?_, hmark⟩
      rw [← List.cons_append, h]
      simp

/-- There is one last mark, with the bits behind it. -/
theorem last_mark_unique {m m' : PulseState} (hm : m.IsMark) (hm' : m'.IsMark) {e e' : List PulseState} :
    ∀ {bits bits' : List Bool}, e ++ m :: bits.map .ofBit = e' ++ m' :: bits'.map .ofBit →
      m = m' ∧ bits = bits' := by
  intro bits
  induction bits using List.reverseRecOn with
  | nil =>
    intro bits' h
    induction bits' using List.reverseRecOn with
    | nil =>
      rw [List.map_nil] at h
      exact ⟨by simpa using (List.append_inj' h rfl).2, rfl⟩
    | append_singleton bits' b' _ =>
      rw [List.map_append, ← List.cons_append, ← List.append_assoc] at h
      -- a bit would be a mark
      have hlast : m = .ofBit b' := by simpa using (List.append_inj' h rfl).2
      exact absurd hlast (hm.ne_ofBit b')
  | append_singleton bits b ih =>
    intro bits' h
    induction bits' using List.reverseRecOn with
    | nil =>
      rw [List.map_append, ← List.cons_append, ← List.append_assoc] at h
      have hlast : PulseState.ofBit b = m' := by simpa using (List.append_inj' h rfl).2
      exact absurd hlast.symm (hm'.ne_ofBit b)
    | append_singleton bits' b' _ =>
      rw [List.map_append, List.map_append, ← List.cons_append, ← List.cons_append, ← List.append_assoc,
        ← List.append_assoc] at h
      obtain ⟨hinit, hlast⟩ := List.append_inj' h rfl
      obtain ⟨rfl, rfl⟩ := ih hinit
      have hb : b = b' := by cases b <;> cases b' <;> simp [PulseState.ofBit] at hlast ⊢
      exact ⟨rfl, by rw [hb]⟩

/-! ### One message for each word -/

/-- The pulses end in the twelfth of the bits `bits` behind a start mark. -/
def EndsWord (pulses : List PulseState) (bits : List Bool) : Prop :=
  bits.length = 12 ∧ ∃ earlier, pulses = earlier ++ .start :: bits.map .ofBit

/-- At each pulse, a start mark being the first: the twelfth bit behind a start mark puts the word into
`slv_reg0` and counts it in `slv_reg1`, and every other pulse leaves the two registers alone. -/
def OneMessagePerStart (s : Demod) (pulses : List PulseState) : Prop :=
  ∀ before p after, .start :: pulses = before ++ p :: after →
    (∀ bits, EndsWord (before ++ [p]) bits →
      (s.rises (before ++ [p])).slvReg0 = (BitVec.ofBoolListBE bits).setWidth 32 ∧
        (s.rises (before ++ [p])).slvReg1 = (s.rises before).slvReg1 + 1) ∧
    ((∀ bits, ¬ EndsWord (before ++ [p]) bits) → SameMessage (s.rises before) (s.rises (before ++ [p])))

theorem endsWord_bit_iff {earlier : List PulseState} {mark : PulseState} (hmark : mark.IsMark)
    {bits bits' : List Bool} {b : Bool} :
    EndsWord (earlier ++ mark :: bits.map .ofBit ++ [.ofBit b]) bits' ↔
      mark = .start ∧ bits.length = 11 ∧ bits' = bits ++ [b] := by
  have hsnoc : earlier ++ mark :: bits.map .ofBit ++ [.ofBit b] = earlier ++ mark :: (bits ++ [b]).map .ofBit := by
    simp
  rw [hsnoc]
  constructor
  · rintro ⟨hlen, e, he⟩
    obtain ⟨hstart, rfl⟩ := last_mark_unique hmark (.inl rfl) he
    exact ⟨hstart, by simpa using hlen, rfl⟩
  · rintro ⟨rfl, hlen, rfl⟩
    exact ⟨by simpa using hlen, earlier, rfl⟩

theorem not_endsWord_mark {pulses : List PulseState} {mark : PulseState} (hmark : mark.IsMark) (bits : List Bool) :
    ¬ EndsWord (pulses ++ [mark]) bits := by
  rintro ⟨hlen, e, he⟩
  have he' : pulses ++ mark :: ([] : List Bool).map .ofBit = e ++ .start :: bits.map .ofBit := he
  obtain ⟨-, rfl⟩ := last_mark_unique hmark (.inl rfl) he'
  cases hlen

theorem sameMessage_mark (s : Demod) {mark : PulseState} (hmark : mark.IsMark) : SameMessage s (s.rise mark) := by
  rcases hmark with rfl | rfl <;> exact ⟨rfl, rfl⟩

theorem message_at_bit {s : Demod} {earlier : List PulseState} {mark : PulseState} (hmark : mark.IsMark)
    {bits : List Bool} (hlen : mark = .start → bits.length ≤ 11) (b : Bool) :
    (∀ bits', EndsWord (earlier ++ mark :: bits.map .ofBit ++ [.ofBit b]) bits' →
      (s.rises (earlier ++ mark :: bits.map .ofBit ++ [.ofBit b])).slvReg0 =
        (BitVec.ofBoolListBE bits').setWidth 32 ∧
      (s.rises (earlier ++ mark :: bits.map .ofBit ++ [.ofBit b])).slvReg1 =
        (s.rises (earlier ++ mark :: bits.map .ofBit)).slvReg1 + 1) ∧
    ((∀ bits', ¬ EndsWord (earlier ++ mark :: bits.map .ofBit ++ [.ofBit b]) bits') →
      SameMessage (s.rises (earlier ++ mark :: bits.map .ofBit))
        (s.rises (earlier ++ mark :: bits.map .ofBit ++ [.ofBit b]))) := by
  simp only [endsWord_bit_iff hmark, rises_snoc]
  refine ⟨?_, fun hno => ?_⟩
  · rintro bits' ⟨rfl, hbits, rfl⟩
    have hfol := following_rises s earlier bits
    obtain ⟨-, hmsg, hcount⟩ := following_more hfol (by omega) b
    exact ⟨hmsg.trans (message_of_word hfol hbits b), hcount⟩
  · rcases hmark with rfl | rfl
    · have hne : bits.length ≠ 11 := fun h => hno _ ⟨rfl, h, rfl⟩
      have hle := hlen rfl
      exact (following_bit (following_rises s earlier bits) (by omega) b).2
    · exact (rise_bit_of_other (pulseIdx_rises_other s earlier bits) b).2

/-- A thirteenth bit makes a message that no word asked for. -/
theorem not_oneMessage_of_long {s : Demod} {pulses earlier later : List PulseState} {bits : List Bool} {b : Bool}
    (h : .start :: pulses = earlier ++ .start :: bits.map .ofBit ++ .ofBit b :: later) (hlen : 12 ≤ bits.length) :
    ¬ OneMessagePerStart s pulses := by
  intro hone
  have hno : ∀ bits', ¬ EndsWord (earlier ++ .start :: bits.map .ofBit ++ [.ofBit b]) bits' := by
    intro bits' hends
    obtain ⟨-, h11, -⟩ := (endsWord_bit_iff (.inl rfl)).1 hends
    omega
  have hsame := ((hone _ _ _ h).2 hno).2
  have hfol := following_rises s earlier bits
  rw [rises_snoc, (following_more hfol (by omega) b).2.2] at hsame
  simp at hsame

/-- **One message for each start mark**, exactly when no start mark is followed by more than twelve bits. -/
theorem oneMessagePerStart_iff (s : Demod) (pulses : List PulseState) :
    OneMessagePerStart s pulses ↔
      ∀ (earlier : List PulseState) (bits : List Bool) (later : List PulseState),
        .start :: pulses = earlier ++ .start :: (bits.map .ofBit ++ later) → bits.length ≤ 12 := by
  constructor
  · intro hone earlier bits later h
    by_contra hlong
    obtain ⟨xs, b, ys, rfl, hxs⟩ : ∃ xs b ys, bits = xs ++ b :: ys ∧ xs.length = 12 := by
      refine ⟨bits.take 12, bits[12], bits.drop 13, ?_, ?_⟩
      · rw [← List.drop_eq_getElem_cons, List.take_append_drop]
      · rw [List.length_take]
        omega
    -- the thirteenth bit gives a second message
    have hcut : .start :: pulses =
        earlier ++ .start :: xs.map .ofBit ++ .ofBit b :: (ys.map .ofBit ++ later) := by simpa using h
    exact not_oneMessage_of_long hcut (le_of_eq hxs.symm) hone
  · intro hshort before p after h
    rcases p.isMark_or_ofBit with hp | ⟨b, rfl⟩
    · refine ⟨fun bits hends => absurd hends (not_endsWord_mark hp bits), fun _ => ?_⟩
      rw [rises_snoc]
      exact sameMessage_mark _ hp
    · cases before with
      | nil => cases b <;> cases h
      | cons q before =>
        obtain ⟨rfl, hpulses⟩ := List.cons_eq_cons.1 h
        -- the bits since the last mark, with this one
        obtain ⟨earlier, mark, bits, hlast, hmark⟩ := exists_last_mark before
        rw [hlast]
        refine message_at_bit hmark ?_ b
        rintro rfl
        have hle := hshort earlier (bits ++ [b]) after (by rw [h, hlast]; simp)
        rw [List.length_append, List.length_singleton] at hle
        omega

/-- A start mark and thirteen bits: two messages. -/
theorem oneMessagePerStart_thirteen :
    ¬ OneMessagePerStart .full (List.replicate 13 .len0) ∧
      (Demod.full.rises (.start :: List.replicate 13 .len0)).slvReg1 = Demod.full.slvReg1 + 2 := by
  have hcut : PulseState.start :: List.replicate 13 .len0 =
      [] ++ .start :: (List.replicate 12 false).map .ofBit ++ .ofBit false :: [] := rfl
  exact ⟨not_oneMessage_of_long hcut (by simp), rfl⟩

end TamuProofs.IrDemod
