import TamuProofs.IrDemod.Decode

/-!
The messages that the demodulator makes of a waveform, as the values that `slv_reg0` takes.

* `Demod.messages` — a message is an edge that `slv_reg1` counts; `message_cases`: at any other edge the two message
  registers stay;
* **`messages_frame`**, **`messages_wave`**: a frame makes one message, its word, and a transmission makes its words.
-/

namespace TamuProofs.IrDemod

/-! ### The last rising edge of a frame -/

def Frame.toLastLow (f : Frame) : List Edge :=
  f.noise.flatMap Phase.edges ++ f.start.edges ++ (List.range 11).flatMap (fun k => (f.bits k).edges) ++
    .fall :: List.replicate (f.bits 11).low (.clk true)

theorem Frame.toLastRise_eq (f : Frame) : f.toLastRise = f.toLastLow ++ [.rise] := by
  simp [toLastRise, toLastLow, Phase.toRise]

theorem Frame.edges_eq (f : Frame) : f.edges = f.toLastLow ++ .rise :: List.replicate (f.bits 11).high (.clk true) := by
  rw [edges, toLastRise_eq, List.append_assoc]
  rfl

/-! ### The messages of a waveform -/

namespace Demod

/-- The message that an edge completes, if it does: `slv_reg1` counts it. -/
def message (s : Demod) (e : Edge) : List (BitVec 32) :=
  if (s.step e).slvReg1 = s.slvReg1 then [] else [(s.step e).slvReg0]

def messages : Demod → List Edge → List (BitVec 32)
  | _, [] => []
  | s, e :: es => s.message e ++ (s.step e).messages es

theorem onRise_regs (d : Demod) : (d.onRise.slvReg0 = d.slvReg0 ∧ d.onRise.slvReg1 = d.slvReg1) ∨
    d.onRise.slvReg1 = d.slvReg1 + 1 := by
  unfold onRise
  cases d.state with
  | start => exact .inl ⟨rfl, rfl⟩
  | len0 =>
    dsimp only
    split_ifs
    · exact .inl ⟨rfl, rfl⟩
    · exact .inr (d.pushed_slvReg1 _)
    · exact .inl ⟨rfl, rfl⟩
  | len1 =>
    dsimp only
    split_ifs
    · exact .inl ⟨rfl, rfl⟩
    · exact .inr (d.pushed_slvReg1 _)
    · exact .inl ⟨rfl, rfl⟩
  | other => exact .inl ⟨rfl, rfl⟩

/-- Only a rising edge of the signal writes the message registers. -/
theorem step_regs (s : Demod) {e : Edge} (he : e ≠ .rise) :
    (s.step e).slvReg0 = s.slvReg0 ∧ (s.step e).slvReg1 = s.slvReg1 := by
  cases e with
  | clk aresetn =>
    unfold step onClk
    dsimp only
    split <;> exact ⟨rfl, rfl⟩
  | fall => exact ⟨rfl, rfl⟩
  | rise => exact absurd rfl he

/-- **At an edge** the message registers stay, or a message is counted. -/
theorem message_cases (d : Demod) (e : Edge) :
    (d.message e = [] ∧ (d.step e).slvReg0 = d.slvReg0 ∧ (d.step e).slvReg1 = d.slvReg1) ∨
      d.message e = [(d.step e).slvReg0] ∧ (d.step e).slvReg1 = d.slvReg1 + 1 := by
  have hne : d.slvReg1 + 1 ≠ d.slvReg1 := by simp
  have hstep : (d.step e).slvReg0 = d.slvReg0 ∧ (d.step e).slvReg1 = d.slvReg1 ∨
      (d.step e).slvReg1 = d.slvReg1 + 1 := by
    by_cases he : e = .rise
    · have hrise : d.step e = if d.irSignal then d else { d.onRise with irSignal := true } := by rw [he]; rfl
      rw [hrise]
      split
      · exact .inl ⟨rfl, rfl⟩
      · exact onRise_regs d
    · exact .inl (d.step_regs he)
  rcases hstep with ⟨h0, h1⟩ | h1
  · exact .inl ⟨if_pos h1, h0, h1⟩
  · refine .inr ⟨if_neg ?_, h1⟩
    rw [h1]
    exact hne

theorem messages_append : ∀ (es fs : List Edge) (s : Demod),
    s.messages (es ++ fs) = s.messages es ++ (s.run es).messages fs := by
  intro es fs
  induction es with
  | nil => intro s; rfl
  | cons e es ih =>
    intro s
    rw [List.cons_append, messages, messages, ih, run_cons, List.append_assoc]

theorem messages_of_no_rise : ∀ (es : List Edge) (s : Demod), .rise ∉ es →
    s.messages es = [] ∧ (s.run es).slvReg0 = s.slvReg0 ∧ (s.run es).slvReg1 = s.slvReg1 := by
  intro es
  induction es with
  | nil => intro s _; exact ⟨rfl, rfl, rfl⟩
  | cons e es ih =>
    intro s hno
    obtain ⟨he, hes⟩ := not_or.1 (fun h => hno (List.mem_cons.2 h))
    obtain ⟨h0, h1⟩ := s.step_regs (Ne.symm he)
    obtain ⟨hmsg, h0', h1'⟩ := ih (s.step e) hes
    rw [messages, run_cons, hmsg, message, if_pos h1, h0', h1']
    exact ⟨rfl, h0, h1⟩

theorem messages_hold (s : Demod) (n : Nat) : s.messages (List.replicate n (.clk true)) = [] :=
  (messages_of_no_rise _ s (by simp)).1

theorem messages_phase {s : Demod} {p : Phase} (h : (s.run p.edges).slvReg1 = s.slvReg1) :
    s.messages p.edges = [] := by
  have hlow : Edge.rise ∉ Edge.fall :: List.replicate p.low (.clk true) := by simp
  have hhigh : Edge.rise ∉ List.replicate p.high (.clk true) := by simp
  have hsplit : p.edges = (.fall :: List.replicate p.low (.clk true)) ++
      ([.rise] ++ List.replicate p.high (.clk true)) := by simp [Phase.edges, Phase.toRise]
  obtain ⟨hmsg, -, h1⟩ := messages_of_no_rise _ s hlow
  rw [hsplit, run_append, run_append, (messages_of_no_rise _ _ hhigh).2.2] at h
  have hrise : ((s.run (.fall :: List.replicate p.low (.clk true))).step .rise).slvReg1 =
      (s.run (.fall :: List.replicate p.low (.clk true))).slvReg1 := h.trans h1.symm
  rw [hsplit, messages_append, messages_append, hmsg, messages_hold, messages, message, if_pos hrise]
  rfl

theorem messages_noises {s : Demod} (hs : s.Idle) : ∀ ps : List Phase, (∀ p ∈ ps, p.IsNoise) →
    s.messages (ps.flatMap Phase.edges) = [] := by
  intro ps
  induction ps generalizing s with
  | nil => intro _; rfl
  | cons p ps ih =>
    intro hp
    obtain ⟨hidle, hcount⟩ := run_noise hs (hp p List.mem_cons_self)
    rw [List.flatMap_cons, messages_append, messages_phase hcount,
      ih hidle fun q hq => hp q (List.mem_cons_of_mem p hq)]
    rfl

theorem messages_bits (f : Frame) {s : Demod} {c : BitVec 32} (hs : Holding f.word c 0 s) : ∀ n ≤ 11,
    s.messages ((List.range n).flatMap fun k => (f.bits k).edges) = [] := by
  intro n
  induction n with
  | zero => intro _; rfl
  | succ n ih =>
    intro hn
    have hold := holding_bits f hs n (by omega)
    have hbit := holding_bit hold (by omega) (f.bits_isBit n (by omega))
    have hphase := messages_phase (hbit.count.trans hold.count.symm)
    rw [List.range_succ, List.flatMap_append, messages_append, ih (by omega), List.nil_append,
      List.flatMap_singleton, hphase]

/-- Nothing before the last rising edge of a frame makes a message. -/
theorem messages_toLastLow {s : Demod} (hs : s.Idle) (f : Frame) : s.messages f.toLastLow = [] := by
  obtain ⟨hidle, -⟩ := run_noises hs f.noise f.noise_isNoise
  obtain ⟨-, -, -, hstart⟩ := run_start hidle f.start_isStart
  have hbegin := holding_start hidle f.start_isStart f.word
  rw [Frame.toLastLow, messages_append, messages_append, messages_append, messages_noises hs _ f.noise_isNoise,
    messages_phase hstart, run_append, messages_bits f hbegin 11 (by omega),
    (messages_of_no_rise (.fall :: List.replicate (f.bits 11).low (.clk true)) _ (by simp)).1]
  rfl

theorem slvReg1_of_messages : ∀ (es : List Edge) (s : Demod), s.messages es = [] →
    (s.run es).slvReg1 = s.slvReg1 := by
  intro es
  induction es with
  | nil => intro s _; rfl
  | cons e es ih =>
    intro s h
    obtain ⟨hnow, hlater⟩ := List.append_eq_nil_iff.1 h
    have hkeep : (s.step e).slvReg1 = s.slvReg1 := by
      by_contra hne
      rw [message, if_neg hne] at hnow
      cases hnow
    rw [run_cons, ih _ hlater, hkeep]

theorem message_frame {s : Demod} (hs : s.Idle) (f : Frame) :
    (s.run f.toLastLow).message .rise = [f.word.setWidth 32] := by
  obtain ⟨hmsg, hcount⟩ := run_frame hs f
  have hrun : (s.run f.toLastLow).step .rise = s.run f.toLastRise := by
    rw [f.toLastRise_eq, run_append]
    rfl
  have hbefore := slvReg1_of_messages _ s (messages_toLastLow hs f)
  have hne : s.slvReg1 + 1 ≠ s.slvReg1 := by simp
  rw [message, hrun, hcount, hbefore, if_neg hne, hmsg]

/-- **A frame makes one message**, its word. -/
theorem messages_frame {s : Demod} (hs : s.Idle) (f : Frame) : s.messages f.edges = [f.word.setWidth 32] := by
  rw [f.edges_eq, messages_append, messages_toLastLow hs, messages, message_frame hs, messages_hold]
  rfl

theorem messages_frames {s : Demod} (hs : s.Idle) : ∀ fs : List Frame,
    s.messages (fs.flatMap Frame.edges) = fs.map fun f => f.word.setWidth 32 := by
  intro fs
  induction fs generalizing s with
  | nil => rfl
  | cons f fs ih =>
    rw [List.flatMap_cons, messages_append, messages_frame hs, ih (run_frame_idle hs f).1]
    rfl

/-- The messages of a transmission, with the signal high for some time after it, are its words. -/
theorem messages_wave {s : Demod} (hs : s.irSignal = true) {hold : Nat} (hhold : 1 ≤ hold) (frames : List Frame)
    (rest : Nat) : s.messages (wave hold frames ++ List.replicate rest (.clk true)) =
      frames.map fun f => f.word.setWidth 32 := by
  obtain ⟨c, hc⟩ := run_hold hs hhold
  have hidle : (s.run (List.replicate hold (.clk true))).Idle := by
    rw [hc]
    exact ⟨hs, rfl⟩
  rw [messages_append, messages_hold, List.append_nil, wave, messages_append, messages_hold, List.nil_append,
    messages_frames hidle]

end Demod

end TamuProofs.IrDemod
