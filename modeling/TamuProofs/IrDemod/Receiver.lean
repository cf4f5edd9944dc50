import TamuProofs.IrDriver.DataPath
import TamuProofs.IrDemod.BusHandler
import TamuProofs.IrDemod.Messages

/-!
The receiver from the infrared line to the printed messages: the demodulator, the interrupt block behind the AXI
slave, `irq_handler` and its queue, `device_read`, and `devtest.c`, in one system.

* `Receiver.step` — an edge of `IR_signal`, a clock edge of the board with what the processor does at it, or a
  `read`, which is one step: no interrupt comes between the messages of one `device_read`;
* `Fits` — a message finds the interrupt block quiet and the queue with room, and no read crosses the end of the
  queue's array;
* **`printed_wave`**: in every such run the messages printed, then those still queued, are the first words of the
  transmission, in order, and all of them once nothing is on its way.
-/

namespace TamuProofs.IrDemod

open TamuProofs.Lib TamuProofs.IrDriver

/-! ### The system -/

/-- The block behind the slave after an edge of the demodulator, which shares its message registers. -/
def BusLink.share (s : BusLink) (d : Demod) (msgs : List (BitVec 32)) : BusLink :=
  { s with slave := { s.slave with block := { s.slave.block with
      slvReg0 := d.slvReg0
      slvReg1 := d.slvReg1
      decoded := s.slave.block.decoded ++ msgs.map fun msg => msg.setWidth 12 } } }

/-- The read of register 0 ends at this edge: `irq_handler` gives its value to `enqueue`. -/
def BusLink.delivers (s : BusLink) (m : Will) : Bool :=
  decide (s.handler = .readData) && (s.slave.rvalid && m.take)

/-- The board, and the driver with the program that reads its device. -/
structure Receiver where
  demod : Demod
  link : BusLink
  sys : Sys

namespace Receiver

/-- An edge of `IR_signal`, a clock edge of the board, or a whole `read` of the program, without an interrupt in its
loop. -/
inductive Ev
  | fall
  | rise
  | clk (m : Will)
  | read (length : Nat) (temp : IrMsg)

def Ev.edge : Ev → Option Edge
  | .fall => some .fall
  | .rise => some .rise
  | .clk _ => some (.clk true)
  | .read _ _ => none

def onSignal (s : Receiver) (e : Edge) : Receiver :=
  { s with demod := s.demod.step e, link := s.link.share (s.demod.step e) (s.demod.message e) }

def step (s : Receiver) : Ev → Option Receiver
  | .fall => some (s.onSignal .fall)
  | .rise => some (s.onSignal .rise)
  | .clk m =>
    (if s.link.delivers m then s.sys.step (.irq s.link.slave.rdata) else some s.sys).map fun sys =>
      { demod := s.demod.step (.clk true), link := s.link.onClk m, sys := sys }
  | .read length temp => (s.sys.step (.read length temp)).map fun sys => { s with sys := sys }

def start (d : Demod) (mem : Nat → IrMsg) (rdBuf : List (BitVec 8)) : Receiver :=
  ⟨d, .start d.slvReg0 d.slvReg1, .init mem rdBuf⟩

/-- A message finds the interrupt block quiet and its way into the queue free, and a read stays below the end of the
array. -/
def Fits (s : Receiver) : Ev → Prop
  | .fall => True
  | .rise => s.demod.message .rise = [] ∨ s.link.Quiet (.frame 0)
  | .clk m => s.link.delivers m = true → (held s.sys.dev).length < queueLen
  | .read length temp => BelowWrap s.sys (.read length temp)

/-- The messages completed at the edges of the signal have twelve bits. -/
def Twelve (s : Receiver) : Ev → Prop
  | .rise => ∀ msg ∈ s.demod.message .rise, ∃ code : BitVec 12, msg = code.setWidth 32
  | _ => True

structure Inv (s : Receiver) : Prop where
  sync : s.link.Sync
  flow : s.link.abs.Flow
  sys : IrDriver.Inv s.sys
  reg0 : s.link.block.slvReg0 = s.demod.slvReg0
  reg1 : s.link.block.slvReg1 = s.demod.slvReg1
  accepted : s.sys.accepted = s.link.enqueued.map irData

/-! ### The parts of a step -/

theorem share_nil {s : BusLink} {d : Demod} (h0 : s.block.slvReg0 = d.slvReg0) (h1 : s.block.slvReg1 = d.slvReg1) :
    s.share d [] = s := by
  obtain ⟨⟨⟨_, _, _, _⟩, _, _, _, _, _, _, _, _⟩, _, _, _, _⟩ := s
  simp [BusLink.share, ← h0, ← h1]

/-- A message of twelve bits reaches the block as a frame does. -/
theorem share_frame {s : BusLink} {d d' : Demod} (h1 : s.block.slvReg1 = d.slvReg1) {code : BitVec 12}
    (h0' : d'.slvReg0 = code.setWidth 32) (h1' : d'.slvReg1 = d.slvReg1 + 1) :
    s.share d' [code.setWidth 32] = s.frame code := by
  have hcode : (code.setWidth 32).setWidth 12 = code := by simp
  rw [BusLink.share, BusLink.frame, Link.frame, h0', h1', ← h1, List.map_singleton, hcode]

theorem onClk_enqueued (s : BusLink) (m : Will) : (s.onClk m).enqueued =
    if s.delivers m then s.enqueued ++ [rawMsg s.slave.rdata] else s.enqueued := by
  -- only the end of the read of register 0 gives something to `enqueue`
  have hother : s.handler ≠ .readData → (s.finish (s.slave.onClk true (s.inputs m))).enqueued = s.enqueued :=
    fun h => if_neg h
  unfold BusLink.onClk BusLink.delivers
  cases hh : s.handler with
  | idle => simp [Irq.access]
  | readData =>
    simp only [Irq.access, decide_true, Bool.true_and]
    split
    · simp [BusLink.finish, hh]
    · rfl
  | resetInterrupt =>
    simp only [Irq.access, reduceCtorEq, decide_false, Bool.false_and, Bool.false_eq_true, if_false]
    split
    · exact hother (by simp [hh])
    · rfl
  | waitReset =>
    simp only [Irq.access, reduceCtorEq, decide_false, Bool.false_and, Bool.false_eq_true, if_false]
    split
    · exact hother (by simp [hh])
    · rfl
  | clearReset =>
    simp only [Irq.access, reduceCtorEq, decide_false, Bool.false_and, Bool.false_eq_true, if_false]
    split
    · exact hother (by simp [hh])
    · rfl

theorem onClk_regs (s : BusLink) (m : Will) : (s.onClk m).block.slvReg0 = s.block.slvReg0 ∧
    (s.onClk m).block.slvReg1 = s.block.slvReg1 ∧ (s.onClk m).block.decoded = s.block.decoded := by
  have hslave : (s.onClk m).slave = s.slave.onClk true (s.inputs m) := by
    unfold BusLink.onClk
    split
    · rfl
    · split <;> rfl
    · split <;> rfl
  have hblock : (s.onClk m).block = s.block.onClk true (s.slave.write (s.inputs m).toInputs) := by
    rw [BusLink.block, hslave, BusLink.block_onClk]
  rw [hblock]
  exact ⟨rfl, rfl, rfl⟩

/-! ### One step -/

variable {s : Receiver}

theorem inv_start (d : Demod) (mem : Nat → IrMsg) (rdBuf : List (BitVec 8)) : (start d mem rdBuf).Inv where
  sync := BusLink.sync_start _ _
  flow := BusLink.flow_start _ _
  sys := IrDriver.inv_init mem rdBuf
  reg0 := rfl
  reg1 := rfl
  accepted := rfl

theorem inv_onSignal (h : s.Inv) {e : Edge} (hmsg : s.demod.message e = [])
    (h0 : (s.demod.step e).slvReg0 = s.demod.slvReg0) (h1 : (s.demod.step e).slvReg1 = s.demod.slvReg1) :
    (s.onSignal e).Inv ∧ (s.onSignal e).link = s.link := by
  have hlink : (s.onSignal e).link = s.link := by
    show s.link.share (s.demod.step e) (s.demod.message e) = _
    rw [hmsg]
    exact share_nil (h.reg0.trans h0.symm) (h.reg1.trans h1.symm)
  refine ⟨⟨?_, ?_, h.sys, ?_, ?_, ?_⟩, hlink⟩
  · rw [hlink]; exact h.sync
  · rw [hlink]; exact h.flow
  · rw [hlink]; exact h.reg0.trans h0.symm
  · rw [hlink]; exact h.reg1.trans h1.symm
  · rw [hlink]; exact h.accepted

theorem inv_rise (h : s.Inv) (hf : s.Fits .rise) (ht : s.Twelve .rise) : (s.onSignal .rise).Inv := by
  rcases s.demod.message_cases .rise with ⟨hmsg, h0, h1⟩ | ⟨hmsg, h1⟩
  · exact (inv_onSignal h hmsg h0 h1).1
  · obtain ⟨code, hcode⟩ := ht _ (hmsg ▸ List.mem_singleton_self _)
    have hquiet : s.link.Quiet (.frame code) := by
      rcases hf with hnil | hq
      · rw [hmsg] at hnil
        cases hnil
      · exact hq
    have hlink : (s.onSignal .rise).link = s.link.frame code := by
      show s.link.share (s.demod.step .rise) (s.demod.message .rise) = _
      rw [hmsg, hcode]
      exact share_frame h.reg1 hcode h1
    obtain ⟨hsync, hflow⟩ := BusLink.flow_next ⟨h.sync, h.flow⟩ (.frame code) hquiet
    refine ⟨?_, ?_, h.sys, rfl, rfl, ?_⟩
    · rw [hlink]; exact hsync
    · rw [hlink]; exact hflow
    · rw [hlink]; exact h.accepted

theorem inv_clk (h : s.Inv) {m : Will} (hf : s.Fits (.clk m)) :
    ∃ s', s.step (.clk m) = some s' ∧ s'.Inv ∧ s'.demod = s.demod.step (.clk true) ∧ s'.link = s.link.onClk m := by
  obtain ⟨hsync, hflow⟩ := BusLink.flow_next ⟨h.sync, h.flow⟩ (.clk m) trivial
  obtain ⟨h0, h1, -⟩ := onClk_regs s.link m
  obtain ⟨hd0, hd1⟩ := s.demod.step_regs (e := .clk true) (by simp)
  cases hdel : s.link.delivers m with
  | true =>
    obtain ⟨sys', hstep, hsys⟩ := IrDriver.inv_irq h.sys s.link.slave.rdata
    refine ⟨⟨s.demod.step (.clk true), s.link.onClk m, sys'⟩, by rw [step, if_pos hdel, hstep]; rfl,
      ⟨hsync, hflow, hsys, ?_, ?_, ?_⟩, rfl, rfl⟩
    · exact h0.trans (h.reg0.trans hd0.symm)
    · exact h1.trans (h.reg1.trans hd1.symm)
    · have hacc : sys'.accepted = s.sys.accepted ++ [s.link.slave.rdata &&& 0xfff#32] := by
        cases hstep
        exact if_pos (hf hdel)
      show sys'.accepted = (s.link.onClk m).enqueued.map irData
      rw [onClk_enqueued, if_pos hdel, hacc, h.accepted, List.map_append, List.map_singleton, irData_rawMsg]
  | false =>
    have hno : ¬ s.link.delivers m = true := by rw [hdel]; exact Bool.false_ne_true
    refine ⟨⟨s.demod.step (.clk true), s.link.onClk m, s.sys⟩, by rw [step, if_neg hno]; rfl,
      ⟨hsync, hflow, h.sys, ?_, ?_, ?_⟩, rfl, rfl⟩
    · exact h0.trans (h.reg0.trans hd0.symm)
    · exact h1.trans (h.reg1.trans hd1.symm)
    · show s.sys.accepted = (s.link.onClk m).enqueued.map irData
      rw [onClk_enqueued, if_neg hno, h.accepted]

theorem inv_read (h : s.Inv) {length : Nat} {temp : IrMsg} (hf : s.Fits (.read length temp)) :
    ∃ s', s.step (.read length temp) = some s' ∧ s'.Inv ∧ s'.demod = s.demod ∧ s'.link = s.link := by
  obtain ⟨sys', hstep, hsys⟩ := IrDriver.inv_read h.sys hf
  refine ⟨⟨s.demod, s.link, sys'⟩, by rw [step, hstep]; rfl, ⟨h.sync, h.flow, hsys, h.reg0, h.reg1, ?_⟩, rfl, rfl⟩
  have hacc : sys'.accepted = s.sys.accepted := by
    cases hstep
    rfl
  exact hacc.trans h.accepted

/-! ### Runs -/

def edges (es : List Ev) : List Edge := es.filterMap Ev.edge

/-- The messages that the block has counted, as the values of register 0 that they were. -/
def decoded (s : Receiver) : List (BitVec 32) := s.link.block.decoded.map fun code => code.setWidth 32

/-- **One step** keeps the invariant, and records the message that it completes. -/
theorem inv_step (h : s.Inv) {e : Ev} (hf : s.Fits e) (ht : s.Twelve e) :
    ∃ s', s.step e = some s' ∧ s'.Inv ∧ s'.demod = s.demod.run (edges [e]) ∧
      s'.decoded = s.decoded ++ s.demod.messages (edges [e]) := by
  cases e with
  | fall =>
    have hnone : s.demod.messages (edges [.fall]) = [] := (Demod.messages_of_no_rise [.fall] _ (by simp)).1
    obtain ⟨hinv, hlink⟩ := inv_onSignal (e := .fall) h (if_pos rfl) rfl rfl
    refine ⟨_, rfl, hinv, rfl, ?_⟩
    rw [decoded, decoded, hlink, hnone, List.append_nil]
  | rise =>
    have hmsgs : s.demod.messages (edges [.rise]) = s.demod.message .rise := List.append_nil _
    -- the block keeps 12 bits of a message, and the message has no more
    have hback : (s.demod.message .rise).map (fun msg => (msg.setWidth 12).setWidth 32) = s.demod.message .rise := by
      refine (List.map_congr_left fun msg hmsg => ?_).trans (List.map_id _)
      obtain ⟨code, rfl⟩ := ht msg hmsg
      simp
    refine ⟨_, rfl, inv_rise h hf ht, rfl, ?_⟩
    show (s.link.block.decoded ++ (s.demod.message .rise).map _).map _ = _
    rw [List.map_append, List.map_map, hmsgs, ← hback]
    simp [decoded, Function.comp_def]
  | clk m =>
    have hnone : s.demod.messages (edges [.clk m]) = [] :=
      (Demod.messages_of_no_rise [.clk true] _ (by simp)).1
    obtain ⟨s', hstep, hinv, hdemod, hlink⟩ := inv_clk h hf
    refine ⟨s', hstep, hinv, hdemod, ?_⟩
    rw [decoded, decoded, hlink, (onClk_regs s.link m).2.2, hnone, List.append_nil]
  | read length temp =>
    obtain ⟨s', hstep, hinv, hdemod, hlink⟩ := inv_read h hf
    refine ⟨s', hstep, hinv, hdemod, ?_⟩
    rw [decoded, decoded, hlink]
    exact (List.append_nil _).symm

theorem edges_append (es fs : List Ev) : edges (es ++ fs) = edges es ++ edges fs := List.filterMap_append

theorem edges_cons (e : Ev) (es : List Ev) : edges (e :: es) = edges [e] ++ edges es := edges_append [e] es

theorem inv_run : ∀ (es : List Ev) {s : Receiver}, s.Inv → AllSteps step Fits s es → AllSteps step Twelve s es →
    ∃ s', es.foldlM step s = some s' ∧ s'.Inv ∧
      s'.decoded = s.decoded ++ s.demod.messages (edges es) := by
  intro es
  induction es with
  | nil => intro s h _ _; exact ⟨s, rfl, h, (List.append_nil _).symm⟩
  | cons e es ih =>
    intro s h hf ht
    obtain ⟨s₁, hstep, hinv, hdemod, hdec⟩ := inv_step h hf.1 ht.1
    obtain ⟨s', hrun, hinv', hdec'⟩ := ih hinv (hf.2 s₁ hstep) (ht.2 s₁ hstep)
    refine ⟨s', ?_, hinv', ?_⟩
    · exact (foldlM_cons_some hstep).trans hrun
    · rw [hdec', hdec, hdemod, edges_cons e es, Demod.messages_append, List.append_assoc]

/-- The messages that a run completes have twelve bits when those of its waveform have. -/
theorem twelve_of_messages : ∀ (es : List Ev) (s : Receiver),
    (∀ msg ∈ s.demod.messages (edges es), ∃ code : BitVec 12, msg = code.setWidth 32) →
    AllSteps step Twelve s es := by
  intro es
  induction es with
  | nil => intro s _; trivial
  | cons e es ih =>
    intro s h
    rw [edges_cons, Demod.messages_append] at h
    refine ⟨?_, fun s' hs' => ih s' ?_⟩
    · cases e with
      | rise =>
        intro msg hmsg
        refine h msg (List.mem_append_left _ ?_)
        show msg ∈ s.demod.message .rise ++ []
        rwa [List.append_nil]
      | fall => trivial
      | clk m => trivial
      | read length temp => trivial
    · have hdemod : s'.demod = s.demod.run (edges [e]) := by
        cases e with
        | fall => cases hs'; rfl
        | rise => cases hs'; rfl
        | clk m =>
          obtain ⟨sys, -, rfl⟩ := Option.map_eq_some_iff.1 hs'
          rfl
        | read length temp =>
          have hmap : (s.sys.step (.read length temp)).map (fun sys => { s with sys := sys }) = some s' := hs'
          obtain ⟨sys, -, rfl⟩ := Option.map_eq_some_iff.1 hmap
          rfl
      intro msg hmsg
      rw [hdemod] at hmsg
      exact h msg (List.mem_append_right _ hmsg)

/-! ### What is printed -/

/-- The words printed, and those still in the queue. -/
def printed (s : Receiver) : List (BitVec 32) := s.sys.recovered ++ (held s.sys.dev).map irData

/-- The twelve bits that the program keeps of a message are all of it. -/
theorem irData_code (code : BitVec 12) : irData (rawMsg (code.setWidth 32)) = code.setWidth 32 := by
  have h4095 : ∀ j < 32, (0xfff#32).getLsbD j = decide (j < 12) := by decide
  rw [irData_rawMsg]
  apply BitVec.eq_of_getLsbD_eq
  intro i hi
  rw [BitVec.getLsbD_and, h4095 i hi, BitVec.getLsbD_setWidth]
  by_cases h12 : i < 12
  · simp [h12]
  · simp [BitVec.getLsbD_of_ge code i (by omega)]

theorem printed_of_inv (h : s.Inv) : s.printed <+: s.decoded ∧
    (s.link.handler = .idle → s.link.block.irInterrupt = false →
      s.link.block.slvReg1 = s.link.block.slvReg1Prev → s.printed = s.decoded) := by
  have hacc : s.printed = s.link.enqueued.map irData := h.sys.2.1.trans h.accepted
  have hall : s.decoded = s.link.all.map irData := by
    rw [decoded, BusLink.all, List.map_map]
    exact List.map_congr_left fun code _ => (irData_code code).symm
  obtain ⟨hpre, heq⟩ := BusLink.enqueued_of_flow h.flow
  rw [hacc, hall]
  exact ⟨hpre.map irData, fun hidle hlow hprev => by rw [heq hidle hlow hprev]⟩

/-- **From the infrared line to the printed messages.** The signal carries a transmission and stays high; the clock,
the processor and the program do as they please. As long as everything fits, what the program has printed, then what
the queue still holds, are the first words of the transmission in order, and all of them once the transmission is
over, the handler is idle and no interrupt or message is on its way to it. -/
theorem printed_wave (d : Demod) (hd : d.irSignal = true) (mem : Nat → IrMsg) (rdBuf : List (BitVec 8))
    {hold : Nat} (hhold : 1 ≤ hold) (frames : List Frame) (rest : Nat) (es : List Ev)
    (hedges : edges es <+: wave hold frames ++ List.replicate rest (.clk true))
    (hfits : AllSteps step Fits (start d mem rdBuf) es) :
    ∃ s, es.foldlM step (start d mem rdBuf) = some s ∧
      s.printed <+: frames.map (fun f => f.word.setWidth 32) ∧
      (edges es = wave hold frames ++ List.replicate rest (.clk true) → s.link.handler = .idle →
        s.link.block.irInterrupt = false → s.link.block.slvReg1 = s.link.block.slvReg1Prev →
        s.printed = frames.map fun f => f.word.setWidth 32) := by
  have hwave := Demod.messages_wave hd hhold frames rest
  obtain ⟨later, hlater⟩ := hedges
  have hpre : d.messages (edges es) <+: frames.map fun f => f.word.setWidth 32 := by
    rw [← hwave, ← hlater, Demod.messages_append]
    exact List.prefix_append _ _
  -- the messages of the transmission are its words, of 12 bits
  have htwelve : AllSteps step Twelve (start d mem rdBuf) es := by
    refine twelve_of_messages es _ fun msg hmsg => ?_
    obtain ⟨f, -, hf⟩ := List.mem_map.1 (hpre.subset hmsg)
    exact ⟨f.word, hf.symm⟩
  obtain ⟨s, hrun, hinv, hdec⟩ := inv_run es (inv_start d mem rdBuf) hfits htwelve
  have hdec' : s.decoded = d.messages (edges es) := hdec
  obtain ⟨hfirst, hall⟩ := printed_of_inv hinv
  refine ⟨s, hrun, ?_, fun hwhole hidle hlow hprev => ?_⟩
  · exact (hdec' ▸ hfirst).trans hpre
  · rw [hall hidle hlow hprev, hdec', hwhole, hwave]

/-! ### A run of one word -/

instance : ∀ (s : Receiver) (e : Ev), Decidable (s.Fits e)
  | _, .fall => .isTrue trivial
  | s, .rise => inferInstanceAs (Decidable (s.demod.message .rise = [] ∨ s.link.Quiet (.frame 0)))
  | s, .clk m => inferInstanceAs (Decidable (s.link.delivers m = true → (held s.sys.dev).length < queueLen))
  | s, .read length _ =>
    match h : s.sys.dev.msgQueuePtr with
    | none => .isTrue fun q hq => by rw [h] at hq; cases hq
    | some q => decidable_of_iff (q.headIdx + min length q.size < queueLen)
      ⟨fun hlt q' hq' => by rw [h] at hq'; cases hq'; exact hlt, fun hb => hb q h⟩

def waitEv : Edge → Ev
  | .fall => .fall
  | .rise => .rise
  | .clk _ => .clk ⟨false, false, false, false⟩

/-- A link that a clock edge without an access leaves as it is. -/
def Resting (s : Receiver) : Prop :=
  s.link.onClk ⟨false, false, false, false⟩ = s.link ∧ s.link.delivers ⟨false, false, false, false⟩ = false ∧
    s.link.block.slvReg0 = s.demod.slvReg0 ∧ s.link.block.slvReg1 = s.demod.slvReg1

theorem step_resting {e : Edge} (he : e ≠ .clk false) (hrest : s.Resting) (hmsg : s.demod.message e = []) :
    s.Fits (waitEv e) ∧ s.step (waitEv e) = some { s with demod := s.demod.step e } ∧
      Resting { s with demod := s.demod.step e } := by
  obtain ⟨hsame, hdel, h0, h1⟩ := hrest
  have hregs : (s.demod.step e).slvReg0 = s.demod.slvReg0 ∧ (s.demod.step e).slvReg1 = s.demod.slvReg1 := by
    rcases s.demod.message_cases e with ⟨-, hkeep⟩ | ⟨hone, -⟩
    · exact hkeep
    · rw [hmsg] at hone
      cases hone
  have hrest' : Resting { s with demod := s.demod.step e } :=
    ⟨hsame, hdel, h0.trans hregs.1.symm, h1.trans hregs.2.symm⟩
  have hsignal : s.onSignal e = { s with demod := s.demod.step e } := by
    rw [onSignal, hmsg, share_nil (h0.trans hregs.1.symm) (h1.trans hregs.2.symm)]
  cases e with
  | fall => exact ⟨trivial, congrArg some hsignal, hrest'⟩
  | rise => exact ⟨.inl hmsg, congrArg some hsignal, hrest'⟩
  | clk aresetn =>
    obtain rfl : aresetn = true := by
      cases aresetn with
      | true => rfl
      | false => exact absurd rfl he
    have hno : ¬ s.link.delivers ⟨false, false, false, false⟩ = true := by simp [hdel]
    refine ⟨fun h => absurd h hno, ?_, hrest'⟩
    rw [waitEv, step, if_neg hno, hsame]
    rfl

theorem run_resting : ∀ (E : List Edge) {s : Receiver}, .clk false ∉ E → s.Resting → s.demod.messages E = [] →
    AllSteps step Fits s (E.map waitEv) ∧
      (E.map waitEv).foldlM step s = some { s with demod := s.demod.run E } := by
  intro E
  induction E with
  | nil => intro s _ _ _; exact ⟨trivial, rfl⟩
  | cons e E ih =>
    intro s hclk hrest hmsg
    obtain ⟨hne, hclk'⟩ := not_or.1 (fun h => hclk (List.mem_cons.2 h))
    obtain ⟨hnow, hlater⟩ := List.append_eq_nil_iff.1 hmsg
    obtain ⟨hfits, hstep, hrest'⟩ := step_resting (Ne.symm hne) hrest hnow
    obtain ⟨hall, hrun⟩ := ih (s := { s with demod := s.demod.step e }) hclk' hrest' hlater
    exact ⟨(allSteps_cons_some hstep).2 ⟨hfits, hall⟩, (foldlM_cons_some hstep).trans hrun⟩

/-- The events in which the demodulator has no part. -/
def Ev.IsInner : Ev → Prop
  | .clk _ => True
  | .read _ _ => True
  | _ => False

theorem step_inner {e : Ev} (he : e.IsInner) (l : BusLink) (y : Sys) :
    (∀ d d' : Demod, Fits ⟨d, l, y⟩ e → Fits ⟨d', l, y⟩ e) ∧
      ∃ (o : Option (BusLink × Sys)) (f : Demod → Demod), ∀ d, step ⟨d, l, y⟩ e = o.map fun p => ⟨f d, p.1, p.2⟩ := by
  cases e with
  | fall => exact he.elim
  | rise => exact he.elim
  | clk m =>
    refine ⟨fun d d' h => h, (if l.delivers m then y.step (.irq l.slave.rdata) else some y).map fun sys =>
      (l.onClk m, sys), fun d => d.step (.clk true), fun d => ?_⟩
    rw [Option.map_map]
    rfl
  | read length temp =>
    refine ⟨fun d d' h => h, (y.step (.read length temp)).map fun sys => (l, sys), id, fun d => ?_⟩
    rw [Option.map_map]
    rfl

/-- Clock edges and reads go the same way behind any demodulator. -/
theorem run_inner : ∀ (es : List Ev), (∀ e ∈ es, e.IsInner) → ∀ (d d' : Demod) (l : BusLink) (y : Sys),
    (AllSteps step Fits ⟨d, l, y⟩ es → AllSteps step Fits ⟨d', l, y⟩ es) ∧
      (es.foldlM step ⟨d, l, y⟩).map link = (es.foldlM step ⟨d', l, y⟩).map link := by
  intro es
  induction es with
  | nil => intro _ d d' l y; exact ⟨fun _ => trivial, rfl⟩
  | cons e es ih =>
    intro hes d d' l y
    obtain ⟨hfits, o, f, hstep⟩ := step_inner (hes e List.mem_cons_self) l y
    have ih' := ih (fun e' he' => hes e' (List.mem_cons_of_mem e he')) (f d) (f d')
    rw [List.foldlM_cons, List.foldlM_cons, hstep d, hstep d']
    cases o with
    | none => exact ⟨fun h => (allSteps_cons_none (hstep d')).2 (hfits d d' h.1), rfl⟩
    | some p =>
      obtain ⟨hsteps, hlink⟩ := ih' p.1 p.2
      refine ⟨fun h => (allSteps_cons_some (hstep d')).2 ⟨hfits d d' h.1, ?_⟩, hlink⟩
      exact hsteps (h.2 _ (hstep d))

def powerUp : Demod := ⟨true, 0, .other, 0, 0, 0, 0⟩

/-- After the word: the processor raises everything at once and takes every response, and one message is read. -/
def serve : List Ev :=
  .clk ⟨false, false, false, false⟩ :: (List.replicate 20 (.clk ⟨true, true, true, true⟩) ++
    [.read 1 (irMsgNew 0 0)])

def oneWord (w : BitVec 12) : List Ev :=
  (List.replicate 1 (Edge.clk true) ++ Frame.toLastLow (.ofWord w)).map waitEv ++ .rise :: serve

def opened : Receiver := start powerUp (fun _ => irMsgNew 0 0) []

theorem serve_fits :
    AllSteps step Fits ⟨powerUp, (BusLink.start 0 0).frame 0xA81, opened.sys⟩ serve ∧
      ((serve.foldlM step ⟨powerUp, (BusLink.start 0 0).frame 0xA81, opened.sys⟩).map link).map
        (fun l => (l.handler, l.block.irInterrupt, l.block.slvReg1, l.block.slvReg1Prev)) =
          some (.idle, false, 1, 1) := by
  decide +kernel

theorem edges_map_waitEv : ∀ E : List Edge, .clk false ∉ E → edges (E.map waitEv) = E := by
  intro E
  induction E with
  | nil => intro _; rfl
  | cons e E ih =>
    intro hclk
    obtain ⟨hne, hclk'⟩ := not_or.1 (fun h => hclk (List.mem_cons.2 h))
    have he : edges [waitEv e] = [e] := by
      cases e with
      | fall => rfl
      | rise => rfl
      | clk aresetn =>
        cases aresetn with
        | true => rfl
        | false => exact absurd rfl hne
    rw [List.map_cons, edges_cons, ih hclk', he]
    rfl

theorem noReset_toLastLow (f : Frame) : Edge.clk false ∉ List.replicate 1 (.clk true) ++ f.toLastLow := by
  simp [Frame.toLastLow, Phase.edges, Phase.toRise]

theorem edges_oneWord (w : BitVec 12) :
    edges (oneWord w) = wave 1 [.ofWord w] ++ List.replicate 20 (.clk true) := by
  have hserve : edges (.rise :: serve) = .rise :: (List.replicate 1 (.clk true) ++ List.replicate 20 (.clk true)) := by
    decide
  have hhigh : ((Frame.ofWord w).bits 11).high = 1 := rfl
  rw [oneWord, edges_append, edges_map_waitEv _ (noReset_toLastLow _), hserve, wave, List.flatMap_singleton,
    Frame.edges_eq, hhigh, List.append_assoc, List.append_assoc, List.append_assoc, List.cons_append]

/-- The run of a line whose last rising edge completes the message. -/
theorem fits_serve {E : List Edge} (hclk : Edge.clk false ∉ E) (hmsgs : powerUp.messages E = [])
    (hmsg : (powerUp.run E).message .rise = [(0xA81#12).setWidth 32]) :
    AllSteps step Fits opened (E.map waitEv ++ .rise :: serve) ∧
      ∃ s, (E.map waitEv ++ .rise :: serve).foldlM step opened = some s ∧ s.link.handler = .idle ∧
        s.link.block.irInterrupt = false ∧ s.link.block.slvReg1 = s.link.block.slvReg1Prev := by
  have hrest : opened.Resting := by
    refine ⟨?_, ?_, rfl, rfl⟩ <;> decide
  obtain ⟨hbefore, hrun⟩ := run_resting E hclk hrest hmsgs
  have hcount : (powerUp.run E).slvReg1 = 0 := by
    rw [Demod.slvReg1_of_messages _ _ hmsgs]
    rfl
  have hrun' : (E.map waitEv).foldlM step opened = some ⟨powerUp.run E, .start 0 0, opened.sys⟩ := hrun
  generalize powerUp.run E = d at hmsg hcount hrun'
  -- at the end of the word the interrupt block begins a frame
  have hrise : step ⟨d, .start 0 0, opened.sys⟩ .rise =
      some ⟨d.step .rise, (BusLink.start 0 0).frame 0xA81, opened.sys⟩ := by
    rcases d.message_cases .rise with ⟨hnil, -⟩ | ⟨hone, hnext⟩
    · rw [hnil] at hmsg
      cases hmsg
    · have hreg : (d.step .rise).slvReg0 = (0xA81#12).setWidth 32 := by
        rw [hone] at hmsg
        exact (List.cons_eq_cons.1 hmsg).1
      have hshare := share_frame (s := .start 0 0) hcount.symm hreg hnext
      rw [step, onSignal, hmsg]
      exact congrArg (fun l => some (Receiver.mk (d.step .rise) l opened.sys)) hshare
  obtain ⟨hserve, hend⟩ := serve_fits
  obtain ⟨hsame, hlink⟩ := run_inner serve (by simp [serve, Ev.IsInner]) powerUp (d.step .rise)
    ((BusLink.start 0 0).frame 0xA81) opened.sys
  constructor
  · -- the frame finds the block quiet, and nothing comes from the signal while it is served
    refine hbefore.append fun s' hs' => ?_
    obtain rfl : (⟨d, .start 0 0, opened.sys⟩ : Receiver) = s' := Option.some.inj (hrun'.symm.trans hs')
    have hquiet : (BusLink.start 0 0).Quiet (.frame 0) := by decide
    exact (allSteps_cons_some hrise).2 ⟨.inr hquiet, hsame hserve⟩
  · rw [hlink, Option.map_map] at hend
    obtain ⟨s, hs, hobs⟩ := Option.map_eq_some_iff.1 hend
    simp only [Function.comp_apply, Prod.mk.injEq] at hobs
    obtain ⟨hh, hi, h1, hp⟩ := hobs
    exact ⟨s, ((foldlM_append_some hrun').trans (foldlM_cons_some hrise)).trans hs, hh, hi, h1.trans hp.symm⟩

theorem oneWord_fits : AllSteps step Fits opened (oneWord 0xA81) ∧
    ∃ s, (oneWord 0xA81).foldlM step opened = some s ∧ s.link.handler = .idle ∧ s.link.block.irInterrupt = false ∧
      s.link.block.slvReg1 = s.link.block.slvReg1Prev := by
  have hidle : (powerUp.run (List.replicate 1 (.clk true))).Idle := ⟨rfl, rfl⟩
  refine fits_serve (noReset_toLastLow (.ofWord 0xA81)) ?_ ?_
  · rw [Demod.messages_append, Demod.messages_hold, Demod.messages_toLastLow hidle, List.append_nil]
  · rw [Demod.run_append, Demod.message_frame hidle]
    rfl

/-- The program prints the word. -/
theorem printed_oneWord : ∃ s, (oneWord 0xA81).foldlM step opened = some s ∧ s.printed = [0xA81] := by
  obtain ⟨hfits, s, hrun, hidle, hlow, hprev⟩ := oneWord_fits
  have hedges := edges_oneWord 0xA81
  have hpre : edges (oneWord 0xA81) <+: wave 1 [.ofWord 0xA81] ++ List.replicate 20 (.clk true) :=
    ⟨[], (List.append_nil _).trans hedges⟩
  obtain ⟨s', hrun', -, hall⟩ := printed_wave powerUp rfl (fun _ => irMsgNew 0 0) [] (Nat.le_refl 1)
    [.ofWord 0xA81] 20 (oneWord 0xA81) hpre hfits
  obtain rfl : s = s' := Option.some.inj (hrun.symm.trans hrun')
  exact ⟨s, hrun, hall hedges hidle hlow hprev⟩

end Receiver

end TamuProofs.IrDemod
