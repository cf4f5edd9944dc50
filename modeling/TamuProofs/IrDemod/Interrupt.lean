import TamuProofs.Lib.Run
import TamuProofs.IrDriver.Device
import TamuProofs.IrDemod.Decode

/-!
From a decoded frame to the message queue: the interrupt block of `ir_demod_v2_0_S00_AXI.v`, clock edge by
clock edge, and `irq_handler` of `ir_dev.c` as the sequence of its bus accesses.

A frame raises `slv_reg1`; the next clock edge sees that it differs from its value one cycle before and
raises `IR_interrupt`, unless bit 0 of `slv_reg2` is set. The handler reads the message, sets that bit, and
clears it again. The bit it polls in between is bit 15, which nothing ever sets, so it does not wait for the
interrupt to go away.

* `Link.onClk` — the interrupt block, `Link.access` — one bus access of the handler;
* `Flow`, `Finishing` — the states of a run that loses nothing, and those in which the handler is past the
  read;
* **`noLoss_iff_handlerDone`**: among the runs in which a frame arrives only after the message before it has
  been read, those that lose nothing are those in which a frame arrives only with `IR_interrupt` and the
  acknowledge bit low.
-/

namespace TamuProofs.IrDemod

open TamuProofs.Lib TamuProofs.IrDriver

/-! ### The interrupt block -/

/-- Where `irq_handler` stands, by its next bus access. -/
inductive Irq
  | idle
  | readData
  | resetInterrupt
  | waitReset
  | clearReset
  deriving DecidableEq, Repr

/-- The registers of the interrupt block, the handler, the messages given to `enqueue` (the queue is taken
never to be full) and the frames decoded so far. -/
structure Link where
  slvReg0 : BitVec 32
  slvReg1 : BitVec 32
  slvReg1Prev : BitVec 32
  slvReg2 : BitVec 32
  irInterrupt : Bool
  handler : Irq
  enqueued : List IrMsg
  decoded : List (BitVec 12)
  deriving DecidableEq, Repr

/-- A write on the bus: `axi_awaddr` (its two address bits), `S_AXI_WDATA` and `S_AXI_WSTRB`. -/
structure BusWrite where
  awaddr : BitVec 2
  wdata : BitVec 32
  wstrb : BitVec 4
  deriving DecidableEq, Repr

/-- `iowrite16(x, virt_addr + 8)`: the low half of register 2. -/
def iowrite16 (x : BitVec 16) : BusWrite := ⟨2, x.setWidth 32, 0b0011⟩

/-- `slv_reg2[(byte_index*8) +: 8] <= S_AXI_WDATA[(byte_index*8) +: 8]`, under its strobe. -/
def writeByte (w : BusWrite) (reg : BitVec 32) (byteIndex : Nat) : BitVec 32 :=
  if w.wstrb.getLsbD byteIndex then
    (reg &&& ~~~ (0xff#32 <<< (byteIndex * 8))) ||| (w.wdata &&& (0xff#32 <<< (byteIndex * 8)))
  else reg

/-- Register 2 after a bus cycle: only its two low bytes can be written. -/
def busWrite (reg : BitVec 32) : Option BusWrite → BitVec 32
  | none => reg
  | some w => if w.awaddr = 2 then [0, 1].foldl (writeByte w) reg else reg

/-- `slv_reg2[31] <= b`. -/
def setTop (reg : BitVec 32) (b : Bool) : BitVec 32 :=
  if b then reg ||| BitVec.twoPow 32 31 else reg &&& ~~~ BitVec.twoPow 32 31

namespace Link

/-- The interrupt block, with the write that the bus carries at this clock edge. -/
def onClk (s : Link) (aresetn : Bool) (w : Option BusWrite) : Link :=
  if !aresetn then { s with irInterrupt := false, slvReg2 := 0 }
  else
    { s with
      slvReg2 := setTop (busWrite s.slvReg2 w) s.irInterrupt
      slvReg1Prev := s.slvReg1
      irInterrupt :=
        if s.slvReg2.getLsbD 0 then false
        else if s.slvReg1 ≠ s.slvReg1Prev then true
        else s.irInterrupt }

/-- The handler is started when the interrupt is high and no handler is running. -/
def startIrq (s : Link) : Link :=
  if s.irInterrupt ∧ s.handler = .idle then { s with handler := .readData } else s

/-- A clock edge at which the next bus access of the handler is carried out. A read gets the value of the
register before the edge. -/
def access (s : Link) : Link :=
  match s.handler with
  | .idle => s.onClk true none
  | .readData =>
    { s.onClk true none with handler := .resetInterrupt, enqueued := s.enqueued ++ [rawMsg s.slvReg0] }
  | .resetInterrupt => { s.onClk true (some (iowrite16 1)) with handler := .waitReset }
  | .waitReset =>
    if s.slvReg2 &&& 0x8000 ≠ 0 then s.onClk true none
    else { s.onClk true none with handler := .clearReset }
  | .clearReset => { s.onClk true (some (iowrite16 0)) with handler := .idle }

/-- A frame reaches the message registers, as `Demod.pushed` does for it. -/
def frame (s : Link) (code : BitVec 12) : Link :=
  { s with
    slvReg0 := code.setWidth 32
    slvReg1 := s.slvReg1 + 1
    decoded := s.decoded ++ [code] }

/-- A frame, or a clock edge with or without a bus access of the handler. -/
inductive Ev
  | frame (code : BitVec 12)
  | clk (access : Bool)
  deriving DecidableEq, Repr

def next (s : Link) : Ev → Link
  | .frame code => s.frame code
  | .clk true => s.access.startIrq
  | .clk false => (s.onClk true none).startIrq

def step (s : Link) (e : Ev) : Option Link := some (s.next e)

/-- The link once the handler has been let run: five clock edges, each with a bus access. -/
def settle (s : Link) : Link := (List.replicate 5 (Ev.clk true)).foldl next s

/-- **No message is lost**: once the handler has been let run, it is idle and has enqueued every frame. -/
def NoLoss (s : Link) : Prop :=
  s.settle.handler = .idle ∧ s.settle.enqueued = s.decoded.map fun code => rawMsg (code.setWidth 32)

/-- A frame arrives only after the handler has read the message before it. -/
def Spaced (s : Link) : Ev → Prop
  | .frame _ => s.enqueued.length = s.decoded.length
  | .clk _ => True

/-- A frame arrives only when the handler of the frame before it is done: neither the interrupt nor its
acknowledge bit is up. -/
def HandlerDone (s : Link) : Ev → Prop
  | .frame _ => s.irInterrupt = false ∧ s.slvReg2.getLsbD 0 = false
  | .clk _ => True

instance (s : Link) : Decidable s.NoLoss := by unfold NoLoss; infer_instance

instance : ∀ (s : Link) (e : Ev), Decidable (s.Spaced e)
  | s, .frame _ => inferInstanceAs (Decidable (s.enqueued.length = s.decoded.length))
  | _, .clk _ => .isTrue trivial

instance : ∀ (s : Link) (e : Ev), Decidable (s.HandlerDone e)
  | s, .frame _ => inferInstanceAs (Decidable (s.irInterrupt = false ∧ s.slvReg2.getLsbD 0 = false))
  | _, .clk _ => .isTrue trivial

def start (reg0 reg1 : BitVec 32) : Link := ⟨reg0, reg1, reg1, 0, false, .idle, [], []⟩

/-! ### Bits of register 2 -/

theorem getLsbD_setTop (reg : BitVec 32) (b : Bool) {i : Nat} (hi : i < 31) :
    (setTop reg b).getLsbD i = reg.getLsbD i := by
  have hne : ¬ 31 = i := by omega
  unfold setTop
  cases b with
  | true => simp [hne]
  | false =>
    have hlt : i < 32 := by omega
    simp [hlt, show ¬ i = 31 by omega]

/-- A byte lane under its strobe takes the bits of the data, and the rest stays. -/
theorem getLsbD_writeByte (w : BusWrite) (reg : BitVec 32) (k : Nat) {i : Nat} (hi : i < 32) :
    (writeByte w reg k).getLsbD i =
      if w.wstrb.getLsbD k = true ∧ k * 8 ≤ i ∧ i < k * 8 + 8 then w.wdata.getLsbD i else reg.getLsbD i := by
  unfold writeByte
  by_cases hstrb : w.wstrb.getLsbD k = true
  · have h255 : ∀ j < 32, (0xff#32).getLsbD j = decide (j < 8) := by decide
    rw [if_pos hstrb]
    simp only [BitVec.getLsbD_or, BitVec.getLsbD_and, BitVec.getLsbD_not, BitVec.getLsbD_shiftLeft,
      h255 (i - k * 8) (by omega), hstrb, true_and]
    by_cases h : k * 8 ≤ i ∧ i < k * 8 + 8
    · have h1 : ¬ i < k * 8 := by omega
      have h2 : i - k * 8 < 8 := by omega
      simp [h, h1, h2, hi]
    · rw [if_neg h]
      by_cases h1 : i < k * 8
      · simp [h1, hi]
      · have h2 : ¬ i - k * 8 < 8 := by omega
        simp [h1, h2, hi]
  · rw [if_neg hstrb, if_neg fun h => hstrb h.1]

/-- The driver's write replaces the low half and keeps the rest. -/
theorem getLsbD_iowrite16 (reg : BitVec 32) (x : BitVec 16) {i : Nat} (hi : i < 16) :
    (busWrite reg (some (iowrite16 x))).getLsbD i = x.getLsbD i := by
  have haddr : (iowrite16 x).awaddr = 2 := rfl
  have hstrb : ∀ k < 2, (iowrite16 x).wstrb.getLsbD k = true := by
    have hones : ∀ k < 2, (0b0011#4).getLsbD k = true := by decide
    exact hones
  have hdata : (iowrite16 x).wdata.getLsbD i = x.getLsbD i := by
    have hlt : i < 32 := by omega
    simp [iowrite16, hlt]
  simp only [busWrite, if_pos haddr, List.foldl_cons, List.foldl_nil]
  rw [getLsbD_writeByte _ _ _ (by omega), getLsbD_writeByte _ _ _ (by omega), hdata, hstrb 0 (by omega),
    hstrb 1 (by omega)]
  simp only [true_and]
  split_ifs <;> first | rfl | omega

/-- What the handler polls is bit 15. -/
theorem poll_eq_zero {reg : BitVec 32} (h : reg.getLsbD 15 = false) : reg &&& 0x8000 = 0 := by
  have h8000 : ∀ j < 32, (0x8000#32).getLsbD j = decide (j = 15) := by decide
  apply BitVec.eq_of_getLsbD_eq
  intro i hi
  rw [BitVec.getLsbD_and]
  by_cases h15 : i = 15
  · subst h15
    rw [h, Bool.false_and]
    rfl
  · have hz := h8000 i hi
    rw [decide_eq_false h15] at hz
    exact (congrArg _ hz).trans (by simp)

theorem onClk_bit (s : Link) (w : Option BusWrite) {i : Nat} (hi : i < 31) :
    (s.onClk true w).slvReg2.getLsbD i = (busWrite s.slvReg2 w).getLsbD i :=
  getLsbD_setTop _ _ hi

theorem onClk_none_bit (s : Link) {i : Nat} (hi : i < 31) :
    (s.onClk true none).slvReg2.getLsbD i = s.slvReg2.getLsbD i :=
  onClk_bit s none hi

theorem onClk_iowrite16_bit (s : Link) (x : BitVec 16) {i : Nat} (hi : i < 16) :
    (s.onClk true (some (iowrite16 x))).slvReg2.getLsbD i = x.getLsbD i :=
  (onClk_bit s _ (by omega)).trans (getLsbD_iowrite16 _ _ hi)

@[simp] theorem onClk_slvReg1 (s : Link) (w : Option BusWrite) : (s.onClk true w).slvReg1 = s.slvReg1 := rfl

@[simp] theorem onClk_slvReg1Prev (s : Link) (w : Option BusWrite) : (s.onClk true w).slvReg1Prev = s.slvReg1 :=
  rfl

@[simp] theorem onClk_decoded (s : Link) (w : Option BusWrite) : (s.onClk true w).decoded = s.decoded := rfl

@[simp] theorem startIrq_decoded (s : Link) : s.startIrq.decoded = s.decoded := by
  unfold startIrq
  split <;> rfl

theorem next_clk_decoded (s : Link) (b : Bool) : (s.next (.clk b)).decoded = s.decoded := by
  cases b with
  | true =>
    rw [next, startIrq_decoded, access]
    split
    · rfl
    · rfl
    · rfl
    · split <;> rfl
    · rfl
  | false => rw [next, startIrq_decoded, onClk_decoded]

theorem onClk_irInterrupt_ack {s : Link} (h : s.slvReg2.getLsbD 0 = true) (w : Option BusWrite) :
    (s.onClk true w).irInterrupt = false := by
  simp [onClk, h]

theorem onClk_irInterrupt_change {s : Link} (h : s.slvReg2.getLsbD 0 = false) (hne : s.slvReg1 ≠ s.slvReg1Prev)
    (w : Option BusWrite) : (s.onClk true w).irInterrupt = true := by
  simp only [onClk, Bool.not_true, Bool.false_eq_true, if_false, h, if_pos hne]

theorem onClk_irInterrupt_keep {s : Link} (h : s.slvReg2.getLsbD 0 = false) (heq : s.slvReg1 = s.slvReg1Prev)
    (w : Option BusWrite) : (s.onClk true w).irInterrupt = s.irInterrupt := by
  simp only [onClk, Bool.not_true, Bool.false_eq_true, if_false, h, if_neg (not_not_intro heq)]

theorem onClk_irInterrupt_up {s : Link} (h : s.slvReg2.getLsbD 0 = false) (hup : s.irInterrupt = true)
    (w : Option BusWrite) : (s.onClk true w).irInterrupt = true := by
  by_cases heq : s.slvReg1 = s.slvReg1Prev
  · rw [onClk_irInterrupt_keep h heq, hup]
  · exact onClk_irInterrupt_change h heq w

theorem startIrq_low {s : Link} (h : s.irInterrupt = false) : s.startIrq = s := by
  simp [startIrq, h]

theorem startIrq_busy {s : Link} (h : s.handler ≠ .idle) : s.startIrq = s := by
  simp [startIrq, h]

theorem startIrq_up {s : Link} (h : s.irInterrupt = true) (hi : s.handler = .idle) :
    s.startIrq = { s with handler := .readData } := by
  simp [startIrq, h, hi]

/-! ### The accesses of the handler -/

theorem next_readData {s : Link} (hh : s.handler = .readData) :
    s.next (.clk true) = { s.onClk true none with
      handler := .resetInterrupt, enqueued := s.enqueued ++ [rawMsg s.slvReg0] } := by
  rw [next, access, hh]
  exact startIrq_busy (fun h => nomatch h)

theorem next_resetInterrupt {s : Link} (hh : s.handler = .resetInterrupt) :
    s.next (.clk true) = { s.onClk true (some (iowrite16 1)) with handler := .waitReset } := by
  rw [next, access, hh]
  exact startIrq_busy (fun h => nomatch h)

/-- The poll never waits. -/
theorem next_waitReset {s : Link} (hh : s.handler = .waitReset) (hp : s.slvReg2.getLsbD 15 = false) :
    s.next (.clk true) = { s.onClk true none with handler := .clearReset } := by
  rw [next, access, hh]
  dsimp only
  rw [if_neg (not_not_intro (poll_eq_zero hp))]
  exact startIrq_busy (fun h => nomatch h)

theorem next_clearReset {s : Link} (hh : s.handler = .clearReset) (ha : s.slvReg2.getLsbD 0 = true) :
    s.next (.clk true) = { s.onClk true (some (iowrite16 0)) with handler := .idle } := by
  rw [next, access, hh]
  exact startIrq_low (onClk_irInterrupt_ack ha (some (iowrite16 0)))

theorem next_idle {s : Link} (hh : s.handler = .idle) : s.next (.clk true) = s.next (.clk false) := by
  simp [next, access, hh]

/-! ### The handler past its read -/

/-- The states in which the handler has nothing more to read: it is idle and no frame waits, or it is
acknowledging. -/
inductive Finishing (s : Link) : Prop
  | idle (hh : s.handler = .idle) (ha : s.slvReg2.getLsbD 0 = false) (hi : s.irInterrupt = false)
      (hr : s.slvReg1 = s.slvReg1Prev)
  | resetInterrupt (hh : s.handler = .resetInterrupt) (ha : s.slvReg2.getLsbD 0 = false)
      (hi : s.irInterrupt = true)
  | waitReset (hh : s.handler = .waitReset) (ha : s.slvReg2.getLsbD 0 = true)
  | clearReset (hh : s.handler = .clearReset) (ha : s.slvReg2.getLsbD 0 = true)

/-- What a clock edge leaves of a state in which the handler has nothing more to read. -/
structure Finished (s t : Link) : Prop where
  finishing : Finishing t
  poll : t.slvReg2.getLsbD 15 = false
  enqueued : t.enqueued = s.enqueued
  decoded : t.decoded = s.decoded
  prev : t.slvReg1 = t.slvReg1Prev

theorem finishing_wait {s : Link} (h : Finishing s) (hp : s.slvReg2.getLsbD 15 = false) :
    Finished s (s.next (.clk false)) := by
  have hkeep : s.next (.clk false) = s.onClk true none → Finishing (s.onClk true none) →
      Finished s (s.next (.clk false)) := by
    intro hnext hfin
    rw [hnext]
    exact ⟨hfin, (s.onClk_none_bit (by omega)).trans hp, rfl, rfl, rfl⟩
  cases h with
  | idle hh ha hi hr =>
    have hlow : (s.onClk true none).irInterrupt = false := by rw [onClk_irInterrupt_keep ha hr, hi]
    exact hkeep (startIrq_low hlow) (.idle hh ((s.onClk_none_bit (by omega)).trans ha) hlow rfl)
  | resetInterrupt hh ha hi =>
    have hup := onClk_irInterrupt_up ha hi none
    refine hkeep (startIrq_busy ?_) (.resetInterrupt hh ((s.onClk_none_bit (by omega)).trans ha) hup)
    exact fun h => nomatch hh.symm.trans h
  | waitReset hh ha =>
    have hlow := onClk_irInterrupt_ack ha none
    exact hkeep (startIrq_low hlow) (.waitReset hh ((s.onClk_none_bit (by omega)).trans ha))
  | clearReset hh ha =>
    have hlow := onClk_irInterrupt_ack ha none
    exact hkeep (startIrq_low hlow) (.clearReset hh ((s.onClk_none_bit (by omega)).trans ha))

theorem finishing_access {s : Link} (h : Finishing s) (hp : s.slvReg2.getLsbD 15 = false) :
    Finished s (s.next (.clk true)) := by
  cases h with
  | idle hh ha hi hr =>
    rw [next_idle hh]
    exact finishing_wait (.idle hh ha hi hr) hp
  | resetInterrupt hh ha hi =>
    rw [next_resetInterrupt hh]
    have hbit : ∀ i < 16, (s.onClk true (some (iowrite16 1))).slvReg2.getLsbD i = (1#16).getLsbD i :=
      fun i => onClk_iowrite16_bit s 1
    exact ⟨.waitReset rfl (hbit 0 (by omega)), hbit 15 (by omega), rfl, rfl, rfl⟩
  | waitReset hh ha =>
    rw [next_waitReset hh hp]
    exact ⟨.clearReset rfl ((s.onClk_none_bit (by omega)).trans ha), (s.onClk_none_bit (by omega)).trans hp, rfl,
      rfl, rfl⟩
  | clearReset hh ha =>
    rw [next_clearReset hh ha]
    have hbit : ∀ i < 16, (s.onClk true (some (iowrite16 0))).slvReg2.getLsbD i = (0#16).getLsbD i :=
      fun i => onClk_iowrite16_bit s 0
    have hlow := onClk_irInterrupt_ack ha (some (iowrite16 0))
    exact ⟨.idle rfl (hbit 0 (by omega)) hlow rfl, hbit 15 (by omega), rfl, rfl, rfl⟩

theorem finishing_clk {s : Link} (h : Finishing s) (hp : s.slvReg2.getLsbD 15 = false) (b : Bool) :
    Finished s (s.next (.clk b)) := by
  cases b with
  | true => exact finishing_access h hp
  | false => exact finishing_wait h hp

/-- A handler that is past its read reads nothing more, however long it is let run. -/
theorem finishing_run : ∀ (n : Nat) {s : Link}, Finishing s → s.slvReg2.getLsbD 15 = false →
    ((List.replicate n (Ev.clk true)).foldl next s).enqueued = s.enqueued := by
  intro n
  induction n with
  | zero => intro s _ _; rfl
  | succ n ih =>
    intro s h hp
    have hclk := finishing_clk h hp true
    rw [List.replicate_succ, List.foldl_cons, ih hclk.finishing hclk.poll, hclk.enqueued]

/-! ### Runs that lose nothing -/

/-- Every frame has been read. -/
structure Done (s : Link) : Prop where
  finishing : Finishing s
  poll : s.slvReg2.getLsbD 15 = false
  prev : s.slvReg1 = s.slvReg1Prev
  all : s.enqueued = s.decoded.map fun code => rawMsg (code.setWidth 32)

/-- The last frame waits in register 0: it is about to raise the interrupt, or has raised it. -/
structure Waiting (s : Link) : Prop where
  handler : s.handler = .idle ∧ s.slvReg1 ≠ s.slvReg1Prev ∨ s.handler = .readData ∧ s.irInterrupt = true
  ack : s.slvReg2.getLsbD 0 = false
  poll : s.slvReg2.getLsbD 15 = false
  last : ∃ codes code, s.decoded = codes ++ [code] ∧ s.slvReg0 = code.setWidth 32 ∧
    s.enqueued = codes.map fun code => rawMsg (code.setWidth 32)

/-- The states of a run that loses nothing. -/
def Flow (s : Link) : Prop := s.Done ∨ s.Waiting

theorem Waiting.bits {s : Link} (h : s.Waiting) :
    (s.onClk true none).slvReg2.getLsbD 0 = false ∧ (s.onClk true none).slvReg2.getLsbD 15 = false :=
  ⟨(s.onClk_none_bit (by omega)).trans h.ack, (s.onClk_none_bit (by omega)).trans h.poll⟩

theorem waiting_idle {s : Link} (h : s.Waiting) (hh : s.handler = .idle) (b : Bool) :
    (s.next (.clk b)).Waiting ∧ (s.next (.clk b)).handler = .readData := by
  have hne : s.slvReg1 ≠ s.slvReg1Prev := by
    rcases h.handler with ⟨-, hne⟩ | ⟨hr, -⟩
    · exact hne
    · exact nomatch hh.symm.trans hr
  have hup := onClk_irInterrupt_change h.ack hne none
  have hnext : s.next (.clk b) = { s.onClk true none with handler := .readData } := by
    cases b with
    | true =>
      rw [next, access, hh]
      exact startIrq_up hup hh
    | false => exact startIrq_up hup hh
  obtain ⟨hack, hpoll⟩ := h.bits
  rw [hnext]
  exact ⟨⟨.inr ⟨rfl, hup⟩, hack, hpoll, h.last⟩, rfl⟩

theorem Waiting.up {s : Link} (h : s.Waiting) (hh : s.handler = .readData) : s.irInterrupt = true := by
  rcases h.handler with ⟨hid, -⟩ | ⟨-, hi⟩
  · exact nomatch hh.symm.trans hid
  · exact hi

theorem waiting_wait {s : Link} (h : s.Waiting) (hh : s.handler = .readData) :
    (s.next (.clk false)).Waiting := by
  have hup := onClk_irInterrupt_up h.ack (h.up hh) none
  have hnext : s.next (.clk false) = s.onClk true none := startIrq_busy (fun h => nomatch hh.symm.trans h)
  obtain ⟨hack, hpoll⟩ := h.bits
  rw [hnext]
  exact ⟨.inr ⟨hh, hup⟩, hack, hpoll, h.last⟩

theorem waiting_read {s : Link} (h : s.Waiting) (hh : s.handler = .readData) :
    (s.next (.clk true)).Done ∧ (s.next (.clk true)).handler = .resetInterrupt := by
  have hup := onClk_irInterrupt_up h.ack (h.up hh) none
  obtain ⟨hack, hpoll⟩ := h.bits
  obtain ⟨codes, code, hdec, hreg, henq⟩ := h.last
  rw [next_readData hh]
  refine ⟨⟨.resetInterrupt rfl hack hup, hpoll, rfl, ?_⟩, rfl⟩
  show s.enqueued ++ [rawMsg s.slvReg0] = s.decoded.map _
  rw [henq, hreg, hdec]
  simp

/-- A frame that waits has not been read yet, and the next one is too early. -/
theorem Waiting.not_spaced {s : Link} (h : s.Waiting) {code : BitVec 12} : ¬ s.Spaced (.frame code) := by
  intro hsp
  obtain ⟨codes, c, hdec, -, henq⟩ := h.last
  have hlen : s.enqueued.length = s.decoded.length := hsp
  rw [henq, hdec] at hlen
  simp at hlen

theorem flow_clk {s : Link} (h : s.Flow) (b : Bool) : (s.next (.clk b)).Flow := by
  rcases h with h | h
  · have hclk := finishing_clk h.finishing h.poll b
    exact .inl ⟨hclk.finishing, hclk.poll, hclk.prev, by rw [hclk.enqueued, hclk.decoded, h.all]⟩
  · rcases h.handler with ⟨hh, -⟩ | ⟨hh, -⟩
    · exact .inr (waiting_idle h hh b).1
    · cases b with
      | true => exact .inl (waiting_read h hh).1
      | false => exact .inr (waiting_wait h hh)

/-- A frame that comes after the read and when the handler is done waits for its own interrupt. -/
theorem flow_frame {s : Link} (h : s.Flow) {code : BitVec 12} (hsp : s.Spaced (.frame code))
    (hd : s.HandlerDone (.frame code)) : (s.next (.frame code)).Flow := by
  obtain ⟨hlow, hack⟩ := hd
  rcases h with h | h
  · refine .inr ⟨.inl ?_, hack, h.poll, s.decoded, code, rfl, rfl, h.all⟩
    have hne : s.slvReg1 + 1 ≠ s.slvReg1Prev := by
      rw [← h.prev]
      simp
    cases h.finishing with
    | idle hh ha hi hr => exact ⟨hh, hne⟩
    | resetInterrupt hh ha hi => exact nomatch hlow.symm.trans hi
    | waitReset hh ha => exact nomatch hack.symm.trans ha
    | clearReset hh ha => exact nomatch hack.symm.trans ha
  · exact absurd hsp h.not_spaced

/-! ### Letting the handler run -/

def left (s : Link) : Nat :=
  match s.handler with
  | .idle => if s.slvReg1 = s.slvReg1Prev then 0 else 5
  | .readData => 4
  | .resetInterrupt => 3
  | .waitReset => 2
  | .clearReset => 1

theorem finishing_left {s : Link} (h : Finishing s) (hp : s.slvReg2.getLsbD 15 = false) :
    (s.next (.clk true)).left = s.left - 1 := by
  cases h with
  | idle hh ha hi hr =>
    have hlow : (s.onClk true none).irInterrupt = false := by rw [onClk_irInterrupt_keep ha hr, hi]
    have hnext : s.next (.clk true) = s.onClk true none := (next_idle hh).trans (startIrq_low hlow)
    have hh' : (s.onClk true none).handler = .idle := hh
    simp [hnext, left, hh, hr, hh']
  | resetInterrupt hh ha hi => simp [next_resetInterrupt hh, left, hh]
  | waitReset hh ha => simp [next_waitReset hh hp, left, hh]
  | clearReset hh ha => simp [next_clearReset hh ha, left, hh]

theorem flow_left {s : Link} (h : s.Flow) : (s.next (.clk true)).left = s.left - 1 := by
  rcases h with h | h
  · exact finishing_left h.finishing h.poll
  · rcases h.handler with ⟨hh, hne⟩ | ⟨hh, -⟩
    · simp [left, (waiting_idle h hh true).2, hh, hne]
    · simp [left, (waiting_read h hh).2, hh]

theorem flow_run : ∀ (n : Nat) {s : Link}, s.Flow →
    ((List.replicate n (Ev.clk true)).foldl next s).Flow ∧
      ((List.replicate n (Ev.clk true)).foldl next s).left = s.left - n ∧
      ((List.replicate n (Ev.clk true)).foldl next s).decoded = s.decoded := by
  intro n
  induction n with
  | zero => intro s h; exact ⟨h, rfl, rfl⟩
  | succ n ih =>
    intro s h
    obtain ⟨hflow, hleft, hdec⟩ := ih (flow_clk h true)
    rw [List.replicate_succ, List.foldl_cons]
    refine ⟨hflow, ?_, ?_⟩
    · rw [hleft, flow_left h]
      omega
    · rw [hdec, next_clk_decoded]

theorem left_le (s : Link) : s.left ≤ 5 := by
  unfold left
  split
  · split <;> omega
  all_goals omega

/-- What a state of `Flow` owes is paid in five accesses. -/
theorem flow_noLoss {s : Link} (h : s.Flow) : s.NoLoss := by
  obtain ⟨hflow, hleft, hdec⟩ := flow_run 5 h
  have hzero : s.settle.left = 0 := by
    have hle := s.left_le
    rw [settle, hleft]
    omega
  have hidle : s.settle.handler = .idle := by
    unfold left at hzero
    split at hzero
    · assumption
    all_goals omega
  refine ⟨hidle, ?_⟩
  rcases hflow with hdone | hwait
  · rw [← hdec]
    exact hdone.all
  · rcases hwait.handler with ⟨-, hne⟩ | ⟨hr, -⟩
    · have hr : s.settle.slvReg1 ≠ s.settle.slvReg1Prev := hne
      simp [left, hidle, hr] at hzero
    · exact nomatch hidle.symm.trans hr

/-- A frame that comes while the handler is past its read, but not done, is lost. -/
theorem handlerDone_of_noLoss {s : Link} (h : s.Flow) {code : BitVec 12} (hsp : s.Spaced (.frame code))
    (hn : (s.next (.frame code)).NoLoss) : s.HandlerDone (.frame code) := by
  rcases h with h | h
  · have hlost : Finishing (s.frame code) → False := by
      intro hfin
      have hrun := finishing_run 5 hfin h.poll
      have hall := congrArg List.length (hrun.symm.trans hn.2)
      have hlen : s.enqueued.length = s.decoded.length := hsp
      simp [next, frame, hlen] at hall
    cases h.finishing with
    | idle hh ha hi hr => exact ⟨hi, ha⟩
    | resetInterrupt hh ha hi => exact (hlost (.resetInterrupt hh ha hi)).elim
    | waitReset hh ha => exact (hlost (.waitReset hh ha)).elim
    | clearReset hh ha => exact (hlost (.clearReset hh ha)).elim
  · exact absurd hsp h.not_spaced

/-- The event of a frame is what the demodulator does to the message registers by the end of a word. -/
theorem frame_of_run {d : Demod} (hd : d.Idle) (f : Frame) {s : Link} (hs : s.slvReg1 = d.slvReg1) :
    s.frame f.word =
      { s with
        slvReg0 := (d.run f.toLastRise).slvReg0
        slvReg1 := (d.run f.toLastRise).slvReg1
        decoded := s.decoded ++ [f.word] } := by
  obtain ⟨hmsg, hcount⟩ := Demod.run_frame hd f
  rw [frame, hmsg, hcount, hs]

/-- With the handler idle and no frame on its way, nothing is owed. -/
theorem NoLoss.of_idle {s : Link} (h : s.NoLoss) (hh : s.handler = .idle) (hi : s.irInterrupt = false)
    (hr : s.slvReg1 = s.slvReg1Prev) (ha : s.slvReg2.getLsbD 0 = false) (hp : s.slvReg2.getLsbD 15 = false) :
    s.enqueued = s.decoded.map fun code => rawMsg (code.setWidth 32) :=
  (finishing_run 5 (.idle hh ha hi hr) hp).symm.trans h.2

end Link

open Link

/-- **No message is lost exactly when the handler is done before the next frame.** Among the runs from a
reset in which every frame comes after the message before it has been read, those that lose nothing in any
state are those in which every frame finds `IR_interrupt` and the acknowledge bit of register 2 low. -/
theorem noLoss_iff_handlerDone (reg0 reg1 : BitVec 32) (es : List Ev)
    (hsp : AllSteps step Spaced (Link.start reg0 reg1) es) :
    AllStates step NoLoss (Link.start reg0 reg1) es ↔ AllSteps step HandlerDone (Link.start reg0 reg1) es := by
  have hstart : (Link.start reg0 reg1).Flow :=
    .inl ⟨.idle rfl (by simp [Link.start]) rfl rfl, by simp [Link.start], rfl, rfl⟩
  refine allStates_iff_allSteps_within (fun s h => flow_noLoss h) ?_ ?_ hstart hsp
  · intro s e h hD hC
    cases e with
    | frame code => exact ⟨_, rfl, flow_frame h hD hC⟩
    | clk b => exact ⟨_, rfl, flow_clk h b⟩
  · intro s e s' h hD hs' hn
    cases e with
    | frame code =>
      cases hs'
      exact handlerDone_of_noLoss h hD hn
    | clk b => trivial

/-- Two frames, the second of them while the handler has read the first but not yet acknowledged it. -/
def Link.overrun : List Ev := [.frame 0xA81, .clk false, .clk true, .frame 0x7FF]

theorem not_noLoss_overrun :
    AllSteps step Spaced (Link.start 0 0) overrun ∧ ¬ AllStates step NoLoss (Link.start 0 0) overrun := by
  refine ⟨by decide, fun h => ?_⟩
  obtain ⟨s, hs, hn⟩ := h.last
  cases hs
  exact absurd hn (by decide)

/-- The same two frames, the second of them after the handler has cleared the acknowledge bit. -/
def Link.inTime : List Ev :=
  [.frame 0xA81, .clk false, .clk true, .clk false, .clk true, .clk true, .clk true, .frame 0x7FF, .clk true]

theorem noLoss_inTime :
    AllSteps step Spaced (Link.start 0 0) inTime ∧ AllStates step NoLoss (Link.start 0 0) inTime :=
  ⟨by decide, (noLoss_iff_handlerDone 0 0 inTime (by decide)).2 (by decide)⟩

end TamuProofs.IrDemod
