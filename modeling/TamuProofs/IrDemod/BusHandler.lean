import TamuProofs.IrDemod.Bus

/-!
`irq_handler` of `ir_dev.c` over the whole bus. In `Link` each of its accesses takes one clock edge; here an access
is a transaction of the AXI channels, of any length: the address, the data and the readiness for the response come
when the processor pleases, and the handler starts at any time after `IR_interrupt` went up.

* `BusLink.onClk` — one clock edge of the slave and of the processor in front of it;
* `BusLink.abs` — the state of `Link` that a state of the two stands for: an access counts as made at the edge at
  which the slave accepts it;
* **`abs_run`**: every run is, edge by edge and frame by frame, a run of `Link`;
* **`enqueued_of_quiet`**: so nothing is lost by it either, as long as a frame finds the interrupt block quiet.
-/

namespace TamuProofs.IrDemod

open TamuProofs.Lib TamuProofs.IrDriver

/-! ### The processor -/

/-- A bus access: `ioread32` from an address, or `iowrite16` to one. -/
inductive Access
  | none
  | ioread32 (addr : BitVec 4)
  | iowrite16 (x : BitVec 16) (addr : BitVec 4)
  deriving DecidableEq, Repr

/-- The access that the handler makes next. -/
def Irq.access : Irq → Access
  | .idle => .none
  | .readData => .ioread32 0
  | .resetInterrupt => .iowrite16 1 8
  | .waitReset => .ioread32 8
  | .clearReset => .iowrite16 0 8

/-- Where the handler goes from there, with the value it has read, if the access was a read. -/
def Irq.after (h : Irq) (rdata : BitVec 32) : Irq :=
  match h with
  | .idle => .idle
  | .readData => .resetInterrupt
  | .resetInterrupt => .waitReset
  | .waitReset => if rdata &&& 0x8000 ≠ 0 then .waitReset else .clearReset
  | .clearReset => .idle

/-- How far a channel is with the access that is being made: VALID not raised yet, raised, or accepted. -/
inductive Offer
  | low
  | held
  | done
  deriving DecidableEq, Repr

namespace Offer

/-- VALID at a clock edge, which the processor may raise at it. -/
def valid (o : Offer) (raise : Bool) : Bool :=
  match o with
  | .low => raise
  | .held => true
  | .done => false

def next (o : Offer) (raise ready : Bool) : Offer :=
  if o.valid raise then if ready then .done else .held else o

end Offer

/-- What the processor does of its own accord at a clock edge. -/
structure Will where
  start : Bool
  raiseAddr : Bool
  raiseData : Bool
  take : Bool
  deriving DecidableEq, Repr

/-- The slave, and the handler with its access. -/
structure BusLink where
  slave : BusSlave
  handler : Irq
  addr : Offer
  data : Offer
  enqueued : List IrMsg
  deriving DecidableEq, Repr

namespace BusLink

/-- The block behind the slave; its two fields for the handler are not used. -/
abbrev block (s : BusLink) : Link := s.slave.block

def inputs (s : BusLink) (m : Will) : BusInputs :=
  match s.handler.access with
  | .none => ⟨⟨0, false, 0, 0, false, s.block.slvReg1⟩, m.take, 0, false, m.take, s.block.slvReg0⟩
  | .ioread32 addr =>
    ⟨⟨0, false, 0, 0, false, s.block.slvReg1⟩, m.take, addr, s.addr.valid m.raiseAddr, m.take, s.block.slvReg0⟩
  | .iowrite16 x addr =>
    ⟨⟨addr, s.addr.valid m.raiseAddr, x.setWidth 32, 0b0011, s.data.valid m.raiseData, s.block.slvReg1⟩, m.take, 0,
      false, m.take, s.block.slvReg0⟩

/-- The access ends: the handler goes on with the value read. -/
def finish (s : BusLink) (slave : BusSlave) : BusLink where
  slave := slave
  handler := s.handler.after s.slave.rdata
  addr := .low
  data := .low
  enqueued := if s.handler = .readData then s.enqueued ++ [rawMsg s.slave.rdata] else s.enqueued

def onClk (s : BusLink) (m : Will) : BusLink :=
  let slave := s.slave.onClk true (s.inputs m)
  match s.handler.access with
  | .none =>
    { s with slave := slave, handler := if m.start && s.block.irInterrupt then .readData else s.handler }
  | .ioread32 _ =>
    if s.slave.rvalid && m.take then s.finish slave
    else { s with slave := slave, addr := s.addr.next m.raiseAddr s.slave.arready }
  | .iowrite16 _ _ =>
    if s.slave.bvalid && m.take then s.finish slave
    else
      { s with
        slave := slave
        addr := s.addr.next m.raiseAddr s.slave.awready
        data := s.data.next m.raiseData s.slave.wready }

def frame (s : BusLink) (code : BitVec 12) : BusLink :=
  { s with slave := { s.slave with block := s.block.frame code } }

inductive Ev
  | frame (code : BitVec 12)
  | clk (m : Will)
  deriving DecidableEq, Repr

def next (s : BusLink) : Ev → BusLink
  | .frame code => s.frame code
  | .clk m => s.onClk m

def step (s : BusLink) (e : Ev) : Option BusLink := some (s.next e)

def run (s : BusLink) (es : List Ev) : BusLink := es.foldl next s

def start (reg0 reg1 : BitVec 32) : BusLink :=
  ⟨⟨⟨false, false, 0, Link.start reg0 reg1⟩, false, 0, false, 0, false, 0, 0, 0⟩, .idle, .low, .low, []⟩

/-! ### The state of `Link` that it stands for -/

/-- Where the handler stands, counting an access that has been accepted as made. -/
def position (s : BusLink) : Irq := if s.addr = .done then s.handler.after s.slave.rdata else s.handler

/-- A handler that is due is one that has started. -/
def due (h : Irq) (irInterrupt : Bool) : Irq := if irInterrupt ∧ h = .idle then .readData else h

def abs (s : BusLink) : Link :=
  { s.block with
    handler := due s.position s.block.irInterrupt
    enqueued :=
      if s.addr = .done ∧ s.handler = .readData then s.enqueued ++ [rawMsg s.slave.rdata] else s.enqueued }

def accepts (s : BusLink) (m : Will) : Bool :=
  s.slave.wren (s.inputs m).toInputs || s.slave.rden (s.inputs m)

/-! ### The channels between two edges -/

/-- The channels, by the access that is being made. -/
inductive Channels (s : BusLink) : Prop
  | none (hacc : s.handler.access = .none) (ha : s.addr = .low) (haw : s.slave.awready = false)
      (har : s.slave.arready = false) (hb : s.slave.bvalid = false) (hr : s.slave.rvalid = false)
  | reading (addr : BitVec 4) (hacc : s.handler.access = .ioread32 addr) (ha : s.addr ≠ .done)
      (haw : s.slave.awready = false) (hb : s.slave.bvalid = false) (hr : s.slave.rvalid = false)
      (har : s.slave.arready = true → s.addr = .held ∧ s.slave.araddr = addr)
  | read (addr : BitVec 4) (hacc : s.handler.access = .ioread32 addr) (ha : s.addr = .done)
      (haw : s.slave.awready = false) (hb : s.slave.bvalid = false) (hr : s.slave.rvalid = true)
      (har : s.slave.arready = false)
  | writing (x : BitVec 16) (addr : BitVec 4) (hacc : s.handler.access = .iowrite16 x addr) (ha : s.addr ≠ .done)
      (hd : s.data ≠ .done) (har : s.slave.arready = false) (hr : s.slave.rvalid = false)
      (hb : s.slave.bvalid = false)
      (haw : s.slave.awready = true → s.addr = .held ∧ s.data = .held ∧ s.slave.awaddr = addr)
  | written (x : BitVec 16) (addr : BitVec 4) (hacc : s.handler.access = .iowrite16 x addr) (ha : s.addr = .done)
      (har : s.slave.arready = false) (hr : s.slave.rvalid = false) (hb : s.slave.bvalid = true)
      (haw : s.slave.awready = false)

/-- The state between two edges. The acknowledge bit of register 2 is set while the handler, by the accesses
accepted, is between its two writes. -/
structure Sync (s : BusLink) : Prop where
  same : s.slave.wready = s.slave.awready
  channels : s.Channels
  ack : s.block.slvReg2.getLsbD 0 = true ↔ s.position = .waitReset ∨ s.position = .clearReset

/-! ### One edge of the slave, for each access -/

variable {s : BusLink} {m : Will}

theorem block_onClk (s : BusLink) (m : Will) : (s.slave.onClk true (s.inputs m)).block =
    s.block.onClk true (s.slave.write (s.inputs m).toInputs) := by
  unfold inputs
  split <;> rfl

theorem inputs_none (h : s.handler.access = .none) : s.inputs m =
    ⟨⟨0, false, 0, 0, false, s.block.slvReg1⟩, m.take, 0, false, m.take, s.block.slvReg0⟩ := by
  unfold inputs
  rw [h]

theorem inputs_ioread32 {addr : BitVec 4} (h : s.handler.access = .ioread32 addr) : s.inputs m =
    ⟨⟨0, false, 0, 0, false, s.block.slvReg1⟩, m.take, addr, s.addr.valid m.raiseAddr, m.take,
      s.block.slvReg0⟩ := by
  unfold inputs
  rw [h]

theorem inputs_iowrite16 {x : BitVec 16} {addr : BitVec 4} (h : s.handler.access = .iowrite16 x addr) :
    s.inputs m =
      ⟨⟨addr, s.addr.valid m.raiseAddr, x.setWidth 32, 0b0011, s.data.valid m.raiseData, s.block.slvReg1⟩, m.take,
        0, false, m.take, s.block.slvReg0⟩ := by
  unfold inputs
  rw [h]

theorem due_eq_startIrq (l : Link) : l.startIrq = { l with handler := due l.handler l.irInterrupt } := by
  unfold Link.startIrq due
  split <;> rfl

/-- With the acknowledge bit clear, a handler that is due stays due. -/
theorem due_due {l : Link} {h : Irq} (hack : h = .idle → l.slvReg2.getLsbD 0 = false) (w : Option BusWrite) :
    due (due h l.irInterrupt) (l.onClk true w).irInterrupt = due h (l.onClk true w).irInterrupt := by
  unfold due
  by_cases hi : h = .idle
  · cases hup : l.irInterrupt with
    | true => simp [hi, Link.onClk_irInterrupt_up (hack hi) hup w]
    | false => simp
  · simp [hi]

/-- An edge at which nothing is accepted is a clock edge without an access. -/
theorem abs_wait {t : BusLink} (hblock : t.block = s.block.onClk true none) (hsync : s.Sync)
    (hpos : t.position = s.position ∨
      s.position = .idle ∧ s.block.irInterrupt = true ∧ t.position = .readData)
    (henq : t.abs.enqueued = s.abs.enqueued) : t.abs = s.abs.next (.clk false) := by
  have hack : s.position = .idle → s.block.slvReg2.getLsbD 0 = false := by
    intro hi
    have h := hsync.ack
    rw [hi] at h
    simpa using h
  have hhandler : due t.position t.block.irInterrupt =
      due (due s.position s.block.irInterrupt) (s.block.onClk true none).irInterrupt := by
    rw [hblock]
    rcases hpos with hp | ⟨hi, hup, hp⟩
    · rw [hp, due_due hack]
    · simp [hp, hi, due, hup]
  have hnext : s.abs.next (.clk false) =
      { s.block.onClk true none with
        handler := due (due s.position s.block.irInterrupt) (s.block.onClk true none).irInterrupt
        enqueued := s.abs.enqueued } := by
    rw [Link.next, due_eq_startIrq]
    rfl
  rw [hnext, ← hhandler, ← henq, ← hblock]
  rfl

def Access.busWrite : Access → Option BusWrite
  | .iowrite16 x _ => some (IrDemod.iowrite16 x)
  | _ => none

/-- The register that an access of the handler reads. -/
def Access.value (a : Access) (l : Link) : BitVec 32 :=
  match a with
  | .ioread32 0#4 => l.slvReg0
  | .ioread32 _ => l.slvReg2
  | _ => 0

theorem access_eq (l : Link) (h : l.handler ≠ .idle) : l.access =
    { l.onClk true (Access.busWrite l.handler.access) with
      handler := l.handler.after (Access.value l.handler.access l)
      enqueued :=
        if l.handler = .readData then l.enqueued ++ [rawMsg (Access.value l.handler.access l)] else l.enqueued } := by
  unfold Link.access
  cases hl : l.handler with
  | idle => exact absurd hl h
  | readData => rfl
  | resetInterrupt => rfl
  | waitReset =>
    have hval : Access.value (Irq.access .waitReset) l = l.slvReg2 := rfl
    have hafter : Irq.after .waitReset l.slvReg2 =
        if l.slvReg2 &&& 0x8000 ≠ 0 then .waitReset else .clearReset := rfl
    rw [hval, hafter]
    by_cases hp : l.slvReg2 &&& 0x8000 ≠ 0
    · simp only [if_pos hp]
      obtain ⟨_, _, _, _, _, _, _, _⟩ := l
      cases hl
      rfl
    · simp only [if_neg hp]
      rfl
  | clearReset => rfl

/-- The edge at which an access is accepted is the clock edge of the access. -/
theorem abs_accept {t : BusLink} (hne : s.handler ≠ .idle) (ha : s.addr ≠ .done)
    (hblock : t.block = s.block.onClk true (Access.busWrite s.handler.access))
    (hpos : t.position = s.handler.after (Access.value s.handler.access s.block))
    (henq : t.abs.enqueued =
      if s.handler = .readData then s.enqueued ++ [rawMsg (Access.value s.handler.access s.block)]
      else s.enqueued) : t.abs = s.abs.next (.clk true) := by
  have hpos0 : s.position = s.handler := by simp [position, ha]
  have hhandler : s.abs.handler = s.handler := by simp [abs, hpos0, due, hne]
  have henq0 : s.abs.enqueued = s.enqueued := by simp [abs, ha]
  have hvalue : Access.value s.abs.handler.access s.abs = Access.value s.handler.access s.block := by
    rw [hhandler]
    unfold Access.value
    split <;> rfl
  have hnext := access_eq s.abs (by rw [hhandler]; exact hne)
  rw [hvalue, hhandler, henq0] at hnext
  rw [Link.next, hnext, due_eq_startIrq]
  have ht : t.abs = { t.block with
      handler := due t.position t.block.irInterrupt, enqueued := t.abs.enqueued } := rfl
  rw [ht, hpos, henq, hblock]
  rfl

/-! ### One edge -/

/-- What an edge comes to: the event of `Link` it stands for, and the state between the edges again. -/
structure Simulated (s : BusLink) (m : Will) : Prop where
  abs : (s.onClk m).abs = s.abs.next (.clk (s.accepts m))
  same : (s.onClk m).slave.wready = (s.onClk m).slave.awready
  channels : (s.onClk m).Channels

theorem onClk_same (h : s.Sync) (m : Will) :
    (s.slave.onClk true (s.inputs m)).wready = (s.slave.onClk true (s.inputs m)).awready :=
  BusSlave.onClk_wready _ _ h.same

theorem simulated_none (h : s.Sync) (m : Will) (hacc : s.handler.access = .none) (ha : s.addr = .low)
    (haw : s.slave.awready = false) (har : s.slave.arready = false) (hb : s.slave.bvalid = false)
    (hr : s.slave.rvalid = false) : s.Simulated m := by
  have hidle : s.handler = .idle := by
    cases hh : s.handler with
    | idle => rfl
    | readData => rw [hh] at hacc; cases hacc
    | resetInterrupt => rw [hh] at hacc; cases hacc
    | waitReset => rw [hh] at hacc; cases hacc
    | clearReset => rw [hh] at hacc; cases hacc
  -- nothing is on the channels, so the block sees a clock edge without a write
  have hno : s.accepts m = false := by simp [accepts, Slave.wren, BusSlave.rden, haw, har]
  have hwrite : s.slave.write (s.inputs m).toInputs = none := by simp [Slave.write, Slave.wren, haw]
  have hon : s.onClk m = { s with
      slave := s.slave.onClk true (s.inputs m)
      handler := if m.start && s.block.irInterrupt then .readData else s.handler } := by
    unfold onClk
    rw [hacc]
  have hblock : (s.onClk m).block = s.block.onClk true none := by
    rw [hon]
    show (s.slave.onClk true (s.inputs m)).block = _
    rw [block_onClk, hwrite]
  refine ⟨?_, by rw [hon]; exact onClk_same h m, ?_⟩
  · rw [hno]
    apply abs_wait hblock h
    · rw [hon]
      simp only [position, ha, reduceCtorEq, if_false]
      cases hs : m.start && s.block.irInterrupt with
      | true =>
        rw [Bool.and_eq_true] at hs
        exact .inr ⟨hidle, hs.2, rfl⟩
      | false => exact .inl rfl
    · rw [hon]
      simp [abs, ha]
  · -- the channels stay low, and the handler is idle still or has just been started
    have hlow : (s.onClk m).addr = .low ∧ (s.onClk m).slave.awready = false ∧
        (s.onClk m).slave.arready = false ∧ (s.onClk m).slave.bvalid = false ∧
        (s.onClk m).slave.rvalid = false := by
      rw [hon, inputs_none hacc]
      simp [BusSlave.onClk, Slave.onClk, BusSlave.front, ha, haw, har, hb, hr]
    obtain ⟨ha', haw', har', hb', hr'⟩ := hlow
    cases hs : m.start && s.block.irInterrupt with
    | true =>
      refine .reading 0 (by rw [hon]; simp [hs, Irq.access]) (by simp [ha']) haw' hb' hr' fun hc => ?_
      rw [har'] at hc
      cases hc
    | false => exact .none (by rw [hon]; simp [hs, hidle, Irq.access]) ha' haw' har' hb' hr'

theorem regAt_eq_value {addr : BitVec 4} (hacc : s.handler.access = .ioread32 addr) :
    s.slave.regAt (s.inputs m) addr = Access.value (.ioread32 addr) s.block := by
  rw [inputs_ioread32 hacc]
  cases hh : s.handler with
  | idle => rw [hh] at hacc; cases hacc
  | readData => rw [hh] at hacc; cases hacc; rfl
  | resetInterrupt => rw [hh] at hacc; cases hacc
  | waitReset => rw [hh] at hacc; cases hacc; rfl
  | clearReset => rw [hh] at hacc; cases hacc

theorem ne_idle_of_access {a : Access} (hacc : s.handler.access = a) (ha : a ≠ .none) : s.handler ≠ .idle := by
  intro hh
  rw [hh] at hacc
  exact ha hacc.symm

theorem next_ne_done {o : Offer} (raise : Bool) (h : o ≠ .done) : o.next raise false ≠ .done := by
  cases o with
  | low => cases raise <;> simp [Offer.next, Offer.valid]
  | held => simp [Offer.next, Offer.valid]
  | done => exact absurd rfl h

theorem next_held {o : Offer} {raise : Bool} (h : o.valid raise = true) : o.next raise false = .held := by
  simp [Offer.next, h]

theorem simulated_reading (h : s.Sync) (m : Will) {addr : BitVec 4} (hacc : s.handler.access = .ioread32 addr)
    (ha : s.addr ≠ .done) (haw : s.slave.awready = false) (hb : s.slave.bvalid = false)
    (hr : s.slave.rvalid = false) (har : s.slave.arready = true → s.addr = .held ∧ s.slave.araddr = addr) :
    s.Simulated m := by
  have hne : s.handler ≠ .idle := ne_idle_of_access hacc (fun h => nomatch h)
  have hwrite : s.slave.write (s.inputs m).toInputs = none := by simp [Slave.write, Slave.wren, haw]
  have hon : s.onClk m = { s with
      slave := s.slave.onClk true (s.inputs m), addr := s.addr.next m.raiseAddr s.slave.arready } := by
    unfold onClk
    rw [hacc]
    simp [hr]
  have hblock : (s.onClk m).block = s.block.onClk true none := by
    rw [hon]
    show (s.slave.onClk true (s.inputs m)).block = _
    rw [block_onClk, hwrite]
  refine ⟨?_, by rw [hon]; exact onClk_same h m, ?_⟩
  · cases hready : s.slave.arready with
    | false => -- the address is not accepted yet
      have hno : s.accepts m = false := by simp [accepts, Slave.wren, BusSlave.rden, haw, hready]
      have hnd := next_ne_done m.raiseAddr ha
      rw [hno]
      apply abs_wait hblock h
      · left
        rw [hon, hready]
        simp [position, ha, hnd]
      · rw [hon, hready]
        simp [abs, ha, hnd]
    | true => -- the address is accepted: here `Link` makes the access
      obtain ⟨hheld, hadr⟩ := har hready
      have hin := inputs_ioread32 (m := m) hacc
      have hrden : s.slave.rden (s.inputs m) = true := by
        simp [BusSlave.rden, hready, hr, hin, hheld, Offer.valid]
      have hyes : s.accepts m = true := by simp [accepts, hrden]
      have hdone : (s.onClk m).addr = .done := by
        rw [hon, hready, hheld]
        rfl
      have hhandler : (s.onClk m).handler = s.handler := by rw [hon]
      have henq : (s.onClk m).enqueued = s.enqueued := by rw [hon]
      -- RDATA takes the register as it is before the edge, which is what `Link` reads
      have hdata : (s.onClk m).slave.rdata = Access.value s.handler.access s.block := by
        have hout : (s.slave.onClk true (s.inputs m)).rdata = s.slave.regDataOut (s.inputs m) := by
          simp [BusSlave.onClk, hrden]
        rw [hon]
        show (s.slave.onClk true (s.inputs m)).rdata = _
        rw [hout, BusSlave.regDataOut, hadr, hacc]
        exact regAt_eq_value hacc
      rw [hyes]
      apply abs_accept hne ha
      · rw [hblock, hacc]
        rfl
      · rw [position, if_pos hdone, hhandler, hdata]
      · simp only [abs, hdone, hhandler, henq, hdata, true_and]
  · -- the channels after the edge: the address is still offered, or it was accepted
    have hlow : (s.onClk m).slave.awready = false ∧ (s.onClk m).slave.bvalid = false := by
      rw [hon, inputs_ioread32 hacc]
      simp [BusSlave.onClk, Slave.onClk, BusSlave.front, haw, hb]
    have hacc' : (s.onClk m).handler.access = .ioread32 addr := by rw [hon]; exact hacc
    cases hready : s.slave.arready with
    | false =>
      have hnd := next_ne_done m.raiseAddr ha
      refine .reading addr hacc' (by rw [hon, hready]; exact hnd) hlow.1 hlow.2 ?_ fun hc => ?_
      · rw [hon]
        simp [BusSlave.onClk, hready, hr]
      · have hv : s.addr.valid m.raiseAddr = true := by
          rw [hon, inputs_ioread32 hacc] at hc
          simpa [BusSlave.onClk, hready] using hc
        refine ⟨by rw [hon, hready]; exact next_held hv, ?_⟩
        rw [hon, inputs_ioread32 hacc]
        simp [BusSlave.onClk, hready, hv]
    | true =>
      obtain ⟨hheld, -⟩ := har hready
      refine .read addr hacc' (by rw [hon, hready, hheld]; rfl) hlow.1 hlow.2 ?_ ?_
      · rw [hon, inputs_ioread32 hacc]
        simp [BusSlave.onClk, hready, hr, hheld, Offer.valid]
      · rw [hon]
        simp [BusSlave.onClk, hready]

theorem channels_low {t : BusLink} (ha : t.addr = .low) (hd : t.data = .low) (haw : t.slave.awready = false)
    (har : t.slave.arready = false) (hb : t.slave.bvalid = false) (hr : t.slave.rvalid = false) : t.Channels := by
  cases hacc : t.handler.access with
  | none => exact .none hacc ha haw har hb hr
  | ioread32 addr =>
    refine .reading addr hacc (by simp [ha]) haw hb hr fun hc => ?_
    rw [har] at hc
    cases hc
  | iowrite16 x addr =>
    refine .writing x addr hacc (by simp [ha]) (by simp [hd]) har hr hb fun hc => ?_
    rw [haw] at hc
    cases hc

/-- An edge after the access was accepted changes nothing that `Link` sees, whether the response is taken or not. -/
theorem abs_answered (h : s.Sync) (m : Will) (ha : s.addr = .done) (hno : s.accepts m = false)
    (hwrite : s.slave.write (s.inputs m).toInputs = none) (hslave : (s.onClk m).slave = s.slave.onClk true (s.inputs m))
    (hon : s.onClk m = s.finish (s.onClk m).slave ∨
      (s.onClk m).addr = .done ∧ (s.onClk m).handler = s.handler ∧ (s.onClk m).enqueued = s.enqueued ∧
        (s.onClk m).slave.rdata = s.slave.rdata) :
    (s.onClk m).abs = s.abs.next (.clk (s.accepts m)) := by
  have hblock : (s.onClk m).block = s.block.onClk true none := by
    show (s.onClk m).slave.block = _
    rw [hslave, block_onClk, hwrite]
  rw [hno]
  rcases hon with hfin | ⟨hdone, hhandler, henq, hdata⟩
  · -- the access ends at this edge
    apply abs_wait hblock h
    · left
      rw [hfin]
      simp [position, finish, ha]
    · rw [hfin]
      simp [abs, finish, ha]
  · -- its response goes on waiting
    apply abs_wait hblock h
    · left
      rw [position, if_pos hdone, hhandler, hdata, position, if_pos ha]
    · simp only [abs, hdone, ha, hhandler, henq, hdata]

theorem simulated_read (h : s.Sync) (m : Will) {addr : BitVec 4} (hacc : s.handler.access = .ioread32 addr)
    (ha : s.addr = .done) (haw : s.slave.awready = false) (hb : s.slave.bvalid = false)
    (hr : s.slave.rvalid = true) (har : s.slave.arready = false) : s.Simulated m := by
  have hno : s.accepts m = false := by simp [accepts, Slave.wren, BusSlave.rden, haw, har]
  have hwrite : s.slave.write (s.inputs m).toInputs = none := by simp [Slave.write, Slave.wren, haw]
  have hin := inputs_ioread32 (m := m) hacc
  have hlow : (s.slave.onClk true (s.inputs m)).awready = false ∧ (s.slave.onClk true (s.inputs m)).arready = false ∧
      (s.slave.onClk true (s.inputs m)).bvalid = false := by
    rw [hin]
    simp [BusSlave.onClk, Slave.onClk, BusSlave.front, haw, hb, har, ha, Offer.valid]
  have hkeep : (s.slave.onClk true (s.inputs m)).rdata = s.slave.rdata := by
    simp [BusSlave.onClk, BusSlave.rden, har]
  cases ht : m.take with
  | true => -- the processor takes RDATA
    have hon : s.onClk m = s.finish (s.slave.onClk true (s.inputs m)) := by
      unfold onClk
      rw [hacc]
      simp [hr, ht]
    have hslave : (s.onClk m).slave = s.slave.onClk true (s.inputs m) := by rw [hon]; rfl
    refine ⟨abs_answered h m ha hno hwrite hslave (.inl (by rw [hslave]; exact hon)),
      by rw [hslave]; exact onClk_same h m, ?_⟩
    rw [hon]
    refine channels_low rfl rfl hlow.1 hlow.2.1 hlow.2.2 ?_
    show (s.slave.onClk true (s.inputs m)).rvalid = false
    rw [hin]
    simp [BusSlave.onClk, har, hr, ht]
  | false => -- the processor leaves it
    have hon : s.onClk m = { s with
        slave := s.slave.onClk true (s.inputs m), addr := s.addr.next m.raiseAddr s.slave.arready } := by
      unfold onClk
      rw [hacc]
      simp [ht]
    have hslave : (s.onClk m).slave = s.slave.onClk true (s.inputs m) := by rw [hon]
    have hdone : (s.onClk m).addr = .done := by
      rw [hon, ha]
      rfl
    refine ⟨abs_answered h m ha hno hwrite hslave (.inr ⟨hdone, by rw [hon], by rw [hon], by rw [hslave, hkeep]⟩),
      by rw [hslave]; exact onClk_same h m, .read addr (by rw [hon]; exact hacc) hdone ?_ ?_ ?_ ?_⟩
    · rw [hslave]; exact hlow.1
    · rw [hslave]; exact hlow.2.2
    · rw [hslave, hin]
      simp [BusSlave.onClk, har, hr, ht]
    · rw [hslave]; exact hlow.2.1

theorem simulated_written (h : s.Sync) (m : Will) {x : BitVec 16} {addr : BitVec 4}
    (hacc : s.handler.access = .iowrite16 x addr) (ha : s.addr = .done) (har : s.slave.arready = false)
    (hr : s.slave.rvalid = false) (hb : s.slave.bvalid = true) (haw : s.slave.awready = false) :
    s.Simulated m := by
  have hno : s.accepts m = false := by simp [accepts, Slave.wren, BusSlave.rden, haw, har]
  have hwrite : s.slave.write (s.inputs m).toInputs = none := by simp [Slave.write, Slave.wren, haw]
  have hin := inputs_iowrite16 (m := m) hacc
  have hlow : (s.slave.onClk true (s.inputs m)).awready = false ∧ (s.slave.onClk true (s.inputs m)).arready = false ∧
      (s.slave.onClk true (s.inputs m)).rvalid = false := by
    rw [hin]
    simp [BusSlave.onClk, Slave.onClk, BusSlave.front, haw, hr, har, ha, Offer.valid]
  have hkeep : (s.slave.onClk true (s.inputs m)).rdata = s.slave.rdata := by
    simp [BusSlave.onClk, BusSlave.rden, har]
  cases ht : m.take with
  | true => -- the processor takes the response
    have hon : s.onClk m = s.finish (s.slave.onClk true (s.inputs m)) := by
      unfold onClk
      rw [hacc]
      simp [hb, ht]
    have hslave : (s.onClk m).slave = s.slave.onClk true (s.inputs m) := by rw [hon]; rfl
    refine ⟨abs_answered h m ha hno hwrite hslave (.inl (by rw [hslave]; exact hon)),
      by rw [hslave]; exact onClk_same h m, ?_⟩
    rw [hon]
    refine channels_low rfl rfl hlow.1 hlow.2.1 ?_ hlow.2.2
    show (s.slave.onClk true (s.inputs m)).bvalid = false
    rw [hin]
    simp [BusSlave.onClk, haw, hb, ht]
  | false => -- the processor leaves it
    have hon : s.onClk m = { s with
        slave := s.slave.onClk true (s.inputs m)
        addr := s.addr.next m.raiseAddr s.slave.awready
        data := s.data.next m.raiseData s.slave.wready } := by
      unfold onClk
      rw [hacc]
      simp [ht]
    have hslave : (s.onClk m).slave = s.slave.onClk true (s.inputs m) := by rw [hon]
    have hdone : (s.onClk m).addr = .done := by
      rw [hon, ha]
      rfl
    refine ⟨abs_answered h m ha hno hwrite hslave (.inr ⟨hdone, by rw [hon], by rw [hon], by rw [hslave, hkeep]⟩),
      by rw [hslave]; exact onClk_same h m, .written x addr (by rw [hon]; exact hacc) hdone ?_ ?_ ?_ ?_⟩
    · rw [hslave]; exact hlow.2.1
    · rw [hslave]; exact hlow.2.2
    · rw [hslave, hin]
      simp [BusSlave.onClk, haw, hb, ht]
    · rw [hslave]; exact hlow.1

/-- Both of the handler's writes go to register 2. -/
theorem write_addr {x : BitVec 16} {addr : BitVec 4} (hacc : s.handler.access = .iowrite16 x addr) : addr = 8 := by
  cases hh : s.handler with
  | idle => rw [hh] at hacc; cases hacc
  | readData => rw [hh] at hacc; cases hacc
  | resetInterrupt => rw [hh] at hacc; cases hacc; rfl
  | waitReset => rw [hh] at hacc; cases hacc
  | clearReset => rw [hh] at hacc; cases hacc; rfl

theorem simulated_writing (h : s.Sync) (m : Will) {x : BitVec 16} {addr : BitVec 4}
    (hacc : s.handler.access = .iowrite16 x addr) (ha : s.addr ≠ .done) (hd : s.data ≠ .done)
    (har : s.slave.arready = false) (hr : s.slave.rvalid = false) (hb : s.slave.bvalid = false)
    (haw : s.slave.awready = true → s.addr = .held ∧ s.data = .held ∧ s.slave.awaddr = addr) :
    s.Simulated m := by
  have hne : s.handler ≠ .idle := ne_idle_of_access hacc (fun h => nomatch h)
  have hin := inputs_iowrite16 (m := m) hacc
  have hrden : s.slave.rden (s.inputs m) = false := by simp [BusSlave.rden, har]
  have hon : s.onClk m = { s with
      slave := s.slave.onClk true (s.inputs m)
      addr := s.addr.next m.raiseAddr s.slave.awready
      data := s.data.next m.raiseData s.slave.wready } := by
    unfold onClk
    rw [hacc]
    simp [hb]
  have hslave : (s.onClk m).slave = s.slave.onClk true (s.inputs m) := by rw [hon]
  have hacc' : (s.onClk m).handler.access = .iowrite16 x addr := by rw [hon]; exact hacc
  have hlow : (s.onClk m).slave.arready = false ∧ (s.onClk m).slave.rvalid = false := by
    rw [hslave, hin]
    simp [BusSlave.onClk, har, hr]
  cases hready : s.slave.awready with
  | false => -- the write is not accepted yet
    have hwready : s.slave.wready = false := h.same.trans hready
    have hwrite : s.slave.write (s.inputs m).toInputs = none := by simp [Slave.write, Slave.wren, hready]
    have hno : s.accepts m = false := by simp [accepts, Slave.wren, hready, hrden]
    have hnd := next_ne_done m.raiseAddr ha
    have hndd := next_ne_done m.raiseData hd
    refine ⟨?_, by rw [hslave]; exact onClk_same h m,
      .writing x addr hacc' (by rw [hon, hready]; exact hnd) (by rw [hon, hwready]; exact hndd) hlow.1 hlow.2 ?_ ?_⟩
    · rw [hno]
      apply abs_wait _ h
      · left
        rw [hon, hready]
        simp [position, ha, hnd]
      · rw [hon, hready]
        simp [abs, ha, hnd]
      · show (s.onClk m).slave.block = _
        rw [hslave, block_onClk, hwrite]
    · rw [hslave]
      simp [BusSlave.onClk, hready, hb]
    · -- AWREADY comes up, so both were offered at this edge
      intro hc
      have hv : s.addr.valid m.raiseAddr = true ∧ s.data.valid m.raiseData = true := by
        rw [hslave, hin] at hc
        simpa [BusSlave.onClk, Slave.onClk, BusSlave.front, hready] using hc
      refine ⟨by rw [hon, hready]; exact next_held hv.1, by rw [hon, hwready]; exact next_held hv.2, ?_⟩
      rw [hslave, hin]
      simp [BusSlave.onClk, Slave.onClk, BusSlave.front, hready, hv]
  | true => -- the write is accepted: both offers are held and the address is latched
    obtain ⟨hheld, hdheld, hadr⟩ := haw hready
    have hwready : s.slave.wready = true := h.same.trans hready
    have hwren : s.slave.wren (s.inputs m).toInputs = true := by
      simp [Slave.wren, hready, hwready, hin, hheld, hdheld, Offer.valid]
    have hwrite : s.slave.write (s.inputs m).toInputs = some (IrDemod.iowrite16 x) := by
      have hsel : s.slave.select = 2 := by
        rw [Slave.select, hadr, write_addr hacc]
        rfl
      rw [Slave.write, if_pos hwren, hsel, hin]
      rfl
    have hyes : s.accepts m = true := by simp [accepts, hwren]
    have hdone : (s.onClk m).addr = .done := by
      rw [hon, hready, hheld]
      rfl
    have hhandler : (s.onClk m).handler = s.handler := by rw [hon]
    have hdata : (s.onClk m).slave.rdata = s.slave.rdata := by
      rw [hslave]
      simp [BusSlave.onClk, hrden]
    -- what comes after a write does not depend on RDATA
    have hafter : ∀ v w, s.handler.after v = s.handler.after w := by
      intro v w
      cases hh : s.handler with
      | waitReset => rw [hh] at hacc; cases hacc
      | idle => rfl
      | readData => rfl
      | resetInterrupt => rfl
      | clearReset => rfl
    have hnread : s.handler ≠ .readData := by
      intro hh
      rw [hh] at hacc
      cases hacc
    refine ⟨?_, by rw [hslave]; exact onClk_same h m, .written x addr hacc' hdone hlow.1 hlow.2 ?_ ?_⟩
    · rw [hyes]
      apply abs_accept hne ha
      · show (s.onClk m).slave.block = _
        rw [hslave, block_onClk, hwrite, hacc]
        rfl
      · rw [position, if_pos hdone, hhandler]
        exact hafter _ _
      · simp only [abs, hhandler, hnread, and_false, if_false]
        rw [hon]
    · rw [hslave, hin]
      simp [BusSlave.onClk, hready, hwready, hb, hheld, hdheld, Offer.valid]
    · rw [hslave]
      simp [BusSlave.onClk, Slave.onClk, BusSlave.front, hready]

theorem simulated (h : s.Sync) (m : Will) : s.Simulated m := by
  cases h.channels with
  | none hacc ha haw har hb hr => exact simulated_none h m hacc ha haw har hb hr
  | reading addr hacc ha haw hb hr har => exact simulated_reading h m hacc ha haw hb hr har
  | read addr hacc ha haw hb hr har => exact simulated_read h m hacc ha haw hb hr har
  | writing x addr hacc ha hd har hr hb haw => exact simulated_writing h m hacc ha hd har hr hb haw
  | written x addr hacc ha har hr hb haw => exact simulated_written h m hacc ha har hr hb haw

/-! ### The acknowledge bit -/

/-- The acknowledge bit of register 2 is set between the two writes of the handler. -/
def AckSet (l : Link) : Prop :=
  l.slvReg2.getLsbD 0 = true ↔ l.handler = .waitReset ∨ l.handler = .clearReset

theorem due_eq_iff (h : Irq) (up : Bool) : due h up = .waitReset ∨ due h up = .clearReset ↔
    h = .waitReset ∨ h = .clearReset := by
  cases h <;> cases up <;> simp [due]

theorem ackSet_startIrq {l : Link} (h : AckSet l) : AckSet l.startIrq := by
  rw [due_eq_startIrq]
  exact h.trans (due_eq_iff _ _).symm

theorem ackSet_wait {l : Link} (h : AckSet l) : AckSet (l.onClk true none) := by
  rw [AckSet, Link.onClk_none_bit l (by omega)]
  exact h

theorem ackSet_access {l : Link} (h : AckSet l) : AckSet l.access := by
  have hbit : ∀ x : BitVec 16, (l.onClk true (some (IrDemod.iowrite16 x))).slvReg2.getLsbD 0 = x.getLsbD 0 :=
    fun x => Link.onClk_iowrite16_bit l x (by omega)
  have hkeep : (l.onClk true none).slvReg2.getLsbD 0 = l.slvReg2.getLsbD 0 := Link.onClk_none_bit l (by omega)
  unfold Link.access
  cases hl : l.handler with
  | idle => exact ackSet_wait h
  | readData =>
    show (l.onClk true none).slvReg2.getLsbD 0 = true ↔ _
    rw [hkeep, show (_ ↔ _) from h, hl]
    simp
  | resetInterrupt =>
    show (l.onClk true (some (IrDemod.iowrite16 1))).slvReg2.getLsbD 0 = true ↔ _
    rw [hbit]
    simp
  | waitReset =>
    dsimp only
    split
    · exact ackSet_wait h
    · show (l.onClk true none).slvReg2.getLsbD 0 = true ↔ _
      rw [hkeep, show (_ ↔ _) from h, hl]
      simp
  | clearReset =>
    show (l.onClk true (some (IrDemod.iowrite16 0))).slvReg2.getLsbD 0 = true ↔ _
    rw [hbit]
    simp

theorem ackSet_next {l : Link} (h : AckSet l) (e : Link.Ev) : AckSet (l.next e) := by
  cases e with
  | frame code => exact h
  | clk b =>
    cases b with
    | true => exact ackSet_startIrq (ackSet_access h)
    | false => exact ackSet_startIrq (ackSet_wait h)

theorem ackSet_abs : AckSet s.abs ↔
    (s.block.slvReg2.getLsbD 0 = true ↔ s.position = .waitReset ∨ s.position = .clearReset) := by
  show (s.block.slvReg2.getLsbD 0 = true ↔ due s.position _ = .waitReset ∨ due s.position _ = .clearReset) ↔ _
  rw [due_eq_iff]

/-! ### Runs -/

theorem sync_onClk (h : s.Sync) (m : Will) : (s.onClk m).Sync := by
  have hsim := simulated h m
  refine ⟨hsim.same, hsim.channels, ackSet_abs.1 ?_⟩
  rw [hsim.abs]
  exact ackSet_next (ackSet_abs.2 h.ack) _

theorem sync_frame (h : s.Sync) (code : BitVec 12) : (s.frame code).Sync := by
  refine ⟨h.same, ?_, h.ack⟩
  cases h.channels with
  | none hacc ha haw har hb hr => exact .none hacc ha haw har hb hr
  | reading addr hacc ha haw hb hr har => exact .reading addr hacc ha haw hb hr har
  | read addr hacc ha haw hb hr har => exact .read addr hacc ha haw hb hr har
  | writing x addr hacc ha hd har hr hb haw => exact .writing x addr hacc ha hd har hr hb haw
  | written x addr hacc ha har hr hb haw => exact .written x addr hacc ha har hr hb haw

def event (s : BusLink) : Ev → Link.Ev
  | .frame code => .frame code
  | .clk m => .clk (s.accepts m)

theorem abs_next (h : s.Sync) (e : Ev) : (s.next e).abs = s.abs.next (s.event e) := by
  cases e with
  | frame code => rfl
  | clk m => exact (simulated h m).abs

theorem sync_next (h : s.Sync) (e : Ev) : (s.next e).Sync := by
  cases e with
  | frame code => exact sync_frame h code
  | clk m => exact sync_onClk h m

def trace : BusLink → List Ev → List Link.Ev
  | _, [] => []
  | s, e :: es => s.event e :: (s.next e).trace es

theorem abs_foldl : ∀ (es : List Ev) {s : BusLink}, s.Sync →
    (es.foldl next s).Sync ∧ (es.foldl next s).abs = (s.trace es).foldl Link.next s.abs := by
  intro es
  induction es with
  | nil => intro s h; exact ⟨h, rfl⟩
  | cons e es ih =>
    intro s h
    obtain ⟨hs, habs⟩ := ih (sync_next h e)
    refine ⟨hs, ?_⟩
    rw [List.foldl_cons, habs, abs_next h e]
    rfl

theorem sync_start (reg0 reg1 : BitVec 32) : (start reg0 reg1).Sync where
  same := rfl
  channels := channels_low rfl rfl rfl rfl rfl rfl
  ack := by simp [start, Link.start, position]

def Ev.code : Ev → Option (BitVec 12)
  | .frame code => some code
  | .clk _ => none

def linkCode : Link.Ev → Option (BitVec 12)
  | .frame code => some code
  | .clk _ => none

theorem trace_codes : ∀ (es : List Ev) (s : BusLink), (s.trace es).map linkCode = es.map Ev.code := by
  intro es
  induction es with
  | nil => intro s; rfl
  | cons e es ih =>
    intro s
    rw [trace, List.map_cons, List.map_cons, ih]
    cases e <;> rfl

/-- **The bus is a clock edge for each access.** Whatever the timing of the channels, of the responses and of the
start of the handler, a run from a reset is a run of `Link` with the same frames at the same places: every access of
the handler reaches its register once, in the order of the program, and the message of a read is the one that
register 0 held when the read was accepted. -/
theorem abs_run (reg0 reg1 : BitVec 32) (es : List Ev) : ∃ ls : List Link.Ev,
    ls.map linkCode = es.map Ev.code ∧
      ((start reg0 reg1).run es).abs = ls.foldl Link.next (Link.start reg0 reg1) :=
  ⟨_, trace_codes es _, (abs_foldl es (sync_start reg0 reg1)).2⟩

/-! ### What the handler enqueues -/

/-- A frame finds no other on its way to the handler: the counter has been sampled, and neither the interrupt nor
its acknowledge bit is up. -/
def Quiet (s : BusLink) : Ev → Prop
  | .frame _ => s.block.slvReg1 = s.block.slvReg1Prev ∧ s.block.irInterrupt = false ∧
      s.block.slvReg2.getLsbD 0 = false
  | .clk _ => True

instance : ∀ (s : BusLink) (e : Ev), Decidable (s.Quiet e)
  | s, .frame _ => inferInstanceAs (Decidable (s.block.slvReg1 = s.block.slvReg1Prev ∧
      s.block.irInterrupt = false ∧ s.block.slvReg2.getLsbD 0 = false))
  | _, .clk _ => .isTrue trivial

theorem flow_start (reg0 reg1 : BitVec 32) : (start reg0 reg1).abs.Flow :=
  .inl ⟨.idle rfl (by simp [start, abs, Link.start]) rfl rfl, by simp [start, abs, Link.start], rfl, rfl⟩

theorem flow_next (h : s.Sync ∧ s.abs.Flow) (e : Ev) (hq : s.Quiet e) : (s.next e).Sync ∧ (s.next e).abs.Flow := by
  refine ⟨sync_next h.1 e, ?_⟩
  rw [abs_next h.1 e]
  cases e with
  | clk m => exact Link.flow_clk h.2 _
  | frame code =>
    obtain ⟨hprev, hlow, hack⟩ := hq
    refine Link.flow_frame h.2 ?_ ⟨hlow, hack⟩
    rcases h.2 with hdone | hwait
    · show s.abs.enqueued.length = s.abs.decoded.length
      rw [hdone.all, List.length_map]
    · rcases hwait.handler with ⟨-, hne⟩ | ⟨-, hup⟩
      · exact absurd hprev hne
      · have hup' : s.block.irInterrupt = true := hup
        rw [hlow] at hup'
        cases hup'

/-- What has been enqueued is what `Link` has, or lacks the message of the read whose data is waiting. -/
theorem enqueued_prefix_abs (s : BusLink) : s.enqueued <+: s.abs.enqueued := by
  unfold abs
  dsimp only
  split
  · exact List.prefix_append _ _
  · exact List.prefix_refl _

abbrev all (s : BusLink) : List IrMsg := s.block.decoded.map fun code => rawMsg (code.setWidth 32)

theorem enqueued_of_flow (hflow : s.abs.Flow) : s.enqueued <+: s.all ∧
    (s.handler = .idle → s.block.irInterrupt = false → s.block.slvReg1 = s.block.slvReg1Prev →
      s.enqueued = s.all) := by
  have hpre := s.enqueued_prefix_abs
  refine ⟨?_, fun hidle hlow hprev => ?_⟩
  · rcases hflow with hdone | hwait
    · have hall : s.abs.enqueued = s.all := hdone.all
      exact hall ▸ hpre
    · obtain ⟨codes, code, hdec, -, henq⟩ := hwait.last
      have hdec' : s.block.decoded = codes ++ [code] := hdec
      have henq' : s.abs.enqueued = codes.map fun code => rawMsg (code.setWidth 32) := henq
      rw [all, hdec', List.map_append]
      exact (henq' ▸ hpre).trans (List.prefix_append _ _)
  · have habs : s.abs.enqueued = s.enqueued := by simp [abs, hidle]
    rcases hflow with hdone | hwait
    · rw [← habs]
      exact hdone.all
    · rcases hwait.handler with ⟨-, hne⟩ | ⟨-, hup⟩
      · exact absurd hprev hne
      · have hup' : s.block.irInterrupt = true := hup
        rw [hlow] at hup'
        cases hup'

/-- **Nothing is lost on the way over the bus.** When every frame finds the interrupt block quiet, the messages
enqueued are in every state the first of the frames decoded, in order, and all of them when the handler is idle, no
interrupt is up and no frame is on its way. -/
theorem enqueued_of_quiet (reg0 reg1 : BitVec 32) (es : List Ev) (h : AllSteps step Quiet (start reg0 reg1) es) :
    let s := (start reg0 reg1).run es
    let all := s.block.decoded.map fun code => rawMsg (code.setWidth 32)
    s.enqueued <+: all ∧
      (s.handler = .idle → s.block.irInterrupt = false → s.block.slvReg1 = s.block.slvReg1Prev →
        s.enqueued = all) := by
  have hflow := inv_of_allSteps (I := fun s : BusLink => s.Sync ∧ s.abs.Flow) (C := Quiet)
    (fun s e h hq => flow_next h e hq) ⟨sync_start reg0 reg1, flow_start reg0 reg1⟩ h
  exact enqueued_of_flow hflow.2

/-- One frame, with the processor raising everything at once and taking every response. -/
def prompt : List Ev := .frame 0xA81 :: List.replicate 20 (.clk ⟨true, true, true, true⟩)

theorem enqueued_prompt : AllSteps step Quiet (start 0 0) prompt ∧
    ((start 0 0).run prompt).enqueued = [rawMsg 0xA81] := by
  have h : AllSteps step Quiet (start 0 0) prompt := by decide
  exact ⟨h, (enqueued_of_quiet 0 0 prompt h).2 (by decide) (by decide) (by decide)⟩

end BusLink

end TamuProofs.IrDemod
