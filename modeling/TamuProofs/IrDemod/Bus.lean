import TamuProofs.Lib.Handshake
import TamuProofs.IrDemod.Axi

/-!
The whole AXI slave of `ir_demod_v2_0_S00_AXI.v`: the write channel with its response, and the read channel,
clock edge by clock edge.

* `BusSlave.onClk` — every register that `S_AXI_ACLK` drives;
* `Watched` — the slave together with what has passed on its five channels;
* `Holds` — the rule of the bus that VALID and what goes with it stay until READY; `OneAtATime` — the master
  starts nothing while a response is on its way;
* **`writes_eq_zipWith`**: the register block sees the k-th address with the k-th data, each once;
* **`responses_balance`**, **`answered_of_oneAtATime`**: which responses come, in all traffic and in that of a
  master that keeps to the comment "this design expects no outstanding transactions".
-/

namespace TamuProofs.IrDemod

open TamuProofs.Lib

/-! ### The slave -/

/-- The master's side of all the channels at a clock edge, and what `slv_reg0` and `slv_reg1` hold by then. -/
structure BusInputs extends Inputs where
  bready : Bool
  araddr : BitVec 4
  arvalid : Bool
  rready : Bool
  slvReg0 : BitVec 32
  deriving DecidableEq, Repr

/-- The registers of the slave. Nothing writes `slv_reg3`. -/
structure BusSlave extends Slave where
  bvalid : Bool
  bresp : BitVec 2
  arready : Bool
  araddr : BitVec 4
  rvalid : Bool
  rresp : BitVec 2
  rdata : BitVec 32
  slvReg3 : BitVec 32
  deriving DecidableEq, Repr

namespace BusSlave

def regAt (s : BusSlave) (i : BusInputs) (addr : BitVec 4) : BitVec 32 :=
  match addr.extractLsb' 2 2 with
  | 0#2 => i.slvReg0
  | 1#2 => i.slvReg1
  | 2#2 => s.block.slvReg2
  | 3#2 => s.slvReg3

def regDataOut (s : BusSlave) (i : BusInputs) : BitVec 32 := s.regAt i s.araddr

def rden (s : BusSlave) (i : BusInputs) : Bool := s.arready && i.arvalid && !s.rvalid

/-- The write channel in front of the block, with the value that `slv_reg0` has at this edge. -/
def front (s : BusSlave) (i : BusInputs) : Slave :=
  { s.toSlave with block := { s.block with slvReg0 := i.slvReg0 } }

def onClk (s : BusSlave) (aresetn : Bool) (i : BusInputs) : BusSlave where
  toSlave := (s.front i).onClk aresetn i.toInputs
  bvalid :=
    if !aresetn then false
    else if s.awready && i.awvalid && !s.bvalid && s.wready && i.wvalid then true
    else if i.bready && s.bvalid then false
    else s.bvalid
  bresp :=
    if !aresetn then 0
    else if s.awready && i.awvalid && !s.bvalid && s.wready && i.wvalid then 0
    else s.bresp
  arready := aresetn && (!s.arready && i.arvalid)
  araddr := if !aresetn then 0 else if !s.arready && i.arvalid then i.araddr else s.araddr
  rvalid :=
    if !aresetn then false
    else if s.arready && i.arvalid && !s.rvalid then true
    else if s.rvalid && i.rready then false
    else s.rvalid
  rresp := if !aresetn then 0 else if s.arready && i.arvalid && !s.rvalid then 0 else s.rresp
  rdata := if !aresetn then 0 else if s.rden i then s.regDataOut i else s.rdata
  slvReg3 := s.slvReg3

/-! ### The two handshakes -/

/-- The write transaction as one handshake: the slave waits for the address and the data together. -/
def writeSide (s : BusSlave) : Handshake := ⟨s.awready, s.bvalid⟩

def readSide (s : BusSlave) : Handshake := ⟨s.arready, s.rvalid⟩

end BusSlave

namespace BusInputs

def writeDrive (i : BusInputs) : Drive := ⟨i.awvalid && i.wvalid, i.bready⟩

def readDrive (i : BusInputs) : Drive := ⟨i.arvalid, i.rready⟩

end BusInputs

namespace BusSlave

variable (s : BusSlave) (i : BusInputs)

theorem onClk_readSide : (s.onClk true i).readSide = s.readSide.onClk i.readDrive := by
  obtain ⟨⟨_, _, _, _⟩, _, _, arready, _, rvalid, _, _, _⟩ := s
  obtain ⟨_, _, _, arvalid, rready, _⟩ := i
  cases arready <;> cases rvalid <;> cases arvalid <;> cases rready <;> rfl

/-- The two ready registers of the write channel are the same register. -/
theorem onClk_wready (h : s.wready = s.awready) : (s.onClk true i).wready = (s.onClk true i).awready := by
  show (true && (!s.wready && i.wvalid && i.awvalid)) = (true && (!s.awready && i.awvalid && i.wvalid))
  rw [h, Bool.and_right_comm]

theorem onClk_writeSide (h : s.wready = s.awready) :
    (s.onClk true i).writeSide = s.writeSide.onClk i.writeDrive := by
  obtain ⟨⟨awready, wready, _, _⟩, bvalid, _, _, _, _, _, _, _⟩ := s
  obtain ⟨⟨_, awvalid, _, _, wvalid, _⟩, bready, _, _, _, _⟩ := i
  obtain rfl : wready = awready := h
  cases wready <;> cases bvalid <;> cases awvalid <;> cases wvalid <;> cases bready <;> rfl

/-- A write reaches the block when the write transaction is accepted. -/
theorem wren_eq (h : s.wready = s.awready) : s.wren i.toInputs = s.writeSide.accepts i.writeDrive := by
  simp only [Slave.wren, h, Handshake.accepts, writeSide, BusInputs.writeDrive]
  cases s.awready <;> cases i.awvalid <;> cases i.wvalid <;> rfl

end BusSlave

/-! ### What passes on the channels -/

/-- The write that an address and the data under their strobes make. -/
def toWrite (addr : BitVec 4) (data : BitVec 32 × BitVec 4) : BusWrite := ⟨addr.extractLsb' 2 2, data.1, data.2⟩

/-- The slave; what the master offers and has not been accepted; what has passed on each channel, with the writes
that the block has seen, the registers read, and how many requests were accepted that will have no answer. -/
structure Watched where
  slave : BusSlave
  heldAw : Option (BitVec 4)
  heldW : Option (BitVec 32 × BitVec 4)
  heldAr : Option (BitVec 4)
  aw : List (BitVec 4)
  w : List (BitVec 32 × BitVec 4)
  b : List (BitVec 2)
  ar : List (BitVec 4)
  r : List (BitVec 32 × BitVec 2)
  writes : List BusWrite
  reads : List (BitVec 32)
  droppedB : Nat
  droppedR : Nat
  deriving DecidableEq, Repr

namespace Watched

def edge (t : Watched) (i : BusInputs) : Watched where
  slave := t.slave.onClk true i
  heldAw := if i.awvalid && !t.slave.awready then some i.awaddr else none
  heldW := if i.wvalid && !t.slave.wready then some (i.wdata, i.wstrb) else none
  heldAr := if i.arvalid && !t.slave.arready then some i.araddr else none
  aw := if t.slave.awready && i.awvalid then t.aw ++ [i.awaddr] else t.aw
  w := if t.slave.wready && i.wvalid then t.w ++ [(i.wdata, i.wstrb)] else t.w
  b := if t.slave.bvalid && i.bready then t.b ++ [t.slave.bresp] else t.b
  ar := if t.slave.arready && i.arvalid then t.ar ++ [i.araddr] else t.ar
  r := if t.slave.rvalid && i.rready then t.r ++ [(t.slave.rdata, t.slave.rresp)] else t.r
  writes := t.writes ++ (t.slave.write i.toInputs).toList
  reads := if t.slave.arready && i.arvalid then t.reads ++ [t.slave.regAt i i.araddr] else t.reads
  droppedB := t.droppedB + (t.slave.wren i.toInputs && t.slave.bvalid).toNat
  droppedR := t.droppedR + (t.slave.arready && i.arvalid && t.slave.rvalid).toNat

def step (t : Watched) (i : BusInputs) : Option Watched := some (t.edge i)

def run (t : Watched) (is : List BusInputs) : Watched := is.foldl edge t

def start (s : BusSlave) (i : BusInputs) : Watched :=
  ⟨s.onClk false i, none, none, none, [], [], [], [], [], [], [], 0, 0⟩

/-- What was offered and not accepted is offered again. -/
def Again {α : Type} (held : Option α) (valid : Bool) (x : α) : Prop :=
  match held with
  | none => True
  | some a => valid = true ∧ x = a

/-- VALID, and the address or data that goes with it, stay until READY. -/
structure Holds (t : Watched) (i : BusInputs) : Prop where
  aw : Again t.heldAw i.awvalid i.awaddr
  w : Again t.heldW i.wvalid (i.wdata, i.wstrb)
  ar : Again t.heldAr i.arvalid i.araddr

/-- A transaction is started when the response of the one before has been taken. -/
structure OneAtATime (t : Watched) (i : BusInputs) : Prop where
  write : i.awvalid = true → t.b.length = t.aw.length
  read : i.arvalid = true → t.r.length = t.ar.length

instance {α : Type} [DecidableEq α] : ∀ (held : Option α) (valid : Bool) (x : α), Decidable (Again held valid x)
  | none, _, _ => .isTrue trivial
  | some a, valid, x => inferInstanceAs (Decidable (valid = true ∧ x = a))

instance (t : Watched) (i : BusInputs) : Decidable (t.Holds i) :=
  decidable_of_iff (Again t.heldAw i.awvalid i.awaddr ∧ Again t.heldW i.wvalid (i.wdata, i.wstrb) ∧
    Again t.heldAr i.arvalid i.araddr) ⟨fun h => ⟨h.1, h.2.1, h.2.2⟩, fun h => ⟨h.aw, h.w, h.ar⟩⟩

instance (t : Watched) (i : BusInputs) : Decidable (t.OneAtATime i) :=
  decidable_of_iff ((i.awvalid = true → t.b.length = t.aw.length) ∧ (i.arvalid = true → t.r.length = t.ar.length))
    ⟨fun h => ⟨h.1, h.2⟩, fun h => ⟨h.write, h.read⟩⟩

/-! ### The writes -/

/-- The state of the write channel between two edges. -/
structure WriteInv (t : Watched) : Prop where
  same : t.slave.wready = t.slave.awready
  held : t.slave.awready = true → t.heldAw = some t.slave.awaddr ∧ t.heldW.isSome = true
  len : t.aw.length = t.w.length
  writes : t.writes = List.zipWith toWrite t.aw t.w

theorem writeInv_edge {t : Watched} {i : BusInputs} (h : t.WriteInv) (hi : t.Holds i) : (t.edge i).WriteInv := by
  have hsame : (t.edge i).slave.wready = (t.edge i).slave.awready := BusSlave.onClk_wready _ _ h.same
  cases hr : t.slave.awready with
  | true => -- the address was latched when it was first offered, and is still on the bus, as the data is
    obtain ⟨haw, hw⟩ := h.held hr
    obtain ⟨d, hd⟩ := Option.isSome_iff_exists.1 hw
    have h1 := hi.aw
    have h2 := hi.w
    rw [haw] at h1
    rw [hd] at h2
    obtain ⟨hav, hadr⟩ := h1
    obtain ⟨hwv, -⟩ := h2
    have hwr : t.slave.wready = true := h.same.trans hr
    have hlow : (t.edge i).slave.awready = false := by
      simp [edge, BusSlave.onClk, Slave.onClk, BusSlave.front, hr]
    refine ⟨hsame, fun hc => ?_, ?_, ?_⟩
    · rw [hlow] at hc
      cases hc
    · simp [edge, hr, hwr, hav, hwv, h.len]
    · have hwrite : t.slave.write i.toInputs = some (toWrite i.awaddr (i.wdata, i.wstrb)) := by
        simp [Slave.write, Slave.wren, hr, hwr, hav, hwv, toWrite, Slave.select, hadr]
      simp [edge, hwrite, hr, hwr, hav, hwv, h.writes, List.zipWith_append h.len]
  | false =>
    have hwr : t.slave.wready = false := h.same.trans hr
    have hwrite : t.slave.write i.toInputs = none := by simp [Slave.write, Slave.wren, hr]
    refine ⟨hsame, fun hc => ?_, ?_, ?_⟩
    · -- AWREADY goes up when both are offered, and the address is latched
      have hboth : i.awvalid = true ∧ i.wvalid = true := by
        simpa [edge, BusSlave.onClk, Slave.onClk, BusSlave.front, hr] using hc
      have hlatch : (t.edge i).slave.awaddr = i.awaddr := by
        simp [edge, BusSlave.onClk, Slave.onClk, BusSlave.front, hr, hboth]
      rw [hlatch]
      simp [edge, hr, hwr, hboth]
    · simp [edge, hr, hwr, h.len]
    · simp [edge, hwrite, hr, hwr, h.writes]

theorem writeInv_start (s : BusSlave) (i : BusInputs) : (start s i).WriteInv where
  same := by simp [start, BusSlave.onClk, Slave.onClk]
  held h := by simp [start, BusSlave.onClk, Slave.onClk] at h
  len := rfl
  writes := rfl

/-- **No write is lost, repeated or mixed up with another.** After a reset, whatever the other channels and the
infrared side do: when a master holds what it offers, as many data as addresses have been accepted, and what the
register block has seen is the first address with the first data, the second with the second, and so on. -/
theorem writes_eq_zipWith (s : BusSlave) (i₀ : BusInputs) (is : List BusInputs)
    (h : AllSteps step Holds (start s i₀) is) :
    ((start s i₀).run is).aw.length = ((start s i₀).run is).w.length ∧
      ((start s i₀).run is).writes =
        List.zipWith toWrite ((start s i₀).run is).aw ((start s i₀).run is).w := by
  have hinv := inv_of_allSteps (I := WriteInv) (fun t i => writeInv_edge) (writeInv_start s i₀) h
  exact ⟨hinv.len, hinv.writes⟩

def idleSlave : BusSlave :=
  ⟨⟨false, false, 0, Link.start 0 0⟩, false, 0, false, 0, false, 0, 0, 0⟩

def quiet : BusInputs := ⟨⟨0, false, 0, 0, false, 0⟩, false, 0, false, false, 0⟩

def offer (addr : BitVec 4) (data : BitVec 32) : BusInputs :=
  { quiet with awaddr := addr, awvalid := true, wdata := data, wstrb := 3, wvalid := true }

/-- Two writes, the address of the first offered before its data, the response of the first not taken when the
second is accepted. -/
def backToBack : List BusInputs :=
  [{ quiet with awaddr := 8, awvalid := true }, offer 8 5, offer 8 5, offer 8 6, offer 8 6,
    { quiet with bready := true }, { quiet with bready := true }]

theorem writes_backToBack : AllSteps step Holds (start idleSlave quiet) backToBack ∧
    ((start idleSlave quiet).run backToBack).writes = [⟨2, 5, 3⟩, ⟨2, 6, 3⟩] := by
  have h : AllSteps step Holds (start idleSlave quiet) backToBack := by decide
  refine ⟨h, ?_⟩
  rw [(writes_eq_zipWith idleSlave quiet backToBack h).2]
  decide

/-! ### The responses -/

/-- The state of the two answering channels between two edges, whatever the master does. -/
structure AnswerInv (t : Watched) : Prop where
  same : t.slave.wready = t.slave.awready
  b : t.writes.length = t.b.length + t.slave.bvalid.toNat + t.droppedB
  r : t.ar.length = t.r.length + t.slave.rvalid.toNat + t.droppedR
  bresp : t.slave.bresp = 0 ∧ ∀ x ∈ t.b, x = 0
  rresp : t.slave.rresp = 0 ∧ ∀ x ∈ t.r, x.2 = 0

theorem length_ite_append {α : Type} (c : Bool) (l : List α) (x : α) :
    (if c then l ++ [x] else l).length = l.length + c.toNat := by
  cases c <;> simp

theorem length_write (s : Slave) (i : Inputs) : (s.write i).toList.length = (s.wren i).toNat := by
  unfold Slave.write
  cases s.wren i <;> rfl

theorem answerInv_edge {t : Watched} (i : BusInputs) (h : t.AnswerInv) : (t.edge i).AnswerInv where
  same := BusSlave.onClk_wready _ _ h.same
  b := by
    -- a response is raised for each write, unless the one before it is still up
    have hbal := t.slave.writeSide.balance i.writeDrive
    rw [← BusSlave.onClk_writeSide t.slave i h.same, ← BusSlave.wren_eq t.slave i h.same] at hbal
    have hdrop : t.slave.writeSide.drops i.writeDrive = (t.slave.wren i.toInputs && t.slave.bvalid) := by
      rw [BusSlave.wren_eq t.slave i h.same]
      rfl
    rw [hdrop] at hbal
    have hb := h.b
    simp only [edge, List.length_append, length_write, length_ite_append]
    simp only [BusSlave.writeSide, Handshake.taken, BusInputs.writeDrive] at hbal
    omega
  r := by
    have hbal := t.slave.readSide.balance i.readDrive
    rw [← BusSlave.onClk_readSide] at hbal
    have hr := h.r
    simp only [edge, length_ite_append]
    simp only [BusSlave.readSide, Handshake.accepts, Handshake.taken, Handshake.drops, BusInputs.readDrive] at hbal
    omega
  bresp := by
    obtain ⟨h0, hall⟩ := h.bresp
    refine ⟨by simp [edge, BusSlave.onClk, h0], fun x hx => ?_⟩
    simp only [edge] at hx
    split at hx
    · rcases List.mem_append.1 hx with hx | hx
      · exact hall x hx
      · rw [List.mem_singleton.1 hx, h0]
    · exact hall x hx
  rresp := by
    obtain ⟨h0, hall⟩ := h.rresp
    refine ⟨by simp [edge, BusSlave.onClk, h0], fun x hx => ?_⟩
    simp only [edge] at hx
    split at hx
    · rcases List.mem_append.1 hx with hx | hx
      · exact hall x hx
      · rw [List.mem_singleton.1 hx, h0]
    · exact hall x hx

theorem answerInv_start (s : BusSlave) (i : BusInputs) : (start s i).AnswerInv where
  same := by simp [start, BusSlave.onClk, Slave.onClk]
  b := by simp [start, BusSlave.onClk]
  r := by simp [start, BusSlave.onClk]
  bresp := by simp [start, BusSlave.onClk]
  rresp := by simp [start, BusSlave.onClk]

theorem answerInv_run (s : BusSlave) (i₀ : BusInputs) (is : List BusInputs) :
    ((start s i₀).run is).AnswerInv := by
  induction is using List.reverseRecOn with
  | nil => exact answerInv_start s i₀
  | append_singleton is i ih =>
    have hrun : (start s i₀).run (is ++ [i]) = ((start s i₀).run is).edge i := by simp [run]
    rw [hrun]
    exact answerInv_edge i ih

/-- **Every response is taken, waiting or dropped**, in all traffic: each write that the block has seen and each
read address accepted was answered once, unless it was accepted while an earlier answer was still waiting, and every
answer is OKAY. -/
theorem responses_balance (s : BusSlave) (i₀ : BusInputs) (is : List BusInputs) :
    let t := (start s i₀).run is
    t.writes.length = t.b.length + t.slave.bvalid.toNat + t.droppedB ∧
      t.ar.length = t.r.length + t.slave.rvalid.toNat + t.droppedR ∧
      (∀ x ∈ t.b, x = 0) ∧ ∀ x ∈ t.r, x.2 = 0 :=
  let h := answerInv_run s i₀ is
  ⟨h.b, h.r, h.bresp.2, h.rresp.2⟩

/-! ### Masters that lose no response -/

/-- What the read channel carries, while nothing has been dropped. -/
structure ReadInv (t : Watched) : Prop where
  held : t.slave.arready = true → t.heldAr = some t.slave.araddr
  reads : t.droppedR = 0 → t.reads = t.r.map Prod.fst ++ if t.slave.rvalid then [t.slave.rdata] else []

theorem readInv_edge {t : Watched} {i : BusInputs} (h : t.ReadInv) (hi : t.Holds i) : (t.edge i).ReadInv := by
  cases hr : t.slave.arready with
  | true =>
    have har := hi.ar
    rw [h.held hr] at har
    obtain ⟨hv, hadr⟩ := har
    refine ⟨fun hc => ?_, fun h0 => ?_⟩
    · simp [edge, BusSlave.onClk, hr] at hc
    · have hvalid : t.slave.rvalid = false := by
        by_contra hc
        simp [edge, hr, hv, hc] at h0
      have hprev : t.droppedR = 0 := by
        simp only [edge] at h0
        omega
      have hreads := h.reads hprev
      simp [edge, BusSlave.onClk, BusSlave.rden, BusSlave.regDataOut, hr, hv, hvalid, hadr, hreads]
  | false =>
    refine ⟨fun hc => ?_, fun h0 => ?_⟩
    · have hv : i.arvalid = true := by simpa [edge, BusSlave.onClk, hr] using hc
      simp [edge, BusSlave.onClk, hr, hv]
    · have hreads := h.reads (by simp only [edge] at h0; omega)
      cases hvalid : t.slave.rvalid <;> cases hready : i.rready <;>
        simp [edge, BusSlave.onClk, BusSlave.rden, hr, hvalid, hready, hreads]

theorem readInv_start (s : BusSlave) (i : BusInputs) : (start s i).ReadInv where
  held h := by simp [start, BusSlave.onClk] at h
  reads _ := by simp [start, BusSlave.onClk]

/-- Nothing has been dropped, and the next edge will drop nothing either. -/
structure Undropped (t : Watched) : Prop where
  answer : t.AnswerInv
  b : t.droppedB = 0
  r : t.droppedR = 0

theorem undropped_oneAtATime {t : Watched} {i : BusInputs} (h : t.Undropped) (hlen : t.aw.length = t.writes.length)
    (hi : t.OneAtATime i) : (t.edge i).Undropped := by
  have hb := h.answer.b
  have hr := h.answer.r
  refine ⟨answerInv_edge i h.answer, ?_, ?_⟩
  · cases hw : t.slave.wren i.toInputs with
    | false => simp [edge, hw, h.b]
    | true =>
      have hav : i.awvalid = true := by simp [Slave.wren] at hw; exact hw.2
      have hlow : t.slave.bvalid = false := by
        have hone := hi.write hav
        cases hv : t.slave.bvalid with
        | false => rfl
        | true => rw [hv, h.b] at hb; simp at hb; omega
      simp [edge, hlow, h.b]
  · cases hv : i.arvalid with
    | false => simp [edge, hv, h.r]
    | true =>
      have hlow : t.slave.rvalid = false := by
        have hone := hi.read hv
        cases hc : t.slave.rvalid with
        | false => rfl
        | true => rw [hc, h.r] at hr; simp at hr; omega
      simp [edge, hlow, h.r]

/-- The answering channels of a master that always takes its responses. -/
structure Prompt (t : Watched) : Prop extends t.Undropped where
  bfree : ¬ (t.slave.awready = true ∧ t.slave.bvalid = true)
  rfree : ¬ (t.slave.arready = true ∧ t.slave.rvalid = true)

theorem prompt_edge {t : Watched} {i : BusInputs} (h : t.Prompt) (hi : i.bready = true ∧ i.rready = true) :
    (t.edge i).Prompt where
  answer := answerInv_edge i h.answer
  b := by
    have hno : (t.slave.wren i.toInputs && t.slave.bvalid) = false := by
      by_contra hc
      simp only [Slave.wren, Bool.not_eq_false, Bool.and_eq_true] at hc
      exact h.bfree ⟨hc.1.1.2, hc.2⟩
    simp [edge, hno, h.b]
  r := by
    have hno : (t.slave.arready && i.arvalid && t.slave.rvalid) = false := by
      by_contra hc
      simp only [Bool.not_eq_false, Bool.and_eq_true] at hc
      exact h.rfree ⟨hc.1.1, hc.2⟩
    simp [edge, hno, h.r]
  bfree := by
    have hfree := t.slave.writeSide.onClk_of_take (d := i.writeDrive) hi.1
    rw [← BusSlave.onClk_writeSide _ _ h.answer.same] at hfree
    exact hfree
  rfree := by
    have hfree := t.slave.readSide.onClk_of_take (d := i.readDrive) hi.2
    rw [← BusSlave.onClk_readSide] at hfree
    exact hfree

theorem prompt_start (s : BusSlave) (i : BusInputs) : (start s i).Prompt where
  answer := answerInv_start s i
  b := rfl
  r := rfl
  bfree := by simp [start, BusSlave.onClk]
  rfree := by simp [start, BusSlave.onClk]

/-- Neither of the two kinds of master loses a response. -/
theorem undropped_run (s : BusSlave) (i₀ : BusInputs) (is : List BusInputs)
    (hold : AllSteps step Holds (start s i₀) is)
    (h : AllSteps step OneAtATime (start s i₀) is ∨ ∀ i ∈ is, i.bready = true ∧ i.rready = true) :
    ((start s i₀).run is).Undropped := by
  rcases h with hone | htake
  · have hboth := hold.and hone
    have hinv := inv_of_allSteps (I := fun t : Watched => t.WriteInv ∧ t.Undropped)
      (C := fun t i => t.Holds i ∧ t.OneAtATime i) (fun t i h hi => ?_)
      ⟨writeInv_start s i₀, (prompt_start s i₀).toUndropped⟩ hboth
    · exact hinv.2
    · have hlen : t.aw.length = t.writes.length := by simp [h.1.writes, h.1.len]
      exact ⟨writeInv_edge h.1 hi.1, undropped_oneAtATime h.2 hlen hi.2⟩
  · have hall : AllSteps step (fun _ i => i.bready = true ∧ i.rready = true) (start s i₀) is :=
      allSteps_of_forall fun i hi _ => htake i hi
    exact (inv_of_allSteps (I := Prompt) (fun t i => prompt_edge) (prompt_start s i₀) hall).toUndropped

/-- **Every transaction is answered, and every read brings its register.** A master that holds what it offers, and
either starts nothing while a response is on its way or always takes its responses at once, gets one response for
each write that the block has seen, and reads the registers as they were when its addresses were accepted, in that
order; at most the last of each is still waiting. -/
theorem answered_of_holds (s : BusSlave) (i₀ : BusInputs) (is : List BusInputs)
    (hold : AllSteps step Holds (start s i₀) is)
    (h : AllSteps step OneAtATime (start s i₀) is ∨ ∀ i ∈ is, i.bready = true ∧ i.rready = true) :
    let t := (start s i₀).run is
    t.writes.length = t.b.length + t.slave.bvalid.toNat ∧
      t.reads = t.r.map Prod.fst ++ if t.slave.rvalid then [t.slave.rdata] else [] := by
  have hun := undropped_run s i₀ is hold h
  have hread := inv_of_allSteps (I := ReadInv) (fun t i => readInv_edge) (readInv_start s i₀) hold
  refine ⟨?_, hread.reads hun.r⟩
  have hb := hun.answer.b
  rw [hun.b] at hb
  exact hb

/-- A write and a read of register 2, each offered when the response of the one before has been taken. -/
def inTurn : List BusInputs :=
  [offer 8 5, offer 8 5, { quiet with bready := true }, { quiet with araddr := 8, arvalid := true },
    { quiet with araddr := 8, arvalid := true }, quiet]

theorem answered_inTurn : AllSteps step Holds (start idleSlave quiet) inTurn ∧
    ((start idleSlave quiet).run inTurn).reads = [5] ∧
    ((start idleSlave quiet).run inTurn).writes.length = ((start idleSlave quiet).run inTurn).b.length := by
  have hold : AllSteps step Holds (start idleSlave quiet) inTurn := by decide
  obtain ⟨hw, hr⟩ := answered_of_holds idleSlave quiet inTurn hold (.inl (by decide))
  exact ⟨hold, hr.trans (by decide), hw.trans (by decide)⟩

/-- What happens to a master that does not wait: of two writes, one response. -/
example : ((start idleSlave quiet).run backToBack).b.length = 1 := by decide

end Watched

end TamuProofs.IrDemod
