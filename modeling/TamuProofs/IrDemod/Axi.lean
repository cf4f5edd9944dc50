import Mathlib.Data.List.Induction
import TamuProofs.IrDemod.Interrupt

/-!
The write channel of the AXI slave in front of the interrupt block: the two ready registers, the latched
address, and the write that reaches the block in a cycle with `slv_reg_wren` high.

`Discipline s` says what the next clock edges may do to `slv_reg2` and `IR_interrupt` in the state `s`.
**`discipline_of_reset`**: it holds after a reset cycle and any traffic, whatever `slv_reg1` did meanwhile.
-/

namespace TamuProofs.IrDemod

/-! ### The write channel -/

/-- The master's side of the write channel at a clock edge, and what `slv_reg1` holds by then. -/
structure Inputs where
  awaddr : BitVec 4
  awvalid : Bool
  wdata : BitVec 32
  wstrb : BitVec 4
  wvalid : Bool
  slvReg1 : BitVec 32
  deriving DecidableEq, Repr

/-- The registers of the write channel, and the interrupt block behind them. -/
structure Slave where
  awready : Bool
  wready : Bool
  awaddr : BitVec 4
  block : Link
  deriving DecidableEq, Repr

namespace Slave

def wren (s : Slave) (i : Inputs) : Bool := s.wready && i.wvalid && s.awready && i.awvalid

/-- `axi_awaddr[ADDR_LSB+OPT_MEM_ADDR_BITS:ADDR_LSB]`. -/
def select (s : Slave) : BitVec 2 := s.awaddr.extractLsb' 2 2

/-- The write that the interrupt block sees at this edge. -/
def write (s : Slave) (i : Inputs) : Option BusWrite :=
  if s.wren i then some ⟨s.select, i.wdata, i.wstrb⟩ else none

/-- The interrupt block with the value that `slv_reg1` has at this edge. -/
def sampled (s : Slave) (i : Inputs) : Link := { s.block with slvReg1 := i.slvReg1 }

/-- A rising edge of `S_AXI_ACLK`. All the blocks read the registers as they were. -/
def onClk (s : Slave) (aresetn : Bool) (i : Inputs) : Slave where
  awready := aresetn && (!s.awready && i.awvalid && i.wvalid)
  wready := aresetn && (!s.wready && i.wvalid && i.awvalid)
  awaddr := if !aresetn then 0 else if !s.awready && i.awvalid && i.wvalid then i.awaddr else s.awaddr
  block := (s.sampled i).onClk aresetn (s.write i)

def run (s : Slave) (is : List Inputs) : Slave := is.foldl (fun s i => s.onClk true i) s

@[simp] theorem run_nil (s : Slave) : s.run [] = s := rfl

@[simp] theorem run_snoc (s : Slave) (is : List Inputs) (i : Inputs) :
    s.run (is ++ [i]) = (s.run is).onClk true i := by
  simp [run]

/-! ### Register 2 at one edge -/

/-- A bit that an edge changes lies in a strobed lane of a write to register 2. -/
theorem write_of_busWrite_ne {s : Slave} {i : Inputs} {reg : BitVec 32} {j : Nat} (hj : j < 32)
    (h : (busWrite reg (s.write i)).getLsbD j ≠ reg.getLsbD j) :
    s.wren i = true ∧ s.select = 2 ∧ j < 16 ∧ i.wstrb.getLsbD (j / 8) = true := by
  unfold write at h
  by_cases hwren : s.wren i = true
  · rw [if_pos hwren] at h
    by_cases hsel : s.select = 2
    · simp only [busWrite, if_pos hsel, List.foldl_cons, List.foldl_nil] at h
      rw [Link.getLsbD_writeByte _ _ _ hj, Link.getLsbD_writeByte _ _ _ hj] at h
      split_ifs at h with h1 h0
      · have hlane : j / 8 = 1 := by omega
        exact ⟨hwren, hsel, by omega, hlane ▸ h1.1⟩
      · have hlane : j / 8 = 0 := by omega
        exact ⟨hwren, hsel, by omega, hlane ▸ h0.1⟩
      · exact absurd rfl h
    · exact absurd (congrArg (fun r : BitVec 32 => r.getLsbD j) (if_neg hsel)) h
  · simp [hwren, busWrite] at h

theorem onClk_bit_top (s : Slave) (i : Inputs) :
    (s.onClk true i).block.slvReg2.getLsbD 31 = s.block.irInterrupt := by
  show (setTop (busWrite _ _) s.block.irInterrupt).getLsbD 31 = _
  unfold setTop
  cases s.block.irInterrupt <;> simp

/-- Below the top bit only the bus writes. -/
theorem onClk_bit (s : Slave) (i : Inputs) {j : Nat} (hj : j < 31) :
    (s.onClk true i).block.slvReg2.getLsbD j = (busWrite s.block.slvReg2 (s.write i)).getLsbD j :=
  Link.onClk_bit (s.sampled i) (s.write i) hj

/-! ### The interrupt at one edge -/

theorem irInterrupt_kept {s : Slave} {i : Inputs} (hup : s.block.irInterrupt = true)
    (hack : s.block.slvReg2.getLsbD 0 = false) : (s.onClk true i).block.irInterrupt = true :=
  Link.onClk_irInterrupt_up (s := s.sampled i) hack hup (s.write i)

theorem of_irInterrupt_rises {s : Slave} {i : Inputs} (hlow : s.block.irInterrupt = false)
    (hup : (s.onClk true i).block.irInterrupt = true) :
    i.slvReg1 ≠ s.block.slvReg1Prev ∧ s.block.slvReg2.getLsbD 0 = false := by
  have hack : s.block.slvReg2.getLsbD 0 = false := by
    by_contra hset
    have hset' : (s.sampled i).slvReg2.getLsbD 0 = true := (Bool.not_eq_false _).mp hset
    have hzero : (s.onClk true i).block.irInterrupt = false := Link.onClk_irInterrupt_ack hset' _
    simp [hzero] at hup
  refine ⟨fun heq => ?_, hack⟩
  have hkeep : (s.onClk true i).block.irInterrupt = s.block.irInterrupt :=
    Link.onClk_irInterrupt_keep (s := s.sampled i) hack heq _
  rw [hkeep, hlow] at hup
  cases hup

/-- The interrupt stays up through every edge before which bit 0 of register 2 is clear. -/
theorem irInterrupt_run {s : Slave} (hup : s.block.irInterrupt = true) (is : List Inputs)
    (hack : ∀ mid i rest, is = mid ++ i :: rest → (s.run mid).block.slvReg2.getLsbD 0 = false) :
    (s.run is).block.irInterrupt = true := by
  induction is using List.reverseRecOn with
  | nil => exact hup
  | append_singleton is i ih =>
    rw [run_snoc]
    apply irInterrupt_kept
    · apply ih
      intro mid i' rest h
      exact hack mid i' (rest ++ [i]) (by simp [h])
    · exact hack is i [] rfl

end Slave

/-! ### The discipline -/

/-- What register 2 and the interrupt are, and what the next edges, with reset inactive, may do to them. -/
structure Discipline (s : Slave) : Prop where
  middle_zero : ∀ j, 16 ≤ j → j < 31 → s.block.slvReg2.getLsbD j = false
  top_interrupt : ∀ i, (s.onClk true i).block.slvReg2.getLsbD 31 = s.block.irInterrupt
  low_written : ∀ i j, j < 16 → (s.onClk true i).block.slvReg2.getLsbD j ≠ s.block.slvReg2.getLsbD j →
    s.wren i = true ∧ s.select = 2 ∧ i.wstrb.getLsbD (j / 8) = true
  interrupt_stays : s.block.irInterrupt = true → ∀ is,
    (∀ mid i rest, is = mid ++ i :: rest → (s.run mid).block.slvReg2.getLsbD 0 = false) →
    (s.run is).block.irInterrupt = true
  interrupt_rises : ∀ i, s.block.irInterrupt = false → (s.onClk true i).block.irInterrupt = true →
    i.slvReg1 ≠ s.block.slvReg1Prev ∧ s.block.slvReg2.getLsbD 0 = false

/-- Of the five parts only the first depends on the run: nothing ever writes the middle bits. -/
theorem discipline_of_middle {s : Slave} (h : ∀ j, 16 ≤ j → j < 31 → s.block.slvReg2.getLsbD j = false) :
    Discipline s where
  middle_zero := h
  top_interrupt := s.onClk_bit_top
  low_written := by
    intro i j hj hne
    rw [Slave.onClk_bit s i (by omega)] at hne
    obtain ⟨hwren, hsel, -, hstrb⟩ := Slave.write_of_busWrite_ne (by omega) hne
    exact ⟨hwren, hsel, hstrb⟩
  interrupt_stays := Slave.irInterrupt_run
  interrupt_rises _ := Slave.of_irInterrupt_rises

theorem middle_zero_onClk {s : Slave} (h : ∀ j, 16 ≤ j → j < 31 → s.block.slvReg2.getLsbD j = false) (i : Inputs) :
    ∀ j, 16 ≤ j → j < 31 → (s.onClk true i).block.slvReg2.getLsbD j = false := by
  intro j hlo hhi
  rw [Slave.onClk_bit s i hhi]
  by_contra hset
  have hne : (busWrite s.block.slvReg2 (s.write i)).getLsbD j ≠ s.block.slvReg2.getLsbD j := by
    rw [h j hlo hhi]
    exact hset
  have hlt := (Slave.write_of_busWrite_ne (by omega) hne).2.2.1
  omega

/-- **The interrupt register keeps its discipline**: after a reset cycle and any number of clock edges with
any traffic on the bus and any values of `slv_reg1`. From the second edge on, the value that `slv_reg1` is
compared with is the one sampled at the edge before. -/
theorem discipline_of_reset (s : Slave) (i₀ : Inputs) (is : List Inputs) :
    Discipline ((s.onClk false i₀).run is) ∧
      ∀ i, ((s.onClk false i₀).run (is ++ [i])).block.slvReg1Prev = i.slvReg1 := by
  refine ⟨?_, fun i => by rw [Slave.run_snoc]; rfl⟩
  induction is using List.reverseRecOn with
  | nil =>
    apply discipline_of_middle
    intro j _ _
    exact BitVec.getLsbD_zero
  | append_singleton is i ih =>
    rw [Slave.run_snoc]
    exact discipline_of_middle (middle_zero_onClk ih.middle_zero i)

end TamuProofs.IrDemod
