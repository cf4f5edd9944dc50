import TamuProofs.IrDriver.MsgQueue

/-!
# The IR driver: interrupt handler and read (`ir_dev.c`), and the user program (`devtest.c`)

`irq_handler` splits the value of the data register into two bytes and enqueues them, `device_read`
dequeues up to `length` messages and puts both bytes of each into the caller's buffer, and `devtest.c`
reads the buffer back as little-endian words of which it keeps twelve bits.

`deviceReadLoop_spec` is what a read does while the head stays in front of the last slot, and
`capacity_mem_accesses` what it does otherwise: it reads one behind the array.
-/

namespace TamuProofs.IrDriver

open TamuProofs.Lib

/-! ### The driver -/

/-- The globals of the driver: `msg_queue_Ptr` and `interrupt_counter`. -/
structure Device where
  msgQueuePtr : Option MsgQueue
  interruptCounter : ℕ

/-- The message of a `raw_data`: `ir_msg_new((raw_data >> 8) & 0xff, raw_data & 0xff)`. -/
def rawMsg (rawData : BitVec 32) : IrMsg :=
  irMsgNew ((rawData.sshiftRight 8 &&& 0xff#32).setWidth 8) ((rawData &&& 0xff#32).setWidth 8)

/-- `irq_handler`, on the value `raw_data` that `ioread32` gives for the data register. -/
def irqHandler (d : Device) (rawData : BitVec 32) : Device :=
  { interruptCounter := d.interruptCounter + 1
    msgQueuePtr := (enqueue d.msgQueuePtr (rawMsg rawData)).2 }

/-- The `while` loop of `device_read`: `bytes_read`, the bytes given to `put_user` in order, and the queue
afterwards.  `bytes_read` counts messages, of two bytes each. -/
def deviceReadLoop : ℕ → Option MsgQueue → IrMsg → ℕ × List (BitVec 8) × Option MsgQueue
  | 0, queue, _ => (0, [], queue)
  | length + 1, queue, tempMsg =>
    match dequeue queue tempMsg with
    | (r, tempMsg, queue) =>
      if 0 ≤ r then
        match deviceReadLoop length queue tempMsg with
        | (bytesRead, user, queue) =>
          (bytesRead + 1, tempMsg.byteLow :: tempMsg.byteHigh :: user, queue)
      else (0, [], queue)

/-- `device_read`; `tempMsg` is what the uninitialised local holds. -/
def deviceRead (d : Device) (length : ℕ) (tempMsg : IrMsg) : ℕ × List (BitVec 8) × Device :=
  match deviceReadLoop length d.msgQueuePtr tempMsg with
  | (bytesRead, user, queue) => (bytesRead, user, { d with msgQueuePtr := queue })

/-! ### The user program -/

/-- The twelve bits of a message that the user program keeps: `msg[i] & 0xfff`. -/
def irData (m : IrMsg) : BitVec 32 := ((m.byteHigh ++ m.byteLow).setWidth 32) &&& 0xfff#32

/-- The loop of `devtest.c` over the first `buf_read_len` words of the read buffer. -/
def devtestMsgs : ℕ → List (BitVec 8) → List (BitVec 32)
  | n + 1, low :: high :: rdBuf => irData (irMsgNew high low) :: devtestMsgs n rdBuf
  | _, _ => []

/-- The two bytes of a message, in the order `device_read` puts them. -/
def msgBytes (m : IrMsg) : List (BitVec 8) := [m.byteLow, m.byteHigh]

theorem devtestMsgs_flatMap (ms : List IrMsg) (rest : List (BitVec 8)) :
    devtestMsgs ms.length (ms.flatMap msgBytes ++ rest) = ms.map irData := by
  induction ms with
  | nil => cases rest <;> rfl
  | cons m ms ih =>
    simp only [List.flatMap_cons, msgBytes, List.cons_append, List.nil_append, List.length_cons,
      devtestMsgs, List.map_cons]
    exact congrArg _ ih

/-- The split of `raw_data` into two bytes keeps its low twelve bits. -/
theorem irData_rawMsg (rawData : BitVec 32) : irData (rawMsg rawData) = rawData &&& 0xfff#32 := by
  apply BitVec.eq_of_getLsbD_eq
  intro i hi
  have h255 : ∀ j < 32, (0xff#32).getLsbD j = decide (j < 8) := by decide
  have h4095 : ∀ j < 32, (0xfff#32).getLsbD j = decide (j < 12) := by decide
  simp only [irData, rawMsg, irMsgNew, BitVec.getLsbD_and, BitVec.getLsbD_setWidth, BitVec.getLsbD_append,
    BitVec.getLsbD_sshiftRight, h255 i hi, h4095 i hi, h255 (i - 8) (by omega)]
  by_cases h12 : i < 12
  · by_cases h8 : i < 8
    · simp [h8, h12, hi]
    · simp [h8, h12, hi, show i - 8 < 8 by omega, show i - 8 < 32 by omega,
        show 8 + (i - 8) = i by omega]
  · simp [h12]

/-! ### What a read does to the queue -/

section Read

variable {q : MsgQueue}

/-- **A read that stays below the wrap** hands out the oldest messages, as many as it asks for and there
are, in order, and leaves the others queued. -/
theorem deviceReadLoop_spec : ∀ (length : ℕ) {q : MsgQueue}, Wf q →
    q.headIdx + min length q.size < q.capacity → ∀ t : IrMsg,
    ∃ ms q', deviceReadLoop length (some q) t = (ms.length, ms.flatMap msgBytes, some q') ∧ Wf q' ∧
      queued q = ms ++ queued q' ∧ q'.capacity = q.capacity ∧
      ∀ i ∈ q'.accesses, i ∈ q.accesses ∨ i < q.capacity := by
  intro length
  induction length with
  | zero => intro q hq _ t; exact ⟨[], q, rfl, hq, rfl, rfl, fun i hi => Or.inl hi⟩
  | succ length ih =>
    intro q hq hlt t
    by_cases h0 : q.size = 0
    · refine ⟨[], q, ?_, hq, rfl, rfl, fun i hi => Or.inl hi⟩
      simp [deviceReadLoop, dequeue_empty h0]
    · obtain ⟨q₁, hd, hq₁, hcons, hsz, hcap, hhead, hacc⟩ := dequeue_spec hq h0 t
      -- `dequeue` reads the slot behind the head, which is below the end of the array
      have hslot : q.headIdx + 1 < q.capacity := by omega
      have hhead' : q₁.headIdx = q.headIdx + 1 := by rw [hhead, Nat.mod_eq_of_lt hslot]
      obtain ⟨ms, q₂, hl, hq₂, hq₁₂, hcap₂, hacc₂⟩ :=
        ih (q := q₁) hq₁ (by omega) (q.msgArray (q.headIdx + 1))
      refine ⟨q.msgArray (q.headIdx + 1) :: ms, q₂, ?_, hq₂, ?_, hcap₂.trans hcap, fun i hi => ?_⟩
      · simp [deviceReadLoop, hd, hl, msgBytes]
      · rw [hcons, msgArray_head_succ hslot, hq₁₂, List.cons_append]
      · rcases hacc₂ i hi with h | h
        · rw [hacc] at h
          rcases List.mem_cons.1 h with rfl | h
          · exact Or.inr hslot
          · exact Or.inl h
        · exact Or.inr (hcap ▸ h)

theorem mem_accesses_deviceReadLoop {i : ℕ} : ∀ (length : ℕ) {q : MsgQueue}, Wf q → ∀ t : IrMsg,
    i ∈ q.accesses → ∃ q', (deviceReadLoop length (some q) t).2.2 = some q' ∧ i ∈ q'.accesses := by
  intro length
  induction length with
  | zero => intro q _ t hi; exact ⟨q, rfl, hi⟩
  | succ length ih =>
    intro q hq t hi
    by_cases h0 : q.size = 0
    · exact ⟨q, by simp [deviceReadLoop, dequeue_empty h0], hi⟩
    · obtain ⟨q₁, hd, hq₁, -, -, -, -, hacc⟩ := dequeue_spec hq h0 t
      obtain ⟨q₂, hl, hi₂⟩ := ih (q := q₁) hq₁ (q.msgArray (q.headIdx + 1))
        (by rw [hacc]; exact List.mem_cons_of_mem _ hi)
      exact ⟨q₂, by simp [deviceReadLoop, hd, hl], hi₂⟩

/-- **A read that goes past the wrap** reads the array at its length. -/
theorem capacity_mem_accesses : ∀ (length : ℕ) {q : MsgQueue}, Wf q →
    q.capacity ≤ q.headIdx + min length q.size → ∀ t : IrMsg,
    ∃ q', (deviceReadLoop length (some q) t).2.2 = some q' ∧ q.capacity ∈ q'.accesses := by
  intro length
  induction length with
  | zero =>
    intro q hq hle t
    have := hq.head_lt
    omega
  | succ length ih =>
    intro q hq hle t
    have hlt := hq.head_lt
    have h0 : q.size ≠ 0 := by omega
    obtain ⟨q₁, hd, hq₁, -, hsz, hcap, hhead, hacc⟩ := dequeue_spec hq h0 t
    by_cases hlast : q.headIdx + 1 = q.capacity
    · obtain ⟨q₂, hl, hi₂⟩ := mem_accesses_deviceReadLoop (i := q.capacity) length hq₁
        (q.msgArray (q.headIdx + 1)) (by rw [hacc, hlast]; exact List.mem_cons_self ..)
      exact ⟨q₂, by simp [deviceReadLoop, hd, hl], hi₂⟩
    · have hhead' : q₁.headIdx = q.headIdx + 1 := by rw [hhead, Nat.mod_eq_of_lt (by omega)]
      obtain ⟨q₂, hl, hi₂⟩ := ih (q := q₁) hq₁ (by omega) (q.msgArray (q.headIdx + 1))
      exact ⟨q₂, by simp [deviceReadLoop, hd, hl], hcap ▸ hi₂⟩

end Read

end TamuProofs.IrDriver
