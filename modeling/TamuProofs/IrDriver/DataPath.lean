import TamuProofs.Lib.Run
import TamuProofs.IrDriver.Device

/-!
# The data path from the interrupt to the reader

`Sys` runs interrupts and reads in any order and keeps, beside the driver, the values the reader has
recovered and the values of the interrupts that found a free slot.  `FifoOk` is what the data path is for:
what was recovered, then what is still queued, is what was accepted, and every index used was inside the
array.  Interrupts always keep it, and a read keeps it exactly when the head does not have to leave the
last slot for it (`BelowWrap`).
-/

namespace TamuProofs.IrDriver

open TamuProofs.Lib

/-- The driver, the reader's buffer, the values the reader has printed and the values of the interrupts
that arrived while the queue had room. -/
structure Sys where
  dev : Device
  rdBuf : List (BitVec 8)
  recovered : List (BitVec 32)
  accepted : List (BitVec 32)

/-- What may happen: an interrupt with a value in the data register, or a `read` of some length (`temp` is
what the uninitialised local of `device_read` holds). -/
inductive Ev where
  | irq (rawData : BitVec 32)
  | read (length : ℕ) (temp : IrMsg)

/-- The messages the queue holds; a device without a queue holds none. -/
def held (d : Device) : List IrMsg :=
  match d.msgQueuePtr with
  | none => []
  | some q => queued q

/-- One event.  A reader decodes as many words of its buffer as the call returned. -/
def Sys.step (s : Sys) : Ev → Option Sys
  | .irq rawData => some { s with
      dev := irqHandler s.dev rawData
      accepted := if (held s.dev).length < queueLen then s.accepted ++ [rawData &&& 0xfff#32]
        else s.accepted }
  | .read length temp =>
    match deviceRead s.dev length temp with
    | (bufReadLen, user, dev) =>
      let rdBuf := user ++ s.rdBuf.drop user.length
      some { s with
        dev := dev
        rdBuf := rdBuf
        recovered := s.recovered ++ devtestMsgs bufReadLen rdBuf }

/-- The device right after it was opened, with a queue of `QUEUE_LEN` messages. -/
def Sys.init (mem : ℕ → IrMsg) (rdBuf : List (BitVec 8)) : Sys :=
  { dev := { msgQueuePtr := some (msgQueueNew queueLen mem), interruptCounter := 0 }
    rdBuf := rdBuf, recovered := [], accepted := [] }

/-- **The data path is a FIFO**: recovered then queued is what was accepted, and the array was used
inside its bounds only. -/
def FifoOk (s : Sys) : Prop :=
  s.recovered ++ (held s.dev).map irData = s.accepted ∧
    ∀ q, s.dev.msgQueuePtr = some q → ∀ i ∈ q.accesses, i < queueLen

/-- The messages a read asks for, counted from the head, end before the end of the array. -/
def BelowWrap (s : Sys) : Ev → Prop
  | .irq _ => True
  | .read length _ => ∀ q, s.dev.msgQueuePtr = some q → q.headIdx + min length q.size < queueLen

/-- What the runs keep: the queue is there, of the right capacity and well-formed, and the path is a
FIFO so far. -/
def Inv (s : Sys) : Prop :=
  (∃ q, s.dev.msgQueuePtr = some q ∧ Wf q ∧ q.capacity = queueLen) ∧ FifoOk s

theorem held_of_some {d : Device} {q : MsgQueue} (h : d.msgQueuePtr = some q) : held d = queued q := by
  simp [held, h]

theorem inv_init (mem : ℕ → IrMsg) (rdBuf : List (BitVec 8)) : Inv (Sys.init mem rdBuf) := by
  refine ⟨⟨_, rfl, wf_msgQueueNew (by decide) mem, rfl⟩, rfl, ?_⟩
  intro q hq i hi
  obtain rfl : msgQueueNew queueLen mem = q := Option.some.inj hq
  simp [msgQueueNew] at hi

theorem inv_irq {s : Sys} (h : Inv s) (rawData : BitVec 32) :
    ∃ s', s.step (.irq rawData) = some s' ∧ Inv s' := by
  obtain ⟨⟨q, hp, hq, hcap⟩, hfifo, hacc⟩ := h
  refine ⟨_, rfl, ?_⟩
  have hheld : held s.dev = queued q := held_of_some hp
  rw [hheld] at hfifo
  by_cases hfull : q.size = q.capacity
  · -- a full queue drops the interrupt, and the interrupt does not count as accepted
    have hirq : (irqHandler s.dev rawData).msgQueuePtr = some q := by
      simp [irqHandler, hp, enqueue_full hfull]
    have hlen : ¬ (held s.dev).length < queueLen := by rw [hheld, queued_length]; omega
    refine ⟨⟨q, hirq, hq, hcap⟩, ?_, ?_⟩
    · simpa only [held_of_some hirq, if_neg hlen] using hfifo
    · intro q' hq' i hi
      obtain rfl : q = q' := Option.some.inj (hirq.symm.trans hq')
      exact hacc q hp i hi
  · obtain ⟨q', he, hq', happ, hsz, hcap', -, j, hj, hacc'⟩ := enqueue_spec hq hfull (rawMsg rawData)
    have hirq : (irqHandler s.dev rawData).msgQueuePtr = some q' := by simp [irqHandler, hp, he]
    have hlen : (held s.dev).length < queueLen := by
      have := hq.size_le
      rw [hheld, queued_length]; omega
    refine ⟨⟨q', hirq, hq', hcap'.trans hcap⟩, ?_, ?_⟩
    · simp only [held_of_some hirq, happ, if_pos hlen, List.map_append, List.map_cons, List.map_nil,
        irData_rawMsg, ← List.append_assoc, hfifo]
    · intro q'' hq'' i hi
      obtain rfl : q' = q'' := Option.some.inj (hirq.symm.trans hq'')
      rw [hacc'] at hi
      rcases List.mem_cons.1 hi with rfl | hi
      · omega
      · exact hacc q hp i hi

theorem inv_read {s : Sys} (h : Inv s) {length : ℕ} {temp : IrMsg} (hb : BelowWrap s (.read length temp)) :
    ∃ s', s.step (.read length temp) = some s' ∧ Inv s' := by
  obtain ⟨⟨q, hp, hq, hcap⟩, hfifo, hacc⟩ := h
  obtain ⟨ms, q', hl, hq', happ, hcap', hacc'⟩ :=
    deviceReadLoop_spec length hq (by rw [hcap]; exact hb q hp) temp
  have hheld : held s.dev = ms ++ queued q' := (held_of_some hp).trans happ
  have hread : deviceRead s.dev length temp =
      (ms.length, ms.flatMap msgBytes, { s.dev with msgQueuePtr := some q' }) := by
    simp [deviceRead, hp, hl]
  refine ⟨_, by simp only [Sys.step, hread]; rfl, ⟨q', rfl, hq', hcap'.trans hcap⟩, ?_, ?_⟩
  · show (s.recovered ++ devtestMsgs ms.length _) ++ (queued q').map irData = s.accepted
    rw [devtestMsgs_flatMap, List.append_assoc, ← List.map_append, ← hheld]
    exact hfifo
  · intro q'' hq'' i hi
    obtain rfl : q' = q'' := Option.some.inj hq''
    rcases hacc' i hi with h | h
    · exact hacc q hp i h
    · exact hcap ▸ h

theorem belowWrap_of_fifoOk {s s' : Sys} {e : Ev} (h : Inv s) (he : s.step e = some s')
    (hok : FifoOk s') : BelowWrap s e := by
  obtain ⟨⟨q, hp, hq, hcap⟩, -, -⟩ := h
  cases e with
  | irq rawData => trivial
  | read length temp =>
    intro q₀ hq₀
    obtain rfl : q = q₀ := Option.some.inj (hp.symm.trans hq₀)
    by_contra hwrap
    obtain ⟨q', hl, hmem⟩ := capacity_mem_accesses length hq (by omega) temp
    have hdev : s'.dev.msgQueuePtr = some q' := by
      simp only [Sys.step, deviceRead, hp, Option.some.injEq] at he
      rw [← he]
      exact hl
    have := hok.2 q' hdev _ hmem
    omega

/-- **The data path is a FIFO exactly as long as no read crosses the end of the array.** -/
theorem fifo_iff_belowWrap (mem : ℕ → IrMsg) (rdBuf : List (BitVec 8)) (evs : List Ev) :
    AllStates Sys.step FifoOk (Sys.init mem rdBuf) evs ↔
      AllSteps Sys.step BelowWrap (Sys.init mem rdBuf) evs := by
  refine allStates_iff_allSteps (I := Inv) (fun s h => h.2) ?_
    (fun s e s' h he hok => belowWrap_of_fifoOk h he hok) (inv_init mem rdBuf)
  intro s e h hC
  cases e with
  | irq rawData => exact inv_irq h rawData
  | read length temp => exact inv_read h hC

/-- A hundred interrupts, then one read of a hundred messages. -/
def fillThenRead : List Ev := List.replicate 100 (.irq 0x123#32) ++ [.read 100 (irMsgNew 0 0)]

/-- The last `dequeue` of `fillThenRead` reads `msg_array[100]`. -/
theorem not_fifo_fillThenRead :
    ¬ AllStates Sys.step FifoOk (Sys.init (fun _ => irMsgNew 0 0) []) fillThenRead := by
  intro h
  obtain ⟨s, hs, -, hacc⟩ := h.last
  have hrun : (fillThenRead.foldlM Sys.step (Sys.init (fun _ => irMsgNew 0 0) [])).map
      (fun s : Sys => s.dev.msgQueuePtr.map fun q => q.accesses.head?) = some (some (some 100)) := by
    decide +kernel
  rw [hs] at hrun
  simp only [Option.map_some, Option.some.injEq, Option.map_eq_some_iff] at hrun
  obtain ⟨q, hq, hhead⟩ := hrun
  have := hacc q hq 100 (List.mem_of_mem_head? hhead)
  simp [queueLen] at this

end TamuProofs.IrDriver
