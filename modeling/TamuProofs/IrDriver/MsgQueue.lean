import TamuProofs.Lib.Ring

/-!
# The message queue of the IR driver (`msg_queue.h`)

The queue is a circular array of `ir_msg` with a head index, a tail index and a size.  Both indices name
the slot *before* the one they are about: `enqueue` advances the tail and then writes, `dequeue` reads the
slot after the head and then advances.

* `MsgQueue` keeps the indices of `msg_array` that were used (`accesses`), the array itself being a
  function of the index: what lies behind the allocation is some memory like any other;
* `Wf q` — the indices are inside the array and the tail is `size` slots after the head;
* `queued q` — the messages in the queue, oldest first, as a circular segment of the array;
* `enqueue_spec`, `dequeue_spec` — on a well-formed queue `enqueue` appends to `queued` and `dequeue`
  takes the first message off, the latter as long as the head is not in the last slot, where the index
  it reads is one behind the array.
-/

namespace TamuProofs.IrDriver

open TamuProofs.Lib

/-- `QUEUE_LEN`: the number of messages the array is allocated for. -/
def queueLen : ℕ := 100

/-- `ir_msg`: a message of sixteen bits, as two bytes. -/
structure IrMsg where
  byteLow : BitVec 8
  byteHigh : BitVec 8
  deriving DecidableEq, Repr

def irMsgNew (high low : BitVec 8) : IrMsg := { byteLow := low, byteHigh := high }

/-- `msg_queue`.  `accesses` is not a field of the source: it lists the indices at which `msg_array` was
read or written, latest first. -/
structure MsgQueue where
  headIdx : ℕ
  tailIdx : ℕ
  size : ℕ
  capacity : ℕ
  msgArray : ℕ → IrMsg
  accesses : List ℕ

/-- `msg_queue_new`; `mem` is what the freshly allocated (and not cleared) array and the memory behind it
hold. -/
def msgQueueNew (capacity : ℕ) (mem : ℕ → IrMsg) : MsgQueue :=
  { headIdx := 0, tailIdx := 0, size := 0, capacity := capacity, msgArray := mem, accesses := [] }

/-- `is_full`; a queue pointer is `none` when it is `NULL`. -/
def isFull : Option MsgQueue → ℤ
  | none => -2
  | some q => if q.size = q.capacity then 1 else 0

def isEmpty : Option MsgQueue → ℤ
  | none => -2
  | some q => if q.size = 0 then 1 else 0

/-- `enqueue`: the value returned and the queue it leaves behind. -/
def enqueue (queue : Option MsgQueue) (msgIn : IrMsg) : ℤ × Option MsgQueue :=
  match queue with
  | none => (-2, none)
  | some q =>
    if isFull (some q) ≠ 0 then (-1, some q)
    else
      let tailIdx := (q.tailIdx + 1) % q.capacity
      let q' := { q with
        tailIdx := tailIdx
        msgArray := Function.update q.msgArray tailIdx msgIn
        size := q.size + 1
        accesses := tailIdx :: q.accesses }
      (q'.size, some q')

/-- `dequeue`: the value returned, `*msg_out`, and the queue it leaves behind.  The slot that is read is
`head_idx + 1`, without the reduction modulo the capacity that the next line applies to the head. -/
def dequeue (queue : Option MsgQueue) (msgOut : IrMsg) : ℤ × IrMsg × Option MsgQueue :=
  match queue with
  | none => (-2, msgOut, none)
  | some q =>
    if isEmpty (some q) ≠ 0 then (-1, msgOut, some q)
    else
      let q' := { q with
        headIdx := (q.headIdx + 1) % q.capacity
        size := q.size - 1
        accesses := (q.headIdx + 1) :: q.accesses }
      (q'.size, q.msgArray (q.headIdx + 1), some q')

/-! ### Well-formed queues -/

/-- The indices are slots of the array, the size is at most the capacity, and the tail is `size` slots
after the head. -/
structure Wf (q : MsgQueue) : Prop where
  head_lt : q.headIdx < q.capacity
  tail_lt : q.tailIdx < q.capacity
  size_le : q.size ≤ q.capacity
  tail_eq : q.tailIdx = (q.headIdx + q.size) % q.capacity

/-- The messages in the queue, oldest first. -/
def queued (q : MsgQueue) : List IrMsg := ring q.msgArray (q.headIdx + 1) q.size q.capacity

@[simp] theorem queued_length (q : MsgQueue) : (queued q).length = q.size := ring_length

theorem wf_msgQueueNew {capacity : ℕ} (h : 0 < capacity) (mem : ℕ → IrMsg) :
    Wf (msgQueueNew capacity mem) :=
  ⟨h, h, Nat.zero_le _, (Nat.zero_mod _).symm⟩

section Ops

variable {q : MsgQueue}

/-! ### What the operations do -/

theorem enqueue_full (h : q.size = q.capacity) (m : IrMsg) : enqueue (some q) m = (-1, some q) := by
  simp [enqueue, isFull, h]

theorem dequeue_empty (h : q.size = 0) (m : IrMsg) : dequeue (some q) m = (-1, m, some q) := by
  simp [dequeue, isEmpty, h]

/-- **`enqueue` on a queue that is not full** appends the message, at an index inside the array. -/
theorem enqueue_spec (hq : Wf q) (h : q.size ≠ q.capacity) (m : IrMsg) :
    ∃ q', enqueue (some q) m = (((q.size + 1 : ℕ) : ℤ), some q') ∧ Wf q' ∧ queued q' = queued q ++ [m] ∧
      q'.size = q.size + 1 ∧ q'.capacity = q.capacity ∧ q'.headIdx = q.headIdx ∧
      ∃ i, i < q.capacity ∧ q'.accesses = i :: q.accesses := by
  have hc : 0 < q.capacity := lt_of_le_of_lt (Nat.zero_le _) hq.head_lt
  have hlt : q.size < q.capacity := lt_of_le_of_ne hq.size_le h
  -- the tail advances to the slot just behind the messages in use
  have hslot : (q.tailIdx + 1) % q.capacity = (q.headIdx + 1 + q.size) % q.capacity := by
    rw [hq.tail_eq, Nat.mod_add_mod]
    congr 1
    omega
  refine ⟨{ q with
      tailIdx := (q.tailIdx + 1) % q.capacity
      msgArray := Function.update q.msgArray ((q.tailIdx + 1) % q.capacity) m
      size := q.size + 1
      accesses := (q.tailIdx + 1) % q.capacity :: q.accesses },
    by simp [enqueue, isFull, h], ?_, ?_, rfl, rfl, rfl, _, Nat.mod_lt _ hc, rfl⟩
  · refine ⟨hq.head_lt, Nat.mod_lt _ hc, hlt, ?_⟩
    show (q.tailIdx + 1) % q.capacity = (q.headIdx + (q.size + 1)) % q.capacity
    rw [hslot]
    congr 1
    omega
  · show ring (Function.update q.msgArray ((q.tailIdx + 1) % q.capacity) m) (q.headIdx + 1) (q.size + 1)
      q.capacity = _
    rw [hslot]
    exact ring_update m hlt

/-- **`dequeue` on a queue that is not empty**: the indices stay in order and the oldest message is taken
off; the message handed out is whatever stands at `head_idx + 1`. -/
theorem dequeue_spec (hq : Wf q) (h : q.size ≠ 0) (m : IrMsg) :
    ∃ q', dequeue (some q) m = (((q.size - 1 : ℕ) : ℤ), q.msgArray (q.headIdx + 1), some q') ∧ Wf q' ∧
      queued q = q.msgArray ((q.headIdx + 1) % q.capacity) :: queued q' ∧
      q'.size = q.size - 1 ∧ q'.capacity = q.capacity ∧ q'.headIdx = (q.headIdx + 1) % q.capacity ∧
      q'.accesses = (q.headIdx + 1) :: q.accesses := by
  have hc : 0 < q.capacity := lt_of_le_of_lt (Nat.zero_le _) hq.head_lt
  obtain ⟨n, hn⟩ : ∃ n, q.size = n + 1 := ⟨q.size - 1, by omega⟩
  have hsz := hq.size_le
  refine ⟨{ q with
      headIdx := (q.headIdx + 1) % q.capacity
      size := q.size - 1
      accesses := (q.headIdx + 1) :: q.accesses },
    by simp [dequeue, isEmpty, h], ?_, ?_, rfl, rfl, rfl, rfl⟩
  · refine ⟨Nat.mod_lt _ hc, hq.tail_lt, by show q.size - 1 ≤ q.capacity; omega, ?_⟩
    show q.tailIdx = ((q.headIdx + 1) % q.capacity + (q.size - 1)) % q.capacity
    rw [hq.tail_eq, Nat.mod_add_mod]
    congr 1
    omega
  · show ring q.msgArray (q.headIdx + 1) q.size q.capacity =
      _ :: ring q.msgArray ((q.headIdx + 1) % q.capacity + 1) (q.size - 1) q.capacity
    rw [hn, ring_succ, Nat.add_sub_cancel]
    congr 1
    apply ring_congr_mod
    rw [Nat.mod_add_mod]

/-- As long as the head is not in the last slot, the message handed out is the oldest one. -/
theorem msgArray_head_succ (h : q.headIdx + 1 < q.capacity) :
    q.msgArray ((q.headIdx + 1) % q.capacity) = q.msgArray (q.headIdx + 1) := by
  rw [Nat.mod_eq_of_lt h]

end Ops

end TamuProofs.IrDriver
