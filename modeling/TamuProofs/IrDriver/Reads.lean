import TamuProofs.IrDriver.Device
import TamuProofs.Multiplier.Driver

/-!
Reads of the two character devices against the buffer of their caller. `FitsBuffer` is what a read owes it:
at most `length` bytes put, and a count of them as the value returned.

The IR driver counts messages, of two bytes each, against the length and in the value it returns; the
multiplier's driver puts its twelve bytes whatever the length. **`fitsBuffer_reads_iff`** says which reads of
the two are right all the same.
-/

namespace TamuProofs.IrDriver

/-- What a read owes its caller: the bytes put are at most `length`, and a value returned that is no error
counts them. -/
def FitsBuffer (length : ℕ) (ret : ℤ) (user : List (BitVec 8)) : Prop :=
  user.length ≤ length ∧ (0 ≤ ret → ret = user.length)

instance (length : ℕ) (ret : ℤ) (user : List (BitVec 8)) : Decidable (FitsBuffer length ret user) := by
  unfold FitsBuffer; infer_instance

/-! ### The IR driver -/

/-- Every message counted is two bytes put. -/
theorem length_deviceReadLoop : ∀ (length : ℕ) (queue : Option MsgQueue) (t : IrMsg),
    (deviceReadLoop length queue t).2.1.length = 2 * (deviceReadLoop length queue t).1 := by
  intro length
  induction length with
  | zero => intro queue t; rfl
  | succ length ih =>
    intro queue t
    unfold deviceReadLoop
    rcases dequeue queue t with ⟨r, t', queue'⟩
    by_cases h : 0 ≤ r
    · simp [h, ih, Nat.mul_add]
    · simp [h]

theorem dequeue_of_isEmpty {queue : Option MsgQueue} (h : isEmpty queue ≠ 0) (t : IrMsg) :
    (dequeue queue t).1 < 0 := by
  cases queue with
  | none => simp [dequeue]
  | some q => simp [dequeue, if_pos h]

theorem dequeue_of_not_isEmpty {queue : Option MsgQueue} (h : isEmpty queue = 0) (t : IrMsg) :
    0 ≤ (dequeue queue t).1 := by
  cases queue with
  | none => simp [isEmpty] at h
  | some q => simp [dequeue, h]

/-- A read of nothing or from no message puts nothing, and returns 0. -/
theorem deviceReadLoop_nothing {length : ℕ} {queue : Option MsgQueue} (h : length = 0 ∨ isEmpty queue ≠ 0)
    (t : IrMsg) : (deviceReadLoop length queue t).1 = 0 := by
  cases length with
  | zero => rfl
  | succ length =>
    have hneg := dequeue_of_isEmpty (h.resolve_left (Nat.succ_ne_zero length)) t
    simp [deviceReadLoop, not_le.2 hneg]

theorem deviceReadLoop_some {length : ℕ} {queue : Option MsgQueue} (hlen : length ≠ 0) (h : isEmpty queue = 0)
    (t : IrMsg) : (deviceReadLoop length queue t).1 ≠ 0 := by
  obtain ⟨n, rfl⟩ := Nat.exists_eq_succ_of_ne_zero hlen
  have hpos := dequeue_of_not_isEmpty h t
  simp [deviceReadLoop, hpos]

theorem fitsBuffer_deviceRead_iff (d : Device) (length : ℕ) (t : IrMsg) :
    FitsBuffer length (deviceRead d length t).1 (deviceRead d length t).2.1 ↔
      length = 0 ∨ isEmpty d.msgQueuePtr ≠ 0 := by
  have htwo : (deviceRead d length t).2.1.length = 2 * (deviceRead d length t).1 :=
    length_deviceReadLoop length d.msgQueuePtr t
  unfold FitsBuffer
  rw [htwo]
  constructor
  · rintro ⟨-, hret⟩
    have hcount := hret (Int.natCast_nonneg _)
    by_contra hno
    obtain ⟨hlen, hempty⟩ := not_or.1 hno
    have hsome : (deviceRead d length t).1 ≠ 0 := deviceReadLoop_some hlen (not_not.1 hempty) t
    omega
  · intro h
    have hzero : (deviceRead d length t).1 = 0 := deviceReadLoop_nothing h t
    simp [hzero]

end TamuProofs.IrDriver

namespace TamuProofs.Multiplier.Driver

open TamuProofs.IrDriver (FitsBuffer)

/-! ### The driver of the multiplier -/

theorem length_putUser : ∀ (n : Nat) (d : Driver), (putUser n d).1.length = n := by
  intro n
  induction n with
  | zero => intro d; rfl
  | succ n ih => intro d; simp [putUser, ih]

/-- A length that is taken is not looked at again. -/
theorem deviceRead_counts (d : Driver) {length : Nat} (h : length ≤ 12) (io : Nat → BitVec 32) :
    (d.deviceRead length io).1 = 12 ∧ (d.deviceRead length io).2.1.length = 12 := by
  unfold deviceRead
  rw [if_neg (not_lt.2 h)]
  exact ⟨rfl, length_putUser 12 _⟩

theorem fitsBuffer_deviceRead_iff (d : Driver) (length : Nat) (io : Nat → BitVec 32) :
    FitsBuffer length (d.deviceRead length io).1 (d.deviceRead length io).2.1 ↔ 12 ≤ length := by
  by_cases h : length ≤ 12
  · obtain ⟨hret, hput⟩ := d.deviceRead_counts h io
    simp [FitsBuffer, hret, hput]
  · have hlt : 12 < length := not_le.1 h
    have hrefused : d.deviceRead length io = (einval, [], d) := if_pos hlt
    rw [hrefused]
    simp [FitsBuffer, einval]
    omega

end TamuProofs.Multiplier.Driver

namespace TamuProofs.IrDriver

/-! ### Both -/

/-- **Which reads fit the buffer of their caller**: of the IR device those of length 0 and those that find no
message, of the multiplier those of all its twelve bytes, and those it refuses. -/
theorem fitsBuffer_reads_iff (length : ℕ) :
    (∀ (d : Device) (t : IrMsg),
      FitsBuffer length (deviceRead d length t).1 (deviceRead d length t).2.1 ↔
        length = 0 ∨ isEmpty d.msgQueuePtr ≠ 0) ∧
    ∀ (d : Multiplier.Driver) (io : ℕ → BitVec 32),
      FitsBuffer length (d.deviceRead length io).1 (d.deviceRead length io).2.1 ↔ 12 ≤ length :=
  ⟨fun d t => fitsBuffer_deviceRead_iff d length t,
    fun d io => Multiplier.Driver.fitsBuffer_deviceRead_iff d length io⟩

def Device.one : Device :=
  irqHandler { msgQueuePtr := some (msgQueueNew queueLen fun _ => irMsgNew 0 0), interruptCounter := 0 } 0xA81

/-- A read of one byte puts two; one of four bytes with one message there puts two and returns one; the
multiplier puts twelve bytes when asked for one. -/
theorem reads_overrun :
    (deviceRead .one 1 (irMsgNew 0 0)).2.1 = [0x81, 0x0a] ∧
      ¬ FitsBuffer 1 (deviceRead .one 1 (irMsgNew 0 0)).1 (deviceRead .one 1 (irMsgNew 0 0)).2.1 ∧
      ¬ FitsBuffer 4 (deviceRead .one 4 (irMsgNew 0 0)).1 (deviceRead .one 4 (irMsgNew 0 0)).2.1 ∧
      ¬ FitsBuffer 1 ((Multiplier.myInit fun _ => 0).deviceRead 1 fun _ => 0).1
        ((Multiplier.myInit fun _ => 0).deviceRead 1 fun _ => 0).2.1 := by
  decide

end TamuProofs.IrDriver
