import Mathlib.Data.Finset.Insert
import Mathlib.Logic.Function.Basic
import TamuProofs.Lib.Run

/-!
# Opening and releasing the IR device (`device_open` and `device_release` of `ir_dev.c`)

Any number of processes go through `device_open` and `device_release`, one step at a time and in any order, and
an interrupt may come whenever the handler is registered.  `Device_Open` is tested and incremented under the
semaphore; everything after it, and all of `device_release`, is not.

Two things go wrong.  `device_open` registers the handler before it allocates the queue, so that in a second
open an interrupt finds the queue of the first, already freed; and `device_release` lets the next process in
before it frees the queue that `msg_queue_Ptr` then points to, which may be the queue of that process.

* `inv_of_acts` — at most one process holds the device, and `msg_queue_Ptr` is the queue of the one that has it
  open, in every state that can be reached;
* **`queuesSafe_iff_ordered`** — no dead queue is used and no queue in use is freed if and only if no interrupt
  falls between a `msg_queue_destroy` and the next `msg_queue_new`, and no `msg_queue_destroy` while a process
  has the device open.
-/

namespace TamuProofs.IrDriver

open TamuProofs.Lib

/-! ### The driver -/

inductive Pc where
  /-- it has not called `device_open`, its `device_open` failed, or its `device_release` returned -/
  | out
  /-- in `device_open`, after `Device_Open++` -/
  | counted
  /-- in `device_open`, after `request_irq` -/
  | registered
  /-- `device_open` returned; its `msg_queue_new` made this queue -/
  | opened (queue : ℕ)
  /-- in `device_release`, after `Device_Open--` -/
  | uncounted
  /-- in `device_release`, after `free_irq` -/
  | freed
  deriving DecidableEq

/-- The variables of the driver.  Queues are numbered in the order in which they are allocated. -/
structure Driver where
  pc : ℕ → Pc
  deviceOpen : ℤ
  /-- `irq_handler` is registered -/
  irq : Bool
  msgQueuePtr : Option ℕ
  /-- how many queues were allocated -/
  queues : ℕ
  /-- the queues that were freed -/
  destroyed : Finset ℕ
  /-- `msg_queue_destroy` has freed a queue since the last `msg_queue_new` -/
  handedBack : Bool

def Driver.start : Driver :=
  { pc := fun _ => .out, deviceOpen := 0, irq := false, msgQueuePtr := none, queues := 0, destroyed := ∅
    handedBack := false }

/-- The steps of the processes, and the interrupt. -/
inductive Act where
  | checkOpen (p : ℕ)
  /-- `granted` is false if the kernel refuses for a reason of its own -/
  | requestIrq (p : ℕ) (granted : Bool)
  | queueNew (p : ℕ)
  | countDown (p : ℕ)
  | freeIrq (p : ℕ)
  | queueDestroy (p : ℕ)
  | interrupt
  deriving DecidableEq

def Driver.goto (d : Driver) (p : ℕ) (pc : Pc) : Driver := { d with pc := Function.update d.pc p pc }

/-- `if (Device_Open) return -EBUSY; Device_Open++;`, under the semaphore. -/
def Driver.checkOpen (d : Driver) (p : ℕ) : Driver :=
  if d.deviceOpen ≠ 0 then d else { d with deviceOpen := d.deviceOpen + 1 }.goto p .counted

/-- `request_irq` without `IRQF_SHARED`: it fails while a handler is registered.  On a failure `device_open`
returns, and `Device_Open` stays as it is. -/
def Driver.requestIrq (d : Driver) (p : ℕ) (granted : Bool) : Driver :=
  if d.irq ∨ granted = false then d.goto p .out else { d with irq := true }.goto p .registered

/-- `msg_queue_Ptr = msg_queue_new(QUEUE_LEN)`. -/
def Driver.queueNew (d : Driver) (p : ℕ) : Driver :=
  { d with msgQueuePtr := some d.queues, queues := d.queues + 1, handedBack := false }.goto p (.opened d.queues)

/-- `msg_queue_destroy(msg_queue_Ptr)`.  The pointer keeps its value. -/
def Driver.queueDestroy (d : Driver) (p : ℕ) : Driver :=
  match d.msgQueuePtr with
  | none => d.goto p .out
  | some queue => { d with destroyed := insert queue d.destroyed, handedBack := true }.goto p .out

/-- One step; what a process cannot do where it is changes nothing.  The interrupt changes what a queue holds,
which is not part of this state. -/
def Driver.step (d : Driver) : Act → Driver
  | .checkOpen p => if d.pc p = .out then d.checkOpen p else d
  | .requestIrq p granted => if d.pc p = .counted then d.requestIrq p granted else d
  | .queueNew p => if d.pc p = .registered then d.queueNew p else d
  | .countDown p =>
    match d.pc p with
    | .opened _ => { d with deviceOpen := d.deviceOpen - 1 }.goto p .uncounted
    | _ => d
  | .freeIrq p => if d.pc p = .uncounted then { d with irq := false }.goto p .freed else d
  | .queueDestroy p => if d.pc p = .freed then d.queueDestroy p else d
  | .interrupt => d

def Driver.next (d : Driver) (a : Act) : Option Driver := some (d.step a)

/-! ### What should hold -/

def Driver.HasOpen (d : Driver) (p : ℕ) : Prop := ∃ queue, d.pc p = .opened queue

/-- **A safe step**: the handler enqueues into no queue that was freed, and no queue is freed that belongs to a
process that has the device open. -/
def QueueSafe (d : Driver) : Act → Prop
  | .interrupt => d.irq = true → ∀ queue, d.msgQueuePtr = some queue → queue ∉ d.destroyed
  | .queueDestroy p =>
    d.pc p = .freed → ∀ queue, d.msgQueuePtr = some queue → ∀ r, d.pc r ≠ .opened queue
  | _ => True

/-- **A step in order**: no interrupt between a `msg_queue_destroy` and the next `msg_queue_new`, and no
`msg_queue_destroy` while a process has the device open. -/
def Ordered (d : Driver) : Act → Prop
  | .interrupt => d.irq = true → d.handedBack = false
  | .queueDestroy p => d.pc p = .freed → ∀ r, ¬ d.HasOpen r
  | _ => True

/-! ### The invariant -/

/-- The process is past the test of `Device_Open` and has not counted down. -/
def Pc.Holds : Pc → Prop
  | .counted | .registered | .opened _ => True
  | .out | .uncounted | .freed => False

/-- What holds in every state. -/
structure DriverInv (d : Driver) : Prop where
  busy : ∀ p, (d.pc p).Holds → d.deviceOpen ≠ 0
  one : ∀ p r, (d.pc p).Holds → (d.pc r).Holds → p = r
  current : ∀ p queue, d.pc p = .opened queue → d.msgQueuePtr = some queue
  allocated : ∀ queue, d.msgQueuePtr = some queue → queue < d.queues
  dead : ∀ queue ∈ d.destroyed, queue < d.queues
  handedBack : ∀ queue, d.msgQueuePtr = some queue → (d.handedBack = true ↔ queue ∈ d.destroyed)
  unset : d.msgQueuePtr = none → d.handedBack = false

section Inv

variable {d : Driver} {p r : ℕ}

theorem goto_self (d : Driver) (p : ℕ) (pc : Pc) : (d.goto p pc).pc p = pc := Function.update_self _ _ _

theorem goto_ne {pc : Pc} (h : r ≠ p) : (d.goto p pc).pc r = d.pc r := Function.update_of_ne h _ _

/-- A process that leaves, or goes on to a place where it does not hold the device. -/
theorem DriverInv.goto (h : DriverInv d) {pc : Pc} (hpc : ¬ pc.Holds) : DriverInv (d.goto p pc) := by
  have hback : ∀ r, ((d.goto p pc).pc r).Holds → r ≠ p ∧ (d.pc r).Holds := by
    intro r hr
    by_cases hrp : r = p
    · rw [hrp, goto_self] at hr
      exact absurd hr hpc
    · rw [goto_ne hrp] at hr
      exact ⟨hrp, hr⟩
  refine ⟨fun r hr => h.busy r (hback r hr).2, fun r r' hr hr' => h.one r r' (hback r hr).2 (hback r' hr').2, ?_,
    h.allocated, h.dead, h.handedBack, h.unset⟩
  intro r queue hr
  have hrp := (hback r (by rw [hr]; trivial)).1
  rw [goto_ne hrp] at hr
  exact h.current r queue hr

theorem DriverInv.checkOpen (h : DriverInv d) (p : ℕ) : DriverInv (d.checkOpen p) := by
  unfold Driver.checkOpen
  split
  · exact h
  rename_i hzero
  rw [ne_eq, not_not] at hzero
  -- nobody holds the device, so the process that goes on is the only one
  have honly : ∀ r, (({ d with deviceOpen := d.deviceOpen + 1 }.goto p .counted).pc r).Holds → r = p := by
    intro r hr
    by_contra hrp
    rw [goto_ne hrp] at hr
    exact h.busy r hr hzero
  refine ⟨fun r _ => ?_, fun r r' hr hr' => (honly r hr).trans (honly r' hr').symm, ?_, h.allocated, h.dead,
    h.handedBack, h.unset⟩
  · show d.deviceOpen + 1 ≠ 0
    omega
  · intro r queue hr
    have hrp := honly r (by rw [hr]; trivial)
    rw [hrp, goto_self] at hr
    cases hr

theorem DriverInv.goto_holds (h : DriverInv d) (hp : (d.pc p).Holds) {pc : Pc}
    (hopen : ∀ queue, pc = .opened queue → d.msgQueuePtr = some queue) : DriverInv (d.goto p pc) := by
  have hback : ∀ r, ((d.goto p pc).pc r).Holds → r = p := by
    intro r hr
    by_contra hrp
    rw [goto_ne hrp] at hr
    exact hrp (h.one r p hr hp)
  refine ⟨fun r _ => h.busy p hp, fun r r' hr hr' => (hback r hr).trans (hback r' hr').symm, ?_, h.allocated,
    h.dead, h.handedBack, h.unset⟩
  intro r queue hr
  have hrp := hback r (by rw [hr]; trivial)
  rw [hrp, goto_self] at hr
  exact hopen queue hr

theorem DriverInv.setIrq (h : DriverInv d) (irq : Bool) : DriverInv { d with irq := irq } :=
  ⟨h.busy, h.one, h.current, h.allocated, h.dead, h.handedBack, h.unset⟩

theorem DriverInv.requestIrq (h : DriverInv d) (hp : d.pc p = .counted) (granted : Bool) :
    DriverInv (d.requestIrq p granted) := by
  unfold Driver.requestIrq
  split
  · exact h.goto id
  · refine (h.setIrq true).goto_holds ?_ fun queue hq => by cases hq
    show (d.pc p).Holds
    rw [hp]
    trivial

/-- The new queue is no queue that was freed. -/
theorem DriverInv.queueNew (h : DriverInv d) (hp : d.pc p = .registered) : DriverInv (d.queueNew p) := by
  have hold : (d.pc p).Holds := by
    rw [hp]
    trivial
  have halloc : DriverInv { d with msgQueuePtr := some d.queues, queues := d.queues + 1, handedBack := false } := by
    refine ⟨h.busy, h.one, ?_, ?_, fun queue hq => Nat.lt_succ_of_lt (h.dead queue hq), ?_, fun hn => by cases hn⟩
    · intro r queue hr
      have hrp : r = p := h.one r p (by rw [show d.pc r = _ from hr]; trivial) hold
      rw [hrp] at hr
      cases hp.symm.trans hr
    · intro queue hq
      cases hq
      exact Nat.lt_succ_self _
    · intro queue hq
      cases hq
      refine iff_of_false Bool.false_ne_true fun hmem => ?_
      exact (h.dead _ hmem).false
  refine halloc.goto_holds hold fun queue hq => ?_
  cases hq
  rfl

theorem DriverInv.countDown (h : DriverInv d) {queue : ℕ} (hp : d.pc p = .opened queue) :
    DriverInv ({ d with deviceOpen := d.deviceOpen - 1 }.goto p .uncounted) := by
  have hold : (d.pc p).Holds := by
    rw [hp]
    trivial
  -- the process was the only one to hold the device
  have hnone : ∀ r, ¬ (({ d with deviceOpen := d.deviceOpen - 1 }.goto p .uncounted).pc r).Holds := by
    intro r hr
    by_cases hrp : r = p
    · rw [hrp, goto_self] at hr
      exact hr
    · rw [goto_ne hrp] at hr
      exact hrp (h.one r p hr hold)
  refine ⟨fun r hr => absurd hr (hnone r), fun r r' hr _ => absurd hr (hnone r), ?_, h.allocated, h.dead,
    h.handedBack, h.unset⟩
  intro r queue hr
  exact absurd (by rw [hr]; trivial) (hnone r)

theorem DriverInv.queueDestroy (h : DriverInv d) (p : ℕ) : DriverInv (d.queueDestroy p) := by
  unfold Driver.queueDestroy
  split
  · exact h.goto id
  · rename_i queue hptr
    have hfree : DriverInv { d with destroyed := insert queue d.destroyed, handedBack := true } := by
      refine ⟨h.busy, h.one, h.current, h.allocated, ?_, ?_, fun hn => ?_⟩
      · intro q hq
        rcases Finset.mem_insert.1 hq with rfl | hq
        · exact h.allocated _ hptr
        · exact h.dead q hq
      · intro q hq
        obtain rfl : queue = q := Option.some.inj (hptr.symm.trans hq)
        exact iff_of_true rfl (Finset.mem_insert_self _ _)
      · cases hptr.symm.trans hn
    exact hfree.goto id

theorem DriverInv.step (h : DriverInv d) (a : Act) : DriverInv (d.step a) := by
  unfold Driver.step
  cases a with
  | checkOpen p =>
    dsimp only
    split
    · exact h.checkOpen p
    · exact h
  | requestIrq p granted =>
    dsimp only
    split
    · exact h.requestIrq ‹_› granted
    · exact h
  | queueNew p =>
    dsimp only
    split
    · exact h.queueNew ‹_›
    · exact h
  | countDown p =>
    dsimp only
    split
    · exact h.countDown ‹_›
    · exact h
  | freeIrq p =>
    dsimp only
    split
    · exact (h.setIrq false).goto id
    · exact h
  | queueDestroy p =>
    dsimp only
    split
    · exact h.queueDestroy p
    · exact h
  | interrupt => exact h

theorem driverInv_start : DriverInv Driver.start := by
  constructor <;> simp [Driver.start, Pc.Holds]

/-- **The invariant holds in every state that can be reached.** -/
theorem inv_of_acts {acts : List Act} (hrun : acts.foldlM Driver.next Driver.start = some d) : DriverInv d := by
  refine inv_of_run (I := DriverInv) (fun d a d' h hd => ?_) driverInv_start hrun
  cases hd
  exact h.step a

/-- In a state that can be reached, a step is safe if and only if it is in order. -/
theorem DriverInv.queueSafe_iff (h : DriverInv d) (a : Act) : QueueSafe d a ↔ Ordered d a := by
  cases a with
  | interrupt =>
    refine imp_congr_right fun _ => ?_
    cases hptr : d.msgQueuePtr with
    | none => exact iff_of_true (fun queue hq => by cases hq) (h.unset hptr)
    | some queue =>
      rw [← Bool.not_eq_true, h.handedBack queue hptr]
      refine ⟨fun hq => hq queue rfl, fun hq queue' hq' => ?_⟩
      cases hq'
      exact hq
  | queueDestroy p =>
    refine imp_congr_right fun _ => ⟨?_, ?_⟩
    · rintro hsafe r ⟨queue, hr⟩
      exact hsafe queue (h.current r queue hr) r hr
    · intro hnone queue _ r hr
      exact hnone r ⟨queue, hr⟩
  | checkOpen p => exact Iff.rfl
  | requestIrq p granted => exact Iff.rfl
  | queueNew p => exact Iff.rfl
  | countDown p => exact Iff.rfl
  | freeIrq p => exact Iff.rfl

end Inv

/-- **No dead queue**: along every interleaving of opens, releases and interrupts, the handler enqueues into no
freed queue and no queue of a process that has the device open is freed, if and only if every interrupt and
every `msg_queue_destroy` comes in order. -/
theorem queuesSafe_iff_ordered (acts : List Act) :
    AllSteps Driver.next QueueSafe Driver.start acts ↔ AllSteps Driver.next Ordered Driver.start acts := by
  refine allSteps_congr (I := DriverInv) (fun d a h => h.queueSafe_iff a) (fun d a d' h hd => ?_) driverInv_start
  cases hd
  exact h.step a

def openActs (p : ℕ) : List Act := [.checkOpen p, .requestIrq p true, .queueNew p]

def releaseActs (p : ℕ) : List Act := [.countDown p, .freeIrq p, .queueDestroy p]

/-- The second process to open the device has registered the handler and not yet allocated its queue. -/
theorem not_queuesSafe_second_open :
    ¬ AllSteps Driver.next QueueSafe Driver.start
      (openActs 0 ++ releaseActs 0 ++ [.checkOpen 1, .requestIrq 1 true] ++ [.interrupt]) := by
  intro h
  exact h.last_step rfl rfl 0 rfl (by decide)

end TamuProofs.IrDriver
