import TamuProofs.IrDriver.MsgQueue
import TamuProofs.Lib.Run

/-!
# Runs of the message queue (`msg_queue.h`)

Any calls of `enqueue` and `dequeue`, one after the other, on a queue from `msg_queue_new`.  `Wf` is kept by every
call, and it is all that the values returned depend on: full and empty are told apart by `size` alone.

* `MsgQueue.Indexed` — where the indices are;
* `MsgQueue.Returns` — what the two calls return in a state, and when they leave it alone;
* **`indexed_of_calls`** — both, in every state of every run.
-/

namespace TamuProofs.IrDriver

open TamuProofs.Lib

/-! ### Calls -/

inductive QueueCall where
  | enqueue (msgIn : IrMsg)
  | dequeue (msgOut : IrMsg)
  deriving DecidableEq

namespace MsgQueue

def step (q : MsgQueue) : QueueCall → Option MsgQueue
  | .enqueue msgIn => (IrDriver.enqueue (some q) msgIn).2
  | .dequeue msgOut => (IrDriver.dequeue (some q) msgOut).2.2

/-! ### What should hold -/

/-- Both indices are slots, and the tail is `size` slots after the head. -/
structure Indexed (q : MsgQueue) (capacity : ℕ) : Prop where
  capacity_eq : q.capacity = capacity
  head_lt : q.headIdx < capacity
  tail_lt : q.tailIdx < capacity
  size_le : q.size ≤ capacity
  tail_modEq : q.tailIdx ≡ q.headIdx + q.size [MOD capacity]

/-- A call returns -1 and leaves the queue alone exactly on a full queue, or an empty one; else it returns the
new size, which is one more, or one less. -/
structure Returns (q : MsgQueue) (capacity : ℕ) : Prop where
  enqueue_full_iff : ∀ m, IrDriver.enqueue (some q) m = (-1, some q) ↔ q.size = capacity
  enqueue_size : ∀ m, q.size ≠ capacity →
    ∃ q', IrDriver.enqueue (some q) m = ((q'.size : ℤ), some q') ∧ q'.size = q.size + 1
  dequeue_empty_iff : ∀ m, IrDriver.dequeue (some q) m = (-1, m, some q) ↔ q.size = 0
  dequeue_size : ∀ m, q.size ≠ 0 →
    ∃ out q', IrDriver.dequeue (some q) m = ((q'.size : ℤ), out, some q') ∧ q'.size + 1 = q.size

/-! ### One call -/

section Call

variable {q : MsgQueue} {capacity : ℕ}

theorem indexed_of_wf (hq : Wf q) : q.Indexed q.capacity where
  capacity_eq := rfl
  head_lt := hq.head_lt
  tail_lt := hq.tail_lt
  size_le := hq.size_le
  tail_modEq := by
    rw [hq.tail_eq]
    exact Nat.mod_modEq _ _

theorem returns_of_wf (hq : Wf q) : q.Returns q.capacity where
  enqueue_full_iff m := by
    refine ⟨fun h => ?_, fun h => enqueue_full h m⟩
    by_contra hne
    obtain ⟨q', heq, -⟩ := enqueue_spec hq hne m
    have hret := congrArg Prod.fst (heq.symm.trans h)
    dsimp only at hret
    omega
  enqueue_size m h := by
    obtain ⟨q', heq, -, -, hsize, -⟩ := enqueue_spec hq h m
    exact ⟨q', by rw [heq, hsize], hsize⟩
  dequeue_empty_iff m := by
    refine ⟨fun h => ?_, fun h => dequeue_empty h m⟩
    by_contra hne
    obtain ⟨q', heq, -⟩ := dequeue_spec hq hne m
    have hret := congrArg Prod.fst (heq.symm.trans h)
    dsimp only at hret
    omega
  dequeue_size m h := by
    obtain ⟨q', heq, -, -, hsize, -⟩ := dequeue_spec hq h m
    exact ⟨_, q', by rw [heq, hsize], by omega⟩

theorem wf_step (hq : Wf q) (c : QueueCall) : ∃ q', q.step c = some q' ∧ Wf q' ∧ q'.capacity = q.capacity := by
  cases c with
  | enqueue m =>
    by_cases h : q.size = q.capacity
    · exact ⟨q, congrArg Prod.snd (enqueue_full h m), hq, rfl⟩
    · obtain ⟨q', heq, hq', -, -, hcap, -⟩ := enqueue_spec hq h m
      exact ⟨q', congrArg Prod.snd heq, hq', hcap⟩
  | dequeue m =>
    by_cases h : q.size = 0
    · exact ⟨q, congrArg (fun r => r.2.2) (dequeue_empty h m), hq, rfl⟩
    · obtain ⟨q', heq, hq', -, -, hcap, -⟩ := dequeue_spec hq h m
      exact ⟨q', congrArg (fun r => r.2.2) heq, hq', hcap⟩

end Call

/-! ### Runs -/

theorem wf_of_calls {q : MsgQueue} (hq : Wf q) (calls : List QueueCall) :
    AllStates step (fun q' => Wf q' ∧ q'.capacity = q.capacity) q calls := by
  apply allStates_of_allSteps (C := fun _ _ => True) _ ⟨hq, rfl⟩ (allSteps_of_forall fun _ _ _ => trivial)
  rintro s c ⟨hs, hcap⟩ -
  obtain ⟨s', hstep, hs', hcap'⟩ := wf_step hs c
  exact ⟨s', hstep, hs', hcap'.trans hcap⟩

end MsgQueue

open MsgQueue

/-- **The indices of the queue stay in order**, and its calls return what they should, in every state of every
run from a new queue. -/
theorem indexed_of_calls (capacity : ℕ) (hcap : 1 ≤ capacity) (mem : ℕ → IrMsg) (calls : List QueueCall) :
    AllStates step (fun q => q.Indexed capacity ∧ q.Returns capacity) (msgQueueNew capacity mem) calls := by
  apply (wf_of_calls (wf_msgQueueNew hcap mem) calls).mono
  rintro q ⟨hq, rfl⟩
  exact ⟨indexed_of_wf hq, returns_of_wf hq⟩

/-- The queue of the driver, filled beyond its end and read once. -/
theorem indexed_of_calls_full :
    1 ≤ queueLen ∧ AllStates step (fun q => q.Indexed queueLen ∧ q.Returns queueLen)
      (msgQueueNew queueLen fun _ => irMsgNew 0 0)
      (List.replicate 101 (.enqueue (irMsgNew 0 0)) ++ [.dequeue (irMsgNew 0 0)]) :=
  ⟨by decide, indexed_of_calls queueLen (by decide) _ _⟩

end TamuProofs.IrDriver
