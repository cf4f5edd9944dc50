import Mathlib.Tactic.Common

/-!
The slave's side of a request that is answered, as a pair of registers: `ready` goes up for one clock edge when
there is a request, the request is accepted at that edge, and `valid` then holds the answer until it is taken.

* `Handshake.onClk` — one clock edge;
* **`balance`**: the answers owed, taken and dropped at one edge. An answer is dropped when its request is accepted
  while the one before has not been taken.
-/

namespace TamuProofs.Lib

/-- The two registers of the slave. -/
structure Handshake where
  ready : Bool
  valid : Bool
  deriving DecidableEq, Repr

/-- What the other side drives at a clock edge: a request, and whether it would take an answer. -/
structure Drive where
  request : Bool
  take : Bool
  deriving DecidableEq, Repr

namespace Handshake

variable (c : Handshake) (d : Drive)

def accepts : Bool := c.ready && d.request

def taken : Bool := c.valid && d.take

/-- The request is accepted at this edge and will have no answer. -/
def drops : Bool := c.accepts d && c.valid

def onClk : Handshake where
  ready := !c.ready && d.request
  valid := if c.accepts d && !c.valid then true else if c.taken d then false else c.valid

/-- **What is owed**: each request accepted is answered once or dropped. -/
theorem balance : (c.accepts d).toNat + c.valid.toNat =
    (c.taken d).toNat + (c.onClk d).valid.toNat + (c.drops d).toNat := by
  obtain ⟨ready, valid⟩ := c
  obtain ⟨request, take⟩ := d
  cases ready <;> cases valid <;> cases request <;> cases take <;> rfl

variable {c d}

/-- An answer that would be taken at once is not in the way of the next request. -/
theorem onClk_of_take (ht : d.take = true) : ¬ ((c.onClk d).ready = true ∧ (c.onClk d).valid = true) := by
  rintro ⟨hr, hv⟩
  cases hready : c.ready with
  | true => simp [onClk, hready] at hr
  | false => cases hvalid : c.valid <;> simp [onClk, accepts, taken, hready, hvalid, ht] at hv

end Handshake

end TamuProofs.Lib
