import TamuProofs.IrDriver.OpenRelease

/-!
# Whole calls of `device_open` and `device_release`

The calls of the processes one after the other, each of them the actions of `OpenRelease` in a row
(`callOpen_eq_acts`).  `device_open` has three error exits.  The first two are in front of `Device_Open++`; the
third, where `request_irq` has failed, is behind it and does not take it back.

* `Free`, `Held` — nobody holds the device, or one process does: the states between two calls as long as
  nothing has gone wrong;
* **`deviceOpenRight_iff_granted`** — failed opens change nothing and `Device_Open` says whether the device is
  held, along every run of calls in which no `request_irq` is refused to the first to open, and along no
  other.
-/

namespace TamuProofs.IrDriver

open TamuProofs.Lib

/-! ### The calls -/

def erestartsys : ℤ := -512

def ebusy : ℤ := -16

namespace Driver

variable {d : Driver} {p r : ℕ}

/-- `device_open`: the value returned and the driver.  `interrupted` says that `down_interruptible` was
interrupted, `irqRet` is what `request_irq` returns when no handler is registered. -/
def callOpen (d : Driver) (p : ℕ) (interrupted : Bool) (irqRet : ℤ) : ℤ × Driver :=
  if interrupted then (erestartsys, d)
  else if d.deviceOpen ≠ 0 then (ebusy, d)
  else if d.irq then (ebusy, (d.checkOpen p).requestIrq p true)
  else if irqRet < 0 then (irqRet, (d.checkOpen p).requestIrq p false)
  else (0, ((d.checkOpen p).requestIrq p true).queueNew p)

/-- `device_release`, by a process that has the device open. -/
def callRelease (d : Driver) (p : ℕ) : Driver := (releaseActs p).foldl step d

inductive Call where
  | deviceOpen (p : ℕ) (interrupted : Bool) (irqRet : ℤ)
  | deviceRelease (p : ℕ)
  deriving DecidableEq

/-- The driver after a call.  The release of a process that does not have the device open is not made. -/
def called (d : Driver) : Call → Driver
  | .deviceOpen p interrupted irqRet => (d.callOpen p interrupted irqRet).2
  | .deviceRelease p => d.callRelease p

def call (d : Driver) (c : Call) : Option Driver := some (d.called c)

/-- A call of `device_open` that is not interrupted is its three actions in a row. -/
theorem callOpen_eq_acts (hp : d.pc p = .out) (irqRet : ℤ) :
    (d.callOpen p false irqRet).2 =
      [.checkOpen p, .requestIrq p (decide (0 ≤ irqRet)), .queueNew p].foldl step d := by
  by_cases h0 : d.deviceOpen = 0
  · have hcheck : d.step (.checkOpen p) = d.checkOpen p := if_pos hp
    have hcounted : (d.checkOpen p).pc p = .counted := by simp [checkOpen, h0, goto_self]
    have hirq : (d.checkOpen p).irq = d.irq := by simp [checkOpen, h0, Driver.goto]
    have hrequest : ∀ b, (d.checkOpen p).step (.requestIrq p b) = (d.checkOpen p).requestIrq p b :=
      fun b => if_pos hcounted
    simp only [List.foldl_cons, List.foldl_nil, hcheck, hrequest]
    by_cases hbusy : d.irq = true
    · have hout : ∀ b, (d.checkOpen p).requestIrq p b = (d.checkOpen p).goto p .out := by
        intro b
        simp [requestIrq, hirq, hbusy]
      simp [callOpen, h0, hbusy, hout, step, goto_self]
    · by_cases hneg : irqRet < 0
      · simp [callOpen, h0, hbusy, hneg, not_le.2 hneg, requestIrq, step, goto_self]
      · simp [callOpen, h0, hbusy, hneg, not_lt.1 hneg, requestIrq, hirq, step, goto_self]
  · simp [callOpen, h0, step, hp, checkOpen]

/-! ### What should hold -/

/-- `Device_Open` is 1 if a process has the device open and 0 otherwise; and when none has, the next open that
the kernel grants succeeds. -/
def DeviceOpenRight (d : Driver) : Prop :=
  ((∃ p, d.HasOpen p) → d.deviceOpen = 1) ∧ ((∀ p, ¬ d.HasOpen p) → d.deviceOpen = 0) ∧
    ((∀ p, ¬ d.HasOpen p) → ∀ p irqRet, 0 ≤ irqRet → (d.callOpen p false irqRet).1 = 0)

/-- An open that returns an error leaves `Device_Open` as it was. -/
def FailedOpenKeeps (d : Driver) : Call → Prop
  | .deviceOpen p interrupted irqRet =>
    (d.callOpen p interrupted irqRet).1 < 0 → (d.callOpen p interrupted irqRet).2.deviceOpen = d.deviceOpen
  | .deviceRelease _ => True

/-- No `request_irq` is refused in an open that gets that far: one that is not interrupted and finds
`Device_Open` at 0. -/
def Granted (d : Driver) : Call → Prop
  | .deviceOpen _ interrupted irqRet => interrupted = false → d.deviceOpen = 0 → 0 ≤ irqRet
  | .deviceRelease _ => True

/-! ### Between two calls -/

structure Free (d : Driver) : Prop where
  out : ∀ p, d.pc p = .out
  deviceOpen : d.deviceOpen = 0
  irq : d.irq = false

structure Held (d : Driver) (p : ℕ) : Prop where
  hasOpen : d.HasOpen p
  out : ∀ r, r ≠ p → d.pc r = .out
  deviceOpen : d.deviceOpen = 1

/-- Between two calls, as long as nothing has gone wrong. -/
def Settled (d : Driver) : Prop := d.Free ∨ ∃ p, d.Held p

theorem not_hasOpen_of_out (h : d.pc p = .out) : ¬ d.HasOpen p := by
  rintro ⟨queue, hq⟩
  rw [h] at hq
  cases hq

theorem Free.callOpen_granted (h : d.Free) (p : ℕ) {irqRet : ℤ} (hret : 0 ≤ irqRet) :
    (d.callOpen p false irqRet).1 = 0 ∧ (d.callOpen p false irqRet).2.Held p := by
  have hcall : d.callOpen p false irqRet = (0, ((d.checkOpen p).requestIrq p true).queueNew p) := by
    simp [callOpen, h.deviceOpen, h.irq, hret]
  rw [hcall]
  refine ⟨rfl, ⟨_, goto_self _ _ _⟩, fun r hr => ?_, ?_⟩
  · simp [queueNew, requestIrq, checkOpen, h.deviceOpen, h.irq, h.out r, Driver.goto, hr]
  · simp [queueNew, requestIrq, checkOpen, h.deviceOpen, h.irq, Driver.goto]

/-- The exit behind the increment. -/
theorem Free.callOpen_refused (h : d.Free) (p : ℕ) {irqRet : ℤ} (hret : irqRet < 0) :
    (d.callOpen p false irqRet).1 < 0 ∧ (d.callOpen p false irqRet).2.deviceOpen = 1 := by
  have hcall : d.callOpen p false irqRet = (irqRet, (d.checkOpen p).requestIrq p false) := by
    simp [callOpen, h.deviceOpen, h.irq, hret]
  rw [hcall]
  exact ⟨hret, by simp [requestIrq, checkOpen, h.deviceOpen, Driver.goto]⟩

theorem Held.callOpen (h : d.Held p) (r : ℕ) (interrupted : Bool) (irqRet : ℤ) :
    (d.callOpen r interrupted irqRet).2 = d := by
  cases interrupted <;> simp [Driver.callOpen, h.deviceOpen]

theorem queueDestroy_spec (d : Driver) (p : ℕ) :
    (d.queueDestroy p).pc = Function.update d.pc p .out ∧ (d.queueDestroy p).deviceOpen = d.deviceOpen ∧
      (d.queueDestroy p).irq = d.irq := by
  unfold queueDestroy
  cases d.msgQueuePtr <;> exact ⟨rfl, rfl, rfl⟩

theorem Held.callRelease (h : d.Held p) : (d.callRelease p).Free := by
  obtain ⟨queue, hq⟩ := h.hasOpen
  have hdown : d.step (.countDown p) = { d with deviceOpen := d.deviceOpen - 1 }.goto p .uncounted := by
    simp [step, hq]
  have hfree : ({ d with deviceOpen := d.deviceOpen - 1 }.goto p .uncounted).step (.freeIrq p) =
      { { d with deviceOpen := d.deviceOpen - 1 }.goto p .uncounted with irq := false }.goto p .freed :=
    if_pos (goto_self _ _ _)
  have hrelease : d.callRelease p =
      ({ { d with deviceOpen := d.deviceOpen - 1 }.goto p .uncounted with irq := false }.goto p .freed).queueDestroy
        p := by
    rw [Driver.callRelease, releaseActs, List.foldl_cons, List.foldl_cons, List.foldl_cons, List.foldl_nil, hdown,
      hfree]
    exact if_pos (goto_self _ _ _)
  obtain ⟨hpc, hopen, hirq⟩ := queueDestroy_spec
    ({ { d with deviceOpen := d.deviceOpen - 1 }.goto p .uncounted with irq := false }.goto p .freed) p
  rw [hrelease]
  refine ⟨fun r => ?_, hopen.trans ?_, hirq⟩
  · rw [hpc]
    by_cases hr : r = p
    · rw [hr, Function.update_self]
    · simp [Driver.goto, hr, h.out r hr]
  · show d.deviceOpen - 1 = 0
    rw [h.deviceOpen]
    rfl

/-- A release by a process that does not have the device open is not made. -/
theorem callRelease_of_out (h : d.pc p = .out) : d.callRelease p = d := by
  simp [callRelease, releaseActs, step, h]

theorem Settled.right (h : d.Settled) : d.DeviceOpenRight := by
  rcases h with h | ⟨p, h⟩
  · have hnone : ∀ p, ¬ d.HasOpen p := fun p => not_hasOpen_of_out (h.out p)
    exact ⟨fun ⟨p, hp⟩ => absurd hp (hnone p), fun _ => h.deviceOpen, fun _ p _ hret => (h.callOpen_granted p hret).1⟩
  · exact ⟨fun _ => h.deviceOpen, fun hnone => absurd h.hasOpen (hnone p), fun hnone => absurd h.hasOpen (hnone p)⟩

/-! ### One call -/

theorem Settled.called (h : d.Settled) {c : Call} (hc : d.Granted c) : (d.called c).Settled := by
  rcases h with h | ⟨q, h⟩
  · cases c with
    | deviceOpen p interrupted irqRet =>
      cases interrupted with
      | true => exact .inl h
      | false => exact .inr ⟨p, (h.callOpen_granted p (hc rfl h.deviceOpen)).2⟩
    | deviceRelease p =>
      rw [Driver.called, callRelease_of_out (h.out p)]
      exact .inl h
  · cases c with
    | deviceOpen p interrupted irqRet =>
      rw [Driver.called, h.callOpen]
      exact .inr ⟨q, h⟩
    | deviceRelease p =>
      by_cases hp : p = q
      · subst hp
        exact .inl h.callRelease
      · rw [Driver.called, callRelease_of_out (h.out p hp)]
        exact .inr ⟨q, h⟩

theorem Settled.failedOpenKeeps (h : d.Settled) {c : Call} (hc : d.Granted c) : d.FailedOpenKeeps c := by
  cases c with
  | deviceOpen p interrupted irqRet =>
    intro herr
    rcases h with h | ⟨q, h⟩
    · cases interrupted with
      | true => rfl
      | false =>
        rw [(h.callOpen_granted p (hc rfl h.deviceOpen)).1] at herr
        exact absurd herr (lt_irrefl 0)
    · rw [h.callOpen]
  | deviceRelease p => trivial

/-- An open that is refused its interrupt line shows in `Device_Open`. -/
theorem Settled.granted (h : d.Settled) {c : Call} (hkeep : d.FailedOpenKeeps c) : d.Granted c := by
  cases c with
  | deviceOpen p interrupted irqRet =>
    rintro rfl hzero
    rcases h with h | ⟨q, h⟩
    · by_contra hret
      obtain ⟨herr, hone⟩ := h.callOpen_refused p (not_le.1 hret)
      have hsame := hkeep herr
      rw [hone, hzero] at hsame
      cases hsame
    · rw [h.deviceOpen] at hzero
      cases hzero
  | deviceRelease p => trivial

theorem settled_start : start.Settled := .inl ⟨fun _ => rfl, rfl, rfl⟩

end Driver

open Driver

/-- **Failed opens change nothing, and `Device_Open` says whether the device is held**, along the runs of calls
in which no `request_irq` is refused to an open that finds `Device_Open` at 0, and along these only. -/
theorem deviceOpenRight_iff_granted (calls : List Call) :
    AllStates call DeviceOpenRight start calls ∧ AllSteps call FailedOpenKeeps start calls ↔
      AllSteps call Granted start calls := by
  refine allStates_and_allSteps_iff (fun d h => Settled.right h) ?_ (fun d c h hc => h.failedOpenKeeps hc) ?_
    settled_start
  · intro d c h hc
    exact ⟨d.called c, rfl, h.called hc⟩
  · intro d c d' h _ _ hkeep
    exact h.granted hkeep

/-- One open that is refused its interrupt line, and the next one finds the device busy. -/
theorem not_deviceOpenRight_refused :
    ¬ AllSteps call FailedOpenKeeps start [.deviceOpen 0 false ebusy] ∧
      ¬ AllStates call DeviceOpenRight start [.deviceOpen 0 false ebusy] ∧
      ((start.called (.deviceOpen 0 false ebusy)).callOpen 1 false 0).1 = ebusy := by
  refine ⟨fun h => ?_, fun h => ?_, rfl⟩
  · have hkeep := h.1 (by decide)
    revert hkeep
    decide
  · obtain ⟨d, hd, -, hzero, -⟩ := h.last
    cases hd
    have hnone : ∀ p, ¬ (start.called (.deviceOpen 0 false ebusy)).HasOpen p := by
      rintro p ⟨queue, hq⟩
      by_cases hp : p = 0
      · subst hp
        cases hq
      · have hout : (start.called (.deviceOpen 0 false ebusy)).pc p = .out := by
          show Function.update (Function.update (fun _ => Pc.out) 0 .counted) 0 .out p = .out
          simp [hp]
        cases hout.symm.trans hq
    exact absurd (hzero hnone) (by decide)

end TamuProofs.IrDriver
