import Mathlib.Data.List.Range
import Mathlib.Logic.Function.Basic
import TamuProofs.Lib.Run

/-!
The character device of the multiplier (`multiplier.c`). Two global pointers share one buffer: `bf_Ptr`, an
`int*`, and `char_bf_Ptr`, a `char*`. A read fills the buffer through the first and walks the second from
its start to its end; a write fills it through the second, wherever that stands, and then sets the first to
it.

* `Driver` — the two pointers as offsets from what `kmalloc` returned, the memory from there on, and every
  byte touched through them;
* `deviceRead`, `deviceWrite` — the two calls, with what they return and what they hand to the user and to
  the device;
* **`inBuffer_iff_writesFirst`**: the driver stays in its buffer, and `my_cleanup` frees what `my_init`
  allocated, exactly when no write is accepted after a read.
-/

namespace TamuProofs.Multiplier

open TamuProofs.Lib

/-- The size of the buffer in bytes: `INT_BUF_LEN*sizeof(int)`. -/
def bufLen : Nat := 3 * 4

/-- The globals of the driver. `bf_Ptr` and `char_bf_Ptr` are offsets from the pointer that `kmalloc`
returned, `mem` is the memory from there on. `accesses` is not in the source: it lists the bytes read or
written through the two pointers. -/
structure Driver where
  bfPtr : Nat
  charBfPtr : Nat
  mem : Nat → BitVec 8
  accesses : List Nat

/-- `my_init`; `mem` is what the memory holds that `kmalloc` returns. -/
def myInit (mem : Nat → BitVec 8) : Driver := ⟨0, 0, mem, []⟩

namespace Driver

/-! ### The two calls -/

/-- `bf_Ptr[i] = x`, little-endian. -/
def setInt (d : Driver) (i : Nat) (x : BitVec 32) : Driver :=
  let p := d.bfPtr + 4 * i
  { d with
    mem := fun q => if p ≤ q ∧ q < p + 4 then x.extractLsb' (8 * (q - p)) 8 else d.mem q
    accesses := d.accesses ++ List.range' p 4 }

def getInt (d : Driver) (i : Nat) : BitVec 32 × Driver :=
  let p := d.bfPtr + 4 * i
  (d.mem (p + 3) ++ d.mem (p + 2) ++ d.mem (p + 1) ++ d.mem p,
    { d with accesses := d.accesses ++ List.range' p 4 })

/-- `char_bf_Ptr[i] = c`. -/
def setChar (d : Driver) (i : Nat) (c : BitVec 8) : Driver :=
  { d with
    mem := Function.update d.mem (d.charBfPtr + i) c
    accesses := d.accesses ++ [d.charBfPtr + i] }

/-- The loop of `put_user(*(char_bf_Ptr++), buffer++)`, `n` times. -/
def putUser : Nat → Driver → List (BitVec 8) × Driver
  | 0, d => ([], d)
  | n + 1, d =>
    let c := d.mem d.charBfPtr
    let r := putUser n { d with charBfPtr := d.charBfPtr + 1, accesses := d.accesses ++ [d.charBfPtr] }
    (c :: r.1, r.2)

/-- The value returned on a bad length, `-EINVAL`. -/
def einval : Int := -22

/-- `device_read`; `io i` is what `ioread32` gives for the `i`-th register. The value returned, the bytes put
into the user's buffer, and the driver. -/
def deviceRead (d : Driver) (length : Nat) (io : Nat → BitVec 32) : Int × List (BitVec 8) × Driver :=
  if 12 < length then (einval, [], d)
  else
    let d := [0, 1, 2].foldl (fun d i => d.setInt i (io i)) d
    let d := { d with charBfPtr := d.bfPtr }
    let r := putUser 12 d
    (12, r.1, r.2)

/-- `device_write`; `buffer` are the user's bytes. The value returned (the counter of the last loop), the
words written to the first registers, and the driver. -/
def deviceWrite (d : Driver) (length : Nat) (buffer : Nat → BitVec 8) : Int × List (BitVec 32) × Driver :=
  if 8 < length then (einval, [], d)
  else
    let d := (List.range length).foldl (fun d i => d.setChar i (buffer i)) d
    let d := { d with bfPtr := d.charBfPtr }
    let r := d.getInt 0
    let t := r.2.getInt 1
    (2, [r.1, t.1], t.2)

/-- A call from user space. -/
inductive Op
  | read (length : Nat) (io : Nat → BitVec 32)
  | write (length : Nat) (buffer : Nat → BitVec 8)

def next (d : Driver) : Op → Driver
  | .read length io => (d.deviceRead length io).2.2
  | .write length buffer => (d.deviceWrite length buffer).2.2

def step (d : Driver) (op : Op) : Option Driver := some (d.next op)

/-- **The driver is in its buffer**: every byte it has touched is one of those allocated, and the pointer
that `my_cleanup` frees is the one `kmalloc` returned. -/
def InBuffer (d : Driver) : Prop := (∀ i ∈ d.accesses, i < bufLen) ∧ d.bfPtr = 0

def Op.Reads : Op → Prop
  | .read length _ => length ≤ 12
  | .write _ _ => False

def Op.Writes : Op → Prop
  | .read _ _ => False
  | .write length _ => length ≤ 8

/-- No write is accepted after a read. -/
def WritesFirst (ops : List Op) : Prop := ops.Pairwise fun a b => ¬ (a.Reads ∧ b.Writes)

/-! ### What the calls touch -/

/-- `e` is `d` after touching bytes from `p` to `p + n`, with its pointers where they were. -/
structure Touched (d e : Driver) (p n : Nat) : Prop where
  bfPtr : e.bfPtr = d.bfPtr
  charBfPtr : e.charBfPtr = d.charBfPtr
  accesses : e.accesses = d.accesses ++ List.range' p n

theorem touched_setInts (d : Driver) (io : Nat → BitVec 32) :
    Touched d ([0, 1, 2].foldl (fun d i => d.setInt i (io i)) d) d.bfPtr 12 := by
  refine ⟨rfl, rfl, ?_⟩
  simp [setInt, List.range'_succ]

theorem touched_setChars (d : Driver) (buffer : Nat → BitVec 8) : ∀ n,
    Touched d ((List.range n).foldl (fun d i => d.setChar i (buffer i)) d) d.charBfPtr n := by
  intro n
  induction n with
  | zero => exact ⟨rfl, rfl, by simp⟩
  | succ n ih =>
    rw [List.range_succ, List.foldl_append, List.foldl_cons, List.foldl_nil]
    refine ⟨ih.bfPtr, ih.charBfPtr, ?_⟩
    show _ ++ [_] = _
    rw [ih.accesses, ih.charBfPtr, List.append_assoc, List.range'_1_concat]

theorem putUser_spec : ∀ (n : Nat) (d : Driver),
    (putUser n d).2 =
      { d with charBfPtr := d.charBfPtr + n, accesses := d.accesses ++ List.range' d.charBfPtr n } := by
  intro n
  induction n with
  | zero => intro d; simp [putUser]
  | succ n ih =>
    intro d
    simp only [putUser, ih, List.range'_succ, List.append_assoc, List.singleton_append]
    congr 1
    omega

/-- A read touches the twelve bytes from `bf_Ptr`, twice, and leaves `char_bf_Ptr` behind them. -/
theorem next_read (d : Driver) {length : Nat} (h : length ≤ 12) (io : Nat → BitVec 32) :
    (d.next (.read length io)).bfPtr = d.bfPtr ∧ (d.next (.read length io)).charBfPtr = d.bfPtr + 12 ∧
      (d.next (.read length io)).accesses =
        d.accesses ++ List.range' d.bfPtr 12 ++ List.range' d.bfPtr 12 := by
  have ht := touched_setInts d io
  have hread : d.next (.read length io) = (putUser 12 { [0, 1, 2].foldl (fun d i => d.setInt i (io i)) d with
      charBfPtr := ([0, 1, 2].foldl (fun d i => d.setInt i (io i)) d).bfPtr }).2 := by
    simp only [next, deviceRead, if_neg (show ¬ 12 < length by omega)]
  rw [hread, putUser_spec]
  exact ⟨ht.bfPtr, by rw [← ht.bfPtr], by rw [← ht.accesses, ← ht.bfPtr]⟩

/-- A write touches its bytes and the eight that it passes on, from `char_bf_Ptr` on, and leaves both
pointers there. -/
theorem next_write (d : Driver) {length : Nat} (h : length ≤ 8) (buffer : Nat → BitVec 8) :
    (d.next (.write length buffer)).bfPtr = d.charBfPtr ∧
      (d.next (.write length buffer)).charBfPtr = d.charBfPtr ∧
      (d.next (.write length buffer)).accesses =
        d.accesses ++ List.range' d.charBfPtr length ++ List.range' d.charBfPtr 8 := by
  have ht := touched_setChars d buffer length
  have hwrite : d.next (.write length buffer) =
      { (List.range length).foldl (fun d i => d.setChar i (buffer i)) d with
        bfPtr := ((List.range length).foldl (fun d i => d.setChar i (buffer i)) d).charBfPtr
        accesses := ((List.range length).foldl (fun d i => d.setChar i (buffer i)) d).accesses ++
          List.range' ((List.range length).foldl (fun d i => d.setChar i (buffer i)) d).charBfPtr 8 } := by
    simp [next, deviceWrite, if_neg (show ¬ 8 < length by omega), getInt, List.range'_succ]
  rw [hwrite]
  exact ⟨ht.charBfPtr, ht.charBfPtr, by rw [ht.accesses, ht.charBfPtr]⟩

theorem next_refused (d : Driver) {op : Op} (hr : ¬ op.Reads) (hw : ¬ op.Writes) : d.next op = d := by
  cases op with
  | read length io =>
    have hlt : 12 < length := Nat.lt_of_not_le hr
    simp only [next, deviceRead, if_pos hlt]
  | write length buffer =>
    have hlt : 8 < length := Nat.lt_of_not_le hw
    simp only [next, deviceWrite, if_pos hlt]

/-! ### Runs -/

/-- The states of a run that stays in the buffer: `char_bf_Ptr` is at one of its ends, the far one after a
read. -/
structure Inside (d : Driver) : Prop where
  inBuffer : d.InBuffer
  char : d.charBfPtr = 0 ∨ d.charBfPtr = bufLen

theorem inside_myInit (mem : Nat → BitVec 8) : Inside (myInit mem) :=
  ⟨⟨by simp [myInit], rfl⟩, .inl rfl⟩

theorem inside_read {d : Driver} (h : Inside d) {length : Nat} (hl : length ≤ 12) (io : Nat → BitVec 32) :
    Inside (d.next (.read length io)) ∧ (d.next (.read length io)).charBfPtr = bufLen := by
  obtain ⟨hbf, hchar, hacc⟩ := d.next_read hl io
  obtain ⟨⟨hin, hzero⟩, -⟩ := h
  have hend : (d.next (.read length io)).charBfPtr = bufLen := by rw [hchar, hzero]; rfl
  refine ⟨⟨⟨fun i hi => ?_, hbf.trans hzero⟩, .inr hend⟩, hend⟩
  rw [hacc, hzero] at hi
  simp only [List.mem_append, List.mem_range'_1] at hi
  rcases hi with (hi | hi) | hi
  · exact hin i hi
  · exact (show i < 0 + 12 from hi.2)
  · exact (show i < 0 + 12 from hi.2)

theorem inside_write {d : Driver} (h : Inside d) {length : Nat} (hl : length ≤ 8) (buffer : Nat → BitVec 8)
    (hchar : d.charBfPtr = 0) :
    Inside (d.next (.write length buffer)) ∧ (d.next (.write length buffer)).charBfPtr = 0 := by
  obtain ⟨hbf, hchar', hacc⟩ := d.next_write hl buffer
  have hend : (d.next (.write length buffer)).charBfPtr = 0 := hchar'.trans hchar
  refine ⟨⟨⟨fun i hi => ?_, hbf.trans hchar⟩, .inl hend⟩, hend⟩
  rw [hacc, hchar] at hi
  simp only [List.mem_append, List.mem_range'_1] at hi
  rcases hi with (hi | hi) | hi
  · exact h.inBuffer.1 i hi
  · unfold bufLen; omega
  · unfold bufLen; omega

/-- A write that finds `char_bf_Ptr` behind the buffer leaves it. -/
theorem not_inBuffer_write {d : Driver} {length : Nat} (hl : length ≤ 8) (buffer : Nat → BitVec 8)
    (hchar : d.charBfPtr = bufLen) : ¬ (d.next (.write length buffer)).InBuffer := by
  rintro ⟨-, hzero⟩
  rw [(d.next_write hl buffer).1, hchar] at hzero
  exact absurd hzero (by unfold bufLen; omega)

/-- A write needs `char_bf_Ptr` at the start of the buffer. -/
def AtStart (d : Driver) (op : Op) : Prop := op.Writes → d.charBfPtr = 0

theorem inside_next {d : Driver} (h : Inside d) {op : Op} (hop : d.AtStart op) : Inside (d.next op) := by
  by_cases hr : op.Reads
  · cases op with
    | read length io => exact (inside_read h hr io).1
    | write length buffer => exact hr.elim
  · by_cases hw : op.Writes
    · cases op with
      | read length io => exact hw.elim
      | write length buffer => exact (inside_write h hw buffer (hop hw)).1
    · rw [d.next_refused hr hw]
      exact h

theorem atStart_of_inBuffer {d : Driver} (h : Inside d) {op : Op} (hin : (d.next op).InBuffer) :
    d.AtStart op := by
  intro hw
  cases op with
  | read length io => exact hw.elim
  | write length buffer =>
    rcases h.char with hc | hc
    · exact hc
    · exact (not_inBuffer_write hw buffer hc hin).elim

theorem allSteps_atStart_end : ∀ {ops : List Op} {d : Driver}, Inside d → d.charBfPtr = bufLen →
    (AllSteps step AtStart d ops ↔ ∀ op ∈ ops, ¬ op.Writes) := by
  intro ops
  induction ops with
  | nil => intro d _ _; exact ⟨fun _ op hop => by simp at hop, fun _ => trivial⟩
  | cons op ops ih =>
    intro d h hc
    have hhead : d.AtStart op ↔ ¬ op.Writes := by
      refine ⟨fun hop hw => ?_, fun hw hw' => (hw hw').elim⟩
      rw [hop hw] at hc
      exact absurd hc (by unfold bufLen; omega)
    have hkeep : ¬ op.Writes → Inside (d.next op) ∧ (d.next op).charBfPtr = bufLen := by
      intro hw
      by_cases hr : op.Reads
      · cases op with
        | read length io => exact inside_read h hr io
        | write length buffer => exact hr.elim
      · rw [d.next_refused hr hw]
        exact ⟨h, hc⟩
    rw [allSteps_cons_some rfl, hhead, List.forall_mem_cons]
    exact and_congr_right fun hw => ih (hkeep hw).1 (hkeep hw).2

/-- From the start of the buffer, what is needed is that no write comes after a read. -/
theorem allSteps_atStart_start : ∀ {ops : List Op} {d : Driver}, Inside d → d.charBfPtr = 0 →
    (AllSteps step AtStart d ops ↔ WritesFirst ops) := by
  intro ops
  induction ops with
  | nil => intro d _ _; exact ⟨fun _ => .nil, fun _ => trivial⟩
  | cons op ops ih =>
    intro d h hc
    have hhead : d.AtStart op := fun _ => hc
    rw [allSteps_cons_some rfl, WritesFirst, List.pairwise_cons, and_iff_right hhead]
    by_cases hr : op.Reads
    · -- from the first read on, nothing may be written
      cases op with
      | read length io =>
        obtain ⟨hin, hend⟩ := inside_read h hr io
        rw [allSteps_atStart_end hin hend]
        refine ⟨fun hno => ⟨fun b hb hw => hno b hb hw.2, ?_⟩, fun hp b hb hw => hp.1 b hb ⟨hr, hw⟩⟩
        exact List.pairwise_of_forall_mem_list fun a _ b hb hw => hno b hb hw.2
      | write length buffer => exact hr.elim
    · have hfree : ∀ b ∈ ops, ¬ (op.Reads ∧ b.Writes) := fun b _ hb => hr hb.1
      rw [and_iff_right hfree]
      by_cases hw : op.Writes
      · cases op with
        | read length io => exact hw.elim
        | write length buffer =>
          obtain ⟨hin, hend⟩ := inside_write h hw buffer hc
          exact ih hin hend
      · rw [d.next_refused hr hw]
        exact ih h hc

end Driver

open Driver

/-- **The driver stays in its buffer exactly when no write is accepted after a read.** -/
theorem inBuffer_iff_writesFirst (mem : Nat → BitVec 8) (ops : List Op) :
    AllStates step InBuffer (myInit mem) ops ↔ WritesFirst ops := by
  have hstart := inside_myInit mem
  rw [← allSteps_atStart_start hstart rfl]
  refine allStates_iff_allSteps (fun d h => Inside.inBuffer h) ?_ ?_ hstart
  · intro d op h hop
    exact ⟨d.next op, rfl, inside_next h hop⟩
  · intro d op d' h hd hin
    cases hd
    exact atStart_of_inBuffer h hin

/-- One turn and a half of the loop of `devtest.c`: write two words, read three, write two words. -/
def devtestOps : List Op := [.write 8 fun _ => 0, .read 12 fun _ => 0, .write 8 fun _ => 0]

theorem not_inBuffer_devtest : ¬ AllStates step InBuffer (myInit fun _ => 0) devtestOps := by
  intro h
  obtain ⟨d, hd, hin⟩ := h.last
  cases hd
  exact absurd hin.2 (by decide)

end TamuProofs.Multiplier
