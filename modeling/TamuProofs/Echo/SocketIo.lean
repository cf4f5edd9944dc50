import TamuProofs.Lib.Bytes
import TamuProofs.Lib.Run

/-!
# Reading and writing a socket (`writen` and `readline`)

`echo.c`, the echo server and the SBCP server have the same two functions.  Each is a loop around a system call,
and here one step of it for each return of the call, with `errno` as one more variable: a call that fails sets it,
any other leaves it as it was.

* `Writen` — the loop of `writen`; **`writen_all_or_part`** says what is written when it returns;
* `Readline` — the loop of `readline`; **`reports_iff`** says on which schedules of `read` it does what it is for.

`readline` counts from 1.  The count is right when the loop ends at a newline, and one too large when it ends at
the end of the stream or at the limit.  At the end of the stream `errno` is looked at first, so that an `EINTR` of
some earlier call makes the loop read on forever.
-/

namespace TamuProofs.Echo

open TamuProofs.Lib

def eintr : ℕ := 4

/-! ### `writen` -/

/-- What `write` returns: a number of bytes, or -1 with this `errno`. -/
inductive WriteRet where
  | count (k : ℕ)
  | fail (errno : ℕ)
  deriving DecidableEq

/-- The variables of `writen`, and what has gone into the socket. -/
structure Writen where
  nbytes : ℕ
  noBytes : ℕ
  /-- what `buf` points to -/
  buf : Bytes
  errno : ℕ
  sent : Bytes
  /-- what the function has returned, once it has -/
  returned : Option ℤ
  deriving DecidableEq

def Writen.head (w : Writen) : Writen :=
  if w.noBytes < w.nbytes then w else { w with returned := some w.noBytes }

def Writen.start (buffer : Bytes) (nbytes errno : ℕ) : Writen :=
  Writen.head { nbytes := nbytes, noBytes := 0, buf := buffer, errno := errno, sent := [], returned := none }

def Writen.retry (w : Writen) : Writen :=
  if w.errno = eintr then w.head else { w with returned := some (-1) }

/-- One turn of the loop.  `write` never returns more than it was asked for. -/
def Writen.step (w : Writen) (r : WriteRet) : Option Writen :=
  if w.returned.isSome then some w
  else
    match r with
    | .fail errno => some { w with errno := errno }.retry
    | .count k =>
      if k = 0 then some w.retry
      else if k ≤ w.nbytes - w.noBytes then
        some (Writen.head { w with
          noBytes := w.noBytes + k
          buf := w.buf.drop k
          sent := w.sent ++ w.buf.take k })
      else none

structure WritenInv (buffer : Bytes) (nbytes : ℕ) (w : Writen) : Prop where
  total : w.nbytes = nbytes
  le : w.noBytes ≤ nbytes
  buf : w.buf = buffer.drop w.noBytes
  sent : w.sent = buffer.take w.noBytes
  running : w.returned = none → w.noBytes < nbytes
  returned : ∀ v, w.returned = some v → v = nbytes ∧ w.noBytes = nbytes ∨ v = -1 ∧ w.noBytes < nbytes

section Writen

variable {buffer : Bytes} {nbytes : ℕ} {w w' : Writen}

theorem WritenInv.head (htotal : w.nbytes = nbytes) (hle : w.noBytes ≤ nbytes) (hbuf : w.buf = buffer.drop w.noBytes)
    (hsent : w.sent = buffer.take w.noBytes) (hret : w.returned = none) : WritenInv buffer nbytes w.head := by
  unfold Writen.head
  split
  · rename_i hlt
    refine ⟨htotal, hle, hbuf, hsent, fun _ => htotal ▸ hlt, fun v hv => ?_⟩
    rw [hret] at hv
    cases hv
  · rename_i hge
    have heq : w.noBytes = nbytes := by omega
    refine ⟨htotal, hle, hbuf, hsent, (fun hn => by cases hn), fun v hv => ?_⟩
    cases hv
    exact Or.inl ⟨congrArg _ heq, heq⟩

theorem writenInv_start (buffer : Bytes) (nbytes errno : ℕ) :
    WritenInv buffer nbytes (Writen.start buffer nbytes errno) := by
  apply WritenInv.head <;> simp

theorem WritenInv.retry (h : WritenInv buffer nbytes w) (hret : w.returned = none) :
    WritenInv buffer nbytes w.retry := by
  unfold Writen.retry
  split
  · exact WritenInv.head h.total h.le h.buf h.sent hret
  · refine ⟨h.total, h.le, h.buf, h.sent, (fun hn => by cases hn), fun v hv => ?_⟩
    cases hv
    exact Or.inr ⟨rfl, h.running hret⟩

theorem WritenInv.step (h : WritenInv buffer nbytes w) {r : WriteRet} (hs : w.step r = some w') :
    WritenInv buffer nbytes w' := by
  unfold Writen.step at hs
  split at hs
  · cases hs
    exact h
  rename_i hret
  have hret : w.returned = none := by simpa using hret
  cases r with
  | fail errno =>
    cases hs
    exact WritenInv.retry ⟨h.total, h.le, h.buf, h.sent, h.running, h.returned⟩ hret
  | count k =>
    dsimp only at hs
    split at hs
    · cases hs
      exact h.retry hret
    split at hs
    · rename_i hk
      cases hs
      have hle := h.le
      have htotal := h.total
      apply WritenInv.head
      · exact htotal
      · show w.noBytes + k ≤ nbytes
        omega
      · show w.buf.drop k = buffer.drop (w.noBytes + k)
        rw [h.buf, List.drop_drop]
      · show w.sent ++ w.buf.take k = buffer.take (w.noBytes + k)
        rw [h.sent, h.buf, List.take_add]
      · exact hret
    · cases hs

theorem writenInv_of_run {errno : ℕ} {rets : List WriteRet}
    (hrun : rets.foldlM Writen.step (Writen.start buffer nbytes errno) = some w) : WritenInv buffer nbytes w :=
  inv_of_run (fun _ _ _ h hs => h.step hs) (writenInv_start buffer nbytes errno) hrun

end Writen

/-- **`writen` writes all or a proper part**: whatever the calls of `write` return, a value that is not negative is
`nbytes`, with the first `nbytes` bytes of the buffer written, and with -1 fewer of them were. -/
theorem writen_all_or_part (buffer : Bytes) (nbytes errno : ℕ) (hlen : nbytes ≤ buffer.length)
    (rets : List WriteRet) (w : Writen) (v : ℤ)
    (hrun : rets.foldlM Writen.step (Writen.start buffer nbytes errno) = some w) (hret : w.returned = some v) :
    (0 ≤ v → v = nbytes ∧ w.sent = buffer.take nbytes) ∧
      (v < 0 → v = -1 ∧ w.sent <+: buffer.take nbytes ∧ w.sent ≠ buffer.take nbytes) := by
  have hinv := writenInv_of_run hrun
  rcases hinv.returned v hret with ⟨rfl, hall⟩ | ⟨rfl, hpart⟩
  · refine ⟨fun _ => ⟨rfl, ?_⟩, fun hneg => absurd hneg (by omega)⟩
    rw [hinv.sent, hall]
  · refine ⟨fun hnonneg => absurd hnonneg (by decide), fun _ => ⟨rfl, ?_, fun heq => ?_⟩⟩
    · rw [hinv.sent]
      exact List.take_prefix_take_left hpart.le
    · have hlengths := congrArg List.length heq
      rw [hinv.sent, List.length_take, List.length_take] at hlengths
      omega

/-- Three of five bytes, an interrupt, a zero while `errno` is still `EINTR`, and the rest. -/
theorem writen_all_hello :
    ∃ w, [.count 3, .fail eintr, .count 0, .count 2].foldlM Writen.step (Writen.start (ascii "hello!") 5 0) = some w ∧
      w.returned = some 5 ∧ w.sent = ascii "hello" := by
  obtain ⟨w, hrun, hret⟩ : ∃ w, [WriteRet.count 3, .fail eintr, .count 0, .count 2].foldlM Writen.step
      (Writen.start (ascii "hello!") 5 0) = some w ∧ w.returned = some 5 := ⟨_, rfl, rfl⟩
  exact ⟨w, hrun, hret, ((writen_all_or_part (ascii "hello!") 5 0 (by decide) _ w 5 hrun hret).1 (by decide)).2⟩

/-! ### `readline` -/

/-- What `read` returns when it is asked for one byte: the byte, 0 at the end of the stream, or -1 with this
`errno`. -/
inductive ReadRet where
  | byte (ch : UInt8)
  | eof
  | fail (errno : ℕ)
  deriving DecidableEq

/-- The variables of `readline`, and the memory that it writes to. -/
structure Readline where
  maxSizeLine : ℕ
  noBytes : ℕ
  /-- the memory of the caller, from where `buffer` pointed at first -/
  memory : Bytes
  /-- how far `buffer` has moved -/
  stored : ℕ
  errno : ℕ
  returned : Option ℤ

/-- What follows the loop: `*buffer = 0; return no_bytes;`. -/
def Readline.finish (l : Readline) : Readline :=
  { l with memory := l.memory.set l.stored 0, returned := some l.noBytes }

def Readline.head (l : Readline) : Readline := if l.noBytes < l.maxSizeLine then l else l.finish

def Readline.start (memory : Bytes) (maxSizeLine errno : ℕ) : Readline :=
  Readline.head
    { maxSizeLine := maxSizeLine, noBytes := 1, memory := memory, stored := 0, errno := errno, returned := none }

/-- One call of `read`, and what follows up to the next one. -/
def Readline.step (l : Readline) (r : ReadRet) : Readline :=
  if l.returned.isSome then l
  else
    match r with
    | .byte ch =>
      let l := { l with memory := l.memory.set l.stored ch, stored := l.stored + 1 }
      if ch = 10 then l.finish else Readline.head { l with noBytes := l.noBytes + 1 }
    | .eof =>
      -- no call has failed, and `errno` is what some earlier call made it
      if l.errno = eintr then l
      else if l.noBytes = 1 then { l with returned := some 0 }
      else l.finish
    | .fail errno =>
      if errno = eintr then { l with errno := errno } else { l with errno := errno, returned := some (-1) }

/-- What `read` returns, one call after the other.  Behind the end of the stream there is nothing. -/
structure Schedule where
  read : ℕ → ReadRet
  ended : ∀ i, read i = .eof → read (i + 1) = .eof

def ReadRet.bytes : ReadRet → Bytes
  | .byte ch => [ch]
  | _ => []

def Schedule.bytes (s : Schedule) : ℕ → Bytes
  | 0 => []
  | n + 1 => s.bytes n ++ (s.read n).bytes

def Schedule.run (s : Schedule) (l : Readline) : ℕ → Readline
  | 0 => l
  | n + 1 => (s.run l n).step (s.read n)

/-- The next bytes of the stream: up to the first newline, at most `limit` of them, or up to its end. -/
def Schedule.NextLine (s : Schedule) (limit : ℕ) (line : Bytes) : Prop :=
  ∃ n, s.bytes n = line ∧ 10 ∉ line.dropLast ∧ line.length ≤ limit ∧
    (line.getLast? = some 10 ∨ line.length = limit ∨ s.read n = .eof)

/-- **`readline` reports what it stored**: it returns, and unless it returns -1 the value is the number of the bytes
stored, which are the next line of the stream, with a NUL behind them. -/
def Reports (s : Schedule) (memory : Bytes) (maxSizeLine errno : ℕ) : Prop :=
  ∃ n v, (s.run (Readline.start memory maxSizeLine errno) n).returned = some v ∧
    (v ≠ -1 → ∀ l, s.run (Readline.start memory maxSizeLine errno) n = l →
      v = l.stored ∧ s.NextLine (maxSizeLine - 1) (l.memory.take l.stored) ∧
      l.stored < maxSizeLine ∧ l.memory[l.stored]? = some 0)

/-- The first `n` calls return bytes other than a newline, or fail with `EINTR`. -/
def Schedule.Quiet (s : Schedule) (n : ℕ) : Prop :=
  ∀ i < n, s.read i = .fail eintr ∨ ∃ ch, ch ≠ 10 ∧ s.read i = .byte ch

/-- A newline, or a failure other than `EINTR`, comes within the limit and before the end of the stream. -/
def Schedule.Settled (s : Schedule) (maxSizeLine : ℕ) : Prop :=
  ∃ n, s.Quiet n ∧ (s.bytes n).length + 1 < maxSizeLine ∧
    (s.read n = .byte 10 ∨ ∃ errno, errno ≠ eintr ∧ s.read n = .fail errno)

structure ReadlineInv (s : Schedule) (memory : Bytes) (maxSizeLine errno n : ℕ) (l : Readline) : Prop where
  limit : l.maxSizeLine = maxSizeLine
  lt : l.noBytes < maxSizeLine
  count : l.noBytes = l.stored + 1
  stored : l.stored = (s.bytes n).length
  size : l.memory.length = memory.length
  line : l.memory.take l.stored = s.bytes n
  noNewline : 10 ∉ s.bytes n
  returned : l.returned = none
  past : ∀ i < n, s.read i = .fail eintr ∨ s.read i = .eof ∨ ∃ ch, ch ≠ 10 ∧ s.read i = .byte ch
  errno : l.errno = eintr ∨ l.errno = errno ∧ ∀ i < n, ∃ ch, s.read i = .byte ch

section Readline

variable {s : Schedule} {memory : Bytes} {maxSizeLine errno n : ℕ} {l : Readline}

theorem start_eq (memory : Bytes) {maxSizeLine : ℕ} (hmax : 2 ≤ maxSizeLine) (errno : ℕ) :
    Readline.start memory maxSizeLine errno =
      { maxSizeLine := maxSizeLine, noBytes := 1, memory := memory, stored := 0, errno := errno
        returned := none } :=
  if_pos (show 1 < maxSizeLine from hmax)

theorem readlineInv_start (s : Schedule) (memory : Bytes) {maxSizeLine : ℕ} (hmax : 2 ≤ maxSizeLine) (errno : ℕ) :
    ReadlineInv s memory maxSizeLine errno 0 (Readline.start memory maxSizeLine errno) := by
  rw [start_eq memory hmax]
  exact ⟨rfl, hmax, rfl, rfl, rfl, rfl, by simp [Schedule.bytes], rfl, fun i hi => absurd hi (by omega),
    Or.inr ⟨rfl, fun i hi => absurd hi (by omega)⟩⟩

/-! One call at a time. -/

theorem step_of_returned (h : l.returned.isSome = true) (r : ReadRet) : l.step r = l := if_pos h

theorem step_newline (h : l.returned = none) : l.step (.byte 10) =
    Readline.finish { l with memory := l.memory.set l.stored 10, stored := l.stored + 1 } := by
  simp [Readline.step, h]

theorem step_byte (h : l.returned = none) {ch : UInt8} (hch : ch ≠ 10) : l.step (.byte ch) = Readline.head
    { l with memory := l.memory.set l.stored ch, stored := l.stored + 1, noBytes := l.noBytes + 1 } := by
  simp [Readline.step, h, hch]

theorem step_eof_eintr (h : l.returned = none) (herr : l.errno = eintr) : l.step .eof = l := by
  simp [Readline.step, h, herr]

theorem step_eof (h : l.returned = none) (herr : l.errno ≠ eintr) :
    l.step .eof = if l.noBytes = 1 then { l with returned := some 0 } else l.finish := by
  simp [Readline.step, h, herr]

theorem step_eintr (h : l.returned = none) : l.step (.fail eintr) = { l with errno := eintr } := by
  simp [Readline.step, h]

theorem step_fail (h : l.returned = none) {err : ℕ} (herr : err ≠ eintr) :
    l.step (.fail err) = { l with errno := err, returned := some (-1) } := by
  simp [Readline.step, h, herr]

theorem ReadlineInv.room (h : ReadlineInv s memory maxSizeLine errno n l) (hmem : maxSizeLine ≤ memory.length) :
    l.stored + 1 < l.memory.length := by
  have h1 := h.lt
  have h2 := h.count
  have h3 := h.size
  omega

theorem ReadlineInv.take_set (h : ReadlineInv s memory maxSizeLine errno n l) (hmem : maxSizeLine ≤ memory.length)
    (ch : UInt8) : (l.memory.set l.stored ch).take (l.stored + 1) = s.bytes n ++ [ch] := by
  have hlt : l.stored < l.memory.length := Nat.lt_of_succ_lt (h.room hmem)
  rw [List.take_add_one, List.take_set_of_le le_rfl, h.line, List.getElem?_set_self hlt, Option.toList_some]

theorem bytes_succ_byte {ch : UInt8} (hr : s.read n = .byte ch) : s.bytes (n + 1) = s.bytes n ++ [ch] := by
  rw [Schedule.bytes, hr]
  rfl

theorem ReadlineInv.byte (h : ReadlineInv s memory maxSizeLine errno n l) (hmem : maxSizeLine ≤ memory.length)
    {ch : UInt8} (hch : ch ≠ 10) (hr : s.read n = .byte ch) (hlt : l.noBytes + 1 < maxSizeLine) :
    ReadlineInv s memory maxSizeLine errno (n + 1) (l.step (.byte ch)) := by
  have hbytes := bytes_succ_byte hr
  rw [step_byte h.returned hch, Readline.head, if_pos (show l.noBytes + 1 < l.maxSizeLine from h.limit ▸ hlt)]
  refine ⟨h.limit, hlt, congrArg _ h.count, ?_, ?_, ?_, ?_, h.returned, fun i hi => ?_, ?_⟩
  · rw [hbytes, List.length_append, ← h.stored]
    rfl
  · exact (List.length_set ..).trans h.size
  · rw [hbytes]
    exact h.take_set hmem ch
  · rw [hbytes, List.mem_append, not_or]
    exact ⟨h.noNewline, by simpa using Ne.symm hch⟩
  · rcases Nat.lt_succ_iff_lt_or_eq.1 hi with hi | rfl
    · exact h.past i hi
    · exact Or.inr (Or.inr ⟨ch, hch, hr⟩)
  · refine h.errno.imp_right (And.imp_right fun hall i hi => ?_)
    rcases Nat.lt_succ_iff_lt_or_eq.1 hi with hi | rfl
    · exact hall i hi
    · exact ⟨ch, hr⟩

theorem ReadlineInv.skip (h : ReadlineInv s memory maxSizeLine errno n l)
    (hr : s.read n = .fail eintr ∨ s.read n = .eof) :
    ReadlineInv s memory maxSizeLine errno (n + 1) { l with errno := eintr } := by
  have hbytes : s.bytes (n + 1) = s.bytes n := by
    rcases hr with hr | hr <;> rw [Schedule.bytes, hr] <;> exact List.append_nil _
  refine ⟨h.limit, h.lt, h.count, hbytes ▸ h.stored, h.size, hbytes ▸ h.line, hbytes ▸ h.noNewline, h.returned,
    fun i hi => ?_, Or.inl rfl⟩
  rcases Nat.lt_succ_iff_lt_or_eq.1 hi with hi | rfl
  · exact h.past i hi
  · exact hr.imp_right Or.inl

/-- A call after which the function has returned: at a newline, with an error, at the end of the stream before any
byte, or else with one more than it has stored. -/
def Stops (l : Readline) (r : ReadRet) (v : ℤ) : Prop :=
  (l.step r).returned = some v ∧
    (r = .byte 10 ∨ (∃ err, err ≠ eintr ∧ r = .fail err) ∨
      (r = .eof ∧ l.errno ≠ eintr ∧ l.stored = 0 ∧ l.step r = { l with returned := some 0 }) ∨
      v = (l.step r).stored + 1)

/-- **One call**: the loop goes on, or the function returns. -/
theorem ReadlineInv.step (h : ReadlineInv s memory maxSizeLine errno n l) (hmem : maxSizeLine ≤ memory.length) :
    ReadlineInv s memory maxSizeLine errno (n + 1) (l.step (s.read n)) ∨ ∃ v, Stops l (s.read n) v := by
  have hcount := h.count
  cases hr : s.read n with
  | byte ch =>
    by_cases hch : ch = 10
    · subst hch
      refine Or.inr ⟨l.noBytes, ?_, Or.inl rfl⟩
      rw [step_newline h.returned]
      rfl
    by_cases hlt : l.noBytes + 1 < maxSizeLine
    · exact Or.inl (h.byte hmem hch hr hlt)
    -- the limit: the loop variable is counted up once more
    have hstep := step_byte h.returned hch
    rw [Readline.head, if_neg (show ¬ l.noBytes + 1 < l.maxSizeLine from h.limit ▸ hlt)] at hstep
    refine Or.inr ⟨((l.noBytes + 1 : ℕ) : ℤ), ?_, Or.inr (Or.inr (Or.inr ?_))⟩
    · rw [hstep]
      rfl
    · rw [hstep, hcount]
      rfl
  | eof =>
    by_cases herr : l.errno = eintr
    · left
      rw [step_eof_eintr h.returned herr]
      have hskip := h.skip (Or.inr hr)
      rwa [← herr] at hskip
    have hstep := step_eof h.returned herr
    by_cases hone : l.noBytes = 1
    · -- nothing was read before
      rw [if_pos hone] at hstep
      refine Or.inr ⟨0, ?_, Or.inr (Or.inr (Or.inl ⟨rfl, herr, by omega, hstep⟩))⟩
      rw [hstep]
    · -- one more than was stored
      rw [if_neg hone] at hstep
      refine Or.inr ⟨l.noBytes, ?_, Or.inr (Or.inr (Or.inr ?_))⟩
      · rw [hstep]
        rfl
      · rw [hstep, hcount]
        rfl
  | fail err =>
    by_cases herr : err = eintr
    · left
      subst herr
      rw [step_eintr h.returned]
      exact h.skip (Or.inl hr)
    · refine Or.inr ⟨-1, ?_, Or.inr (Or.inl ⟨err, herr, rfl⟩)⟩
      rw [step_fail h.returned herr]

theorem run_cases (s : Schedule) {memory : Bytes} {maxSizeLine : ℕ} (hmem : maxSizeLine ≤ memory.length)
    (hmax : 2 ≤ maxSizeLine) (errno n : ℕ) :
    ReadlineInv s memory maxSizeLine errno n (s.run (Readline.start memory maxSizeLine errno) n) ∨
      ∃ k l v, ReadlineInv s memory maxSizeLine errno k l ∧ Stops l (s.read k) v ∧
        l = s.run (Readline.start memory maxSizeLine errno) k ∧
        s.run (Readline.start memory maxSizeLine errno) n = l.step (s.read k) := by
  induction n with
  | zero => exact Or.inl (readlineInv_start s memory hmax errno)
  | succ n ih =>
    rcases ih with h | ⟨k, l, v, h, hv, hl, hrun⟩
    · rcases h.step hmem with h' | ⟨v, hv⟩
      · exact Or.inl h'
      · exact Or.inr ⟨n, _, v, h, hv, rfl, rfl⟩
    · refine Or.inr ⟨k, l, v, h, hv, hl, ?_⟩
      rw [Schedule.run, hrun, step_of_returned (by rw [hv.1]; rfl)]

theorem readlineInv_of_quiet (hmem : maxSizeLine ≤ memory.length) (hmax : 2 ≤ maxSizeLine) (errno : ℕ)
    (hq : s.Quiet n) (hlt : (s.bytes n).length + 1 < maxSizeLine) :
    ReadlineInv s memory maxSizeLine errno n (s.run (Readline.start memory maxSizeLine errno) n) := by
  induction n with
  | zero => exact readlineInv_start s memory hmax errno
  | succ n ih =>
    have hle : (s.bytes n).length ≤ (s.bytes (n + 1)).length := by
      rw [Schedule.bytes, List.length_append]
      omega
    have h := ih (fun i hi => hq i (by omega)) (by omega)
    rw [Schedule.run]
    rcases hq n (by omega) with hr | ⟨ch, hch, hr⟩
    · rw [hr, step_eintr h.returned]
      exact h.skip (Or.inl hr)
    · rw [hr]
      refine h.byte hmem hch hr ?_
      rw [bytes_succ_byte hr, List.length_append, ← h.stored] at hlt
      rw [h.count]
      exact hlt

theorem ReadlineInv.quiet (h : ReadlineInv s memory maxSizeLine errno n l) (hr : s.read n ≠ .eof) : s.Quiet n := by
  have hended : ∀ k i, s.read i = .eof → s.read (i + k) = .eof := by
    intro k i hi
    induction k with
    | zero => exact hi
    | succ k ih => exact s.ended _ ih
  intro i hi
  rcases h.past i hi with hp | hp | hp
  · exact Or.inl hp
  · have := hended (n - i) i hp
    rw [Nat.add_sub_cancel' hi.le] at this
    exact absurd this hr
  · exact Or.inr hp

/-- The end of the stream is met before any byte, and not after an `EINTR`: it is what the first call returns. -/
theorem ReadlineInv.eq_zero (h : ReadlineInv s memory maxSizeLine errno n l) (herr : l.errno ≠ eintr)
    (hzero : l.stored = 0) : n = 0 := by
  obtain ⟨-, hall⟩ := h.errno.resolve_left herr
  cases n with
  | zero => rfl
  | succ n =>
    obtain ⟨ch, hr⟩ := hall n (by omega)
    have hstored := h.stored
    rw [bytes_succ_byte hr, List.length_append, hzero] at hstored
    simp at hstored

theorem ReadlineInv.newline (h : ReadlineInv s memory maxSizeLine errno n l) (hmem : maxSizeLine ≤ memory.length)
    (hr : s.read n = .byte 10) :
    (l.step (.byte 10)).returned = some (l.noBytes : ℤ) ∧
      ∀ l', l.step (.byte 10) = l' → (l.noBytes : ℤ) = l'.stored ∧
        s.NextLine (maxSizeLine - 1) (l'.memory.take l'.stored) ∧ l'.stored < maxSizeLine ∧
        l'.memory[l'.stored]? = some 0 := by
  have hlt := h.lt
  have hcount := h.count
  have hroom := h.room hmem
  rw [step_newline h.returned]
  refine ⟨rfl, ?_⟩
  rintro l' rfl
  have hline : (((l.memory.set l.stored 10).set (l.stored + 1) 0).take (l.stored + 1)) = s.bytes (n + 1) := by
    rw [List.take_set_of_le le_rfl, h.take_set hmem, bytes_succ_byte hr]
  refine ⟨congrArg _ hcount, ⟨n + 1, hline.symm, ?_, ?_, Or.inl ?_⟩, ?_, ?_⟩
  · show 10 ∉ (((l.memory.set l.stored 10).set (l.stored + 1) 0).take (l.stored + 1)).dropLast
    rw [hline, bytes_succ_byte hr, List.dropLast_concat]
    exact h.noNewline
  · show (((l.memory.set l.stored 10).set (l.stored + 1) 0).take (l.stored + 1)).length ≤ maxSizeLine - 1
    rw [List.length_take]
    omega
  · show (((l.memory.set l.stored 10).set (l.stored + 1) 0).take (l.stored + 1)).getLast? = some 10
    rw [hline, bytes_succ_byte hr, List.getLast?_concat]
  · show l.stored + 1 < maxSizeLine
    omega
  · show ((l.memory.set l.stored 10).set (l.stored + 1) 0)[l.stored + 1]? = some 0
    exact List.getElem?_set_self (by rw [List.length_set]; exact hroom)

theorem reports_of_settled (hmem : maxSizeLine ≤ memory.length) (hmax : 2 ≤ maxSizeLine) (errno : ℕ)
    (h : s.Settled maxSizeLine) : Reports s memory maxSizeLine errno := by
  obtain ⟨n, hq, hlt, hr⟩ := h
  have h := readlineInv_of_quiet hmem hmax errno hq hlt
  rcases hr with hr | ⟨err, herr, hr⟩
  · obtain ⟨hret, hline⟩ := h.newline hmem hr
    refine ⟨n + 1, _, by rw [Schedule.run, hr]; exact hret, fun _ l hl => ?_⟩
    rw [Schedule.run, hr] at hl
    exact hline l hl
  · refine ⟨n + 1, -1, ?_, fun hne => absurd rfl hne⟩
    rw [Schedule.run, hr, step_fail h.returned herr]

theorem reports_of_eof (hmax : 2 ≤ maxSizeLine) (hr : s.read 0 = .eof) (herr : errno ≠ eintr)
    (hnul : memory[0]? = some 0) : Reports s memory maxSizeLine errno := by
  have hrun : s.run (Readline.start memory maxSizeLine errno) 1 =
      { maxSizeLine := maxSizeLine, noBytes := 1, memory := memory, stored := 0, errno := errno
        returned := some 0 } := by
    rw [Schedule.run, Schedule.run, hr, start_eq memory hmax, step_eof rfl herr]
    rfl
  refine ⟨1, 0, by rw [hrun], fun _ l hl => ?_⟩
  rw [hrun] at hl
  subst hl
  exact ⟨rfl, ⟨0, rfl, by simp, by simp, Or.inr (Or.inr hr)⟩, Nat.zero_lt_of_lt hmax, hnul⟩

/-- In every other case it does not return, or returns one more than it has stored, or has written no NUL. -/
theorem settled_of_reports (hmem : maxSizeLine ≤ memory.length) (hmax : 2 ≤ maxSizeLine)
    (hrep : Reports s memory maxSizeLine errno) :
    s.Settled maxSizeLine ∨ s.read 0 = .eof ∧ errno ≠ eintr ∧ memory[0]? = some 0 := by
  obtain ⟨n, v, hv, hgood⟩ := hrep
  rcases run_cases s hmem hmax errno n with h | ⟨k, l, w, h, ⟨hw, hstop⟩, rfl, hrun⟩
  · rw [h.returned] at hv
    cases hv
  rw [hrun] at hv hgood
  obtain rfl : w = v := Option.some.inj (hw.symm.trans hv)
  have hlen : (s.bytes k).length + 1 < maxSizeLine := by
    rw [← h.stored, ← h.count]
    exact h.lt
  rcases hstop with hr | ⟨err, herr, hr⟩ | ⟨hr, herr, hzero, hstep⟩ | hlarge
  · exact Or.inl ⟨k, h.quiet (by simp [hr]), hlen, Or.inl hr⟩
  · exact Or.inl ⟨k, h.quiet (by simp [hr]), hlen, Or.inr ⟨err, herr, hr⟩⟩
  · obtain rfl := h.eq_zero herr hzero
    rw [Schedule.run, start_eq memory hmax] at herr hstep hgood hv
    obtain rfl : 0 = w := by
      rw [hstep] at hv
      exact Option.some.inj hv
    obtain ⟨-, -, -, hnul⟩ := hgood (by decide) _ hstep
    exact Or.inr ⟨hr, herr, hnul⟩
  · obtain ⟨hsame, -⟩ := hgood (by omega) _ rfl
    omega

end Readline

/-- **When `readline` reports what it stored**: a newline or an error comes in time, or the stream is at its end,
`errno` is not `EINTR` and the memory already begins with a NUL. -/
theorem reports_iff (s : Schedule) (memory : Bytes) (maxSizeLine errno : ℕ) (hmax : 2 ≤ maxSizeLine)
    (hmem : maxSizeLine ≤ memory.length) :
    Reports s memory maxSizeLine errno ↔
      s.Settled maxSizeLine ∨ s.read 0 = .eof ∧ errno ≠ eintr ∧ memory[0]? = some 0 := by
  refine ⟨settled_of_reports hmem hmax, ?_⟩
  rintro (hs | ⟨hr, herr, hnul⟩)
  · exact reports_of_settled hmem hmax errno hs
  · exact reports_of_eof hmax hr herr hnul

def lineSchedule : Schedule where
  read
    | 0 => .byte 97
    | 1 => .fail eintr
    | 2 => .byte 98
    | 3 => .byte 10
    | _ => .eof
  ended
    | 0, h | 1, h | 2, h | 3, h => by cases h
    | _ + 4, _ => rfl

theorem reports_line : Reports lineSchedule (zeros 50) 50 0 := by
  refine (reports_iff lineSchedule (zeros 50) 50 0 (by decide) (by decide)).2 (Or.inl ⟨3, ?_, by decide, Or.inl rfl⟩)
  intro i hi
  match i, hi with
  | 0, _ => exact Or.inr ⟨97, by decide, rfl⟩
  | 1, _ => exact Or.inl rfl
  | 2, _ => exact Or.inr ⟨98, by decide, rfl⟩

def lastByte : Schedule where
  read
    | 0 => .byte 97
    | _ => .eof
  ended
    | 0, h => by cases h
    | _ + 1, _ => rfl

/-- The byte is stored, and 2 is returned. -/
theorem not_reports_lastByte : ¬ Reports lastByte (zeros 50) 50 0 := by
  have hrun : ∀ n, (lastByte.run (Readline.start (zeros 50) 50 0) n).returned = none ∨
      lastByte.run (Readline.start (zeros 50) 50 0) n = lastByte.run (Readline.start (zeros 50) 50 0) 2 := by
    intro n
    match n with
    | 0 | 1 => exact Or.inl rfl
    | n + 2 =>
      right
      induction n with
      | zero => rfl
      | succ n ih =>
        rw [show n + 1 + 2 = n + 2 + 1 from rfl, Schedule.run, ih]
        rfl
  rintro ⟨n, v, hv, hgood⟩
  rcases hrun n with hnone | htwo
  · rw [hnone] at hv
    cases hv
  · rw [htwo] at hv hgood
    cases hv
    obtain ⟨hsame, -⟩ := hgood (by decide) _ rfl
    exact absurd hsame (by decide)

end TamuProofs.Echo
