import TamuProofs.Lib.Text
import TamuProofs.Sbcp.Wire

/-!
The main loop of `client.c`, turn by turn. In each turn the client looks at its clock, waits in `select`, and
then reads a line of its standard input if that is ready, else a packet if the socket is.

The end of the input is looked for only after `fgets` has read something. `fgets` sees it while it reads a line
that lacks its newline; behind a newline it returns nothing, and the loop goes round.

* `fgets` — a line, what stands behind it, and `feof`;
* `Client.turn`, `Client.run` — the loop, over any readiness of the two descriptors;
* `run_spec` — what any number of turns have sent, and when they have left the loop;
* **`stops_iff`**: the client stops at the end of its input exactly when the input ends inside a line, or its
  standard input is not reported ready often enough for the client to get to its end.
-/

namespace TamuProofs.Sbcp

open TamuProofs.Lib

/-! ### Reading a line -/

/-- The bytes that `fgets` takes, at most `n`, what is left, and whether it came to the end of the input. -/
def fgetsLoop : ℕ → Bytes → Bytes × Bytes × Bool
  | 0, stdin => ([], stdin, false)
  | _ + 1, [] => ([], [], true)
  | n + 1, c :: stdin =>
    if c = 10 then ([c], stdin, false)
    else
      match fgetsLoop n stdin with
      | (line, rest, eof) => (c :: line, rest, eof)

/-- `fgets(s, n, stdin)`: `none` is `NULL`, for no byte read. Else the bytes, what is left and `feof(stdin)`. -/
def fgets (n : ℕ) (stdin : Bytes) : Option (Bytes × Bytes × Bool) :=
  match fgetsLoop (n - 1) stdin with
  | ([], _, _) => none
  | (c :: line, rest, eof) => some (c :: line, rest, eof)

def maxchar : ℕ := 512

/-! ### The loop -/

/-- A message from the client to the server. -/
inductive ClientOut
  | send (message : Bytes)
  | idle
  deriving DecidableEq

/-- The variables of the loop, what standard input still holds, the messages sent and the lines displayed.
`closed` is set by the exit of the loop, behind which the socket is closed. -/
structure Client where
  stdin : Bytes
  lastSend : ℤ
  flag : Bool
  out : List ClientOut
  shown : List Line
  closed : Bool

/-- What one turn finds: the time at its start and after a line was sent, what `select` reports, and what
`recv` gives. -/
structure Turn where
  now : ℤ
  later : ℤ
  stdinReady : Bool
  sockReady : Bool
  recvBytes : ℤ
  packet : Message

namespace Client

/-- An `IDLE` message when nothing was sent for `IDLE_INTERVAL` seconds, once. -/
def idleCheck (s : Client) (now : ℤ) : Client :=
  if s.flag ∧ 10 ≤ now - s.lastSend then { s with out := s.out ++ [.idle], flag := false } else s

/-- Activity on standard input. -/
def readStdin (s : Client) (later : ℤ) : Client :=
  match fgets (maxchar - 1) s.stdin with
  | none => s
  | some (input, rest, eof) =>
    if eof then { s with stdin := rest, closed := true }
    else
      -- `feof` is asked again after the message, of an input that was not read in between
      { s with stdin := rest, out := s.out ++ [.send input], lastSend := later, flag := true, closed := eof }

def readSocket (s : Client) (recvBytes : ℤ) (packet : Message) : Client :=
  if recvBytes ≤ 0 then { s with closed := true }
  else
    match clientShow recvBytes packet with
    | none => s
    | some (.nak reason) => { s with shown := s.shown ++ [.nak reason], closed := true }
    | some line => { s with shown := s.shown ++ [line] }

/-- One turn of the loop, as long as it has not been left. -/
def turn (s : Client) (t : Turn) : Client :=
  if s.closed then s
  else if t.stdinReady then (s.idleCheck t.now).readStdin t.later
  else if t.sockReady then (s.idleCheck t.now).readSocket t.recvBytes t.packet
  else s.idleCheck t.now

def run (s : Client) (turns : List Turn) : Client := turns.foldl turn s

/-- The client at its first turn, after `JOIN`. -/
def start (stdin : Bytes) (now : ℤ) : Client :=
  { stdin := stdin, lastSend := now, flag := true, out := [], shown := [], closed := false }

def sends (s : Client) : List Bytes :=
  s.out.filterMap fun o => match o with
    | .send message => some message
    | .idle => none

@[simp] theorem run_nil (s : Client) : s.run [] = s := rfl

@[simp] theorem run_cons (s : Client) (t : Turn) (ts : List Turn) : s.run (t :: ts) = (s.turn t).run ts := rfl

end Client

/-! ### What should hold -/

/-- The lines of the input that have their newline. -/
def completeLines (stdin : Bytes) : List Bytes := (lines stdin).filter fun line => line.getLast? = some 10

/-- The input ends in the middle of a line. -/
def EndsInside (stdin : Bytes) : Prop := ∃ c, stdin.getLast? = some c ∧ c ≠ 10

/-- Every line has fewer than 510 characters before its newline. -/
def Short (stdin : Bytes) : Prop := ∀ line ∈ lines stdin, (line.takeWhile (· ≠ 10)).length < 510

/-- In a turn that reads the socket the server has not closed the connection and has not sent `NAK`. -/
def Turn.Quiet (t : Turn) : Prop :=
  t.stdinReady = false → t.sockReady = true →
    0 < t.recvBytes ∧ ∀ reason, clientShow t.recvBytes t.packet ≠ some (.nak reason)

/-- How often standard input was reported ready. -/
def readyTurns (turns : List Turn) : ℕ := turns.countP Turn.stdinReady

/-- **The client stops at the end of its input**: so far it has sent complete lines, in order; and once standard
input was reported ready more often than it has complete lines, it has sent them all and closed the socket. -/
def Stops (stdin : Bytes) (now : ℤ) (turns : List Turn) : Prop :=
  ((Client.start stdin now).run turns).sends <+: completeLines stdin ∧
    ((completeLines stdin).length < readyTurns turns →
      ((Client.start stdin now).run turns).sends = completeLines stdin ∧
        ((Client.start stdin now).run turns).closed = true)

/-! ### Lines -/

theorem exists_line (stdin : Bytes) : 10 ∉ stdin ∨ ∃ a rest, stdin = a ++ 10 :: rest ∧ 10 ∉ a := by
  by_cases h : 10 ∈ stdin
  · obtain ⟨a, rest, heq, ha⟩ := List.eq_append_cons_of_mem h
    exact .inr ⟨a, rest, heq, ha⟩
  · exact .inl h

section Lines

variable {a : Bytes}

theorem lines_line (ha : 10 ∉ a) (rest : Bytes) : lines (a ++ 10 :: rest) = (a ++ [10]) :: lines rest := by
  induction a with
  | nil => simp [lines]
  | cons c a ih =>
    obtain ⟨hc, ha⟩ := not_or.1 (mt List.mem_cons.2 ha)
    simp [lines, ih ha, Ne.symm hc]

theorem lines_last (ha : 10 ∉ a) (hne : a ≠ []) : lines a = [a] := by
  induction a with
  | nil => exact absurd rfl hne
  | cons c a ih =>
    obtain ⟨hc, ha⟩ := not_or.1 (mt List.mem_cons.2 ha)
    cases a with
    | nil => simp [lines, Ne.symm hc]
    | cons d a =>
      rw [lines, if_neg (Ne.symm hc), ih ha (List.cons_ne_nil d a)]

theorem completeLines_line (ha : 10 ∉ a) (rest : Bytes) :
    completeLines (a ++ 10 :: rest) = (a ++ [10]) :: completeLines rest := by
  simp [completeLines, lines_line ha]

theorem completeLines_last (ha : 10 ∉ a) : completeLines a = [] := by
  cases a with
  | nil => rfl
  | cons c a =>
    rw [completeLines, lines_last ha (List.cons_ne_nil c a), List.filter_cons_of_neg, List.filter_nil]
    intro hlast
    exact ha (List.mem_of_getLast? (by simpa using hlast))

theorem endsInside_line (rest : Bytes) : EndsInside (a ++ 10 :: rest) ↔ EndsInside rest := by
  unfold EndsInside
  cases rest with
  | nil => simp
  | cons c rest => simp [List.getLast?_append, List.getLast?_cons]

theorem endsInside_last (ha : 10 ∉ a) : EndsInside a ↔ a ≠ [] := by
  constructor
  · rintro ⟨c, hc, -⟩ rfl
    cases hc
  · intro hne
    refine ⟨a.getLast hne, List.getLast?_eq_some_getLast hne, fun h => ha ?_⟩
    rw [← h]
    exact List.getLast_mem hne

theorem short_line (ha : 10 ∉ a) {rest : Bytes} (h : Short (a ++ 10 :: rest)) : a.length < 510 ∧ Short rest := by
  unfold Short at h
  rw [lines_line ha, List.forall_mem_cons] at h
  refine ⟨?_, h.2⟩
  have htake : (a ++ [10]).takeWhile (· ≠ 10) = a := by
    rw [List.takeWhile_append_of_pos]
    · simp
    · intro c hc
      have hne : c ≠ 10 := fun h10 => ha (h10 ▸ hc)
      simpa using hne
  rw [← htake]
  exact h.1

theorem short_last (ha : 10 ∉ a) (h : Short a) : a.length < 510 := by
  cases a with
  | nil => simp
  | cons c a =>
    unfold Short at h
    rw [lines_last ha (List.cons_ne_nil c a), List.forall_mem_singleton] at h
    rwa [List.takeWhile_eq_self_iff.2] at h
    intro d hd
    have hne : d ≠ 10 := fun h10 => ha (h10 ▸ hd)
    simpa using hne

/-! ### What `fgets` reads -/

theorem fgetsLoop_line (ha : 10 ∉ a) (rest : Bytes) : ∀ {n : ℕ}, a.length < n →
    fgetsLoop n (a ++ 10 :: rest) = (a ++ [10], rest, false) := by
  induction a with
  | nil =>
    intro n hn
    obtain ⟨m, rfl⟩ := Nat.exists_eq_succ_of_ne_zero (Nat.ne_of_gt hn)
    simp [fgetsLoop]
  | cons c a ih =>
    intro n hn
    obtain ⟨hc, ha⟩ := not_or.1 (mt List.mem_cons.2 ha)
    obtain ⟨m, rfl⟩ := Nat.exists_eq_succ_of_ne_zero (Nat.ne_of_gt (Nat.zero_lt_of_lt hn))
    simp [fgetsLoop, Ne.symm hc, ih ha (Nat.lt_of_succ_lt_succ hn)]

theorem fgetsLoop_last (ha : 10 ∉ a) : ∀ {n : ℕ}, a.length < n → fgetsLoop n a = (a, [], true) := by
  induction a with
  | nil =>
    intro n hn
    obtain ⟨m, rfl⟩ := Nat.exists_eq_succ_of_ne_zero (Nat.ne_of_gt hn)
    rfl
  | cons c a ih =>
    intro n hn
    obtain ⟨hc, ha⟩ := not_or.1 (mt List.mem_cons.2 ha)
    obtain ⟨m, rfl⟩ := Nat.exists_eq_succ_of_ne_zero (Nat.ne_of_gt (Nat.zero_lt_of_lt hn))
    simp [fgetsLoop, Ne.symm hc, ih ha (Nat.lt_of_succ_lt_succ hn)]

/-- A complete line is read with its newline, and the end of the input is not seen. -/
theorem fgets_line (ha : 10 ∉ a) (hlen : a.length < 510) (rest : Bytes) :
    fgets (maxchar - 1) (a ++ 10 :: rest) = some (a ++ [10], rest, false) := by
  rw [fgets, fgetsLoop_line ha rest (show a.length < maxchar - 1 - 1 from hlen)]
  cases a <;> rfl

/-- A line without its newline is read up to the end of the input. -/
theorem fgets_last (ha : 10 ∉ a) (hlen : a.length < 510) (hne : a ≠ []) :
    fgets (maxchar - 1) a = some (a, [], true) := by
  rw [fgets, fgetsLoop_last ha (show a.length < maxchar - 1 - 1 from hlen)]
  cases a with
  | nil => exact absurd rfl hne
  | cons c a => rfl

end Lines

/-! ### Turns -/

namespace Client

variable {s : Client} {t : Turn}

theorem idleCheck_spec (s : Client) (now : ℤ) :
    (s.idleCheck now).stdin = s.stdin ∧ (s.idleCheck now).sends = s.sends ∧ (s.idleCheck now).closed = s.closed := by
  unfold idleCheck
  split
  · simp [sends]
  · exact ⟨rfl, rfl, rfl⟩

theorem readSocket_spec {recvBytes : ℤ} {packet : Message} (hpos : 0 < recvBytes)
    (hnak : ∀ reason, clientShow recvBytes packet ≠ some (.nak reason)) :
    (s.readSocket recvBytes packet).stdin = s.stdin ∧ (s.readSocket recvBytes packet).sends = s.sends ∧
      (s.readSocket recvBytes packet).closed = s.closed := by
  unfold readSocket
  rw [if_neg (not_le.2 hpos)]
  split
  · exact ⟨rfl, rfl, rfl⟩
  · rename_i reason h
    exact absurd h (hnak reason)
  · exact ⟨rfl, rfl, rfl⟩

theorem turn_other (hopen : s.closed = false) (ht : t.stdinReady = false) (hquiet : t.Quiet) :
    (s.turn t).stdin = s.stdin ∧ (s.turn t).sends = s.sends ∧ (s.turn t).closed = false := by
  obtain ⟨hin, hout, hclosed⟩ := s.idleCheck_spec t.now
  unfold turn
  rw [if_neg (by simp [hopen]), if_neg (by simp [ht])]
  by_cases hsock : t.sockReady = true
  · obtain ⟨hpos, hnak⟩ := hquiet ht hsock
    obtain ⟨hin', hout', hclosed'⟩ := readSocket_spec (s := s.idleCheck t.now) hpos hnak
    rw [if_pos hsock]
    exact ⟨hin'.trans hin, hout'.trans hout, hclosed'.trans (hclosed.trans hopen)⟩
  · rw [if_neg hsock]
    exact ⟨hin, hout, hclosed.trans hopen⟩

theorem turn_stdin (hopen : s.closed = false) (ht : t.stdinReady = true) :
    s.turn t = (s.idleCheck t.now).readStdin t.later := by
  unfold turn
  rw [if_neg (by simp [hopen]), if_pos ht]

theorem turn_line (hopen : s.closed = false) (ht : t.stdinReady = true) {a rest : Bytes} (ha : 10 ∉ a)
    (hlen : a.length < 510) (hin : s.stdin = a ++ 10 :: rest) :
    (s.turn t).stdin = rest ∧ (s.turn t).sends = s.sends ++ [a ++ [10]] ∧ (s.turn t).closed = false := by
  obtain ⟨hin', hout, -⟩ := s.idleCheck_spec t.now
  rw [turn_stdin hopen ht, readStdin, hin', hin, fgets_line ha hlen]
  refine ⟨rfl, ?_, rfl⟩
  rw [← hout]
  simp [sends]

theorem turn_last (hopen : s.closed = false) (ht : t.stdinReady = true) (ha : 10 ∉ s.stdin)
    (hlen : s.stdin.length < 510) (hne : s.stdin ≠ []) :
    (s.turn t).sends = s.sends ∧ (s.turn t).closed = true := by
  obtain ⟨hin, hout, -⟩ := s.idleCheck_spec t.now
  rw [turn_stdin hopen ht, readStdin, hin, fgets_last ha hlen hne]
  exact ⟨hout, rfl⟩

/-- A turn at the end of the input does nothing, and goes on. -/
theorem turn_nothing (hopen : s.closed = false) (ht : t.stdinReady = true) (hnil : s.stdin = []) :
    (s.turn t).stdin = [] ∧ (s.turn t).sends = s.sends ∧ (s.turn t).closed = false := by
  obtain ⟨hin, hout, hclosed⟩ := s.idleCheck_spec t.now
  have hnull : fgets (maxchar - 1) [] = none := rfl
  rw [turn_stdin hopen ht, readStdin, hin, hnil, hnull]
  exact ⟨hin.trans hnil, hout, hclosed.trans hopen⟩

theorem run_closed (h : s.closed = true) (turns : List Turn) : s.run turns = s := by
  induction turns with
  | nil => rfl
  | cons t ts ih =>
    have hturn : s.turn t = s := if_pos h
    rw [run_cons, hturn, ih]

/-- **Any number of turns**: each that finds standard input ready has sent the next complete line, if there was
one, and the loop has been left by one that found a line without its newline. -/
theorem run_spec (turns : List Turn) {s : Client} (hopen : s.closed = false) (hshort : Short s.stdin)
    (hquiet : ∀ t ∈ turns, t.Quiet) :
    (s.run turns).sends = s.sends ++ (completeLines s.stdin).take (readyTurns turns) ∧
      ((s.run turns).closed = true ↔
        EndsInside s.stdin ∧ (completeLines s.stdin).length < readyTurns turns) := by
  induction turns generalizing s with
  | nil => simp [readyTurns, hopen]
  | cons t ts ih =>
    obtain ⟨ht, hts⟩ := List.forall_mem_cons.1 hquiet
    rw [run_cons]
    cases hready : t.stdinReady with
    | false =>
      obtain ⟨hin, hout, hclosed⟩ := turn_other hopen hready ht
      have hcount : readyTurns (t :: ts) = readyTurns ts := List.countP_cons_of_neg (by simp [hready])
      obtain ⟨hsends, hclose⟩ := ih hclosed (hin ▸ hshort) hts
      rw [hcount, hsends, hclose, hin, hout]
      exact ⟨rfl, Iff.rfl⟩
    | true =>
      have hcount : readyTurns (t :: ts) = readyTurns ts + 1 := List.countP_cons_of_pos hready
      rw [hcount]
      rcases exists_line s.stdin with hlast | ⟨a, rest, hin, ha⟩
      · -- the input ends inside a line
        by_cases hnil : s.stdin = []
        · obtain ⟨hin, hout, hclosed⟩ := turn_nothing hopen hready hnil
          obtain ⟨hsends, hclose⟩ := ih hclosed (by rw [hin, ← hnil]; exact hshort) hts
          rw [hsends, hclose, hin, hout, hnil]
          simp [EndsInside, completeLines_last]
        · obtain ⟨hout, hclosed⟩ := turn_last hopen hready hlast (short_last hlast hshort) hnil
          rw [run_closed hclosed, hout, completeLines_last hlast]
          simp [hclosed, endsInside_last hlast, hnil]
      · -- a complete line
        obtain ⟨hlen, hrest⟩ := short_line ha (hin ▸ hshort)
        obtain ⟨hin', hout, hclosed⟩ := turn_line hopen hready ha hlen hin
        obtain ⟨hsends, hclose⟩ := ih hclosed (hin'.symm ▸ hrest) hts
        rw [hsends, hclose, hin', hout, hin, completeLines_line ha, endsInside_line]
        simp

end Client

/-! ### The end of the input -/

/-- **The client stops at the end of its input** exactly when the input ends inside a line, or standard input
was not reported ready more often than the input has complete lines. -/
theorem stops_iff (stdin : Bytes) (hshort : Short stdin) (now : ℤ) (turns : List Turn)
    (hquiet : ∀ t ∈ turns, t.Quiet) :
    Stops stdin now turns ↔ EndsInside stdin ∨ readyTurns turns ≤ (completeLines stdin).length := by
  obtain ⟨hsends, hclose⟩ := Client.run_spec turns (s := Client.start stdin now) rfl hshort hquiet
  have hall : ((Client.start stdin now).run turns).sends = (completeLines stdin).take (readyTurns turns) := hsends
  unfold Stops
  rw [hclose, hall]
  constructor
  · rintro ⟨-, hstop⟩
    by_cases hlt : (completeLines stdin).length < readyTurns turns
    · exact .inl (hstop hlt).2.1
    · exact .inr (not_lt.1 hlt)
  · intro h
    refine ⟨List.take_prefix _ _, fun hlt => ⟨List.take_of_length_le hlt.le, ?_, hlt⟩⟩
    exact h.resolve_right (not_le.2 hlt)

/-! ### Two inputs -/

def Turn.ready : Turn where
  now := 0
  later := 0
  stdinReady := true
  sockReady := false
  recvBytes := 0
  packet := .blank 0

theorem Turn.quiet_ready (n : ℕ) : ∀ t ∈ List.replicate n Turn.ready, t.Quiet := by
  intro t ht
  rw [List.eq_of_mem_replicate ht]
  intro hnot
  cases hnot

theorem short_hi (last : UInt8) : Short [104, 105, 10, last] := by
  by_cases h : last = 10 <;> simp [Short, lines, h]

/-- A line and the beginning of another. -/
theorem stops_hi : Stops [104, 105, 10, 121] 0 (List.replicate 2 .ready) :=
  (stops_iff [104, 105, 10, 121] (short_hi 121) 0 (List.replicate 2 .ready) (Turn.quiet_ready 2)).2
    (.inl ⟨121, rfl, by decide⟩)

/-- Two lines: however often standard input is reported ready, the client does not leave its loop. -/
theorem not_stops_lines :
    ¬ Stops [104, 105, 10, 10] 0 (List.replicate 3 .ready) ∧
      ∀ n, ((Client.start [104, 105, 10, 10] 0).run (List.replicate n .ready)).closed = false := by
  have hopen : ∀ n, ((Client.start [104, 105, 10, 10] 0).run (List.replicate n .ready)).closed = false := by
    intro n
    obtain ⟨-, hclose⟩ :=
      Client.run_spec (List.replicate n .ready) (s := Client.start [104, 105, 10, 10] 0) rfl (short_hi 10)
        (Turn.quiet_ready n)
    rw [← Bool.not_eq_true, hclose]
    rintro ⟨⟨c, hc, hne⟩, -⟩
    exact hne (Option.some.inj hc).symm
  refine ⟨fun hstop => ?_, hopen⟩
  have hclosed := (hstop.2 (by decide)).2
  rw [hopen 3] at hclosed
  cases hclosed

end TamuProofs.Sbcp
