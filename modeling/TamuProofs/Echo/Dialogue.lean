import TamuProofs.Echo.Server
import TamuProofs.Sbcp.Client

/-!
# The echo client and its child of the server

The two ends of a connection, and the bytes on their way in each direction: the main loop of `echo.c`, with its
calls of `fgets`, `writen` and `readline`, and the loop of `Server::echo`. TCP hands over what was written in
pieces of any size; the three processes that move bytes take turns in any order.

* `Dialogue.step` — one return of a system call, at either end;
* `Talk` — the invariant: the line on its way is in the client's buffer, on the way back, or on the way to the
  server, in this order, and it is the only one;
* **`shown_prefix_typed`**: what the client shows as the echo are the lines typed, in order, with at most the last
  one still to come, as long as no call of `read` at the server returns exactly `quit\n`.
-/

namespace TamuProofs.Echo

open TamuProofs.Lib
open TamuProofs.Sbcp (fgets fgetsLoop)

/-! ### The client and the connection -/

/-- `MAXCHAR` of `echo.c`. -/
def maxChar : ℕ := 50

/-- Where the client stands: at the prompt, in `writen` with a line, in `readline`, in `writen` with the line
`quit`, or behind `close`. -/
inductive Phase
  | prompt
  | writing (w : Writen)
  | reading (l : Readline)
  | quitting (w : Writen)
  | closed

/-- The client, the child of the server, and the connection between them. `typed` are the strings that the client
has begun to send, `shown` those it has displayed behind `Echo from Server:`. -/
structure Dialogue where
  stdin : Bytes
  phase : Phase
  output : Bytes
  errno : ℕ
  typed : List Bytes
  shown : List Bytes
  toServer : Bytes
  toClient : Bytes
  child : Child

/-- One return of a system call: the client reads its standard input, writes, or reads from the socket; or the
server reads `k` bytes and writes their echo. -/
inductive Ev
  | fgets
  | write (r : WriteRet)
  | read (r : ReadRet)
  | serve (k : ℕ) (writes : List WriteRet)

namespace Dialogue

/-- `writen` goes on, or has returned and `readline` is called. -/
def afterWrite (s : Dialogue) (w : Writen) : Dialogue :=
  if w.returned.isSome then { s with phase := .reading (Readline.start s.output maxChar w.errno), errno := w.errno }
  else { s with phase := .writing w }

/-- `writen` of the line `quit` goes on, or the socket is closed. -/
def afterQuit (s : Dialogue) (w : Writen) : Dialogue :=
  if w.returned.isSome then { s with phase := .closed } else { s with phase := .quitting w }

/-- `readline` goes on, or has returned and `output` is displayed, whatever it returned. -/
def afterRead (s : Dialogue) (l : Readline) : Dialogue :=
  if l.returned.isSome then
    { s with phase := .prompt, output := l.memory, errno := l.errno, shown := s.shown ++ [cstr l.memory] }
  else { s with phase := .reading l }

/-- From the prompt to the next system call on the socket. -/
def onFgets (s : Dialogue) : Dialogue :=
  match fgets maxChar s.stdin with
  | none => s.afterQuit (Writen.start quitLine 5 s.errno)
  | some (input, rest, eof) =>
    if eof then { s with stdin := rest, phase := .closed }
    else
      { s with stdin := rest, typed := s.typed ++ [cstr input] }.afterWrite
        (Writen.start (input ++ [0]) (cstr input).length s.errno)

/-- The bytes that go into the socket. -/
def put (s : Dialogue) (w w' : Writen) : Dialogue :=
  { s with toServer := s.toServer ++ w'.sent.drop w.sent.length }

/-- `write` returns at the client. -/
def onWrite (s : Dialogue) (r : WriteRet) : Option Dialogue :=
  match s.phase with
  | .writing w => (w.step r).map fun w' => (s.put w w').afterWrite w'
  | .quitting w => (w.step r).map fun w' => (s.put w w').afterQuit w'
  | _ => none

/-- `read` returns at the client: the next byte of the connection; its end, once the child has left its loop; or a
failure. -/
def onRead (s : Dialogue) (r : ReadRet) : Option Dialogue :=
  match s.phase with
  | .reading l =>
    match r with
    | .byte ch => if s.toClient.head? = some ch then
        some ({ s with toClient := s.toClient.tail }.afterRead (l.step r)) else none
    | .eof => if s.toClient = [] ∧ s.child.status ≠ .looping then some (s.afterRead (l.step r)) else none
    | .fail _ => some (s.afterRead (l.step r))
  | _ => none

def isClosed : Phase → Bool
  | .closed => true
  | _ => false

/-- One turn of the server's child: `read` returns the next bytes, none only at the end of the stream. -/
def onServe (s : Dialogue) (k : ℕ) (writes : List WriteRet) : Option Dialogue :=
  if s.child.status = .looping ∧ k ≤ 255 ∧ k ≤ s.toServer.length ∧ (0 < k ∨ s.toServer = [] ∧ isClosed s.phase) then
    (s.child.turn { read := some (s.toServer.take k), writes := writes }).map fun c =>
      { s with
        child := c
        toServer := s.toServer.drop k
        toClient := s.toClient ++ c.sent.drop s.child.sent.length }
  else none

def step (s : Dialogue) : Ev → Option Dialogue
  | .fgets => match s.phase with
    | .prompt => some s.onFgets
    | _ => none
  | .write r => s.onWrite r
  | .read r => s.onRead r
  | .serve k writes => s.onServe k writes

def start (stdin output : Bytes) : Dialogue :=
  { stdin := stdin, phase := .prompt, output := output, errno := 0, typed := [], shown := [], toServer := []
    toClient := [], child := { errno := 0, sent := [], status := .looping } }

/-- No call of `read` at the server returns the line `quit`, and no call of `write` or `read` fails but with
`EINTR`. -/
def Smooth (s : Dialogue) : Ev → Prop
  | .fgets => True
  | .write (.count k) => 0 < k
  | .write (.fail errno) => errno = eintr
  | .read (.byte _) => True
  | .read .eof => False
  | .read (.fail errno) => errno = eintr
  | .serve k writes => cstr (s.toServer.take k) ≠ quitLine ∧
      ∀ c ∈ s.child.turn { read := some (s.toServer.take k), writes := writes }, c.status ≠ .exited

instance : ∀ (s : Dialogue) (e : Ev), Decidable (s.Smooth e)
  | _, .fgets => .isTrue trivial
  | _, .write (.count k) => inferInstanceAs (Decidable (0 < k))
  | _, .write (.fail errno) => inferInstanceAs (Decidable (errno = eintr))
  | _, .read (.byte _) => .isTrue trivial
  | _, .read .eof => .isFalse id
  | _, .read (.fail errno) => inferInstanceAs (Decidable (errno = eintr))
  | s, .serve k writes => inferInstanceAs (Decidable (cstr (s.toServer.take k) ≠ quitLine ∧
      ∀ c ∈ s.child.turn { read := some (s.toServer.take k), writes := writes }, c.status ≠ .exited))

/-! ### One line -/

/-- A line as `fgets` gives it: no newline but at its end, and it ends with one unless it fills the buffer. -/
structure Piece (p : Bytes) : Prop where
  inner : 10 ∉ p.dropLast
  le : p.length ≤ 49
  ended : p.getLast? = some 10 ∨ p.length = 49
  noNul : 0 ∉ p
  ne_nil : p ≠ []

theorem fgetsLoop_spec : ∀ (n : ℕ) (stdin : Bytes) {line rest : Bytes} {eof : Bool},
    fgetsLoop n stdin = (line, rest, eof) → line ++ rest = stdin ∧ line.length ≤ n ∧ 10 ∉ line.dropLast ∧
      (eof = false → line.getLast? = some 10 ∨ line.length = n) := by
  intro n
  induction n with
  | zero =>
    intro stdin line rest eof h
    cases h
    simp
  | succ n ih =>
    intro stdin line rest eof h
    cases stdin with
    | nil =>
      cases h
      simp
    | cons c stdin =>
      rw [fgetsLoop] at h
      split at h
      · rename_i hc
        cases h
        simp [hc]
      · -- a byte that is no newline: the rest of the line comes from the rest of the input
        rename_i hc
        rcases hl : fgetsLoop n stdin with ⟨line', rest', eof'⟩
        rw [hl] at h
        cases h
        obtain ⟨h1, h2, h3, h4⟩ := ih stdin hl
        refine ⟨by rw [List.cons_append, h1], by simpa using h2, ?_, fun he => ?_⟩
        · cases line' with
          | nil => simp
          | cons d line' =>
            rw [List.dropLast_cons_cons, List.mem_cons, not_or]
            exact ⟨Ne.symm hc, h3⟩
        · rcases h4 he with hlast | hlen
          · cases line' with
            | nil => cases hlast
            | cons d line' => exact .inl (by rw [List.getLast?_cons_cons]; exact hlast)
          · exact .inr (by rw [List.length_cons, hlen])

theorem fgets_spec {stdin input rest : Bytes} {eof : Bool} (hnul : 0 ∉ stdin)
    (h : fgets maxChar stdin = some (input, rest, eof)) :
    input ++ rest = stdin ∧ (eof = false → Piece input) := by
  unfold fgets at h
  rcases hl : fgetsLoop (maxChar - 1) stdin with ⟨line, rest', eof'⟩
  rw [hl] at h
  cases line with
  | nil => cases h
  | cons c line =>
    cases h
    obtain ⟨h1, h2, h3, h4⟩ := fgetsLoop_spec _ _ hl
    refine ⟨h1, fun he => ⟨h3, h2, h4 he, fun h0 => hnul ?_, by simp⟩⟩
    rw [← h1]
    exact List.mem_append_left _ h0

/-! ### The invariant -/

/-- `readline` in the middle of a line, in a buffer of `MAXCHAR + 1` bytes. -/
structure Within (l : Readline) : Prop where
  limit : l.maxSizeLine = maxChar
  count : l.noBytes = l.stored + 1
  lt : l.noBytes < maxChar
  size : l.memory.length = maxChar + 1
  noNewline : 10 ∉ l.memory.take l.stored
  returned : l.returned = none

/-- Where the conversation stands. While a line has been typed and not shown, it is made up of what `readline` has
stored, what is on its way back, what is on its way to the server, and what `writen` has still to write. -/
inductive Exchange (all : Bytes) (s : Dialogue) : Prop
  | prompt (hp : s.phase = .prompt) (hall : s.typed.flatten ++ s.stdin = all) (hs : s.toServer = [])
      (hc : s.toClient = []) (hshown : s.shown = s.typed) (hout : s.output.length = maxChar + 1)
  | writing (w : Writen) (piece : Bytes) (hp : s.phase = .writing w) (hall : s.typed.flatten ++ s.stdin = all)
      (hpiece : Piece piece) (htyped : s.typed = s.shown ++ [piece])
      (hw : WritenInv (piece ++ [0]) piece.length w) (hret : w.returned = none)
      (hfly : s.toClient ++ s.toServer = w.sent) (hout : s.output.length = maxChar + 1)
  | reading (l : Readline) (piece : Bytes) (hp : s.phase = .reading l) (hall : s.typed.flatten ++ s.stdin = all)
      (hpiece : Piece piece) (htyped : s.typed = s.shown ++ [piece]) (hl : Within l)
      (hfly : l.memory.take l.stored ++ (s.toClient ++ s.toServer) = piece)
  | quitting (w : Writen) (hp : s.phase = .quitting w) (hall : s.typed.flatten <+: all) (hshown : s.shown = s.typed)
  | closed (hp : s.phase = .closed) (hall : s.typed.flatten <+: all) (hshown : s.shown = s.typed)

structure Talk (all : Bytes) (s : Dialogue) : Prop where
  looping : s.child.status = .looping
  exchange : Exchange all s

section Steps

variable {all : Bytes} {s s' : Dialogue}

theorem cstr_of_take {memory p : Bytes} {n : ℕ} (htake : memory.take n = p) (hnul : memory[n]? = some 0)
    (hp : 0 ∉ p) : cstr memory = p := by
  have hdrop : memory.drop n = 0 :: memory.drop (n + 1) := by
    obtain ⟨hlt, h0⟩ := List.getElem?_eq_some_iff.1 hnul
    rw [List.drop_eq_getElem_cons hlt, h0]
  rw [← List.take_append_drop n memory, htake, hdrop]
  exact cstr_append_nul hp _

theorem sent_prefix {w w' : Writen} {r : WriteRet} (h : w.step r = some w') : w.sent <+: w'.sent := by
  have hhead : ∀ v : Writen, v.head.sent = v.sent := by
    intro v
    unfold Writen.head
    split <;> rfl
  have hretry : ∀ v : Writen, v.retry.sent = v.sent := by
    intro v
    unfold Writen.retry
    split
    · exact hhead v
    · rfl
  -- only a positive count adds to what was sent
  unfold Writen.step at h
  split at h
  · cases h
    exact List.prefix_refl _
  cases r with
  | fail errno =>
    cases h
    exact (hretry _).symm ▸ List.prefix_refl _
  | count k =>
    dsimp only at h
    split at h
    · cases h
      exact (hretry _).symm ▸ List.prefix_refl _
    split at h
    · cases h
      rw [hhead]
      exact List.prefix_append _ _
    · cases h

/-- A call of `write` that does not fail is the last one only if all is written. -/
theorem returned_of_smooth {buffer : Bytes} {n : ℕ} {w w' : Writen} {r : WriteRet} (hw : WritenInv buffer n w)
    (hret : w.returned = none) (hr : s.Smooth (.write r)) (h : w.step r = some w') (hret' : w'.returned ≠ none) :
    w'.sent = buffer.take n := by
  have hinv := hw.step h
  obtain ⟨v, hv⟩ := Option.ne_none_iff_exists'.1 hret'
  rcases hinv.returned v hv with ⟨-, hall⟩ | ⟨rfl, hpart⟩
  · rw [hinv.sent, hall]
  · -- the other way to return is a failure, and neither a count nor `EINTR` is one
    exfalso
    have hrun := hw.running hret
    have htotal := hw.total
    unfold Writen.step at h
    rw [if_neg (by simp [hret])] at h
    cases r with
    | count k =>
      have hk : 0 < k := hr
      dsimp only at h
      rw [if_neg (by omega)] at h
      split at h
      · cases h
        unfold Writen.head at hv
        split at hv
        · have hnone : w.returned = some (-1) := hv
          rw [hret] at hnone
          cases hnone
        · have hneg := Option.some.inj hv
          omega
      · cases h
    | fail errno =>
      obtain rfl : errno = eintr := hr
      cases h
      have hhead : ({ w with errno := eintr } : Writen).retry = { w with errno := eintr } := by
        unfold Writen.retry
        rw [if_pos rfl, Writen.head, if_pos (show w.noBytes < w.nbytes from htotal ▸ hrun)]
      rw [hhead] at hv
      have hnone : w.returned = some (-1) := hv
      rw [hret] at hnone
      cases hnone

theorem serve_spec {k : ℕ} {writes : List WriteRet} (h : s.onServe k writes = some s')
    (hq : s.Smooth (.serve k writes)) :
    ∃ c, s' = { s with
        child := c, toServer := s.toServer.drop k, toClient := s.toClient ++ cstr (s.toServer.take k) } ∧
      c.status = .looping := by
  unfold onServe at h
  split at h
  · rename_i hc
    obtain ⟨c, hturn, rfl⟩ := Option.map_eq_some_iff.1 h
    obtain ⟨hquit, hexit⟩ := hq
    rcases turn_spec hc.1 hturn (hexit c hturn) with ⟨hq', -⟩ | ⟨-, hloop, hsent⟩
    · exact absurd hq' hquit
    · refine ⟨c, ?_, hloop⟩
      rw [hsent, List.drop_left]
  · cases h

theorem talk_serve (h : Talk all s) {k : ℕ} {writes : List WriteRet} (hs : s.onServe k writes = some s')
    (hq : s.Smooth (.serve k writes)) : Talk all s' := by
  obtain ⟨c, rfl, hloop⟩ := serve_spec hs hq
  refine ⟨hloop, ?_⟩
  -- what the server reads goes to the other side, as long as it holds no NUL
  have hmove : 0 ∉ s.toServer →
      s.toClient ++ cstr (s.toServer.take k) ++ s.toServer.drop k = s.toClient ++ s.toServer := by
    intro h0
    have hself : cstr (s.toServer.take k) = s.toServer.take k :=
      cstr_eq_self_iff.2 fun hm => h0 (List.mem_of_mem_take hm)
    rw [hself, List.append_assoc, List.take_append_drop]
  cases h.exchange with
  | prompt hp hall hts hc hshown hout =>
    exact .prompt hp hall (by simp [hts]) (by simp [hts, hc]) hshown hout
  | writing w piece hp hall hpiece htyped hw hret hfly hout =>
    refine .writing w piece hp hall hpiece htyped hw hret ((hmove fun h0 => ?_).trans hfly) hout
    have hmem : (0 : UInt8) ∈ w.sent := hfly ▸ List.mem_append_right _ h0
    rw [hw.sent, List.take_append_of_le_length hw.le] at hmem
    exact hpiece.noNul (List.mem_of_mem_take hmem)
  | reading l piece hp hall hpiece htyped hl hfly =>
    refine .reading l piece hp hall hpiece htyped hl ?_
    show _ ++ (s.toClient ++ cstr (s.toServer.take k) ++ s.toServer.drop k) = piece
    rw [hmove fun h0 => hpiece.noNul (hfly ▸ List.mem_append_right _ (List.mem_append_right _ h0))]
    exact hfly
  | quitting w hp hall hshown => exact .quitting w hp hall hshown
  | closed hp hall hshown => exact .closed hp hall hshown

theorem talk_fgets (hnul : 0 ∉ all) (h : Talk all s) (hp : s.phase = .prompt) : Talk all s.onFgets := by
  cases h.exchange with
  | prompt _ hall hts hc hshown hout =>
    have hpre : s.typed.flatten <+: all := ⟨s.stdin, hall⟩
    have h0 : 0 ∉ s.stdin := fun hm => hnul (hall ▸ List.mem_append_right _ hm)
    cases hf : fgets maxChar s.stdin with
    | none =>
      have hstep : s.onFgets = s.afterQuit (Writen.start quitLine 5 s.errno) := by simp only [onFgets, hf]
      rw [hstep]
      exact ⟨h.looping, .quitting _ rfl hpre hshown⟩
    | some t =>
      obtain ⟨input, rest, eof⟩ := t
      obtain ⟨hsplit, hpiece⟩ := fgets_spec h0 hf
      cases eof with
      | true =>
        have hstep : s.onFgets = { s with stdin := rest, phase := .closed } := by simp only [onFgets, hf, if_true]
        rw [hstep]
        exact ⟨h.looping, .closed rfl hpre hshown⟩
      | false => -- a line: `writen` begins with it, and nothing is on its way yet
        have hpiece := hpiece rfl
        have hself : cstr input = input := cstr_eq_self_iff.2 hpiece.noNul
        have hstart : Writen.start (input ++ [0]) input.length s.errno =
            { nbytes := input.length, noBytes := 0, buf := input ++ [0], errno := s.errno, sent := []
              returned := none } := if_pos (List.length_pos_iff.2 hpiece.ne_nil)
        have hinv := writenInv_start (input ++ [0]) input.length s.errno
        rw [hstart] at hinv
        have hstep : s.onFgets = { s with
            stdin := rest
            typed := s.typed ++ [input]
            phase := .writing { nbytes := input.length, noBytes := 0, buf := input ++ [0], errno := s.errno
                                sent := [], returned := none } } := by
          simp only [onFgets, hf, hself, hstart, afterWrite]
          rfl
        rw [hstep]
        refine ⟨h.looping, .writing _ input rfl ?_ hpiece (by rw [hshown]) hinv rfl ?_ hout⟩
        · show (s.typed ++ [input]).flatten ++ rest = all
          rw [List.flatten_append, List.flatten_singleton, List.append_assoc, hsplit, hall]
        · show s.toClient ++ s.toServer = []
          rw [hc, hts, List.append_nil]
  | writing w _ hp' => rw [hp] at hp'; cases hp'
  | reading l _ hp' => rw [hp] at hp'; cases hp'
  | quitting w hp' => rw [hp] at hp'; cases hp'
  | closed hp' => rw [hp] at hp'; cases hp'

theorem within_start {output : Bytes} (hout : output.length = maxChar + 1) (errno : ℕ) :
    Within (Readline.start output maxChar errno) := by
  rw [start_eq output (show 2 ≤ maxChar by decide)]
  exact ⟨rfl, rfl, (by decide : 1 < maxChar), hout, by simp, rfl⟩

theorem talk_write (h : Talk all s) {r : WriteRet} (hs : s.onWrite r = some s') (hq : s.Smooth (.write r)) :
    Talk all s' := by
  unfold onWrite at hs
  cases h.exchange with
  | prompt hp => rw [hp] at hs; cases hs
  | reading l _ hp => rw [hp] at hs; cases hs
  | closed hp => rw [hp] at hs; cases hs
  | quitting w hp hall hshown =>
    rw [hp] at hs
    obtain ⟨w', -, rfl⟩ := Option.map_eq_some_iff.1 hs
    unfold afterQuit
    split
    · exact ⟨h.looping, .closed rfl hall hshown⟩
    · exact ⟨h.looping, .quitting w' rfl hall hshown⟩
  | writing w piece hp hall hpiece htyped hw hret hfly hout =>
    rw [hp] at hs
    obtain ⟨w', hw', rfl⟩ := Option.map_eq_some_iff.1 hs
    -- what this call of `write` has taken is behind what was on its way to the server
    obtain ⟨more, hmore⟩ := sent_prefix hw'
    have hput : s.toClient ++ (s.toServer ++ w'.sent.drop w.sent.length) = w'.sent := by
      rw [← List.append_assoc, hfly, ← hmore, List.drop_left]
    unfold afterWrite
    cases hret' : w'.returned with
    | none => exact ⟨h.looping, .writing w' piece rfl hall hpiece htyped (hw.step hw') hret' hput hout⟩
    | some v => -- `writen` returns only when all of the line is on its way, and `readline` begins
      have hall' : w'.sent = piece := by
        rw [returned_of_smooth hw hret hq hw' (by simp [hret']), List.take_left]
      have hstart := start_eq s.output (show 2 ≤ maxChar by decide) w'.errno
      refine ⟨h.looping, .reading (Readline.start s.output maxChar w'.errno) piece rfl hall hpiece htyped
        (within_start hout _) ?_⟩
      rw [hstart]
      exact hput.trans hall'

theorem Piece.eq_of_newline {before after : Bytes} (h : Piece (before ++ 10 :: after)) : after = [] := by
  by_contra hne
  apply h.inner
  rw [List.dropLast_append_of_ne_nil (List.cons_ne_nil _ _), List.dropLast_cons_of_ne_nil hne]
  simp

theorem talk_read (h : Talk all s) {r : ReadRet} (hs : s.onRead r = some s') (hq : s.Smooth (.read r)) :
    Talk all s' := by
  unfold onRead at hs
  cases h.exchange with
  | prompt hp => rw [hp] at hs; cases hs
  | writing w _ hp => rw [hp] at hs; cases hs
  | quitting w hp => rw [hp] at hs; cases hs
  | closed hp => rw [hp] at hs; cases hs
  | reading l piece hp hall hpiece htyped hl hfly =>
    rw [hp] at hs
    cases r with
    | eof => exact hq.elim
    | byte ch =>
      dsimp only at hs
      split at hs
      · rename_i hhead
        cases hs
        obtain ⟨back, hback⟩ : ∃ back, s.toClient = ch :: back := by
          cases hc : s.toClient with
          | nil => rw [hc] at hhead; cases hhead
          | cons c back =>
            rw [hc] at hhead
            cases hhead
            exact ⟨back, rfl⟩
        -- the byte is stored, and behind it there is room for the NUL
        have hroom : l.stored + 1 < l.memory.length := by
          have h1 := hl.count
          have h2 := hl.lt
          have h3 := hl.size
          omega
        have hset : (l.memory.set l.stored ch).take (l.stored + 1) = l.memory.take l.stored ++ [ch] := by
          rw [List.take_add_one, List.take_set_of_le le_rfl, List.getElem?_set_self (by omega), Option.toList_some]
        have hline : l.memory.take l.stored ++ ch :: (back ++ s.toServer) = piece := by
          rw [← hfly, hback]
          rfl
        -- the line is complete, and nothing of it is on its way any more
        have hdone : ∀ n : ℕ, back ++ s.toServer = [] →
            Talk all ({ s with toClient := s.toClient.tail }.afterRead
              { l with
                noBytes := n, memory := (l.memory.set l.stored ch).set (l.stored + 1) 0, stored := l.stored + 1
                returned := some n }) := by
          intro n hnil
          have hpiece' : l.memory.take l.stored ++ [ch] = piece := by rw [← hline, hnil]
          have hcstr : cstr ((l.memory.set l.stored ch).set (l.stored + 1) 0) = piece := by
            refine cstr_of_take (n := l.stored + 1) ?_ ?_ hpiece.noNul
            · rw [List.take_set_of_le le_rfl, hset, hpiece']
            · rw [List.getElem?_set_self (by rw [List.length_set]; exact hroom)]
          obtain ⟨hb, hserver⟩ := List.append_eq_nil_iff.1 hnil
          refine ⟨h.looping, .prompt rfl hall hserver ?_ ?_ ?_⟩
          · show s.toClient.tail = []
            rw [hback]
            exact hb
          · show s.shown ++ [cstr ((l.memory.set l.stored ch).set (l.stored + 1) 0)] = s.typed
            rw [hcstr, htyped]
          · show ((l.memory.set l.stored ch).set (l.stored + 1) 0).length = maxChar + 1
            rw [List.length_set, List.length_set, hl.size]
        by_cases hch : ch = 10
        · -- a newline ends the line
          subst hch
          rw [step_newline hl.returned]
          exact hdone l.noBytes (hline ▸ hpiece).eq_of_newline
        · -- any other byte is stored
          rw [step_byte hl.returned hch]
          by_cases hmore : l.noBytes + 1 < maxChar
          · rw [Readline.head, if_pos (show l.noBytes + 1 < l.maxSizeLine from hl.limit ▸ hmore)]
            have hnone : ¬ l.returned.isSome = true := by simp [hl.returned]
            rw [afterRead, if_neg hnone]
            refine ⟨h.looping, .reading _ piece rfl hall hpiece htyped
              ⟨hl.limit, congrArg (· + 1) hl.count, hmore, ?_, ?_, hl.returned⟩ ?_⟩
            · exact (List.length_set ..).trans hl.size
            · rw [hset, List.mem_append, not_or]
              exact ⟨hl.noNewline, by simpa using Ne.symm hch⟩
            · show (l.memory.set l.stored ch).take (l.stored + 1) ++ (s.toClient.tail ++ s.toServer) = piece
              rw [hset, hback, ← hline]
              simp
          · rw [Readline.head, if_neg (show ¬ l.noBytes + 1 < l.maxSizeLine from hl.limit ▸ hmore)]
            refine hdone (l.noBytes + 1) ?_
            -- the buffer is full, and a line is not longer
            have hlen := congrArg List.length hline
            have hle := hpiece.le
            have htake : (l.memory.take l.stored).length = l.stored := by
              rw [List.length_take]
              omega
            have hcount := hl.count
            simp only [List.length_append, List.length_cons, htake] at hlen
            have h50 : ¬ l.noBytes + 1 < 50 := hmore
            have hzero : (back ++ s.toServer).length = 0 := by
              rw [List.length_append]
              omega
            exact List.length_eq_zero_iff.1 hzero
      · cases hs
    | fail errno => -- an interrupted call moves nothing
      obtain rfl : errno = eintr := hq
      cases hs
      rw [step_eintr hl.returned]
      have hnone : ¬ l.returned.isSome = true := by simp [hl.returned]
      rw [afterRead, if_neg hnone]
      exact ⟨h.looping, .reading _ piece rfl hall hpiece htyped
        ⟨hl.limit, hl.count, hl.lt, hl.size, hl.noNewline, hl.returned⟩ hfly⟩

theorem talk_step (hnul : 0 ∉ all) (h : Talk all s) {e : Ev} (hq : s.Smooth e) (hs : s.step e = some s') :
    Talk all s' := by
  cases e with
  | fgets =>
    cases hp : s.phase with
    | prompt =>
      have hs' : some s.onFgets = some s' := by rw [← hs, step, hp]
      cases hs'
      exact talk_fgets hnul h hp
    | writing w => rw [step, hp] at hs; cases hs
    | reading l => rw [step, hp] at hs; cases hs
    | quitting w => rw [step, hp] at hs; cases hs
    | closed => rw [step, hp] at hs; cases hs
  | write r => exact talk_write h hs hq
  | read r => exact talk_read h hs hq
  | serve k writes => exact talk_serve h hs hq

theorem talk_start (stdin : Bytes) {output : Bytes} (hout : output.length = maxChar + 1) :
    Talk stdin (start stdin output) :=
  ⟨rfl, .prompt rfl rfl rfl rfl rfl hout⟩

/-- `readline` does not wait for a byte that nobody will send. -/
theorem Exchange.not_stuck (h : Exchange all s) {l : Readline} (hp : s.phase = .reading l) :
    s.toClient ++ s.toServer ≠ [] := by
  cases h with
  | prompt hp' => rw [hp] at hp'; cases hp'
  | writing w _ hp' => rw [hp] at hp'; cases hp'
  | quitting w hp' => rw [hp] at hp'; cases hp'
  | closed hp' => rw [hp] at hp'; cases hp'
  | reading l' piece hp' hall hpiece htyped hl hfly =>
    rw [hp] at hp'
    cases hp'
    intro hnil
    rw [hnil, List.append_nil] at hfly
    have hlen := congrArg List.length hfly
    have hcount := hl.count
    have hlt : l.noBytes < 50 := hl.lt
    rw [List.length_take] at hlen
    rcases hpiece.ended with hlast | hfull
    · -- `readline` would have returned at the newline
      exact hl.noNewline (hfly ▸ List.mem_of_getLast? hlast)
    · -- `readline` would have returned below the limit
      omega

end Steps

/-- **Every line comes back once, in order.** Whatever the pieces in which TCP hands over the bytes, and whatever
the order in which client and server take their turns: as long as no call of `read` at the server returns exactly
the line `quit`, the client has displayed the lines it has sent, in order, at most the last one not yet, and at the
prompt and behind the end of its input all of them; and while it waits for an echo, some of it is on its way. -/
theorem shown_prefix_typed {stdin output : Bytes} (hnul : 0 ∉ stdin) (hout : output.length = maxChar + 1)
    {es : List Ev} (hq : AllSteps step Smooth (start stdin output) es) {s : Dialogue}
    (hrun : es.foldlM step (start stdin output) = some s) :
    s.typed.flatten <+: stdin ∧ s.shown <+: s.typed ∧ s.typed.length ≤ s.shown.length + 1 ∧
      (s.phase = .prompt ∨ s.phase = .closed → s.shown = s.typed) ∧
      ∀ l, s.phase = .reading l → s.toClient ++ s.toServer ≠ [] := by
  have h := (inv_of_allowed_run (I := Talk stdin) (fun t e t' ht hC ht' => talk_step hnul ht hC ht')
    (talk_start stdin hout) hq hrun).exchange
  have hstuck : ∀ l, s.phase = .reading l → s.toClient ++ s.toServer ≠ [] := fun l hp => h.not_stuck hp
  have hone : ∀ {piece : Bytes}, s.typed = s.shown ++ [piece] →
      s.shown <+: s.typed ∧ s.typed.length ≤ s.shown.length + 1 := by
    intro piece htyped
    rw [htyped]
    exact ⟨List.prefix_append _ _, by simp⟩
  have hsame : s.shown = s.typed → s.shown <+: s.typed ∧ s.typed.length ≤ s.shown.length + 1 := by
    intro heq
    rw [heq]
    exact ⟨List.prefix_refl _, by omega⟩
  cases h with
  | prompt hp hall hs hc hshown hout => exact ⟨⟨_, hall⟩, (hsame hshown).1, (hsame hshown).2, fun _ => hshown, hstuck⟩
  | writing w piece hp hall hpiece htyped =>
    refine ⟨⟨_, hall⟩, (hone htyped).1, (hone htyped).2, fun hc => ?_, hstuck⟩
    rw [hp] at hc
    rcases hc with hc | hc <;> cases hc
  | reading l piece hp hall hpiece htyped =>
    refine ⟨⟨_, hall⟩, (hone htyped).1, (hone htyped).2, fun hc => ?_, hstuck⟩
    rw [hp] at hc
    rcases hc with hc | hc <;> cases hc
  | quitting w hp hall hshown => exact ⟨hall, (hsame hshown).1, (hsame hshown).2, fun _ => hshown, hstuck⟩
  | closed hp hall hshown => exact ⟨hall, (hsame hshown).1, (hsame hshown).2, fun _ => hshown, hstuck⟩

def greeting : List Ev :=
  [.fgets, .write (.count 3), .serve 1 [.count 1], .serve 2 [.count 2], .read (.byte 104), .read (.fail eintr),
    .read (.byte 105), .read (.byte 10)]

theorem shown_greeting : ∃ s, greeting.foldlM step (start (ascii "hi\n") (zeros 51)) = some s ∧
    s.shown = [ascii "hi\n"] := by
  have hq : AllSteps step Smooth (start (ascii "hi\n") (zeros 51)) greeting := by decide
  obtain ⟨s, hrun, hp, htyped⟩ : ∃ s, greeting.foldlM step (start (ascii "hi\n") (zeros 51)) = some s ∧
      s.phase = .prompt ∧ s.typed = [ascii "hi\n"] := ⟨_, rfl, rfl, rfl⟩
  have h := (shown_prefix_typed (by decide) (length_zeros 51) hq hrun).2.2.2.1 (.inl hp)
  exact ⟨s, hrun, h.trans htyped⟩

end Dialogue

end TamuProofs.Echo
