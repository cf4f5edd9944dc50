import Mathlib.Data.Finset.Card
import TamuProofs.Lib.Bytes

/-!
# The SBCP chat server (`server.cpp`)

`Server` holds the variables of the class and of `Server::sbcp`, and `Server.step` is what one ready
descriptor makes the server do: a connection that is accepted or refused, a message, a hang-up, a read error.
A step also returns what went on at the descriptors: the tests of `forward_message` and the writes.

* A slot of `curr_clnt` remembers whether it was ever written: only the first three are reset.
* `FD_ISSET` on a negative descriptor reads a stray bit (`stray`).
* A `strcpy` or `strcat` that runs over the end of its target leaves the step undefined (`none`).
* `joinedAs` and `opened` are not variables of the server: the name each client joined with, and the
  descriptors that are open, from which `accept` cannot choose.

`write` is taken to succeed.  The fields `status` and `count` of a slot are never read, and are left out.
-/

namespace TamuProofs.Sbcp

open TamuProofs.Lib

/-! ### Messages -/

/-- The types of messages. -/
def FWD : UInt8 := 3
def NAK : UInt8 := 5
def OFFLINE : UInt8 := 6
def ACK : UInt8 := 7
def ONLINE : UInt8 := 8
def IDLE : UInt8 := 9

/-- A message that the server builds: its type and the strings in the payloads of its two attributes, the
second of which some messages leave unset. -/
structure Msg where
  type : UInt8
  payload0 : Bytes
  payload1 : Option Bytes
  deriving DecidableEq

/-- The constructor `sbcp_message(msg_type, payload1, payload2)`. -/
def sbcpMessage (type : UInt8) (payload1 payload2 : Bytes) : Msg :=
  if type = FWD ∨ type = ACK then { type := type, payload0 := payload1, payload1 := some payload2 }
  else { type := type, payload0 := payload1, payload1 := none }

/-- The message that pushes the one before it out of the queue. -/
def nullchar : Msg := sbcpMessage FWD [] (ascii "N/A")

/-- `sizeof(sbcp_message)`. -/
def msgSize : ℕ := 1036

/-- `read(fd, &msg, sizeof msg)`. -/
def readInto (msg bytes : Bytes) : Bytes := blit msg 0 (bytes.take msgSize)

/-- `msg.Type`. -/
def msgType (msg : Bytes) : UInt8 := msg.getD 1 0

/-- `msg.Attribute[0].sbcp_payload`, as a string. -/
def payload (msg : Bytes) : Bytes := cstr (msg.drop 8)

/-! ### The server -/

/-- A slot of `curr_clnt`, and whether it was ever written. -/
structure ClntInfo where
  username : Bytes
  fd : ℤ
  init : Bool

def ClntInfo.reset : ClntInfo := { username := [], fd := -1, init := true }

/-- What happens at a descriptor: `FD_ISSET` on the descriptor of a slot, or a write. -/
inductive Out where
  | test (fd : ℤ) (init : Bool)
  | write (fd : ℤ) (msg : Msg)
  deriving DecidableEq

structure Server where
  maxClnt : ℕ
  srvrFd : ℕ
  fdmax : ℕ
  clntCount : ℕ
  currClnt : ℕ → ClntInfo
  master : Finset ℕ
  joinMsg : Bytes
  sendMsg : Bytes
  /-- the string in `fwd_msg.Attribute[0].sbcp_payload` -/
  fwdName : Bytes
  stray : ℤ → Bool
  opened : Finset ℕ
  joinedAs : ℕ → Bytes

/-- What the memory of the server holds at the start, and the descriptors already open. -/
structure Mem where
  slot : ℕ → Bytes × ℤ
  joinMsg : Bytes
  sendMsg : Bytes
  fwdName : Bytes
  stray : ℤ → Bool
  opened : Finset ℕ

/-- The server at the head of the loop of `Server::sbcp`, listening on `srvrFd`. -/
def Server.start (mem : Mem) (maxClnt srvrFd : ℕ) : Server :=
  { maxClnt := maxClnt, srvrFd := srvrFd, fdmax := srvrFd, clntCount := 0
    currClnt := fun k =>
      if k < 3 then ClntInfo.reset else { username := (mem.slot k).1, fd := (mem.slot k).2, init := false }
    master := {srvrFd}, joinMsg := mem.joinMsg, sendMsg := mem.sendMsg, fwdName := mem.fwdName
    stray := mem.stray, opened := insert srvrFd mem.opened, joinedAs := fun _ => [] }

/-- `FD_ISSET(fd, &master)`. -/
def Server.isSet (s : Server) (fd : ℤ) : Bool :=
  if 0 ≤ fd then decide (fd.toNat ∈ s.master) else s.stray fd

/-- `forward_message`.  The loop runs up to and including `num_of_clnt`. -/
def Server.forwardMessage (s : Server) (fwd : Msg) (selfFd : ℤ) (numOfClnt : ℕ) : List Out :=
  (List.range (numOfClnt + 1)).flatMap fun j =>
    let c := s.currClnt j
    .test c.fd c.init ::
      if s.isSet c.fd ∧ c.fd ≠ selfFd then [.write c.fd fwd, .write c.fd nullchar] else []

/-! ### Joining -/

/-- `is_clnt_exist`: the JOIN message is read, and the client is stored unless its name is taken. -/
def Server.isClntExist (s : Server) (fd : ℕ) (bytes : Bytes) : Option (Bool × Server) :=
  let s := { s with joinMsg := readInto s.joinMsg bytes }
  let name := payload s.joinMsg
  if ∃ i < s.clntCount, (s.currClnt i).username = name then some (true, s)
  else if name.length < 16 then
    some (false, { s with
      currClnt := Function.update s.currClnt s.clntCount { username := name, fd := fd, init := true }
      joinedAs := Function.update s.joinedAs fd name })
  else none

/-- The names of the clients, as they are appended to `namelist`. -/
def Server.names (s : Server) : Bytes :=
  (List.range s.clntCount).flatMap fun i =>
    (s.currClnt i).username ++ if i < s.clntCount - 1 then ascii ", " else ascii "\n"

/-- A connection, with the bytes that `read` finds on it and what the memory of `namelist` holds. -/
def Server.connect (s : Server) (fd : ℕ) (bytes namelist : Bytes) : Option (Server × List Out) :=
  let s := { s with opened := insert fd s.opened }
  if s.maxClnt ≤ s.clntCount then
    some (s, [.write fd (sbcpMessage NAK (ascii "Too many users in the chat room!") (ascii "N/A")),
      .write fd nullchar])
  else
    let tempFdmax := s.fdmax
    let s := { s with master := insert fd s.master, fdmax := if s.fdmax < fd then fd else s.fdmax }
    match s.isClntExist fd bytes with
    | none => none
    | some (false, s) =>
      let s := { s with clntCount := s.clntCount + 1 }
      let userlist := cstr namelist ++ s.names
      if userlist.length < 512 then
        let last := s.currClnt (s.clntCount - 1)
        some (s, [.write fd (sbcpMessage ACK (ascii (toString s.clntCount)) userlist), .write fd nullchar] ++
          s.forwardMessage (sbcpMessage ONLINE last.username (ascii "N/A")) last.fd s.clntCount)
      else none
    | some (true, s) =>
      some ({ s with fdmax := tempFdmax, master := s.master.erase fd },
        [.write fd (sbcpMessage NAK (ascii "Username already exist!") (ascii "N/A"))])

/-! ### A client that is online -/

/-- `close(curr_clnt[k].fd)`, `curr_clnt[k].reset()` and `clnt_count--`, for the slot `k` of client `i`. -/
def Server.left (s : Server) (i k : ℕ) : Server :=
  { s with
    opened := s.opened.erase i
    currClnt := Function.update s.currClnt k ClntInfo.reset
    clntCount := s.clntCount - 1 }

/-- The loop over the slots on a hang-up of `i`, from slot `k` on, with `n` turns at most.  The bound of the
loop moves with `clnt_count`. -/
def Server.hangupLoop (i : ℕ) : ℕ → ℕ → Server → Server × List Out
  | 0, _, s => (s, [])
  | n + 1, k, s =>
    if k < s.clntCount then
      if (s.currClnt k).fd = i then
        let c := s.currClnt k
        let out := s.forwardMessage (sbcpMessage OFFLINE c.username (ascii "N/A")) c.fd s.clntCount
        match Server.hangupLoop i n (k + 1) (s.left i k) with
        | (s, out') => (s, out ++ out')
      else Server.hangupLoop i n (k + 1) s
    else (s, [])

/-- `close(i)` and `FD_CLR(i, &master)`. -/
def Server.drop (s : Server) (i : ℕ) : Server :=
  { s with opened := s.opened.erase i, master := s.master.erase i }

/-- `read` returned 0. -/
def Server.hangup (s : Server) (i : ℕ) : Server × List Out :=
  match Server.hangupLoop i s.clntCount 0 s with
  | (s, out) => (s.drop i, out)

/-- A message from `i`. -/
def Server.read (s : Server) (i : ℕ) (bytes : Bytes) : Option (Server × List Out) :=
  let s := { s with sendMsg := readInto s.sendMsg bytes }
  if msgType s.sendMsg = IDLE then
    some (s, (List.range s.clntCount).flatMap fun k =>
      if (s.currClnt k).fd = i then
        s.forwardMessage (sbcpMessage IDLE (s.currClnt k).username (ascii "N/A")) i s.clntCount
      else [])
  else
    let s := { s with
      fwdName := (List.range s.clntCount).foldl
        (fun name k => if (s.currClnt k).fd = i then (s.currClnt k).username else name) s.fwdName }
    let text := payload s.sendMsg
    if text.length < 512 then
      some (s, s.forwardMessage { type := FWD, payload0 := s.fwdName, payload1 := some text } i s.clntCount)
    else none

/-! ### Steps -/

/-- What a ready descriptor brings. -/
inductive Ev where
  | acceptError
  | connect (fd : ℕ) (bytes namelist : Bytes)
  | read (i : ℕ) (bytes : Bytes)
  | hangup (i : ℕ)
  | readError (i : ℕ)

/-- `i` is the descriptor of a client, in `master` and within reach of the loop. -/
def Server.Online (s : Server) (i : ℕ) : Prop := i ∈ s.master ∧ i ≠ s.srvrFd ∧ i ≤ s.fdmax

instance (s : Server) (i : ℕ) : Decidable (s.Online i) := inferInstanceAs (Decidable (_ ∧ _))

/-- One event; what cannot happen in a state changes nothing. -/
def Server.step (s : Server) : Ev → Option (Server × List Out)
  | .acceptError => some (s, [])
  | .connect fd bytes namelist => if fd ∈ s.opened then some (s, []) else s.connect fd bytes namelist
  | .read i bytes => if s.Online i ∧ bytes ≠ [] then s.read i bytes else some (s, [])
  | .hangup i => if s.Online i then some (s.hangup i) else some (s, [])
  | .readError i => if s.Online i then some (s.drop i, []) else some (s, [])

def Server.next (s : Server) (e : Ev) : Option Server := (s.step e).map Prod.fst

/-! ### One case at a time -/

/-- The name in the JOIN message that a connection brings. -/
def Server.nameIn (s : Server) (bytes : Bytes) : Bytes := payload (readInto s.joinMsg bytes)

/-- A slot in use has this name. -/
def Server.Taken (s : Server) (name : Bytes) : Prop := ∃ i < s.clntCount, (s.currClnt i).username = name

/-- The server after it has taken in a client. -/
def Server.joined (s : Server) (fd : ℕ) (bytes : Bytes) : Server :=
  { s with
    opened := insert fd s.opened
    master := insert fd s.master
    fdmax := if s.fdmax < fd then fd else s.fdmax
    joinMsg := readInto s.joinMsg bytes
    currClnt := Function.update s.currClnt s.clntCount { username := s.nameIn bytes, fd := fd, init := true }
    joinedAs := Function.update s.joinedAs fd (s.nameIn bytes)
    clntCount := s.clntCount + 1 }

/-- What it writes to the client, and the notice to the others. -/
def Server.joinedOut (s : Server) (fd : ℕ) (bytes namelist : Bytes) : List Out :=
  [.write fd (sbcpMessage ACK (ascii (toString (s.clntCount + 1))) (cstr namelist ++ (s.joined fd bytes).names)),
    .write fd nullchar] ++
    (s.joined fd bytes).forwardMessage (sbcpMessage ONLINE (s.nameIn bytes) (ascii "N/A")) fd (s.clntCount + 1)

/-- The client's name fits its slot, and the list of names its buffer. -/
def Server.Fits (s : Server) (fd : ℕ) (bytes namelist : Bytes) : Prop :=
  (s.nameIn bytes).length < 16 ∧ (cstr namelist ++ (s.joined fd bytes).names).length < 512

section Cases

variable {s : Server} {fd i : ℕ} {bytes namelist : Bytes}

theorem step_read (hi : s.Online i) (hb : bytes ≠ []) : s.step (.read i bytes) = s.read i bytes :=
  if_pos ⟨hi, hb⟩

theorem step_hangup (hi : s.Online i) : s.step (.hangup i) = some (s.hangup i) := if_pos hi

theorem connect_full (h : s.maxClnt ≤ s.clntCount) :
    ∃ out, s.connect fd bytes namelist = some ({ s with opened := insert fd s.opened }, out) :=
  ⟨_, if_pos h⟩

theorem connect_taken_eq (h : s.clntCount < s.maxClnt) (ht : s.Taken (s.nameIn bytes)) :
    s.connect fd bytes namelist = some ({ s with
      opened := insert fd s.opened
      joinMsg := readInto s.joinMsg bytes
      master := (insert fd s.master).erase fd },
      [.write fd (sbcpMessage NAK (ascii "Username already exist!") (ascii "N/A"))]) := by
  unfold Server.Taken Server.nameIn at ht
  unfold Server.connect Server.isClntExist
  dsimp only
  rw [if_neg h.not_ge, if_pos ht]

theorem connect_taken (h : s.clntCount < s.maxClnt) (ht : s.Taken (s.nameIn bytes)) :
    ∃ out, s.connect fd bytes namelist = some ({ s with
      opened := insert fd s.opened
      joinMsg := readInto s.joinMsg bytes
      master := (insert fd s.master).erase fd }, out) :=
  ⟨_, connect_taken_eq h ht⟩

theorem connect_joined (h : s.clntCount < s.maxClnt) (ht : ¬ s.Taken (s.nameIn bytes))
    (hf : s.Fits fd bytes namelist) :
    s.connect fd bytes namelist = some (s.joined fd bytes, s.joinedOut fd bytes namelist) := by
  have hlast : (s.joined fd bytes).currClnt (s.clntCount + 1 - 1) =
      { username := s.nameIn bytes, fd := fd, init := true } := Function.update_self _ _ _
  unfold Server.Taken Server.nameIn at ht
  unfold Server.connect Server.isClntExist
  dsimp only
  rw [if_neg h.not_ge, if_neg ht, if_pos (show (payload (readInto s.joinMsg bytes)).length < 16 from hf.1)]
  dsimp only
  refine (if_pos hf.2).trans ?_
  show some (_, _ ++ (s.joined fd bytes).forwardMessage
    (sbcpMessage ONLINE ((s.joined fd bytes).currClnt (s.clntCount + 1 - 1)).username (ascii "N/A"))
    ((s.joined fd bytes).currClnt (s.clntCount + 1 - 1)).fd (s.clntCount + 1)) = _
  rw [hlast]
  rfl

theorem connect_overflow (h : s.clntCount < s.maxClnt) (ht : ¬ s.Taken (s.nameIn bytes))
    (hf : ¬ s.Fits fd bytes namelist) : s.connect fd bytes namelist = none := by
  unfold Server.Taken Server.nameIn at ht
  unfold Server.connect Server.isClntExist
  dsimp only
  rw [if_neg h.not_ge, if_neg ht]
  by_cases hn : (payload (readInto s.joinMsg bytes)).length < 16
  · rw [if_pos hn]
    exact if_neg fun h' => hf ⟨hn, h'⟩
  · rw [if_neg hn]

/-- A message changes the buffers of the server and nothing else. -/
theorem read_cases {s' : Server} {out : List Out} (h : s.read i bytes = some (s', out)) :
    ∃ name, s' = { s with sendMsg := readInto s.sendMsg bytes, fwdName := name } := by
  unfold Server.read at h
  dsimp only at h
  split at h
  · cases h
    exact ⟨s.fwdName, rfl⟩
  · split at h
    · cases h
      exact ⟨_, rfl⟩
    · cases h

/-- **What a step can do**: nothing, refuse a connection, take in a client, fill a buffer, or let a client go. -/
inductive Moves (s : Server) : Server → Prop where
  | same : Moves s s
  | full (fd : ℕ) : s.maxClnt ≤ s.clntCount → Moves s { s with opened := insert fd s.opened }
  | taken (fd : ℕ) (bytes : Bytes) : s.Taken (s.nameIn bytes) → Moves s { s with
      opened := insert fd s.opened
      joinMsg := readInto s.joinMsg bytes
      master := (insert fd s.master).erase fd }
  | joined (fd : ℕ) (bytes : Bytes) : fd ∉ s.opened → s.clntCount < s.maxClnt →
      ¬ s.Taken (s.nameIn bytes) → Moves s (s.joined fd bytes)
  | read (bytes name : Bytes) : Moves s { s with sendMsg := readInto s.sendMsg bytes, fwdName := name }
  | hangup (i : ℕ) : s.Online i → Moves s (s.hangup i).1
  | drop (i : ℕ) : s.Online i → Moves s (s.drop i)

theorem next_moves {e : Ev} {s' : Server} (h : s.next e = some s') : Moves s s' := by
  rw [Server.next, Option.map_eq_some_iff] at h
  obtain ⟨⟨s', out⟩, h, rfl⟩ := h
  unfold Server.step at h
  cases e with
  | acceptError =>
    cases h
    exact .same
  | connect fd bytes namelist =>
    dsimp only at h
    split at h
    · cases h
      exact .same
    rename_i hfd
    by_cases hfull : s.maxClnt ≤ s.clntCount
    · -- a full room
      obtain ⟨out', hout⟩ := connect_full hfull
      cases hout.symm.trans h
      exact .full fd hfull
    rw [Nat.not_le] at hfull
    by_cases ht : s.Taken (s.nameIn bytes)
    · -- a name in use
      cases (connect_taken_eq hfull ht).symm.trans h
      exact .taken fd bytes ht
    by_cases hf : s.Fits fd bytes namelist
    · cases (connect_joined hfull ht hf).symm.trans h
      exact .joined fd bytes hfd hfull ht
    · -- a name or list that is too long has no next state
      cases (connect_overflow hfull ht hf).symm.trans h
  | read i bytes =>
    dsimp only at h
    split at h
    · obtain ⟨name, rfl⟩ := read_cases h
      exact .read bytes name
    · cases h
      exact .same
  | hangup i =>
    dsimp only at h
    split at h
    · cases h
      exact .hangup i ‹_›
    · cases h
      exact .same
  | readError i =>
    dsimp only at h
    split at h
    · cases h
      exact .drop i ‹_›
    · cases h
      exact .same

/-! ### The slots after a join and after a hang-up -/

theorem joined_slot_self (s : Server) (fd : ℕ) (bytes : Bytes) :
    (s.joined fd bytes).currClnt s.clntCount = { username := s.nameIn bytes, fd := fd, init := true } :=
  Function.update_self _ _ _

theorem joined_slot_ne {k : ℕ} (hk : k ≠ s.clntCount) : (s.joined fd bytes).currClnt k = s.currClnt k :=
  Function.update_of_ne hk _ _

theorem joinedAs_self (s : Server) (fd : ℕ) (bytes : Bytes) : (s.joined fd bytes).joinedAs fd = s.nameIn bytes :=
  Function.update_self _ _ _

theorem joinedAs_ne {d : ℕ} (hd : d ≠ fd) : (s.joined fd bytes).joinedAs d = s.joinedAs d :=
  Function.update_of_ne hd _ _

theorem left_slot_self (s : Server) (i k : ℕ) : (s.left i k).currClnt k = ClntInfo.reset :=
  Function.update_self _ _ _

theorem left_slot_ne {j k : ℕ} (hj : j ≠ k) : (s.left i k).currClnt j = s.currClnt j :=
  Function.update_of_ne hj _ _

end Cases

end TamuProofs.Sbcp
