import TamuProofs.Lib.Bytes

/-!
# The TFTP server (`tftps.c`): one child process

The parent receives a request into `packet` and forks; the child parses it, answers, and runs the transfer
loop, one `select` at a time.  `Child` holds the variables of `main` that the child uses, together with a
history of what went over its socket, and

* `Child.start` is the code from the `fork` to the head of the transfer loop,
* `Child.step` is one turn of the transfer loop, on a timeout or on a datagram.

What the code reads without having written it is an argument: the bytes that `packet`, `data` and
`send_pack` hold when the child is forked (`Mem`).  `sendto` and `recvfrom` succeed.  A write over the end of
an array is the status `fault`, after which nothing is known: a `strcpy` that does not fit its ten-byte target,
and the copy of an ERROR packet, which always takes 996 bytes into the 50 of `ErrMsg`.
-/

namespace TamuProofs.Tftp

open TamuProofs.Lib

/-- `MAXCHAR`, the size of `packet` and `data`. -/
def maxChar : ℕ := 1000

def header : ℕ := 4

/-- `NOBYTES`, the payload of a full packet. -/
def nobytes : ℕ := 512

/-! ### Files -/

/-- A regular file: its content and whether the server may read and write it. -/
structure File where
  content : Bytes
  readable : Bool := true
  writable : Bool := true

/-- The directory the server runs in, and the names under which it may create a file. -/
structure FileSys where
  file : Bytes → Option File
  creatable : Bytes → Bool

/-- `open(name, O_RDWR)`: the content behind the descriptor. -/
def FileSys.openRdwr (fs : FileSys) (name : Bytes) : Option Bytes :=
  match fs.file name with
  | none => none
  | some f => if f.readable && f.writable then some f.content else none

/-- `fopen(name, "r")`: the content of the stream. -/
def FileSys.fopenR (fs : FileSys) (name : Bytes) : Option Bytes :=
  match fs.file name with
  | none => none
  | some f => if f.readable then some f.content else none

/-- `fopen(name, "wx")` succeeds. -/
def FileSys.fopenWx (fs : FileSys) (name : Bytes) : Bool := (fs.file name).isNone && fs.creatable name

/-! ### The child -/

abbrev Addr := ℕ

/-- What goes over the child's socket: a datagram received, a packet built and sent, or the last packet
sent once more after a timeout. -/
inductive Io where
  | recv (src : Addr) (d : Bytes)
  | send (dst : Addr) (d : Bytes)
  | resend (dst : Addr) (d : Bytes)
  deriving DecidableEq

/-- Where the child is: in the transfer loop, out of it with everything closed, gone by `exit(1)`, or past
an overflow of `Filename`, `Mode` or `ErrMsg`. -/
inductive Status where
  | running | closed | exited | fault
  deriving DecidableEq

/-- The variables of the child. -/
structure Child where
  readFlag : Bool
  writeFlag : Bool
  stopFlag : Bool
  modeFlag : ℤ
  timeCount : ℕ
  /-- an `unsigned short` -/
  blockNumber : ℕ
  nextch : UInt8
  packet : Bytes
  sendPack : Bytes
  sizeSp : ℕ
  clientAddr : Addr
  /-- what is still to be read from `read_fd` -/
  readFd : Bytes
  /-- what is still to be read from `fp`, open for reading -/
  fp : Bytes
  /-- the name of the file that `fopen(.., "wx")` made, if there is one -/
  created : Option Bytes
  /-- what has been written to it -/
  written : Bytes
  /-- latest first -/
  hist : List Io
  status : Status

/-- The memory the child inherits: `packet`, `data`, `send_pack` and `size_sp` are not initialised, and
`packet` still holds what earlier requests left there. -/
structure Mem where
  packet : Bytes
  data : Bytes
  sendPack : Bytes
  sizeSp : ℕ
  packet_length : packet.length = maxChar
  data_length : data.length = maxChar

/-- Bytes 2 and 3 of a packet: `(sent_num & 0xFF00) >> 8` and `sent_num & 0x00FF`. -/
def blockBytes (sentNum : ℕ) : Bytes :=
  [UInt8.ofNat ((sentNum &&& 0xFF00) >>> 8), UInt8.ofNat (sentNum &&& 0x00FF)]

/-- Fill `send_pack` with a packet and send its first `size_sp` bytes. -/
def Child.transmit (c : Child) (pkt : Bytes) : Child :=
  let sendPack := blit c.sendPack 0 pkt
  { c with
    sendPack := sendPack
    sizeSp := pkt.length
    hist := .send c.clientAddr (sendPack.take pkt.length) :: c.hist }

/-- An error packet: opcode 5, the error code, and the text without a NUL. -/
def errPack (code : UInt8) (msg : String) : Bytes := [0, 5, 0, code] ++ ascii msg

/-- Answer with an error packet and stop the transfer. -/
def Child.refuse (c : Child) (code : UInt8) (msg : String) : Child :=
  { c.transmit (errPack code msg) with stopFlag := true, status := .closed }

/-! ### The two loops that translate to netascii -/

/-- What a loop over `getc` works on: the first `count` bytes of `data`, `nextch`, what is left of `fp`,
and `stop_flag`. -/
structure Fill where
  data : Bytes
  nextch : UInt8
  fp : Bytes
  stopFlag : Bool

/-- `ch = getc(fp)`, with `EOF` stored in a `char`, and the stream afterwards. -/
def getc : Bytes → UInt8 × Bytes
  | [] => (eofChar, [])
  | ch :: fp => (ch, fp)

/-- The CR that goes before an LF and the NUL that goes after a CR: the new `ch` and `nextch`. -/
def translate (ch : UInt8) : UInt8 × UInt8 :=
  if ch = 10 then (13, 10) else if ch = 13 then (13, 0) else (ch, eofChar)

/-- The `for` loop of the RRQ branch, with `n` turns left. -/
def rrqLoop (modeFlag : ℤ) : ℕ → Fill → Fill
  | 0, f => f
  | n + 1, f =>
    if 0 ≤ charVal f.nextch then
      rrqLoop modeFlag n { f with data := f.data ++ [f.nextch], nextch := eofChar }
    else
      match getc f.fp with
      | (ch, fp) =>
        if charVal ch = -1 then { f with fp := fp, stopFlag := true }
        else
          match (if modeFlag = 1 then translate ch else (ch, f.nextch)) with
          | (ch, nextch) =>
            -- `break` leaves the byte just stored uncounted
            if f.stopFlag then { f with nextch := nextch, fp := fp }
            else rrqLoop modeFlag n { f with data := f.data ++ [ch], nextch := nextch, fp := fp }

/-- The `for` loop of the ACK branch, with `n` turns left. -/
def ackLoop : ℕ → Fill → Fill
  | 0, f => f
  | n + 1, f =>
    if 0 ≤ charVal f.nextch then
      ackLoop n { f with data := f.data ++ [f.nextch], nextch := eofChar }
    else
      match getc f.fp with
      | (ch, fp) =>
        if charVal ch = -1 then { f with fp := fp, stopFlag := true }
        else
          match translate ch with
          | (ch, nextch) => ackLoop n { f with data := f.data ++ [ch], nextch := nextch, fp := fp }

/-! ### The request -/

/-- `Filename` and `Mode`, as `strcpy` takes them out of `packet`; `none` when one of them does not fit
its ten bytes. -/
def parseReq (packet : Bytes) : Option (Bytes × Bytes) :=
  let filename := cstr (packet.drop 2)
  let mode := cstr (packet.drop (2 + filename.length + 1))
  if filename.length < 10 ∧ mode.length < 10 then some (filename, mode) else none

def isOctet (mode : Bytes) : Bool := mode == ascii "octet" || mode == ascii "OCTET"

def isNetascii (mode : Bytes) : Bool := mode == ascii "netascii" || mode == ascii "NETASCII"

/-- The RRQ branch.  In octet mode the length of the first read is not looked at: the packet always takes
`NOBYTES` bytes of `data`, which is not cleared. -/
def Child.rrq (c : Child) (data : Bytes) (fs : FileSys) : Child :=
  let c := { c with readFlag := true, writeFlag := false, sendPack := zeros 517 }
  match parseReq c.packet with
  | none => { c with status := .fault }
  | some (filename, mode) =>
    if isOctet mode then
      let c := { c with modeFlag := 0 }
      match fs.openRdwr filename with
      | none => { c with status := .exited }
      | some content =>
        let data := blit data 0 (content.take nobytes)
        let c := { c with readFd := content.drop nobytes }
        { c.transmit ([0, 3, 0, 1] ++ data.take nobytes) with blockNumber := 1 }
    else if isNetascii mode then
      let c := { c with modeFlag := 1 }
      match fs.fopenR filename with
      | none => c.refuse 1 "File not found"
      | some content =>
        let f := rrqLoop c.modeFlag nobytes
          { data := [], nextch := c.nextch, fp := content, stopFlag := c.stopFlag }
        let c := { c with nextch := f.nextch, fp := f.fp, stopFlag := f.stopFlag }
        { c.transmit ([0, 3, 0, 1] ++ f.data) with blockNumber := 1 }
    else c.refuse 4 "Illegal TFTP operation."

/-- The WRQ branch.  The mode is parsed and not looked at. -/
def Child.wrq (c : Child) (fs : FileSys) : Child :=
  let c := { c with readFlag := false, writeFlag := true }
  match parseReq c.packet with
  | none => { c with status := .fault }
  | some (filename, _) =>
    let c := { c with sendPack := zeros 517 }
    if fs.fopenWx filename then
      let c := { c with created := some filename }
      { c.transmit [0, 4, 0, 0] with blockNumber := 1 }
    else c.refuse 6 "File already exists."

/-- What `recvfrom` leaves in `packet`: the datagram, cut at the size of the buffer, over what was there
before. -/
def recvInto (packet d : Bytes) : Bytes := blit packet 0 (d.take maxChar)

/-- The opcode the code looks at. -/
def opcode (packet : Bytes) : UInt8 := packet.getD 1 0

/-- The child right after the `fork`: the request is in `packet`. -/
def Child.forked (mem : Mem) (src : Addr) (req : Bytes) : Child :=
  { readFlag := false, writeFlag := false, stopFlag := false, modeFlag := -1, timeCount := 0
    blockNumber := 0, nextch := eofChar
    packet := recvInto mem.packet req, sendPack := mem.sendPack, sizeSp := mem.sizeSp
    clientAddr := src, readFd := [], fp := [], created := none, written := []
    hist := [.recv src req], status := .running }

/-- From the request to the head of the transfer loop. -/
def Child.start (mem : Mem) (fs : FileSys) (src : Addr) (req : Bytes) : Child :=
  let c := Child.forked mem src req
  if opcode c.packet = 1 then c.rrq mem.data fs
  else if opcode c.packet = 2 then c.wrq fs
  else c

/-! ### The transfer loop -/

/-- A timeout of `select`. -/
def Child.onTimeout (c : Child) : Child :=
  if c.readFlag ∧ ¬ c.writeFlag then
    let c := { c with
      hist := .resend c.clientAddr (c.sendPack.take c.sizeSp) :: c.hist
      timeCount := c.timeCount + 1 }
    if 10 ≤ c.timeCount then { c with stopFlag := true, status := .closed } else c
  else if ¬ c.readFlag ∧ c.writeFlag then
    let sentNum := c.blockNumber % 65536
    let c := { c with
      packet := blit c.packet 0 ([0, 3] ++ blockBytes sentNum ++ [0])
      timeCount := c.timeCount + 1 }
    if 2 ≤ c.timeCount then { c with stopFlag := true, status := .closed } else c
  else c

/-- What the loop over the payload of a DATA packet works on: the bytes written, `nextch` and
`stop_flag`. -/
structure Put where
  written : Bytes
  nextch : UInt8
  stopFlag : Bool

/-- The `for` loop of the DATA branch, over the string in `data`. -/
def putLoop (modeFlag : ℤ) : Bytes → Put → Put
  | [], p => p
  | ch :: data, p =>
    if 0 ≤ charVal p.nextch then
      putLoop modeFlag data { p with written := p.written ++ [p.nextch], nextch := eofChar }
    else
      let stopFlag := p.stopFlag || decide (charVal ch = -1)
      match (if modeFlag = 1 then translate ch else (ch, p.nextch)) with
      | (ch, nextch) =>
        putLoop modeFlag data { written := p.written ++ [ch], nextch := nextch, stopFlag := stopFlag }

/-- The DATA branch.  What is written is the string in the payload, not the bytes received. -/
def Child.onData (c : Child) : Child :=
  let c := { c with sendPack := zeros 517 }
  if c.readFlag ∨ ¬ c.writeFlag then c.refuse 0 "Access violation."
  else
    let p := putLoop c.modeFlag (cstr (c.packet.drop header))
      { written := c.written, nextch := c.nextch, stopFlag := c.stopFlag }
    let c := { c with written := p.written, nextch := p.nextch, stopFlag := p.stopFlag }
    let sentNum := c.blockNumber % 65536
    let c := c.transmit ([0, 4] ++ blockBytes sentNum)
    let c := { c with blockNumber := (c.blockNumber + 1) % 65536 }
    if c.stopFlag then { c with status := .closed } else c

/-- The next payload of a read session: the `count` bytes of `data`, and the child after reading them.  A
read session has mode 0 or 1. -/
def Child.nextData (c : Child) : Bytes × Child :=
  if c.modeFlag = 0 then
    let readSize := min nobytes c.readFd.length
    let data := c.readFd.take nobytes
    let c := { c with readFd := c.readFd.drop nobytes }
    if readSize < nobytes then (data.take readSize, { c with stopFlag := true })
    else (data.take nobytes, c)
  else
    let f := ackLoop nobytes { data := [], nextch := c.nextch, fp := c.fp, stopFlag := c.stopFlag }
    (f.data, { c with nextch := f.nextch, fp := f.fp, stopFlag := f.stopFlag })

/-- Build and send the next DATA packet of a read session. -/
def Child.nextBlock (c : Child) : Child :=
  match c.nextData with
  | (data, c) =>
    let sentNum := (c.blockNumber + 1) % 65536
    let c := c.transmit ([0, 3] ++ blockBytes sentNum ++ data)
    { c with blockNumber := (c.blockNumber + 1) % 65536 }

/-- The ACK branch.  The block number of the ACK is copied out of the packet and not looked at. -/
def Child.onAck (c : Child) : Child :=
  let c := { c with sendPack := zeros 517 }
  if ¬ c.readFlag ∨ c.writeFlag then c.refuse 2 "Access violation."
  else if c.stopFlag then { c with status := .closed }
  else c.nextBlock

/-- The child right after `recvfrom`; the next packet goes to wherever the datagram came from. -/
def Child.received (c : Child) (src : Addr) (d : Bytes) : Child :=
  { c with
    hist := .recv src d :: c.hist
    clientAddr := src
    packet := recvInto c.packet d
    timeCount := 0 }

/-- The ERROR branch.  `memcpy` copies everything behind the header, `length - 4` bytes whatever was received, into
the 50 bytes of `ErrMsg`. -/
def Child.onError (c : Child) : Child := { c with status := .fault }

def Child.dispatch (c : Child) : Child :=
  if opcode c.packet = 3 then c.onData
  else if opcode c.packet = 4 then c.onAck
  else if opcode c.packet = 5 then c.onError
  else c

/-- `packet` is cleared when the loop goes on. -/
def Child.clearPacket (c : Child) : Child :=
  if c.status = .running then { c with packet := zeros maxChar } else c

def Child.onRecv (c : Child) (src : Addr) (d : Bytes) : Child := (c.received src d).dispatch.clearPacket

/-- What the transfer loop waits for. -/
inductive Ev where
  | timeout
  | recv (src : Addr) (d : Bytes)

/-- One turn of the transfer loop; a child that has left the loop does nothing any more. -/
def Child.step (c : Child) (e : Ev) : Child :=
  if c.status = .running then
    match e with
    | .timeout => c.onTimeout
    | .recv src d => c.onRecv src d
  else c

/-! ### One case at a time -/

section Cases

variable {c : Child} {fs : FileSys} {data filename mode content : Bytes}

theorem start_rrq {mem : Mem} {req : Bytes} (h : opcode (recvInto mem.packet req) = 1) (src : Addr) :
    Child.start mem fs src req = (Child.forked mem src req).rrq mem.data fs := if_pos h

theorem start_wrq {mem : Mem} {req : Bytes} (h : opcode (recvInto mem.packet req) = 2) (src : Addr) :
    Child.start mem fs src req = (Child.forked mem src req).wrq fs := by
  have h1 : ¬ opcode (Child.forked mem src req).packet = 1 := by
    rw [show opcode (Child.forked mem src req).packet = 2 from h]
    decide
  exact (if_neg h1).trans (if_pos h)

theorem parseReq_eq {packet : Bytes} (hname : cstr (packet.drop 2) = filename)
    (hmode : cstr (packet.drop (2 + filename.length + 1)) = mode) (hn : filename.length < 10) (hm : mode.length < 10) :
    parseReq packet = some (filename, mode) := by
  subst hname hmode
  exact if_pos ⟨hn, hm⟩

theorem isOctet_of_isNetascii (h : isNetascii mode = true) : isOctet mode = false := by
  simp only [isNetascii, Bool.or_eq_true, beq_iff_eq] at h
  rcases h with rfl | rfl <;> decide

theorem rrq_octet (hreq : parseReq c.packet = some (filename, mode)) (hmode : isOctet mode = true)
    (hfile : fs.openRdwr filename = some content) :
    c.rrq data fs = { ({ c with
        readFlag := true, writeFlag := false, sendPack := zeros 517, modeFlag := 0
        readFd := content.drop nobytes }).transmit
          ([0, 3, 0, 1] ++ (blit data 0 (content.take nobytes)).take nobytes) with blockNumber := 1 } := by
  simp only [Child.rrq, hreq, hmode, hfile, if_true]

theorem rrq_netascii (hreq : parseReq c.packet = some (filename, mode)) (hmode : isNetascii mode = true)
    (hfile : fs.fopenR filename = some content) {f : Fill}
    (hf : rrqLoop 1 nobytes { data := [], nextch := c.nextch, fp := content, stopFlag := c.stopFlag } = f) :
    c.rrq data fs = { ({ c with
        readFlag := true, writeFlag := false, sendPack := zeros 517, modeFlag := 1
        nextch := f.nextch, fp := f.fp, stopFlag := f.stopFlag }).transmit ([0, 3, 0, 1] ++ f.data) with
      blockNumber := 1 } := by
  simp only [Child.rrq, hreq, isOctet_of_isNetascii hmode, hmode, hfile, if_true, Bool.false_eq_true,
    if_false, hf]

theorem wrq_created (hreq : parseReq c.packet = some (filename, mode)) (hfile : fs.fopenWx filename = true) :
    c.wrq fs = { ({ c with
        readFlag := false, writeFlag := true, sendPack := zeros 517
        created := some filename }).transmit [0, 4, 0, 0] with blockNumber := 1 } := by
  simp only [Child.wrq, hreq, hfile, if_true]

theorem step_of_ne_running (h : c.status ≠ .running) (e : Ev) : c.step e = c := if_neg h

theorem run_of_ne_running (h : c.status ≠ .running) (evs : List Ev) : evs.foldl Child.step c = c := by
  induction evs with
  | nil => rfl
  | cons e evs ih => rw [List.foldl_cons, step_of_ne_running h, ih]

theorem step_timeout (h : c.status = .running) : c.step .timeout = c.onTimeout := if_pos h

theorem step_recv (h : c.status = .running) (src : Addr) (d : Bytes) :
    c.step (.recv src d) = (c.received src d).dispatch.clearPacket := if_pos h

theorem dispatch_data (h : opcode c.packet = 3) : c.dispatch = c.onData := if_pos h

theorem dispatch_ack (h : opcode c.packet = 4) : c.dispatch = c.onAck := by
  simp [Child.dispatch, h]

theorem dispatch_cases (c : Child) :
    opcode c.packet = 3 ∧ c.dispatch = c.onData ∨ opcode c.packet = 4 ∧ c.dispatch = c.onAck ∨
      opcode c.packet = 5 ∧ c.dispatch = c.onError ∨
      ¬ (opcode c.packet = 3 ∨ opcode c.packet = 4 ∨ opcode c.packet = 5) ∧ c.dispatch = c := by
  by_cases h3 : opcode c.packet = 3
  · exact Or.inl ⟨h3, dispatch_data h3⟩
  by_cases h4 : opcode c.packet = 4
  · exact Or.inr (Or.inl ⟨h4, dispatch_ack h4⟩)
  by_cases h5 : opcode c.packet = 5
  · exact Or.inr (Or.inr (Or.inl ⟨h5, by simp [Child.dispatch, h5]⟩))
  · refine Or.inr (Or.inr (Or.inr ⟨?_, by simp [Child.dispatch, h3, h4, h5]⟩))
    rintro (h | h | h)
    · exact h3 h
    · exact h4 h
    · exact h5 h

theorem clearPacket_running (h : c.status = .running) :
    c.clearPacket = { c with packet := zeros maxChar } := if_pos h

theorem clearPacket_of_ne (h : c.status ≠ .running) : c.clearPacket = c := if_neg h

theorem onAck_stop (hr : c.readFlag = true) (hw : c.writeFlag = false) (hs : c.stopFlag = true) :
    c.onAck = { c with sendPack := zeros 517, status := .closed } := by
  simp [Child.onAck, hr, hw, hs]

theorem onAck_next (hr : c.readFlag = true) (hw : c.writeFlag = false) (hs : c.stopFlag = false) :
    c.onAck = { c with sendPack := zeros 517 }.nextBlock := by
  simp [Child.onAck, hr, hw, hs]

theorem nextBlock_eq (c : Child) :
    c.nextBlock = { c.nextData.2.transmit
        ([0, 3] ++ blockBytes ((c.nextData.2.blockNumber + 1) % 65536) ++ c.nextData.1) with
      blockNumber := (c.nextData.2.blockNumber + 1) % 65536 } := rfl

theorem onTimeout_read (hr : c.readFlag = true) (hw : c.writeFlag = false) (ht : c.timeCount < 9) :
    c.onTimeout = { c with
      hist := .resend c.clientAddr (c.sendPack.take c.sizeSp) :: c.hist
      timeCount := c.timeCount + 1 } := by
  have h10 : ¬ 10 ≤ c.timeCount + 1 := by omega
  simp [Child.onTimeout, hr, hw, h10]

/-! ### What no step changes -/

theorem onTimeout_flags (c : Child) : c.onTimeout.readFlag = c.readFlag ∧ c.onTimeout.writeFlag = c.writeFlag := by
  unfold Child.onTimeout
  dsimp only
  split_ifs <;> exact ⟨rfl, rfl⟩

theorem onData_flags (c : Child) : c.onData.readFlag = c.readFlag ∧ c.onData.writeFlag = c.writeFlag := by
  unfold Child.onData
  dsimp only
  split_ifs <;> exact ⟨rfl, rfl⟩

theorem onAck_flags (c : Child) : c.onAck.readFlag = c.readFlag ∧ c.onAck.writeFlag = c.writeFlag := by
  unfold Child.onAck Child.nextBlock Child.nextData
  dsimp only
  split_ifs <;> exact ⟨rfl, rfl⟩

theorem dispatch_flags (c : Child) : c.dispatch.readFlag = c.readFlag ∧ c.dispatch.writeFlag = c.writeFlag := by
  unfold Child.dispatch
  split_ifs
  · exact onData_flags c
  · exact onAck_flags c
  · exact ⟨rfl, rfl⟩
  · exact ⟨rfl, rfl⟩

theorem clearPacket_flags (c : Child) :
    c.clearPacket.readFlag = c.readFlag ∧ c.clearPacket.writeFlag = c.writeFlag := by
  unfold Child.clearPacket
  split_ifs <;> exact ⟨rfl, rfl⟩

/-- A session stays the kind of session it was started as. -/
theorem step_flags (c : Child) (e : Ev) : (c.step e).readFlag = c.readFlag ∧ (c.step e).writeFlag = c.writeFlag := by
  unfold Child.step
  split
  · cases e with
    | timeout => exact onTimeout_flags c
    | recv src d =>
      have hclear := clearPacket_flags (c.received src d).dispatch
      have hdisp := dispatch_flags (c.received src d)
      exact ⟨hclear.1.trans hdisp.1, hclear.2.trans hdisp.2⟩
  · exact ⟨rfl, rfl⟩

theorem rrq_flags (c : Child) (data : Bytes) (fs : FileSys) :
    (c.rrq data fs).readFlag = true ∧ (c.rrq data fs).writeFlag = false := by
  unfold Child.rrq
  dsimp only
  split
  · exact ⟨rfl, rfl⟩
  · split_ifs
    · split <;> exact ⟨rfl, rfl⟩
    · split <;> exact ⟨rfl, rfl⟩
    · exact ⟨rfl, rfl⟩

/-- A datagram with an opcode brings it into `packet`, whatever is there. -/
theorem opcode_recvInto {d : Bytes} (hd : 2 ≤ d.length) (packet : Bytes) : opcode (recvInto packet d) = opcode d := by
  match d, hd with
  | a :: b :: d, _ => rfl

end Cases

end TamuProofs.Tftp
