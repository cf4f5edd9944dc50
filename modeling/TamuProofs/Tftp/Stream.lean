import TamuProofs.Tftp.EarlyEnd

/-!
# What a download brings over a bad network

Nothing is assumed here about the datagrams that reach the child of a read session, nor about what becomes of
the datagrams it sends: they may be lost, repeated and reordered, and others may come from anyone.

* `stream` — the bytes that a session has to send;
* `Feeds` — the invariant of a read session: the DATA packets it has built are the first blocks of the stream,
  numbered from 1 on, each built once, and whatever it sends again is one of them;
* `Receiver` — a client that keeps the payload of a DATA packet if its number is the next one;
* **`received_beginning`**: what such a client has got is the beginning of the stream, and it is all of it when the
  client has seen a short block.
-/

namespace TamuProofs.Tftp

open TamuProofs.Lib

/-! ### The stream of a session -/

/-- What a read request has the child send: in octet mode the file behind the first 512 bytes of the buffer, and
in netascii mode the encoding of the file up to the first `0xFF`.  `none` if there is no read session. -/
def stream (mem : Mem) (fs : FileSys) (req : Bytes) : Option Bytes :=
  match parseReq (recvInto mem.packet req) with
  | none => none
  | some (filename, mode) =>
    if isOctet mode then
      (fs.openRdwr filename).map fun file =>
        (blit mem.data 0 (file.take nobytes)).take nobytes ++ file.drop nobytes
    else if isNetascii mode then (fs.fopenR filename).map fun file => netascii (text file)
    else none

theorem nobytes_pos : 0 < nobytes := by decide

def blocksOf (s : Bytes) : List Bytes := chunks nobytes nobytes_pos s

/-- The datagram of an entry of the history, if it is a DATA packet sent for the first time. -/
def Io.data? : Io → Option Bytes
  | .send _ d => if d.take 2 = [0, 3] then some d else none
  | .recv _ _ => none
  | .resend _ _ => none

/-- The DATA packets sent, retransmissions apart, in order. -/
def newData (hist : List Io) : List Bytes := (hist.filterMap Io.data?).reverse

theorem newData_send (dst : Addr) (k : ℕ) (b : Bytes) (hist : List Io) :
    newData (.send dst (dataPack k b) :: hist) = newData hist ++ [dataPack k b] := by
  have h : Io.data? (.send dst (dataPack k b)) = some (dataPack k b) := by
    rw [Io.data?]
    exact if_pos rfl
  simp [newData, h]

theorem newData_recv (src : Addr) (d : Bytes) (hist : List Io) : newData (.recv src d :: hist) = newData hist := rfl

theorem newData_resend (dst : Addr) (d : Bytes) (hist : List Io) : newData (.resend dst d :: hist) = newData hist :=
  rfl

theorem newData_errPack (dst : Addr) (code : UInt8) (msg : String) (hist : List Io) :
    newData (.send dst (errPack code msg) :: hist) = newData hist := rfl

theorem numbered_append (k : ℕ) (bs bs' : List Bytes) :
    numbered k (bs ++ bs') = numbered k bs ++ numbered (k + bs.length) bs' := by
  induction bs generalizing k with
  | nil => rfl
  | cons b bs ih =>
    rw [List.cons_append, numbered, numbered, List.cons_append, ih, List.length_cons, Nat.add_right_comm, Nat.add_assoc]

/-! ### A block more -/

/-- What the child has still to read. -/
def unread (c : Child) : Bytes := if c.modeFlag = 0 then c.readFd else pendingOf c.nextch (text c.fp)

/-- The next payload is the next 512 of these bytes, and `stop_flag` is set if they are fewer. -/
theorem nextData_unread {c : Child} (hmode : c.modeFlag = 0 ∨ c.modeFlag = 1) (hstop : c.stopFlag = false) :
    c.nextData.1 = (unread c).take nobytes ∧ c.nextData.2.modeFlag = c.modeFlag ∧
      restBlocks (unread c.nextData.2) c.nextData.2.stopFlag =
        restBlocks ((unread c).drop nobytes) (decide ((unread c).length < nobytes)) := by
  rcases hmode with h0 | h1
  · by_cases hlt : c.readFd.length < nobytes
    · have hmin : min nobytes c.readFd.length = c.readFd.length := by omega
      have htake : (c.readFd.take nobytes).take c.readFd.length = c.readFd.take nobytes := by
        rw [List.take_take, min_comm, hmin, List.take_length, List.take_of_length_le (by omega)]
      simp [Child.nextData, h0, hmin, hlt, unread, htake]
    · have hmin : min nobytes c.readFd.length = nobytes := by omega
      simp [Child.nextData, h0, hmin, unread, hstop, hlt, List.take_take]
  · obtain ⟨f, ⟨hdata, hflag, -, hgoing, -⟩, hnext⟩ := nextData_netascii h1 hstop
    have hne : ¬ c.modeFlag = 0 := by rw [h1]; decide
    have hun : unread c = pendingOf c.nextch (text c.fp) := if_neg hne
    rw [List.nil_append] at hdata
    rw [Bool.false_or] at hflag
    rw [hnext, hun]
    refine ⟨hdata, rfl, ?_⟩
    have hun' : unread { c with nextch := f.nextch, fp := f.fp, stopFlag := f.stopFlag } =
        pendingOf f.nextch (text f.fp) := if_neg hne
    dsimp only
    rw [hun', hflag]
    by_cases hlt : (pendingOf c.nextch (text c.fp)).length < nobytes
    · simp [restBlocks, hlt]
    · rw [(hgoing (Nat.le_of_not_lt hlt)).1]

/-! ### The invariant -/

/-- A session that goes on after `n` of the blocks `all`. -/
structure Going (all : List Bytes) (n : ℕ) (c : Child) : Prop where
  read : c.readFlag = true
  write : c.writeFlag = false
  mode : c.modeFlag = 0 ∨ c.modeFlag = 1
  block : c.blockNumber = n % 65536
  pack : c.sendPack.take c.sizeSp ∈ numbered 0 (all.take n)
  rest : all.drop n = restBlocks (unread c) c.stopFlag

/-- `n` of the blocks `all` have been sent, and nothing else was sent as DATA. -/
structure Feeds (all : List Bytes) (n : ℕ) (c : Child) : Prop where
  pos : 0 < n
  new : newData c.hist = numbered 0 (all.take n)
  again : ∀ dst d, Io.resend dst d ∈ c.hist → d ∈ numbered 0 (all.take n)
  going : c.status = .running → Going all n c

section Steps

variable {all : List Bytes} {n : ℕ} {c c' : Child}

theorem Feeds.over (h : Feeds all n c) (hs : c'.status ≠ .running) (hnew : newData c'.hist = newData c.hist)
    (hagain : ∀ dst d, Io.resend dst d ∈ c'.hist → Io.resend dst d ∈ c.hist) : Feeds all n c' :=
  ⟨h.pos, hnew.trans h.new, fun dst d hd => h.again dst d (hagain dst d hd), fun hr => absurd hr hs⟩

theorem Feeds.refuse (h : Feeds all n c) (code : UInt8) (msg : String) : Feeds all n (c.refuse code msg) := by
  refine h.over (by simp [Child.refuse]) ?_ fun dst d hd => ?_
  · show newData (c.transmit _).hist = _
    rw [hist_transmit, newData_errPack]
  · have hd' : Io.resend dst d ∈ (c.transmit (errPack code msg)).hist := hd
    rw [hist_transmit] at hd'
    simpa using hd'

theorem Feeds.timeout (h : Feeds all n c) (hrun : c.status = .running) : Feeds all n c.onTimeout := by
  obtain ⟨hr, hw, hmode, hblock, hpack, hrest⟩ := h.going hrun
  have hagain : ∀ dst d, Io.resend dst d ∈ Io.resend c.clientAddr (c.sendPack.take c.sizeSp) :: c.hist →
      d ∈ numbered 0 (all.take n) := by
    intro dst d hd
    rcases List.mem_cons.1 hd with hd | hd
    · cases hd
      exact hpack
    · exact h.again dst d hd
  -- the last packet goes out again, and the tenth time ends the session
  have ht : c.onTimeout =
      let c := { c with
        hist := .resend c.clientAddr (c.sendPack.take c.sizeSp) :: c.hist, timeCount := c.timeCount + 1 }
      if 10 ≤ c.timeCount then { c with stopFlag := true, status := .closed } else c :=
    if_pos ⟨hr, by simp [hw]⟩
  rw [ht]
  dsimp only
  split
  · exact ⟨h.pos, (newData_resend _ _ _).trans h.new, hagain, fun hc => by cases hc⟩
  · exact ⟨h.pos, (newData_resend _ _ _).trans h.new, hagain, fun _ => ⟨hr, hw, hmode, hblock, hpack, hrest⟩⟩

theorem Feeds.ack (h : Feeds all n c) (hrun : c.status = .running) (src : Addr) {d : Bytes}
    (hop : opcode (recvInto c.packet d) = 4) (hs : c.stopFlag = false) : Feeds all (n + 1) (c.step (.recv src d)) := by
  obtain ⟨hr, hw, hmode, hblock, hpack, hrest⟩ := h.going hrun
  obtain ⟨f1, f2, f3, -⟩ := nextData_frame (c.asked src d)
  obtain ⟨hdata, hkeep, hleft⟩ := nextData_unread (c := c.asked src d) hmode hs
  rw [show unread (c.asked src d) = unread c from rfl] at hdata hleft
  rw [hs, restBlocks_false] at hrest
  have hnum : (c.blockNumber + 1) % 65536 = (n + 1) % 65536 := by rw [hblock]; omega
  -- the packet built now is the next block, with the next number
  have hpkt : dataPack (c.blockNumber + 1) (c.asked src d).nextData.1 =
      dataPack (n + 1) ((unread c).take nobytes) := by
    rw [dataPack, hnum, hdata]
    rfl
  -- the blocks not yet sent begin with what is in front of the file position
  have htake : all.take (n + 1) = all.take n ++ [(unread c).take nobytes] := by
    have hget : all[n]? = some ((unread c).take nobytes) := by
      have h0 := congrArg (fun l : List Bytes => l[0]?) hrest
      simpa [List.getElem?_drop] using h0
    rw [List.take_add_one, hget]
    rfl
  have hlen : (all.take n).length = n := by
    have hle : n ≤ all.length := by
      by_contra hc
      rw [List.drop_of_length_le (by omega)] at hrest
      cases hrest
    rw [List.length_take, Nat.min_eq_left hle]
  have hnumbered : numbered 0 (all.take (n + 1)) =
      numbered 0 (all.take n) ++ [dataPack (n + 1) ((unread c).take nobytes)] := by
    rw [htake, numbered_append, hlen, Nat.zero_add]
    rfl
  have hhist := hist_asked_transmit c src d (dataPack (n + 1) ((unread c).take nobytes))
  have hpacked := take_sendPack_transmit (c.asked src d).nextData.2 (dataPack (n + 1) ((unread c).take nobytes))
  rw [step_asked src hrun hr hw hs hop, hpkt, hnum]
  refine ⟨by omega, ?_, fun dst e he => ?_, fun _ => ⟨f2.trans hr, f3.trans hw, ?_, rfl, ?_, ?_⟩⟩
  · show newData (Child.transmit _ _).hist = _
    rw [hhist, newData_send, newData_recv, h.new, hnumbered]
  · have he' : Io.resend dst e ∈ ((c.asked src d).nextData.2.transmit
        (dataPack (n + 1) ((unread c).take nobytes))).hist := he
    rw [hhist] at he'
    have hmem : Io.resend dst e ∈ c.hist := by simpa using he'
    rw [hnumbered]
    exact List.mem_append_left _ (h.again dst e hmem)
  · show (c.asked src d).nextData.2.modeFlag = 0 ∨ (c.asked src d).nextData.2.modeFlag = 1
    rw [hkeep]
    exact hmode
  · rw [hnumbered]
    refine List.mem_append_right _ ?_
    rw [List.mem_singleton]
    exact hpacked
  · have hdrop : all.drop (n + 1) =
        restBlocks ((unread c).drop nobytes) (decide ((unread c).length < nobytes)) := by
      rw [← List.drop_drop, hrest]
      rfl
    rw [hdrop, ← hleft]
    rfl

theorem Feeds.recv (h : Feeds all n c) (hrun : c.status = .running) (src : Addr) (d : Bytes) :
    ∃ m, Feeds all m (c.step (.recv src d)) := by
  obtain ⟨hr, hw, hmode, hblock, hpack, hrest⟩ := h.going hrun
  -- a datagram alone changes nothing, so each branch starts from the same state
  have hrecv : Feeds all n (c.received src d) :=
    ⟨h.pos, (newData_recv _ _ _).trans h.new, fun dst e he => h.again dst e (by simpa [Child.received] using he),
      fun _ => ⟨hr, hw, hmode, hblock, hpack, hrest⟩⟩
  have hstep := step_recv hrun src d
  have hclosed : ∀ {e : Child}, Feeds all n e → e.status ≠ .running → Feeds all n e.clearPacket := by
    intro e he hne
    rw [clearPacket_of_ne hne]
    exact he
  rcases dispatch_cases (c.received src d) with ⟨-, hd⟩ | ⟨h4, hd⟩ | ⟨-, hd⟩ | ⟨-, hd⟩
  · -- a DATA packet ends a read session
    have hdata : (c.received src d).onData =
        { c.received src d with sendPack := zeros 517 }.refuse 0 "Access violation." := if_pos (Or.inl hr)
    have hrefuse : Feeds all n { c.received src d with sendPack := zeros 517, status := .closed } :=
      hrecv.over (by simp) rfl fun _ _ => id
    refine ⟨n, ?_⟩
    rw [hstep, hd, hdata]
    exact hclosed (hrefuse.refuse 0 "Access violation.") (by simp [Child.refuse])
  · cases hs : c.stopFlag with
    | false => exact ⟨n + 1, h.ack hrun src h4 hs⟩
    | true =>
      refine ⟨n, ?_⟩
      rw [hstep, hd, onAck_stop (c := c.received src d) hr hw hs]
      exact hclosed (hrecv.over (by simp) rfl fun _ _ => id) (by simp)
  · -- an ERROR packet overruns `ErrMsg`
    refine ⟨n, ?_⟩
    rw [hstep, hd]
    exact hclosed (hrecv.over (by simp [Child.onError]) rfl fun _ _ => id) (by simp [Child.onError])
  · refine ⟨n, ?_⟩
    rw [hstep, hd, clearPacket_running (c := c.received src d) hrun]
    exact ⟨hrecv.pos, hrecv.new, hrecv.again, fun _ => ⟨hr, hw, hmode, hblock, hpack, hrest⟩⟩

theorem Feeds.step (h : Feeds all n c) (e : Ev) : ∃ m, Feeds all m (c.step e) := by
  by_cases hrun : c.status = .running
  · cases e with
    | timeout => exact ⟨n, by rw [step_timeout hrun]; exact h.timeout hrun⟩
    | recv src d => exact h.recv hrun src d
  · exact ⟨n, by rw [step_of_ne_running hrun]; exact h⟩

theorem Feeds.run (h : Feeds all n c) (evs : List Ev) : ∃ m, Feeds all m (evs.foldl Child.step c) := by
  induction evs generalizing n c with
  | nil => exact ⟨n, h⟩
  | cons e evs ih =>
    obtain ⟨m, hm⟩ := h.step e
    exact ih hm

end Steps

/-! ### The start of a session -/

section Start

variable {mem : Mem} {fs : FileSys} {req s : Bytes} (src : Addr)

theorem feeds_first {c : Child} {b : Bytes} {bs : List Bytes} (hhist : c.hist = [.recv src req])
    (hr : c.readFlag = true) (hw : c.writeFlag = false) (hmode : c.modeFlag = 0 ∨ c.modeFlag = 1)
    (hrest : bs = restBlocks (unread c) c.stopFlag) :
    Feeds (b :: bs) 1 { c.transmit ([0, 3, 0, 1] ++ b) with blockNumber := 1 } := by
  -- nothing was sent before this packet
  have hhist' : (c.transmit ([0, 3, 0, 1] ++ b)).hist = [.send c.clientAddr (dataPack 1 b), .recv src req] := by
    rw [hist_transmit, hhist, dataPack_one]
  refine ⟨by omega, ?_, fun dst d hd => ?_, fun _ => ⟨hr, hw, hmode, rfl, ?_, hrest⟩⟩
  · show newData (c.transmit _).hist = _
    rw [hhist', newData_send]
    rfl
  · have hd' : Io.resend dst d ∈ (c.transmit ([0, 3, 0, 1] ++ b)).hist := hd
    rw [hhist'] at hd'
    simp at hd'
  · show (c.transmit ([0, 3, 0, 1] ++ b)).sendPack.take (c.transmit ([0, 3, 0, 1] ++ b)).sizeSp ∈ _
    rw [take_sendPack_transmit, dataPack_one]
    exact List.mem_singleton_self _

theorem feeds_start (hop : opcode (recvInto mem.packet req) = 1) (hs : stream mem fs req = some s) :
    Feeds (blocksOf s) 1 (Child.start mem fs src req) := by
  unfold stream at hs
  cases hreq : parseReq (recvInto mem.packet req) with
  | none =>
    rw [hreq] at hs
    cases hs
  | some names =>
    obtain ⟨filename, mode⟩ := names
    rw [hreq] at hs
    dsimp only at hs
    rw [start_rrq hop]
    by_cases ho : isOctet mode = true
    · rw [if_pos ho] at hs
      obtain ⟨file, hfile, rfl⟩ := Option.map_eq_some_iff.1 hs
      rw [rrq_octet (c := Child.forked mem src req) hreq ho hfile]
      have hlen : ((blit mem.data 0 (file.take nobytes)).take nobytes).length = nobytes := by
        have hd := mem.data_length
        have hle : 0 + (file.take nobytes).length ≤ mem.data.length := by
          rw [hd, List.length_take, Nat.zero_add]
          exact (Nat.min_le_left _ _).trans (by decide)
        rw [List.length_take, length_blit hle, hd]
        rfl
      -- the first block is the buffer over which the file was read
      have hblocks : blocksOf ((blit mem.data 0 (file.take nobytes)).take nobytes ++ file.drop nobytes) =
          (blit mem.data 0 (file.take nobytes)).take nobytes :: restBlocks (file.drop nobytes) false := by
        have hle : nobytes ≤ ((blit mem.data 0 (file.take nobytes)).take nobytes ++ file.drop nobytes).length := by
          rw [List.length_append, hlen]
          omega
        rw [blocksOf, chunks_of_le hle, List.take_left' hlen, List.drop_left' hlen]
        rfl
      rw [hblocks]
      exact feeds_first src rfl rfl rfl (Or.inl rfl) rfl
    · rw [if_neg ho] at hs
      by_cases hn : isNetascii mode = true
      · rw [if_pos hn] at hs
        obtain ⟨file, hfile, rfl⟩ := Option.map_eq_some_iff.1 hs
        -- the loop for the first block is the one for the others, started with no character pending
        have hloop := rrqLoop_eq_ackLoop nobytes
          { data := [], nextch := eofChar, fp := file, stopFlag := false } rfl
        have hfill := fills_ackLoop nobytes { data := [], nextch := eofChar, fp := file, stopFlag := false }
        generalize ackLoop nobytes { data := [], nextch := eofChar, fp := file, stopFlag := false } = f at hloop hfill
        obtain ⟨hdata, hflag, -, hgoing, -⟩ := hfill
        simp only [pendingOf_eof, List.nil_append, Bool.false_or] at hdata hflag hgoing
        rw [rrq_netascii (c := Child.forked mem src req) hreq hn hfile hloop, blocksOf, chunks_eq_restBlocks,
          ← hdata]
        refine feeds_first src rfl rfl rfl (Or.inr rfl) ?_
        show _ = restBlocks (pendingOf f.nextch (text f.fp)) f.stopFlag
        rw [hflag]
        by_cases hlt : (netascii (text file)).length < nobytes
        · simp [restBlocks, hlt]
        · rw [(hgoing (Nat.le_of_not_lt hlt)).1]
      · rw [if_neg hn] at hs
        cases hs

/-- **The DATA packets of a session, whatever it receives**: in every state they are the first blocks of its
stream, numbered from 1 on, each built once and in order, and a retransmission is one of them again. -/
theorem newData_run (hop : opcode (recvInto mem.packet req) = 1) (hs : stream mem fs req = some s)
    (evs : List Ev) : ∃ n, 0 < n ∧
      newData (evs.foldl Child.step (Child.start mem fs src req)).hist = numbered 0 ((blocksOf s).take n) ∧
      ∀ dst d, Io.resend dst d ∈ (evs.foldl Child.step (Child.start mem fs src req)).hist →
        d ∈ numbered 0 ((blocksOf s).take n) := by
  obtain ⟨n, h⟩ := (feeds_start src hop hs).run evs
  exact ⟨n, h.pos, h.new, h.again⟩

theorem stream_lf :
    stream Mem.clear (FileSys.single [97, 10, 98]) (request 1 "netascii") = some [97, 13, 10, 98] := by
  unfold stream
  rw [parseReq_request_netascii]
  decide

theorem newData_lf : ∃ n, 0 < n ∧
    newData ([.timeout, .recv 0 (ackPack 1)].foldl Child.step
      (Child.start Mem.clear (FileSys.single [97, 10, 98]) 0 (request 1 "netascii"))).hist =
        numbered 0 ((blocksOf [97, 13, 10, 98]).take n) := by
  obtain ⟨n, hn, hnew, -⟩ := newData_run 0 (by decide) stream_lf [.timeout, .recv 0 (ackPack 1)]
  exact ⟨n, hn, hnew⟩

end Start

/-! ### The client -/

/-- A client of a download: how many blocks it has taken, their payloads, and whether a short one was among
them. -/
structure Receiver where
  blocks : ℕ
  data : Bytes
  done : Bool
  deriving DecidableEq, Repr

namespace Receiver

def empty : Receiver := ⟨0, [], false⟩

/-- A datagram reaches the client: a DATA packet with the number of the next block is taken, and anything else is
left alone. -/
def recv (r : Receiver) (d : Bytes) : Receiver :=
  if r.done = false ∧ d.take 2 = [0, 3] ∧ blockNo d = (r.blocks + 1) % 65536 then
    ⟨r.blocks + 1, r.data ++ d.drop 4, decide (d.length < 4 + nobytes)⟩
  else r

/-- The client has taken the first blocks of `all`, and is done with the last of them only. -/
structure Took (all : List Bytes) (r : Receiver) : Prop where
  data : r.data = (all.take r.blocks).flatten
  le : r.blocks ≤ all.length
  done : r.done = true → r.blocks = all.length

variable {all : List Bytes} {r : Receiver}

/-- A packet of the session, whichever it is and however often it comes. -/
theorem Took.recv (h : r.Took all) (hfew : all.length < 65536) (hfull : ∀ b ∈ all.dropLast, b.length = nobytes)
    {d : Bytes} (hd : d.take 2 = [0, 3] → d ∈ numbered 0 all) : (r.recv d).Took all := by
  unfold Receiver.recv
  split
  · rename_i hc
    obtain ⟨hgo, hop, hno⟩ := hc
    obtain ⟨i, hi⟩ := List.mem_iff_getElem?.1 (hd hop)
    rw [getElem?_numbered, Option.map_eq_some_iff] at hi
    obtain ⟨b, hb, rfl⟩ := hi
    obtain ⟨hlt, -⟩ := List.getElem?_eq_some_iff.1 hb
    have hle := h.le
    -- both numbers are below 65536, except that the client may have taken the last block of all
    obtain rfl : i = r.blocks := by
      rw [blockNo_dataPack] at hno
      omega
    refine ⟨?_, hlt, fun hdone => ?_⟩
    · rw [List.take_add_one, hb, h.data]
      simp
    · rw [length_dataPack] at hdone
      have hshort : b.length < nobytes := by
        have hlen : b.length + 4 < 4 + nobytes := of_decide_eq_true hdone
        omega
      by_contra hne
      have hlast : r.blocks + 1 ≠ all.length := hne
      have hmem : b ∈ all.dropLast := by
        refine List.mem_iff_getElem?.2 ⟨r.blocks, ?_⟩
        rw [List.dropLast_eq_take, List.getElem?_take_of_lt (by omega), hb]
      have hlen := hfull b hmem
      omega
  · exact h

theorem took_empty (all : List Bytes) : empty.Took all := ⟨rfl, Nat.zero_le _, fun h => by cases h⟩

theorem Took.foldl (hfew : all.length < 65536) (hfull : ∀ b ∈ all.dropLast, b.length = nobytes) :
    ∀ (ds : List Bytes) {r : Receiver}, r.Took all → (∀ d ∈ ds, d.take 2 = [0, 3] → d ∈ numbered 0 all) →
      (ds.foldl Receiver.recv r).Took all := by
  intro ds
  induction ds with
  | nil => intro r h _; exact h
  | cons d ds ih =>
    intro r h hds
    exact ih (h.recv hfew hfull (hds d List.mem_cons_self)) fun d' hd' => hds d' (List.mem_cons_of_mem _ hd')

end Receiver

/-- A stream has one block for each 512 bytes, and the short one. -/
theorem length_blocksOf : ∀ s : Bytes, (blocksOf s).length = s.length / nobytes + 1 := by
  intro s
  induction hn : s.length using Nat.strong_induction_on generalizing s with
  | _ m ih =>
    subst hn
    by_cases hlt : s.length < nobytes
    · rw [blocksOf, chunks_of_lt hlt, Nat.div_eq_of_lt hlt]
      rfl
    · have hle := Nat.le_of_not_lt hlt
      have hpos := nobytes_pos
      have hrest := ih (s.drop nobytes).length (by rw [List.length_drop]; omega) (s.drop nobytes) rfl
      rw [blocksOf, chunks_of_le hle, List.length_cons, Nat.div_eq_sub_div hpos hle, ← List.length_drop]
      exact congrArg (· + 1) hrest

theorem numbered_take_subset (all : List Bytes) (n : ℕ) : numbered 0 (all.take n) ⊆ numbered 0 all := by
  have h := numbered_append 0 (all.take n) (all.drop n)
  rw [List.take_append_drop] at h
  rw [h]
  exact List.subset_append_left _ _

theorem mem_numbered_of_transmitted {hist : List Io} {all : List Bytes} {n : ℕ}
    (hnew : newData hist = numbered 0 (all.take n))
    (hagain : ∀ dst d, Io.resend dst d ∈ hist → d ∈ numbered 0 (all.take n)) {d : Bytes}
    (hd : d ∈ transmitted hist) (hop : d.take 2 = [0, 3]) : d ∈ numbered 0 all := by
  apply numbered_take_subset all n
  unfold transmitted at hd
  rw [List.mem_reverse, List.mem_filterMap] at hd
  obtain ⟨io, hio, hsent⟩ := hd
  cases io with
  | recv src e => cases hsent
  | resend dst e =>
    cases hsent
    exact hagain dst d hio
  | send dst e =>
    cases hsent
    rw [← hnew, newData, List.mem_reverse, List.mem_filterMap]
    refine ⟨_, hio, ?_⟩
    rw [Io.data?]
    exact if_pos hop

/-- **What arrives is the beginning of the stream, and all of it when the client thinks so.**  The child may get
any datagrams from anyone and any timeouts; the client may get any of the datagrams that the child has sent, any
number of times and in any order.  The one thing that is needed is that no two blocks have the same number. -/
theorem received_beginning {mem : Mem} {fs : FileSys} {req s : Bytes} (src : Addr)
    (hop : opcode (recvInto mem.packet req) = 1) (hs : stream mem fs req = some s)
    (hlen : s.length < 65535 * nobytes) (evs : List Ev) (ds : List Bytes)
    (hds : ∀ d ∈ ds, d ∈ transmitted (evs.foldl Child.step (Child.start mem fs src req)).hist) :
    (ds.foldl Receiver.recv Receiver.empty).data <+: s ∧
      ((ds.foldl Receiver.recv Receiver.empty).done = true →
        (ds.foldl Receiver.recv Receiver.empty).data = s) := by
  obtain ⟨n, -, hnew, hagain, -⟩ := (feeds_start src hop hs).run evs
  have hfew : (blocksOf s).length < 65536 := by
    have hdiv : s.length / nobytes < 65535 := Nat.div_lt_of_lt_mul (by rwa [Nat.mul_comm])
    rw [length_blocksOf]
    omega
  have htook := Receiver.Took.foldl hfew (length_of_mem_dropLast_chunks s) ds (Receiver.took_empty _)
    fun d hd hop' => mem_numbered_of_transmitted hnew hagain (hds d hd) hop'
  have hall : (blocksOf s).flatten = s := chunks_flatten s
  refine ⟨?_, fun hdone => ?_⟩
  · rw [htook.data]
    refine ⟨((blocksOf s).drop (ds.foldl Receiver.recv Receiver.empty).blocks).flatten, ?_⟩
    rw [← List.flatten_append, List.take_append_drop, hall]
  · rw [htook.data, htook.done hdone, List.take_length, hall]

/-- Three copies of the one block. -/
theorem received_lf :
    ((transmitted ([.timeout, .timeout].foldl Child.step
      (Child.start Mem.clear (FileSys.single [97, 10, 98]) 0 (request 1 "netascii"))).hist).foldl
        Receiver.recv Receiver.empty).data <+: [97, 13, 10, 98] :=
  (received_beginning 0 (by decide) stream_lf (by decide) [.timeout, .timeout] _ fun _ h => h).1

end TamuProofs.Tftp
