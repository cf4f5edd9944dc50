import TamuProofs.Tftp.Peer
import TamuProofs.Tftp.Upload

/-!
# Timeouts of the TFTP server

A timeout of a read session sends `send_pack` once more, and every branch of the loop that goes on leaves in
it the block sent last: `Faithful` is what holds at the head of the loop.

* `faithful_transmit` — building a block establishes it;
* `Sending.step` — every turn of the loop keeps it, and no more than ten resends ever stand in a row;
* `Sending.run` — hence it holds in every state of a read session.

A timeout is counted in a read session and in a write session.  A child whose first datagram was neither
request has no timeouts to count, and of one that has overrun a buffer nothing is known: `leaves_iff_attended` says
exactly which children are gone when the client falls silent.
-/

namespace TamuProofs.Tftp

open TamuProofs.Lib

/-! ### Resends -/

/-- How many resends stand at the end of a history. -/
def resends : List Io → ℕ
  | .resend _ _ :: hist => resends hist + 1
  | _ => 0

/-- There are at most ten resends in a row anywhere in a history. -/
def ResendsBounded (hist : List Io) : Prop := ∀ older, older <:+ hist → resends older ≤ 10

theorem resendsBounded_cons {io : Io} {hist : List Io} :
    ResendsBounded (io :: hist) ↔ resends (io :: hist) ≤ 10 ∧ ResendsBounded hist := by
  constructor
  · intro h
    exact ⟨h _ List.suffix_rfl, fun older ho => h older (ho.trans (List.suffix_cons _ _))⟩
  · rintro ⟨h, h'⟩ older ho
    rcases List.suffix_cons_iff.1 ho with rfl | ho
    · exact h
    · exact h' older ho

theorem ResendsBounded.recv {hist : List Io} (h : ResendsBounded hist) (src : Addr) (d : Bytes) :
    ResendsBounded (.recv src d :: hist) := resendsBounded_cons.2 ⟨Nat.zero_le _, h⟩

theorem ResendsBounded.send {hist : List Io} (h : ResendsBounded hist) (dst : Addr) (d : Bytes) :
    ResendsBounded (.send dst d :: hist) := resendsBounded_cons.2 ⟨Nat.zero_le _, h⟩

theorem resendsBounded_recv (src : Addr) (d : Bytes) : ResendsBounded [.recv src d] :=
  resendsBounded_cons.2 ⟨Nat.zero_le _, fun older h => by simp [List.suffix_nil.1 h, resends]⟩

/-! ### The head of the loop of a read session -/

/-- **What a read session resends**: the first `size_sp` bytes of `send_pack` are the datagram sent most
recently, which is the last block; `block_number` counts the blocks and is the number of that block; and
fewer than ten timeouts have been counted. -/
structure Faithful (c : Child) : Prop where
  pack : c.sendPack.take c.sizeSp = lastSent c.hist
  block : ∃ dst, c.hist.find? Io.isBlock = some (.send dst (lastSent c.hist))
  size : 4 ≤ c.sizeSp ∧ c.sizeSp ≤ 516
  count : c.blockNumber = blocks c.hist % 65536
  number : blockNo c.sendPack = c.blockNumber
  time : c.timeCount ≤ 9

/-- A read session: at the head of the loop it is faithful and counts its resends. -/
structure Sending (c : Child) : Prop where
  read : c.readFlag = true
  write : c.writeFlag = false
  faithful : c.status = .running → Faithful c ∧ c.timeCount = resends c.hist
  bounded : ResendsBounded c.hist

theorem sending_of_not_running {c : Child} (hr : c.readFlag = true) (hw : c.writeFlag = false)
    (hrun : c.status ≠ .running) (hb : ResendsBounded c.hist) : Sending c :=
  ⟨hr, hw, fun h => absurd h hrun, hb⟩

theorem blockNo_append {d : Bytes} (hd : 4 ≤ d.length) (rest : Bytes) : blockNo (d ++ rest) = blockNo d := by
  match d, hd with
  | _ :: _ :: _ :: _ :: d, _ => rfl

theorem blockNo_transmit (c : Child) (k : ℕ) (b : Bytes) :
    blockNo (c.transmit (dataPack k b)).sendPack = k % 65536 := by
  show blockNo (blit c.sendPack 0 (dataPack k b)) = _
  rw [blit_zero, blockNo_append (by simp), blockNo_dataPack]

theorem isBlock_dataPack (dst : Addr) (k : ℕ) (b : Bytes) : (Io.send dst (dataPack k b)).isBlock = true := rfl

section Steps

variable {c : Child}

theorem faithful_transmit {k : ℕ} {b p : Bytes} (hb : b.length ≤ nobytes)
    (hk : (blocks c.hist + 1) % 65536 = k % 65536) (ht : c.timeCount ≤ 9) :
    Faithful { c.transmit (dataPack k b) with blockNumber := k % 65536, packet := p } := by
  have hhist : (c.transmit (dataPack k b)).hist = .send c.clientAddr (dataPack k b) :: c.hist := hist_transmit _ _
  have hlast : lastSent (c.transmit (dataPack k b)).hist = dataPack k b := by rw [hhist]; rfl
  have hlen : (dataPack k b).length = b.length + 4 := length_dataPack k b
  refine ⟨?_, ⟨c.clientAddr, ?_⟩, ?_, ?_, blockNo_transmit c k b, ht⟩
  · exact (take_sendPack_transmit c _).trans hlast.symm
  · show (c.transmit (dataPack k b)).hist.find? Io.isBlock = some (.send _ (lastSent (c.transmit _).hist))
    rw [hlast, hhist, List.find?_cons_of_pos (isBlock_dataPack _ k b)]
  · show 4 ≤ (dataPack k b).length ∧ (dataPack k b).length ≤ 516
    rw [hlen]
    exact ⟨Nat.le_add_left 4 _, Nat.add_le_add_right hb 4⟩
  · show k % 65536 = blocks (c.transmit (dataPack k b)).hist % 65536
    rw [hhist, blocks_cons, isBlock_dataPack, if_pos rfl, hk]

theorem length_nextData_le (c : Child) : c.nextData.1.length ≤ nobytes := by
  unfold Child.nextData
  dsimp only
  split_ifs
  · rw [List.take_take]
    exact (List.length_take_le _ _).trans (by omega)
  · exact List.length_take_le _ _
  · exact (length_ackLoop_le _ _).trans (by simp)

/-- **What a datagram does to a read session**: it asks for the next block, or it is ignored, or the session does not go
on, with or without an error packet. -/
theorem step_recv_read (hrun : c.status = .running) (hr : c.readFlag = true) (hw : c.writeFlag = false)
    (src : Addr) (d : Bytes) :
    Asks c d ∨ c.step (.recv src d) = { c.received src d with packet := zeros maxChar } ∨
      (c.step (.recv src d)).status ≠ .running ∧
        ((c.step (.recv src d)).hist = .recv src d :: c.hist ∨
          ∃ d', (c.step (.recv src d)).hist = .send src d' :: .recv src d :: c.hist) := by
  rw [step_recv hrun]
  rcases dispatch_cases (c.received src d) with ⟨-, hd⟩ | ⟨h4, hd⟩ | ⟨-, hd⟩ | ⟨-, hd⟩
  · rw [hd, clearPacket_status, clearPacket_hist]
    refine Or.inr (Or.inr ⟨?_, Or.inr (onData_sends (c.received src d))⟩)
    rw [onData_closed (c := c.received src d) hr]
    decide
  · cases hs : c.stopFlag with
    | false => exact Or.inl ⟨hr, hw, hs, h4⟩
    | true =>
      rw [hd, onAck_stop (c := c.received src d) hr hw hs, clearPacket_status, clearPacket_hist]
      exact Or.inr (Or.inr ⟨by simp, Or.inl rfl⟩)
  · rw [hd, clearPacket_status, clearPacket_hist]
    exact Or.inr (Or.inr ⟨by simp [Child.onError], Or.inl rfl⟩)
  · rw [hd]
    exact Or.inr (Or.inl (clearPacket_running hrun))

/-- The timeout of a read session: the packet goes out again, and the tenth time in a row is the last. -/
theorem step_timeout_read (hrun : c.status = .running) (hr : c.readFlag = true) (hw : c.writeFlag = false) :
    c.step .timeout =
      let c' := { c with
        hist := .resend c.clientAddr (c.sendPack.take c.sizeSp) :: c.hist
        timeCount := c.timeCount + 1 }
      if 10 ≤ c'.timeCount then { c' with stopFlag := true, status := .closed } else c' := by
  rw [step_timeout hrun]
  simp [Child.onTimeout, hr, hw]

theorem Faithful.timeout (h : Faithful c) (ht : ¬ 10 ≤ c.timeCount + 1) :
    Faithful { c with
      hist := .resend c.clientAddr (c.sendPack.take c.sizeSp) :: c.hist
      timeCount := c.timeCount + 1 } := by
  obtain ⟨hpack, ⟨dst, hblock⟩, hsize, hcount, hnum, -⟩ := h
  have hlast : lastSent (.resend c.clientAddr (c.sendPack.take c.sizeSp) :: c.hist) = lastSent c.hist := hpack
  refine ⟨hpack.trans hlast.symm, ⟨dst, ?_⟩, hsize, ?_, hnum, Nat.le_of_not_lt ht⟩
  · show (Io.resend _ _ :: c.hist).find? Io.isBlock = _
    rw [hlast, List.find?_cons_of_neg (by simp [Io.isBlock])]
    exact hblock
  · show c.blockNumber = blocks (.resend _ _ :: c.hist) % 65536
    rw [blocks_cons]
    exact hcount

theorem Faithful.ignored (h : Faithful c) (src : Addr) (d : Bytes) :
    Faithful { c.received src d with packet := zeros maxChar } := by
  obtain ⟨hpack, ⟨dst, hblock⟩, hsize, hcount, hnum, -⟩ := h
  refine ⟨hpack, ⟨dst, ?_⟩, hsize, ?_, hnum, Nat.zero_le _⟩
  · show (Io.recv _ _ :: c.hist).find? Io.isBlock = _
    rw [List.find?_cons_of_neg (by simp [Io.isBlock])]
    exact hblock
  · show c.blockNumber = blocks (.recv _ _ :: c.hist) % 65536
    rw [blocks_cons]
    exact hcount

theorem Sending.asked {src : Addr} {d : Bytes} (h : Sending c) (hrun : c.status = .running) (ha : Asks c d) :
    Sending (c.step (.recv src d)) := by
  obtain ⟨hf, -⟩ := h.faithful hrun
  obtain ⟨hr, hw, hs, hop⟩ := ha
  obtain ⟨-, f2, f3, -, f5, -, f7⟩ := nextData_frame (c.asked src d)
  have hhist := hist_asked_transmit c src d (dataPack (c.blockNumber + 1) (c.asked src d).nextData.1)
  have hk : (blocks (c.asked src d).nextData.2.hist + 1) % 65536 = (c.blockNumber + 1) % 65536 := by
    have hb : blocks (c.asked src d).nextData.2.hist = blocks c.hist := by
      rw [f7]
      exact blocks_cons _ _
    rw [hb, hf.count]
    omega
  rw [step_asked src hrun hr hw hs hop]
  refine ⟨f2.trans hr, f3.trans hw, fun _ => ⟨?_, ?_⟩, ?_⟩
  · exact faithful_transmit (length_nextData_le _) hk (f5.trans_le (Nat.zero_le _))
  · exact f5.trans (congrArg resends hhist).symm
  · show ResendsBounded (Child.transmit _ _).hist
    rw [hhist]
    exact (h.bounded.recv src d).send src _

/-- **One turn of the loop** of a read session. -/
theorem Sending.step (h : Sending c) (e : Ev) : Sending (c.step e) := by
  by_cases hrun : c.status ≠ .running
  · rw [step_of_ne_running hrun]
    exact h
  rw [not_not] at hrun
  obtain ⟨hf, htime⟩ := h.faithful hrun
  cases e with
  | timeout => -- the counter goes up with each retransmission, and the tenth ends the session
    have hcount : resends (.resend c.clientAddr (c.sendPack.take c.sizeSp) :: c.hist) = c.timeCount + 1 :=
      congrArg (· + 1) htime.symm
    have hbound : ResendsBounded (.resend c.clientAddr (c.sendPack.take c.sizeSp) :: c.hist) := by
      have := hf.time
      exact resendsBounded_cons.2 ⟨by omega, h.bounded⟩
    rw [step_timeout_read hrun h.read h.write]
    dsimp only
    split
    · exact sending_of_not_running h.read h.write (by simp) hbound
    · rename_i ht
      exact ⟨h.read, h.write, fun _ => ⟨hf.timeout ht, hcount.symm⟩, hbound⟩
  | recv src d =>
    have hflags := step_flags c (.recv src d)
    rcases step_recv_read hrun h.read h.write src d with ha | heq | ⟨hover, hhist⟩
    · exact h.asked hrun ha
    · rw [heq]
      exact ⟨h.read, h.write, fun _ => ⟨hf.ignored src d, rfl⟩, h.bounded.recv src d⟩
    · refine sending_of_not_running (hflags.1.trans h.read) (hflags.2.trans h.write) hover ?_
      rcases hhist with hhist | ⟨d', hhist⟩
      · rw [hhist]
        exact h.bounded.recv src d
      · rw [hhist]
        exact (h.bounded.recv src d).send src d'

theorem Sending.run (h : Sending c) (evs : List Ev) : Sending (evs.foldl Child.step c) :=
  List.foldlRecOn evs Child.step h fun _ hc e _ => hc.step e

end Steps

/-! ### Whole read sessions -/

section Start

variable {c : Child} {src : Addr} {req : Bytes}

theorem sending_first {b : Bytes} (hhist : c.hist = [.recv src req]) (hr : c.readFlag = true)
    (hw : c.writeFlag = false) (ht : c.timeCount = 0) (hb : b.length ≤ nobytes) :
    Sending { c.transmit ([0, 3, 0, 1] ++ b) with blockNumber := 1 } := by
  have hhist' : (c.transmit ([0, 3, 0, 1] ++ b)).hist = [.send c.clientAddr (dataPack 1 b), .recv src req] := by
    rw [hist_transmit, hhist, dataPack_one]
  refine ⟨hr, hw, fun _ => ⟨?_, ?_⟩, ?_⟩
  · exact faithful_transmit (k := 1) hb (by rw [hhist]; rfl) (ht.trans_le (Nat.zero_le _))
  · exact ht.trans (congrArg resends hhist').symm
  · show ResendsBounded (Child.transmit _ _).hist
    rw [hhist']
    exact (resendsBounded_recv src req).send _ _

theorem sending_rrq (data : Bytes) (fs : FileSys) (hhist : c.hist = [.recv src req]) (hs : c.stopFlag = false)
    (ht : c.timeCount = 0) : Sending (c.rrq data fs) := by
  obtain ⟨hr, hw⟩ := rrq_flags c data fs
  rcases rrq_cases c data fs with h | ⟨-, c', b, heq, ho, hb⟩
  · rcases h with ⟨-, hst, hh⟩ | ⟨-, ⟨hst, hh⟩ | ⟨hst, code, msg, hh⟩⟩
    all_goals
      refine sending_of_not_running hr hw (by simp [hst]) ?_
      rw [hh, hhist]
    · exact resendsBounded_recv src req
    · exact resendsBounded_recv src req
    · exact (resendsBounded_recv src req).send _ _
  · rw [heq]
    exact sending_first (ho.hist.trans hhist) ho.read ho.write (ho.time.trans ht) (hb hs)

/-- **Retransmissions are faithful**: in every state of a read session at the head of the loop, `send_pack`
holds the last block as it was sent, a timeout sends it once more, and no more than ten resends ever happen
in a row. -/
theorem faithful_of_run (mem : Mem) (fs : FileSys) (src : Addr) (req : Bytes)
    (hop : opcode (recvInto mem.packet req) = 1) (evs : List Ev) {c : Child}
    (hc : evs.foldl Child.step (Child.start mem fs src req) = c) :
    (c.status = .running →
      Faithful c ∧ (c.step .timeout).hist = .resend c.clientAddr (lastSent c.hist) :: c.hist) ∧
      ResendsBounded c.hist := by
  have hsend : Sending c := by
    rw [← hc, start_rrq hop]
    exact (sending_rrq mem.data fs rfl rfl rfl).run evs
  refine ⟨fun hrun => ?_, hsend.bounded⟩
  obtain ⟨hf, -⟩ := hsend.faithful hrun
  refine ⟨hf, ?_⟩
  rw [step_timeout_read hrun hsend.read hsend.write, hf.pack]
  dsimp only
  split <;> rfl

theorem faithful_one_letter :
    Faithful ((Child.start Mem.clear (FileSys.single [97]) 0 (request 1 "netascii")).step .timeout) :=
  ((faithful_of_run Mem.clear (FileSys.single [97]) 0 (request 1 "netascii") (by decide) [.timeout] rfl).1
    (by decide)).1

end Start

/-! ### Silence -/

/-- The child has left the transfer loop. -/
def Leaves (c : Child) : Prop := c.status = .closed ∨ c.status = .exited

/-- The opcodes that a child finds in `packet`, which holds `packet` before the first datagram and nothing
from then on. -/
def opcodesSeen : Bytes → List Ev → List UInt8
  | _, [] => []
  | packet, .timeout :: evs => opcodesSeen packet evs
  | packet, .recv _ d :: evs => opcode (recvInto packet d) :: opcodesSeen (zeros maxChar) evs

/-- The first datagram, as it is in `packet`, is a request, or one of the datagrams after it looks like a DATA or an ACK
packet. -/
def Attended (packet : Bytes) (evs : List Ev) : Prop :=
  (opcode packet = 1 ∨ opcode packet = 2) ∨ ∃ op ∈ opcodesSeen packet evs, op = 3 ∨ op = 4

/-- A running child gets no ERROR packet. -/
def NoError (c : Child) : Ev → Prop
  | .timeout => True
  | .recv _ d => c.status = .running → opcode (recvInto c.packet d) ≠ 5

section Silence

variable {c : Child}

theorem Leaves.ne_running (h : Leaves c) : c.status ≠ .running := by
  rcases h with h | h <;> simp [h]

theorem Leaves.step (h : Leaves c) (e : Ev) : Leaves (c.step e) := by
  rw [step_of_ne_running h.ne_running]
  exact h

theorem Leaves.pause (h : Leaves c) (t : ℕ) : Leaves (pause t c) := by
  rw [pause_of_ne_running h.ne_running]
  exact h

theorem step_status (hrun : c.status = .running) {e : Ev} (he : NoError c e) :
    (c.step e).status = .running ∨ (c.step e).status = .closed := by
  cases e with
  | timeout =>
    rw [step_timeout hrun]
    exact onTimeout_status hrun
  | recv src d =>
    rw [step_recv hrun, clearPacket_status]
    exact dispatch_status (c := c.received src d) hrun (he hrun)

/-- An ERROR packet is the end of all that is known. -/
theorem fault_of_error {evs : List Ev} (h : ¬ AllSteps Child.turn NoError c evs) :
    (evs.foldl Child.step c).status = .fault := by
  induction evs generalizing c with
  | nil => exact absurd trivial h
  | cons e evs ih =>
    rw [allSteps_cons_some (show Child.turn c e = some (c.step e) from rfl), not_and] at h
    by_cases he : NoError c e
    · exact ih (h he)
    · cases e with
      | timeout => exact absurd trivial he
      | recv src d =>
        rw [NoError, Classical.not_imp, not_not] at he
        obtain ⟨hrun, hop⟩ := he
        have hd : (c.received src d).dispatch = (c.received src d).onError := by
          have hop : opcode (c.received src d).packet = 5 := hop
          simp [Child.dispatch, hop]
        have hfault : (c.step (.recv src d)).status = .fault := by
          rw [step_recv hrun, hd, clearPacket_status]
          rfl
        rw [List.foldl_cons, run_of_ne_running (by simp [hfault]), hfault]

/-- A child that counts its timeouts: a read or a write session, or one that is over. -/
def Counting (c : Child) : Prop := Leaves c ∨ c.status = .running ∧ c.readFlag ≠ c.writeFlag

theorem Counting.step (h : Counting c) {e : Ev} (he : NoError c e) : Counting (c.step e) := by
  rcases h with h | ⟨hrun, hflags⟩
  · exact Or.inl (h.step e)
  · obtain ⟨hr, hw⟩ := step_flags c e
    rcases step_status hrun he with hs | hs
    · exact Or.inr ⟨hs, by rwa [hr, hw]⟩
    · exact Or.inl (Or.inl hs)

theorem Counting.run (h : Counting c) {evs : List Ev} (hevs : AllSteps Child.turn NoError c evs) :
    Counting (evs.foldl Child.step c) :=
  inv_of_allSteps (fun _ _ hc he => hc.step he) h hevs

/-- A timeout that is counted ends the session or comes closer to the tenth. -/
theorem step_timeout_counts (hrun : c.status = .running) (hflags : c.readFlag ≠ c.writeFlag) :
    Leaves (c.step .timeout) ∨ (c.step .timeout).status = .running ∧
      (c.step .timeout).readFlag ≠ (c.step .timeout).writeFlag ∧
      (c.step .timeout).timeCount = c.timeCount + 1 ∧ c.timeCount + 1 < 10 := by
  cases hr : c.readFlag with
  | true =>
    have hw : c.writeFlag = false := by simpa [hr] using hflags.symm
    rw [step_timeout_read hrun hr hw]
    dsimp only
    split
    · exact Or.inl (Or.inl rfl)
    · exact Or.inr ⟨hrun, hflags, rfl, by omega⟩
  | false =>
    have hw : c.writeFlag = true := by simpa [hr] using hflags.symm
    rw [step_timeout hrun, onTimeout_write hr hw]
    dsimp only
    split
    · exact Or.inl (Or.inl rfl)
    · exact Or.inr ⟨hrun, hflags, rfl, by omega⟩

/-- **Ten timeouts in a row** end every session that counts them. -/
theorem Counting.leaves {t : ℕ} (h : Counting c) (hpos : 0 < t) (ht : 10 ≤ c.timeCount + t) :
    Leaves (pause t c) := by
  induction t generalizing c with
  | zero => exact absurd hpos (Nat.lt_irrefl 0)
  | succ t ih =>
    rcases h with h | ⟨hrun, hflags⟩
    · exact (h.step .timeout).pause t
    · rcases step_timeout_counts hrun hflags with hl | ⟨hrun', hflags', htime, hlt⟩
      · exact hl.pause t
      · exact ih (Or.inr ⟨hrun', hflags'⟩) (by omega) (by omega)

/-! ### A child without a session -/

/-- The first datagram was no request. -/
structure Stray (c : Child) : Prop where
  running : c.status = .running
  read : c.readFlag = false
  write : c.writeFlag = false

theorem Stray.timeout (h : Stray c) : c.step .timeout = c := by
  rw [step_timeout h.running]
  simp [Child.onTimeout, h.read, h.write]

theorem Stray.pause (h : Stray c) (t : ℕ) : pause t c = c := by
  induction t with
  | zero => rfl
  | succ t ih => rw [Tftp.pause, h.timeout, ih]

theorem Stray.not_leaves (h : Stray c) : ¬ Leaves c := by simp [Leaves, h.running]

/-- A DATA or ACK packet is answered with an error packet, and ends the child. -/
theorem Stray.recv_closed (h : Stray c) (src : Addr) {d : Bytes}
    (hop : opcode (recvInto c.packet d) = 3 ∨ opcode (recvInto c.packet d) = 4) :
    (c.step (.recv src d)).status = .closed := by
  rw [step_recv h.running, clearPacket_status]
  rcases hop with h3 | h4
  · rw [dispatch_data (c := c.received src d) h3]
    simp [Child.onData, Child.received, Child.refuse, h.write]
  · rw [dispatch_ack (c := c.received src d) h4]
    simp [Child.onAck, Child.received, Child.refuse, h.read]

/-- Any other packet but an ERROR packet is ignored. -/
theorem Stray.recv_ignored (h : Stray c) (src : Addr) {d : Bytes}
    (hop : ¬ (opcode (recvInto c.packet d) = 3 ∨ opcode (recvInto c.packet d) = 4))
    (h5 : opcode (recvInto c.packet d) ≠ 5) :
    c.step (.recv src d) = { c.received src d with packet := zeros maxChar } := by
  rw [not_or] at hop
  rw [step_recv h.running, dispatch_other (c := c.received src d) hop.1 hop.2 h5]
  exact clearPacket_running h.running

theorem Stray.run (h : Stray c) {evs : List Ev} (hevs : AllSteps Child.turn NoError c evs) :
    ((∃ op ∈ opcodesSeen c.packet evs, op = 3 ∨ op = 4) → Leaves (evs.foldl Child.step c)) ∧
      ((¬ ∃ op ∈ opcodesSeen c.packet evs, op = 3 ∨ op = 4) → Stray (evs.foldl Child.step c)) := by
  induction evs generalizing c with
  | nil => exact ⟨fun ⟨op, hop, _⟩ => absurd hop List.not_mem_nil, fun _ => h⟩
  | cons e evs ih =>
    rw [allSteps_cons_some (show Child.turn c e = some (c.step e) from rfl)] at hevs
    obtain ⟨he, hevs⟩ := hevs
    rw [List.foldl_cons]
    cases e with
    | timeout =>
      rw [h.timeout] at hevs ⊢
      exact ih h hevs
    | recv src d =>
      simp only [opcodesSeen, List.mem_cons, exists_eq_or_imp]
      by_cases hop : opcode (recvInto c.packet d) = 3 ∨ opcode (recvInto c.packet d) = 4
      · -- DATA or ACK ends the session
        have hclosed := h.recv_closed src hop
        rw [run_of_ne_running (by simp [hclosed])]
        exact ⟨fun _ => Or.inl hclosed, fun hn => absurd (Or.inl hop) hn⟩
      · -- what is neither is passed over
        have hs : Stray { c.received src d with packet := zeros maxChar } := ⟨h.running, h.read, h.write⟩
        rw [h.recv_ignored src hop (he h.running)] at hevs ⊢
        rw [or_iff_right hop]
        exact ih hs hevs

end Silence

/-! ### The first datagram -/

section First

variable {c : Child}

theorem leaves_of_declined {c' : Child} (h : Declined c c') (hreq : parseReq c.packet ≠ none) : Leaves c' := by
  rcases h with ⟨hnone, -⟩ | ⟨-, ⟨hs, -⟩ | ⟨hs, -⟩⟩
  · exact absurd hnone hreq
  · exact Or.inr hs
  · exact Or.inl hs

theorem counting_rrq (data : Bytes) (fs : FileSys) (hrun : c.status = .running) (hreq : parseReq c.packet ≠ none) :
    Counting (c.rrq data fs) := by
  rcases rrq_cases c data fs with h | ⟨-, c', b, heq, ho, -⟩
  · exact Or.inl (leaves_of_declined h hreq)
  · rw [heq]
    exact Or.inr ⟨ho.status.trans hrun, by simp [Child.transmit, ho.read, ho.write]⟩

theorem counting_wrq (fs : FileSys) (hrun : c.status = .running) (hreq : parseReq c.packet ≠ none) :
    Counting (c.wrq fs) := by
  rcases wrq_cases c fs with h | ⟨-, c', heq, ho⟩
  · exact Or.inl (leaves_of_declined h hreq)
  · rw [heq]
    exact Or.inr ⟨ho.status.trans hrun, by simp [Child.transmit, ho.read, ho.write]⟩

theorem counting_start {mem : Mem} {req : Bytes} (fs : FileSys) (src : Addr)
    (hop : opcode (recvInto mem.packet req) = 1 ∨ opcode (recvInto mem.packet req) = 2)
    (hreq : parseReq (recvInto mem.packet req) ≠ none) : Counting (Child.start mem fs src req) := by
  rcases hop with hop | hop
  · rw [start_rrq hop]
    exact counting_rrq _ _ rfl hreq
  · rw [start_wrq hop]
    exact counting_wrq _ rfl hreq

theorem start_stray {mem : Mem} {req : Bytes} (fs : FileSys) (src : Addr)
    (hop : ¬ (opcode (recvInto mem.packet req) = 1 ∨ opcode (recvInto mem.packet req) = 2)) :
    Child.start mem fs src req = Child.forked mem src req := by
  rw [not_or] at hop
  exact (if_neg hop.1).trans (if_neg hop.2)

theorem stray_forked (mem : Mem) (src : Addr) (req : Bytes) : Stray (Child.forked mem src req) := ⟨rfl, rfl, rfl⟩

section Run

variable {mem : Mem} {fs : FileSys} {src : Addr} {req : Bytes} {evs : List Ev}

theorem leaves_of_attended (hfits : RequestFits (recvInto mem.packet req)) (h : Attended (recvInto mem.packet req) evs)
    (hevs : AllSteps Child.turn NoError (Child.start mem fs src req) evs) :
    Leaves (pause 10 (evs.foldl Child.step (Child.start mem fs src req))) := by
  by_cases hop : opcode (recvInto mem.packet req) = 1 ∨ opcode (recvInto mem.packet req) = 2
  · exact ((counting_start fs src hop (hfits hop)).run hevs).leaves (by decide) (Nat.le_add_left _ _)
  · rw [start_stray fs src hop] at hevs ⊢
    exact (((stray_forked mem src req).run hevs).1 (h.resolve_left hop)).pause 10

theorem not_leaves_of_fault {c : Child} (h : c.status = .fault) (t : ℕ) : ¬ Leaves (pause t c) := by
  rw [pause_of_ne_running (by simp [h])]
  simp [Leaves, h]

theorem attended_of_leaves {t : ℕ} (h : Leaves (pause t (evs.foldl Child.step (Child.start mem fs src req)))) :
    RequestFits (recvInto mem.packet req) ∧ Attended (recvInto mem.packet req) evs ∧
      AllSteps Child.turn NoError (Child.start mem fs src req) evs := by
  have hfits : RequestFits (recvInto mem.packet req) := by
    by_contra hno
    have hfault := start_fault hno fs src
    rw [run_of_ne_running (by simp [hfault])] at h
    exact not_leaves_of_fault hfault t h
  have hevs : AllSteps Child.turn NoError (Child.start mem fs src req) evs := by
    by_contra hno
    exact not_leaves_of_fault (fault_of_error hno) t h
  refine ⟨hfits, ?_, hevs⟩
  by_contra hno
  rw [Attended, not_or] at hno
  rw [start_stray fs src hno.1] at h hevs
  have hs := ((stray_forked mem src req).run hevs).2 hno.2
  rw [hs.pause] at h
  exact hs.not_leaves h

end Run

/-- **Which children terminate**: for every first datagram and every later ones, a child whose client falls
silent leaves the loop within ten timeouts if and only if it is attended, its request fits its buffers and it gets no
ERROR packet, and it never does otherwise. -/
theorem leaves_iff_attended (mem : Mem) (fs : FileSys) (src : Addr) (req : Bytes) (evs : List Ev) :
    ((∃ t ≤ 10, Leaves (pause t (evs.foldl Child.step (Child.start mem fs src req)))) ↔
        RequestFits (recvInto mem.packet req) ∧ Attended (recvInto mem.packet req) evs ∧
          AllSteps Child.turn NoError (Child.start mem fs src req) evs) ∧
      ((∃ t, Leaves (pause t (evs.foldl Child.step (Child.start mem fs src req)))) ↔
        RequestFits (recvInto mem.packet req) ∧ Attended (recvInto mem.packet req) evs ∧
          AllSteps Child.turn NoError (Child.start mem fs src req) evs) :=
  ⟨⟨fun ⟨_, _, hl⟩ => attended_of_leaves hl, fun ⟨hfits, h, hevs⟩ => ⟨10, le_rfl, leaves_of_attended hfits h hevs⟩⟩,
    ⟨fun ⟨_, hl⟩ => attended_of_leaves hl, fun ⟨hfits, h, hevs⟩ => ⟨10, leaves_of_attended hfits h hevs⟩⟩⟩

/-- A packet with opcode 7 leaves a process behind that no number of timeouts ends. -/
theorem not_leaves_unknown_opcode : ¬ ∃ t, Leaves (pause t (Child.start Mem.clear FileSys.empty 0 [0, 7])) := by
  have hop : opcode (recvInto Mem.clear.packet [0, 7]) = 7 := opcode_recvInto (by decide) _
  rintro ⟨t, hl⟩
  have hatt : Attended (recvInto Mem.clear.packet [0, 7]) [] := (attended_of_leaves hl).2.1
  simp [Attended, opcodesSeen, hop] at hatt

end First

end TamuProofs.Tftp
