import TamuProofs.Tftp.Netascii

/-!
# Downloads: a client that acknowledges each block

A client of a read session answers each block with one ACK, after letting the server time out a few times
if it likes (`paced`).  Whatever the mode, the child of such a session has some bytes still to send
(`pending`), and `Serving c k pkt p stop` says where it stands: `k` blocks are out, the last of them as the
packet `pkt`, `p` is pending, and `stop` tells whether the last block was short.

* `Serving.ack` — an ACK while blocks are left sends the next 512 pending bytes as block `k + 1`;
* `Serving.pause` — fewer than ten timeouts repeat the last packet and change nothing else;
* `Serving.paced` — hence the session sends the pending bytes cut into blocks, and ends on the ACK of the
  last one.

The two modes differ in the first block only.  In netascii mode it is the first block of the encoding; in
octet mode it takes 512 bytes of a buffer into which the file was read, however short the file is.
-/

namespace TamuProofs.Tftp

open TamuProofs.Lib

/-! ### Sessions -/

/-- `t` timeouts in a row. -/
def pause : ℕ → Child → Child
  | 0, c => c
  | t + 1, c => pause t (c.step .timeout)

theorem pause_of_ne_running {c : Child} (h : c.status ≠ .running) (t : ℕ) : pause t c = c := by
  induction t with
  | zero => rfl
  | succ t ih => rw [pause, step_of_ne_running h, ih]

/-- The client's ACK for the latest transmission, from the address the server sends to. -/
def Child.ackEv (c : Child) : Ev := .recv c.clientAddr (ackOf (lastSent c.hist))

/-- A pause of `t` timeouts, then an ACK. -/
def ackAfter (t : ℕ) (c : Child) : Child := (pause t c).step (pause t c).ackEv

/-- The first `n` ACKs of a client that pauses `ts k` timeouts before its `k`-th. -/
def paced : (ℕ → ℕ) → ℕ → Child → Child
  | _, 0, c => c
  | ts, n + 1, c => paced (fun k => ts (k + 1)) n (ackAfter (ts 0) c)

/-- The session with these pauses is over with the `n`-th ACK and not before. -/
def EndsAt (ts : ℕ → ℕ) (n : ℕ) (c : Child) : Prop :=
  (∀ k < n, (pause (ts k) (paced ts k c)).status = .running) ∧ (paced ts n c).status = .closed

/-- **What a download is**: the datagrams `ds` are DATA packets numbered from 1 on modulo 65536, every
one but the last is full, the last is not, and the payloads make up `content`. -/
structure IsTransfer (ds : List Bytes) (content : Bytes) : Prop where
  payload : (ds.map (List.drop 4)).flatten = content
  opcode : ∀ d ∈ ds, d.take 2 = [0, 3]
  number : ∀ i d, ds[i]? = some d → blockNo d = (i + 1) % 65536
  full : ∀ d ∈ ds.dropLast, d.length = 4 + nobytes
  short : ∀ d ∈ ds.getLast?, 4 ≤ d.length ∧ d.length < 4 + nobytes
  nonempty : ds ≠ []

/-! ### Where a read session stands -/

/-- What the child has still to send. -/
def pending (c : Child) : Bytes := if c.modeFlag = 0 then c.readFd else pendingOf c.nextch c.fp

/-- `k` blocks are out, the last as `pkt`; `p` is pending; `stop` is `stop_flag`. -/
structure Serving (c : Child) (k : ℕ) (pkt p : Bytes) (stop : Bool) : Prop where
  running : c.status = .running
  read : c.readFlag = true
  write : c.writeFlag = false
  mode : c.modeFlag = 0 ∨ c.modeFlag = 1 ∧ ∀ b ∈ c.fp, b < 128
  block : c.blockNumber = k % 65536
  pack : c.sendPack.take c.sizeSp = pkt
  pend : pending c = p
  stopFlag : c.stopFlag = stop
  last : (c.hist.filterMap Io.sent?).head? = some pkt
  head : (distinctRev c.hist).head? = some pkt

theorem Serving.lastSent {c : Child} {k : ℕ} {pkt p : Bytes} {stop : Bool} (h : Serving c k pkt p stop) :
    lastSent c.hist = pkt := by
  simp [Tftp.lastSent, h.last]

/-- The next block is the next 512 pending bytes, and the transfer stops with a short one. -/
theorem nextData_spec {c : Child} (hmode : c.modeFlag = 0 ∨ c.modeFlag = 1 ∧ ∀ b ∈ c.fp, b < 128)
    (hstop : c.stopFlag = false) :
    c.nextData.1 = (pending c).take nobytes ∧ pending c.nextData.2 = (pending c).drop nobytes ∧
      c.nextData.2.stopFlag = decide ((pending c).length < nobytes) ∧
      (c.nextData.2.modeFlag = 0 ∨ c.nextData.2.modeFlag = 1 ∧ ∀ b ∈ c.nextData.2.fp, b < 128) := by
  rcases hmode with h0 | ⟨h1, hfp⟩
  · -- octet mode
    by_cases hlt : c.readFd.length < nobytes
    · have hmin : min nobytes c.readFd.length = c.readFd.length := by omega
      have htake : (c.readFd.take nobytes).take c.readFd.length = c.readFd.take nobytes := by
        rw [List.take_take, min_comm, hmin, List.take_length, List.take_of_length_le (by omega)]
      simp [Child.nextData, h0, hmin, hlt, pending, htake]
    · have hmin : min nobytes c.readFd.length = nobytes := by omega
      simp [Child.nextData, h0, hmin, pending, hstop, hlt, List.take_take]
  · -- netascii mode
    have h0 : c.modeFlag ≠ 0 := by omega
    obtain ⟨e1, e2, e3, e4⟩ := ackLoop_spec nobytes
      { data := [], nextch := c.nextch, fp := c.fp, stopFlag := c.stopFlag } hfp
    simp only [Child.nextData, if_neg h0, pending]
    exact ⟨by simpa using e1, e2, by simpa [hstop] using e3, Or.inr ⟨h1, e4⟩⟩

section Steps

variable {c : Child} {k : ℕ} {pkt p : Bytes} {stop : Bool}

theorem nextData_frame (c : Child) :
    c.nextData.2.status = c.status ∧ c.nextData.2.readFlag = c.readFlag ∧
      c.nextData.2.writeFlag = c.writeFlag ∧ c.nextData.2.blockNumber = c.blockNumber ∧
      c.nextData.2.timeCount = c.timeCount ∧ c.nextData.2.clientAddr = c.clientAddr ∧
      c.nextData.2.hist = c.hist := by
  unfold Child.nextData
  split
  · dsimp only
    split <;> simp
  · simp

theorem opcode_recvInto_ackPack (packet : Bytes) (k : ℕ) : opcode (recvInto packet (ackPack k)) = 4 := rfl

theorem Serving.ack_stop (h : Serving c k pkt p true) (src : Addr) (j : ℕ) :
    (c.step (.recv src (ackPack j))).status = .closed ∧
      (c.step (.recv src (ackPack j))).hist = .recv src (ackPack j) :: c.hist := by
  rw [step_recv h.running, dispatch_ack (opcode_recvInto_ackPack _ _),
    onAck_stop (c := c.received src (ackPack j)) h.read h.write h.stopFlag,
    clearPacket_of_ne (by simp)]
  exact ⟨rfl, rfl⟩

theorem take_sendPack_transmit (c : Child) (pkt : Bytes) :
    (c.transmit pkt).sendPack.take (c.transmit pkt).sizeSp = pkt := take_blit_zero _ _

theorem hist_transmit (c : Child) (pkt : Bytes) :
    (c.transmit pkt).hist = .send c.clientAddr pkt :: c.hist := by
  simp [Child.transmit]

theorem dataPack_ne_dataPack_succ (k : ℕ) {b b' : Bytes} : dataPack k b ≠ dataPack (k + 1) b' := by
  intro h
  have := congrArg blockNo h
  simp only [blockNo_dataPack] at this
  omega

/-- The child of a read session when it comes to read the next block. -/
def Child.asked (c : Child) (src : Addr) (d : Bytes) : Child := { c.received src d with sendPack := zeros 517 }

theorem step_asked {d : Bytes} (src : Addr) (hrun : c.status = .running) (hr : c.readFlag = true)
    (hw : c.writeFlag = false) (hs : c.stopFlag = false) (hop : opcode (recvInto c.packet d) = 4) :
    c.step (.recv src d) =
      { (c.asked src d).nextData.2.transmit (dataPack (c.blockNumber + 1) (c.asked src d).nextData.1) with
        blockNumber := (c.blockNumber + 1) % 65536, packet := zeros maxChar } := by
  obtain ⟨f1, -, -, f4, -⟩ := nextData_frame (c.asked src d)
  have hnext : (c.asked src d).nextBlock =
      { (c.asked src d).nextData.2.transmit (dataPack (c.blockNumber + 1) (c.asked src d).nextData.1) with
        blockNumber := (c.blockNumber + 1) % 65536 } := by
    rw [nextBlock_eq, f4]
    rfl
  rw [step_recv hrun, dispatch_ack (c := c.received src d) hop, onAck_next (c := c.received src d) hr hw hs]
  refine (congrArg Child.clearPacket hnext).trans ?_
  exact if_pos (f1.trans hrun)

theorem hist_asked_transmit (c : Child) (src : Addr) (d pkt : Bytes) :
    ((c.asked src d).nextData.2.transmit pkt).hist = .send src pkt :: .recv src d :: c.hist := by
  obtain ⟨-, -, -, -, -, f6, f7⟩ := nextData_frame (c.asked src d)
  rw [hist_transmit, f6, f7]
  rfl

/-- **An ACK while blocks are left**: the next 512 pending bytes go out as block `k + 1`. -/
theorem Serving.ack {b : Bytes} (h : Serving c k (dataPack k b) p false) (src : Addr) (j : ℕ) :
    ∃ c', c.step (.recv src (ackPack j)) = c' ∧
      Serving c' (k + 1) (dataPack (k + 1) (p.take nobytes)) (p.drop nobytes)
        (decide (p.length < nobytes)) ∧
      c'.timeCount = 0 ∧
      c'.hist = .send src (dataPack (k + 1) (p.take nobytes)) :: .recv src (ackPack j) :: c.hist := by
  obtain ⟨hdata, hpend, hstop, hmode⟩ := nextData_spec (c := c.asked src (ackPack j)) h.mode h.stopFlag
  rw [show pending (c.asked src (ackPack j)) = p from h.pend] at hdata hpend hstop
  obtain ⟨f1, f2, f3, -, f5, -⟩ := nextData_frame (c.asked src (ackPack j))
  have hnum : (c.blockNumber + 1) % 65536 = (k + 1) % 65536 := by rw [h.block]; omega
  have hpkt : dataPack (c.blockNumber + 1) (c.asked src (ackPack j)).nextData.1 =
      dataPack (k + 1) (p.take nobytes) := by
    rw [dataPack, hnum, hdata]
    rfl
  have hstep := step_asked src h.running h.read h.write h.stopFlag (opcode_recvInto_ackPack c.packet j)
  have hhist := hist_asked_transmit c src (ackPack j) (dataPack (k + 1) (p.take nobytes))
  rw [hpkt, hnum] at hstep
  refine ⟨_, hstep, ⟨f1.trans h.running, f2.trans h.read, f3.trans h.write, hmode, rfl,
    take_sendPack_transmit _ _, hpend, hstop, ?_, ?_⟩, f5, hhist⟩
  · show (List.filterMap Io.sent? (Child.transmit _ _).hist).head? = _
    rw [hhist]
    rfl
  · show (distinctRev (Child.transmit _ _).hist).head? = _
    rw [hhist, distinctRev_send_recv src src _ h.head (dataPack_ne_dataPack_succ k)]
    rfl

/-- What every counted timeout keeps holds after fewer than ten of them. -/
theorem pause_inv {I : Child → Prop}
    (hstep : ∀ c, I c → c.timeCount < 9 → I (c.step .timeout) ∧ (c.step .timeout).timeCount = c.timeCount + 1)
    {t : ℕ} (h : I c) (ht : c.timeCount + t < 10) : I (pause t c) := by
  induction t generalizing c with
  | zero => exact h
  | succ t ih =>
    obtain ⟨h', htime⟩ := hstep c h (by omega)
    exact ih h' (by omega)

theorem Serving.timeout (h : Serving c k pkt p stop) (ht : c.timeCount < 9) :
    ∃ c', c.step .timeout = c' ∧ Serving c' k pkt p stop ∧ c'.timeCount = c.timeCount + 1 ∧
      distinctRev c'.hist = distinctRev c.hist := by
  refine ⟨_, (step_timeout h.running).trans (onTimeout_read h.read h.write ht), ?_, rfl, ?_⟩
  · exact ⟨h.running, h.read, h.write, h.mode, h.block, h.pack, h.pend, h.stopFlag,
      by simp [Io.sent?, h.pack], by rw [h.pack, distinctRev_resend _ h.head, h.head]⟩
  · rw [h.pack, distinctRev_resend _ h.head]

/-- **Fewer than ten timeouts in a row** repeat the last packet and change nothing else. -/
theorem Serving.pause {t : ℕ} (h : Serving c k pkt p stop) (ht : c.timeCount + t < 10) :
    Serving (pause t c) k pkt p stop ∧ distinctRev (Tftp.pause t c).hist = distinctRev c.hist := by
  refine pause_inv (I := fun c' => Serving c' k pkt p stop ∧ distinctRev c'.hist = distinctRev c.hist) ?_
    ⟨h, rfl⟩ ht
  rintro c₁ ⟨h₁, hd₁⟩ ht₁
  obtain ⟨c', hc', h', htime, hdist⟩ := h₁.timeout ht₁
  rw [hc']
  exact ⟨⟨h', hdist.trans hd₁⟩, htime⟩

theorem endsAt_succ (ts : ℕ → ℕ) (n : ℕ) (c : Child) :
    EndsAt ts (n + 1) c ↔
      (Tftp.pause (ts 0) c).status = .running ∧ EndsAt (fun k => ts (k + 1)) n (ackAfter (ts 0) c) := by
  unfold EndsAt
  rw [and_assoc.symm]
  refine and_congr ⟨fun h => ⟨h 0 (by omega), fun k hk => h (k + 1) (by omega)⟩, ?_⟩ Iff.rfl
  rintro ⟨h0, h⟩ k hk
  cases k with
  | zero => exact h0
  | succ k => exact h k (by omega)

/-- The blocks still to come. -/
def restBlocks (p : Bytes) (stop : Bool) : List Bytes :=
  if stop then [] else chunks nobytes (by decide) p

theorem restBlocks_false (p : Bytes) :
    restBlocks p false = p.take nobytes :: restBlocks (p.drop nobytes) (decide (p.length < nobytes)) := by
  by_cases h : p.length < nobytes
  · simp [restBlocks, h, chunks_of_lt h, List.take_of_length_le (Nat.le_of_lt h)]
  · simp [restBlocks, h, chunks_of_le (Nat.le_of_not_lt h)]

theorem Serving.ackAfter_eq {b : Bytes} {t : ℕ} (h : Serving (Tftp.pause t c) k (dataPack k b) p stop) :
    ackAfter t c = (Tftp.pause t c).step (.recv (Tftp.pause t c).clientAddr (ackPack k)) := by
  rw [ackAfter, Child.ackEv, h.lastSent, ackOf_dataPack]

theorem Serving.ackAfter_stop {b : Bytes} {t : ℕ} (h : Serving c k (dataPack k b) p true)
    (ht : c.timeCount + t < 10) :
    (Tftp.pause t c).status = .running ∧ (ackAfter t c).status = .closed ∧
      distinctRev (ackAfter t c).hist = distinctRev c.hist ∧
      (t = 0 → (ackAfter t c).hist.filterMap Io.sent? = c.hist.filterMap Io.sent?) := by
  obtain ⟨hp, hd⟩ := h.pause ht
  obtain ⟨hclosed, hhist⟩ := hp.ack_stop (Tftp.pause t c).clientAddr k
  rw [hp.ackAfter_eq, hhist]
  refine ⟨hp.running, hclosed, hd, ?_⟩
  rintro rfl
  rfl

theorem Serving.ackAfter_next {b : Bytes} {t : ℕ} (h : Serving c k (dataPack k b) p false)
    (ht : c.timeCount + t < 10) :
    (Tftp.pause t c).status = .running ∧ (ackAfter t c).timeCount = 0 ∧
      Serving (ackAfter t c) (k + 1) (dataPack (k + 1) (p.take nobytes)) (p.drop nobytes)
        (decide (p.length < nobytes)) ∧
      distinctRev (ackAfter t c).hist = dataPack (k + 1) (p.take nobytes) :: distinctRev c.hist ∧
      (t = 0 → (ackAfter t c).hist.filterMap Io.sent? =
        dataPack (k + 1) (p.take nobytes) :: c.hist.filterMap Io.sent?) := by
  obtain ⟨hp, hd⟩ := h.pause ht
  obtain ⟨c', hc', h', htime, hhist⟩ := hp.ack (Tftp.pause t c).clientAddr k
  rw [hp.ackAfter_eq, hc', hhist]
  refine ⟨hp.running, htime, h', ?_, ?_⟩
  · rw [distinctRev_send_recv _ _ _ hp.head (dataPack_ne_dataPack_succ k), hd]
  · rintro rfl
    rfl

/-- **A paced session** sends the pending bytes cut into blocks and ends on the ACK of the last one. -/
theorem Serving.paced : ∀ (rest : List Bytes) {c : Child} {k : ℕ} {b p : Bytes} {stop : Bool}
    {ts : ℕ → ℕ}, Serving c k (dataPack k b) p stop → c.timeCount = 0 → (∀ i, ts i < 10) →
    restBlocks p stop = rest →
    EndsAt ts (rest.length + 1) c ∧
      distinctRev (paced ts (rest.length + 1) c).hist = (numbered k rest).reverse ++ distinctRev c.hist ∧
      ((∀ i, ts i = 0) → (Tftp.paced ts (rest.length + 1) c).hist.filterMap Io.sent? =
        (numbered k rest).reverse ++ c.hist.filterMap Io.sent?) := by
  intro rest
  induction rest with
  | nil =>
    intro c k b p stop ts h ht hts hrest
    -- no block is left, so the last one was short
    obtain rfl : stop = true := by
      cases stop with
      | true => rfl
      | false => simp [restBlocks, chunks_ne_nil] at hrest
    obtain ⟨hrun, hclosed, hd, hsent⟩ := h.ackAfter_stop (t := ts 0) (by have := hts 0; omega)
    refine ⟨?_, hd, fun h0 => hsent (h0 0)⟩
    rw [endsAt_succ]
    exact ⟨hrun, fun k hk => absurd hk (Nat.not_lt_zero k), hclosed⟩
  | cons b' rest ih =>
    intro c k b p stop ts h ht hts hrest
    obtain rfl : stop = false := by
      cases stop with
      | false => rfl
      | true => simp [restBlocks] at hrest
    rw [restBlocks_false, List.cons.injEq] at hrest
    obtain ⟨rfl, hrest⟩ := hrest
    obtain ⟨hrun, ht', h', hd, hsent⟩ := h.ackAfter_next (t := ts 0) (by have := hts 0; omega)
    obtain ⟨i1, i2, i3⟩ := ih h' ht' (fun i => hts (i + 1)) hrest
    refine ⟨?_, ?_, fun h0 => ?_⟩
    · rw [List.length_cons, endsAt_succ]
      exact ⟨hrun, i1⟩
    · rw [List.length_cons, Tftp.paced, i2, hd]
      simp [numbered]
    · rw [List.length_cons, Tftp.paced, i3 fun i => h0 (i + 1), hsent (h0 0)]
      simp [numbered]

end Steps

/-! ### Whole downloads -/

/-- The session is over after some number of ACKs, that is how many datagrams `sent` finds in the
history, and they are a transfer of `content`. -/
def Downloads (ts : ℕ → ℕ) (sent : List Io → List Bytes) (c : Child) (content : Bytes) : Prop :=
  ∃ n, EndsAt ts n c ∧ (sent (paced ts n c).hist).length = n ∧ IsTransfer (sent (paced ts n c).hist) content

theorem isTransfer_numbered {bs : List Bytes} (h : bs ≠ []) (hfull : ∀ b ∈ bs.dropLast, b.length = nobytes)
    (hshort : ∀ b ∈ bs.getLast?, b.length < nobytes) : IsTransfer (numbered 0 bs) bs.flatten := by
  refine ⟨by rw [map_drop_numbered], fun d hd => ?_, fun i d hd => ?_, fun d hd => ?_, fun d hd => ?_, ?_⟩
  · obtain ⟨j, b, -, rfl⟩ := mem_numbered hd
    rfl
  · rw [getElem?_numbered, Option.map_eq_some_iff] at hd
    obtain ⟨b, -, rfl⟩ := hd
    rw [blockNo_dataPack, Nat.zero_add]
  · rw [numbered_dropLast] at hd
    obtain ⟨j, b, hb, rfl⟩ := mem_numbered hd
    rw [length_dataPack, hfull b hb, Nat.add_comm]
  · obtain ⟨j, b, hb, rfl⟩ := mem_getLast?_numbered hd
    have := hshort b hb
    rw [length_dataPack]
    omega
  · intro h0
    have := congrArg List.length h0
    rw [length_numbered] at this
    exact h (List.length_eq_zero_iff.1 this)

theorem isTransfer_chunks (content : Bytes) :
    IsTransfer (numbered 0 (chunks nobytes (by decide) content)) content := by
  have hne : chunks nobytes (by decide) content ≠ [] := chunks_ne_nil content
  have := isTransfer_numbered hne (length_of_mem_dropLast_chunks content) (length_getLast_chunks content)
  rwa [chunks_flatten] at this

theorem EndsAt.unique {ts : ℕ → ℕ} {m n : ℕ} {c : Child} (hm : EndsAt ts m c) (hn : EndsAt ts n c) :
    m = n := by
  have key : ∀ {m n : ℕ}, EndsAt ts m c → EndsAt ts n c → ¬ m < n := by
    intro m n hm hn hlt
    have hrun := hn.1 m hlt
    rw [pause_of_ne_running (by simp [hm.2]), hm.2] at hrun
    cases hrun
  have h1 := key hm hn
  have h2 := key hn hm
  omega

theorem serving_first {c : Child} {b : Bytes} {src : Addr} {req : Bytes} (hrun : c.status = .running)
    (hread : c.readFlag = true) (hwrite : c.writeFlag = false)
    (hmode : c.modeFlag = 0 ∨ c.modeFlag = 1 ∧ ∀ b ∈ c.fp, b < 128) (hhist : c.hist = [.recv src req]) :
    Serving { c.transmit ([0, 3, 0, 1] ++ b) with blockNumber := 1 } 1 (dataPack 1 b) (pending c)
      c.stopFlag := by
  have hhist' : (c.transmit ([0, 3, 0, 1] ++ b)).hist = [.send c.clientAddr (dataPack 1 b), .recv src req] := by
    rw [hist_transmit, hhist, dataPack_one]
  exact ⟨hrun, hread, hwrite, hmode, rfl, take_sendPack_transmit _ _, rfl, rfl, by rw [hhist']; rfl,
    by rw [hhist']; rfl⟩

/-! ### What the two requests can lead to -/

/-- The child when a request is about to be answered: the two flags are set, and this is as it was. -/
structure Opens (read write : Bool) (c c' : Child) : Prop where
  read : c'.readFlag = read
  write : c'.writeFlag = write
  status : c'.status = c.status
  hist : c'.hist = c.hist
  client : c'.clientAddr = c.clientAddr
  time : c'.timeCount = c.timeCount

/-- The request leads to no session: the child faults where it does not fit its buffers, and otherwise leaves
without a word or with an error packet. -/
def Declined (c c' : Child) : Prop :=
  parseReq c.packet = none ∧ c'.status = .fault ∧ c'.hist = c.hist ∨
    parseReq c.packet ≠ none ∧ (c'.status = .exited ∧ c'.hist = c.hist ∨
      c'.status = .closed ∧ ∃ code msg, c'.hist = .send c.clientAddr (errPack code msg) :: c.hist)

/-- **The RRQ branch** declines the request, or sends the first block. -/
theorem rrq_cases (c : Child) (data : Bytes) (fs : FileSys) :
    Declined c (c.rrq data fs) ∨ parseReq c.packet ≠ none ∧
      ∃ c' b, c.rrq data fs = { c'.transmit ([0, 3, 0, 1] ++ b) with blockNumber := 1 } ∧
        Opens true false c c' ∧ (c.stopFlag = false → b.length ≤ nobytes) := by
  unfold Child.rrq
  dsimp only
  split
  · exact Or.inl (Or.inl ⟨‹_›, rfl, rfl⟩)
  rename_i hreq
  have hreq' : parseReq c.packet ≠ none := by simp [hreq]
  split
  · split
    · exact Or.inl (Or.inr ⟨hreq', Or.inl ⟨rfl, rfl⟩⟩)
    · refine Or.inr ⟨hreq', _, _, rfl, ⟨rfl, rfl, rfl, rfl, rfl, rfl⟩, fun _ => ?_⟩
      exact List.length_take_le _ _
  split
  · split
    · exact Or.inl (Or.inr ⟨hreq', Or.inr ⟨rfl, _, _, hist_transmit _ _⟩⟩)
    · refine Or.inr ⟨hreq', _, _, rfl, ⟨rfl, rfl, rfl, rfl, rfl, rfl⟩, fun hs => ?_⟩
      rw [rrqLoop_eq_ackLoop _ _ hs]
      exact (length_ackLoop_le _ _).trans (by simp)
  · exact Or.inl (Or.inr ⟨hreq', Or.inr ⟨rfl, _, _, hist_transmit _ _⟩⟩)

/-- **The WRQ branch** declines the request, or acknowledges it. -/
theorem wrq_cases (c : Child) (fs : FileSys) :
    Declined c (c.wrq fs) ∨ parseReq c.packet ≠ none ∧
      ∃ c', c.wrq fs = { c'.transmit (ackPack 0) with blockNumber := 1 } ∧ Opens false true c c' := by
  unfold Child.wrq
  dsimp only
  split
  · exact Or.inl (Or.inl ⟨‹_›, rfl, rfl⟩)
  rename_i hreq
  have hreq' : parseReq c.packet ≠ none := by simp [hreq]
  split
  · exact Or.inr ⟨hreq', _, rfl, ⟨rfl, rfl, rfl, rfl, rfl, rfl⟩⟩
  · exact Or.inl (Or.inr ⟨hreq', Or.inr ⟨rfl, _, _, hist_transmit _ _⟩⟩)

/-! ### A request for one file -/

def Mem.clear : Mem :=
  { packet := zeros maxChar, data := zeros maxChar, sendPack := [], sizeSp := 0
    packet_length := length_zeros _, data_length := length_zeros _ }

def FileSys.single (content : Bytes) : FileSys :=
  { file := fun name => if name = ascii "f" then some { content := content } else none
    creatable := fun _ => true }

theorem openRdwr_single (content : Bytes) :
    (FileSys.single content).openRdwr (ascii "f") = some content := rfl

def request (op : UInt8) (mode : String) : Bytes := [0, op] ++ ascii "f" ++ [0] ++ ascii mode ++ [0]

theorem parseReq_request_octet :
    parseReq (recvInto Mem.clear.packet (request 1 "octet")) = some (ascii "f", ascii "octet") := by
  decide

theorem parseReq_request_netascii :
    parseReq (recvInto Mem.clear.packet (request 1 "netascii")) = some (ascii "f", ascii "netascii") := by
  decide

section Start

variable {mem : Mem} {fs : FileSys} {req filename mode file : Bytes} (src : Addr)

theorem serving_start_netascii (hop : opcode (recvInto mem.packet req) = 1)
    (hreq : parseReq (recvInto mem.packet req) = some (filename, mode)) (hmode : isNetascii mode = true)
    (hfile : fs.fopenR filename = some file) (hascii : ∀ b ∈ file, b < 128) :
    ∃ c, Child.start mem fs src req = c ∧ c.timeCount = 0 ∧
      c.hist = [.send src (dataPack 1 ((netascii file).take nobytes)), .recv src req] ∧
      Serving c 1 (dataPack 1 ((netascii file).take nobytes)) ((netascii file).drop nobytes)
        (decide ((netascii file).length < nobytes)) := by
  have hloop := rrqLoop_eq_ackLoop nobytes { data := [], nextch := eofChar, fp := file, stopFlag := false } rfl
  obtain ⟨e1, e2, e3, e4⟩ := ackLoop_spec nobytes
    { data := [], nextch := eofChar, fp := file, stopFlag := false } hascii
  rw [pendingOf_eof] at e1 e2 e3
  refine ⟨_, (start_rrq hop src).trans
    (rrq_netascii (c := Child.forked mem src req) hreq hmode hfile hloop), rfl, ?_, ?_⟩
  · rw [e1]
    exact hist_transmit _ _
  · rw [e1, ← e2, ← Bool.false_or (decide _), ← e3]
    exact serving_first rfl rfl rfl (Or.inr ⟨rfl, e4⟩) rfl

/-- The first block of an octet session is whatever the first 512 bytes of `data` are after the read. -/
theorem serving_start_octet (hop : opcode (recvInto mem.packet req) = 1)
    (hreq : parseReq (recvInto mem.packet req) = some (filename, mode)) (hmode : isOctet mode = true)
    (hfile : fs.openRdwr filename = some file) :
    ∃ c, Child.start mem fs src req = c ∧ c.timeCount = 0 ∧
      c.hist = [.send src (dataPack 1 ((blit mem.data 0 (file.take nobytes)).take nobytes)), .recv src req] ∧
      Serving c 1 (dataPack 1 ((blit mem.data 0 (file.take nobytes)).take nobytes)) (file.drop nobytes)
        false := by
  refine ⟨_, (start_rrq hop src).trans (rrq_octet (c := Child.forked mem src req) hreq hmode hfile), rfl,
    hist_transmit _ _, ?_⟩
  exact serving_first rfl rfl rfl (Or.inl rfl) rfl

/-- The blocks of a byte string are its first 512 bytes and the blocks that follow. -/
theorem chunks_eq_restBlocks (l : Bytes) :
    chunks nobytes (by decide) l =
      l.take nobytes :: restBlocks (l.drop nobytes) (decide (l.length < nobytes)) := by
  rw [← restBlocks_false]
  rfl

theorem Serving.session {src : Addr} {c : Child} {b p : Bytes} {stop : Bool} {ts : ℕ → ℕ}
    (hs : Serving c 1 (dataPack 1 b) p stop) (hhist : c.hist = [.send src (dataPack 1 b), .recv src req])
    (ht : c.timeCount = 0) (hts : ∀ k, ts k < 10) :
    ∃ n, EndsAt ts n c ∧ n = (numbered 0 (b :: restBlocks p stop)).length ∧
      distinctSent (Tftp.paced ts n c).hist = numbered 0 (b :: restBlocks p stop) ∧
      ((∀ k, ts k = 0) → transmitted (Tftp.paced ts n c).hist = numbered 0 (b :: restBlocks p stop)) := by
  obtain ⟨hends, hdist, htrans⟩ := hs.paced _ ht hts rfl
  refine ⟨_, hends, by simp, ?_, fun h0 => ?_⟩
  · rw [distinctSent, hdist, hhist]
    simp [distinctRev, Io.sent?, numbered]
  · rw [transmitted, htrans h0, hhist]
    simp [Io.sent?, numbered]

/-- **A netascii download** delivers the netascii encoding of a file of seven-bit characters, whatever the
pauses of the client, as long as no ten timeouts come in a row. -/
theorem downloads_netascii (hop : opcode (recvInto mem.packet req) = 1)
    (hreq : parseReq (recvInto mem.packet req) = some (filename, mode)) (hmode : isNetascii mode = true)
    (hfile : fs.fopenR filename = some file) (hascii : ∀ b ∈ file, b < 128) {ts : ℕ → ℕ}
    (hts : ∀ k, ts k < 10) :
    Downloads ts distinctSent (Child.start mem fs src req) (netascii file) := by
  obtain ⟨c, hc, ht, hhist, hs⟩ := serving_start_netascii src hop hreq hmode hfile hascii
  obtain ⟨n, hends, hn, hsent, -⟩ := hs.session hhist ht hts
  rw [← chunks_eq_restBlocks] at hn hsent
  rw [hc]
  refine ⟨n, hends, by rw [hsent, hn], ?_⟩
  rw [hsent]
  exact isTransfer_chunks _

theorem downloads_netascii_lf :
    netascii [97, 10, 98] = [97, 13, 10, 98] ∧
      Downloads (fun _ => 3) distinctSent
        (Child.start Mem.clear (FileSys.single [97, 10, 98]) 0 (request 1 "netascii")) (netascii [97, 10, 98]) :=
  ⟨by decide, downloads_netascii 0 (by decide) parseReq_request_netascii (by decide) (by rfl) (by simp)
    (fun _ => by decide)⟩

/-- A session with first block `b` of 512 bytes downloads `file` only if `file` has these 512 bytes. -/
theorem isTransfer_octet_iff {b : Bytes} (hb : b = (blit mem.data 0 (file.take nobytes)).take nobytes) :
    IsTransfer (numbered 0 (b :: restBlocks (file.drop nobytes) false)) file ↔ nobytes ≤ file.length := by
  have hlen : b.length = nobytes := by
    have hd := mem.data_length
    have hle : 0 + (file.take nobytes).length ≤ mem.data.length := by
      rw [hd, List.length_take]
      exact (Nat.zero_add _).le.trans ((Nat.min_le_left _ _).trans (by decide))
    rw [hb, List.length_take, length_blit hle, hd]
    rfl
  constructor
  · intro h
    have hp := congrArg List.length h.payload
    rw [map_drop_numbered, List.flatten_cons, List.length_append, hlen] at hp
    omega
  · intro hle
    have htake : b = file.take nobytes := by
      have h512 : (file.take nobytes).length = nobytes := by rw [List.length_take]; omega
      have := take_blit_zero mem.data (file.take nobytes)
      rwa [h512, ← hb] at this
    have := isTransfer_chunks file
    rwa [chunks_eq_restBlocks, decide_eq_false (by omega), ← htake] at this

/-- An octet session downloads its file exactly when the first read fills the packet. -/
theorem downloads_octet_iff (hop : opcode (recvInto mem.packet req) = 1)
    (hreq : parseReq (recvInto mem.packet req) = some (filename, mode)) (hmode : isOctet mode = true)
    (hfile : fs.openRdwr filename = some file) {ts : ℕ → ℕ} (hts : ∀ k, ts k < 10)
    {sent : List Io → List Bytes} (hsent : sent = distinctSent ∨ sent = transmitted ∧ ∀ k, ts k = 0) :
    Downloads ts sent (Child.start mem fs src req) file ↔ nobytes ≤ file.length := by
  obtain ⟨c, hc, ht, hhist, hs⟩ := serving_start_octet src hop hreq hmode hfile
  obtain ⟨n, hends, hn, hdist, htrans⟩ := hs.session hhist ht hts
  obtain ⟨b, hb⟩ : ∃ b, b = (blit mem.data 0 (file.take nobytes)).take nobytes := ⟨_, rfl⟩
  rw [← hb] at hn hdist htrans
  have hs : sent (paced ts n c).hist = numbered 0 (b :: restBlocks (file.drop nobytes) false) := by
    rcases hsent with rfl | ⟨rfl, h0⟩
    · exact hdist
    · exact htrans h0
  rw [← isTransfer_octet_iff hb, hc]
  constructor
  · rintro ⟨m, hm, -, h⟩
    rw [hm.unique hends] at h
    rwa [← hs]
  · intro h
    exact ⟨n, hends, by rw [hs, hn], by rwa [hs]⟩

/-- **An octet download**, with the client's ACKs coming in time or after timeouts, delivers the file
exactly when the file has at least 512 bytes: the first packet never takes fewer. -/
theorem octet_download_iff_full_first_block (hop : opcode (recvInto mem.packet req) = 1)
    (hreq : parseReq (recvInto mem.packet req) = some (filename, mode)) (hmode : isOctet mode = true)
    (hfile : fs.openRdwr filename = some file) :
    (Downloads (fun _ => 0) transmitted (Child.start mem fs src req) file ↔ nobytes ≤ file.length) ∧
      ∀ ts : ℕ → ℕ, (∀ k, ts k < 10) →
        (Downloads ts distinctSent (Child.start mem fs src req) file ↔ nobytes ≤ file.length) :=
  ⟨downloads_octet_iff src hop hreq hmode hfile (fun _ => by decide) (Or.inr ⟨rfl, fun _ => rfl⟩),
    fun _ hts => downloads_octet_iff src hop hreq hmode hfile hts (Or.inl rfl)⟩

theorem octet_download_zeros :
    Downloads (fun _ => 0) transmitted
      (Child.start Mem.clear (FileSys.single (zeros 512)) 0 (request 1 "octet")) (zeros 512) :=
  (octet_download_iff_full_first_block 0 (by decide) parseReq_request_octet (by decide) (openRdwr_single _)).1.2
    (length_zeros 512).ge

/-- Of an empty file the client gets 512 bytes of memory that was never written. -/
theorem not_octet_download_empty :
    ¬ Downloads (fun _ => 0) transmitted (Child.start Mem.clear (FileSys.single []) 0 (request 1 "octet")) [] := by
  rw [downloads_octet_iff 0 (by decide) parseReq_request_octet (by decide) (openRdwr_single _) (fun _ => by decide)
    (Or.inr ⟨rfl, fun _ => rfl⟩)]
  decide

end Start

end TamuProofs.Tftp
