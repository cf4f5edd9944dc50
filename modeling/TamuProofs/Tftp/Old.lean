import TamuProofs.Tftp.Answers
import TamuProofs.Tftp.Timeouts

/-!
# The old TFTP server (`server.c`)

`server.c` is an earlier version of `tftps.c`: the same variables, and the same code up to the head of the
transfer loop. In the loop it differs in three places.

* A timeout always sends `send_pack` again (`Old.onTimeout`).
* The DATA branch of an upload goes over all 512 bytes of the payload, stops at a byte 255, and acknowledges
  the number after `block_number` (`Old.onData`).
* `packet` is not cleared after a datagram (`Old.onRecv`).

A download meets the first only with the flags for which the two agree, and the second only to refuse. The
third is a simulation up to the content of `packet` (`Same`), of which the loop looks at the opcode alone, and
every datagram of two bytes or more brings its own.

The two are different programs, and what one finds in its uninitialised arrays is not what the other finds there: each
has a memory of its own here. In octet mode the first packet has 512 bytes of `data`, however few `read` has put there.

* `same_run` — the loops do the same;
* `start_alike` — so does the code before them, unless it sends bytes of the file that are not there;
* **`agree_iff`** — the two servers agree on a download, whatever their memories, if and only if the first block of the
  file is full or is not sent in octet mode, and no ERROR packet overruns `ErrMsg`.
-/

namespace TamuProofs.Tftp

open TamuProofs.Lib

namespace Old

/-! ### The transfer loop of `server.c` -/

/-- From the request to the head of the transfer loop, as in `tftps.c`. -/
def start (mem : Mem) (fs : FileSys) (src : Addr) (req : Bytes) : Child := Child.start mem fs src req

/-- A timeout of `select`. The test of the flags is commented out in the source. -/
def onTimeout (c : Child) : Child :=
  let c := { c with
    hist := .resend c.clientAddr (c.sendPack.take c.sizeSp) :: c.hist
    timeCount := c.timeCount + 1 }
  if 10 ≤ c.timeCount then { c with stopFlag := true, status := .closed } else c

/-- The `for` loop of the DATA branch, over the first `NOBYTES` bytes of `data`. A pending `nextch` takes the
turn of a byte. -/
def putLoop (modeFlag : ℤ) : Bytes → Put → Put
  | [], p => p
  | ch :: data, p =>
    if 0 ≤ charVal p.nextch then
      putLoop modeFlag data { p with written := p.written ++ [p.nextch], nextch := eofChar }
    else if charVal ch = -1 then { p with stopFlag := true }
    else
      match (if modeFlag = 1 then translate ch else (ch, p.nextch)) with
      | (ch, nextch) => putLoop modeFlag data { p with written := p.written ++ [ch], nextch := nextch }

/-- `final`, which nothing sets. -/
def final : ℤ := -1

/-- The DATA branch. -/
def onData (c : Child) : Child :=
  let c := { c with sendPack := zeros 517 }
  if c.readFlag ∨ ¬ c.writeFlag then c.refuse 0 "Access violation."
  else
    let p := putLoop c.modeFlag ((c.packet.drop header).take nobytes)
      { written := c.written, nextch := c.nextch, stopFlag := c.stopFlag }
    let c := { c with written := p.written, nextch := p.nextch, stopFlag := p.stopFlag }
    let sentNum := (c.blockNumber + 1) % 65536
    let c := c.transmit ([0, 4] ++ blockBytes sentNum)
    if (c.blockNumber : ℤ) = final then { c with stopFlag := true, status := .closed }
    else { c with blockNumber := (c.blockNumber + 1) % 65536 }

/-- The branches on the opcode; the ACK and ERROR branches are those of `tftps.c`. -/
def dispatch (c : Child) : Child :=
  if opcode c.packet = 3 then onData c
  else if opcode c.packet = 4 then c.onAck
  else if opcode c.packet = 5 then c.onError
  else c

def onRecv (c : Child) (src : Addr) (d : Bytes) : Child := dispatch (c.received src d)

def step (c : Child) (e : Ev) : Child :=
  if c.status = .running then
    match e with
    | .timeout => onTimeout c
    | .recv src d => onRecv c src d
  else c

end Old

/-! ### Up to the content of `packet` -/

def Child.withPacket (c : Child) (packet : Bytes) : Child := { c with packet := packet }

section Packet

variable (c : Child) (p : Bytes)

theorem onAck_withPacket : (c.withPacket p).onAck = c.onAck.withPacket p := by
  unfold Child.onAck Child.withPacket
  dsimp only
  split
  · rfl
  · split
    · rfl
    · unfold Child.nextBlock Child.nextData
      dsimp only
      split_ifs <;> rfl

/-- A DATA packet in a read session is refused, by both servers alike. -/
theorem onData_withPacket {c : Child} (hr : c.readFlag = true) (p : Bytes) :
    Old.onData (c.withPacket p) = c.onData.withPacket p := by
  have hflags : c.readFlag = true ∨ ¬ c.writeFlag = true := .inl hr
  unfold Child.onData Old.onData Child.withPacket
  dsimp only
  rw [if_pos hflags, if_pos hflags]
  rfl

theorem withPacket_clearPacket : c.clearPacket.withPacket p = c.withPacket p := by
  unfold Child.clearPacket
  split <;> rfl

end Packet

theorem dispatch_withPacket {c : Child} (hr : c.readFlag = true) {p : Bytes} (hp : opcode p = opcode c.packet) :
    Old.dispatch (c.withPacket p) = c.dispatch.withPacket p := by
  unfold Old.dispatch Child.dispatch
  rw [show opcode (c.withPacket p).packet = opcode c.packet from hp]
  split_ifs
  · exact onData_withPacket hr p
  · exact onAck_withPacket c p
  · rfl
  · rfl

/-- The two children are the same but for `packet`. -/
def Same (c o : Child) : Prop := o = c.withPacket o.packet

theorem same_withPacket (c : Child) (p : Bytes) : Same c (c.withPacket p) := rfl

/-- What the client sends has an opcode. -/
def Ev.HasOpcode : Ev → Prop
  | .timeout => True
  | .recv _ d => 2 ≤ d.length

/-- **One event**: in a read session the two servers do the same to everything but `packet`. -/
theorem same_step {c o : Child} (h : Same c o) (hr : c.readFlag = true) (hw : c.writeFlag = false) {e : Ev}
    (he : e.HasOpcode) : Same (c.step e) (Old.step o e) := by
  obtain ⟨p, rfl⟩ : ∃ p, o = c.withPacket p := ⟨_, h⟩
  by_cases hrun : c.status = .running
  · have hrun' : (c.withPacket p).status = .running := hrun
    cases e with
    | timeout =>
      rw [step_timeout hrun, Old.step, if_pos hrun']
      have hread : c.readFlag = true ∧ ¬ c.writeFlag = true := ⟨hr, by simp [hw]⟩
      have hold : Old.onTimeout (c.withPacket p) = c.onTimeout.withPacket p := by
        unfold Old.onTimeout Child.onTimeout Child.withPacket
        rw [if_pos hread]
        dsimp only
        split <;> rfl
      rw [Same, hold]
      rfl
    | recv src d =>
      rw [step_recv hrun, Old.step, if_pos hrun']
      have hrecv : (c.withPacket p).received src d = (c.received src d).withPacket (recvInto p d) := rfl
      -- a datagram with an opcode covers that of the packet before
      have hop : opcode (recvInto p d) = opcode (c.received src d).packet :=
        (opcode_recvInto he p).trans (opcode_recvInto he c.packet).symm
      have hold : Old.onRecv (c.withPacket p) src d =
          (c.received src d).dispatch.clearPacket.withPacket (recvInto p d) := by
        rw [Old.onRecv, hrecv, dispatch_withPacket (c := c.received src d) hr hop, withPacket_clearPacket]
      rw [hold]
      exact same_withPacket _ _
  · have hrun' : ¬ (c.withPacket p).status = .running := hrun
    have hold : Old.step (c.withPacket p) e = c.withPacket p := if_neg hrun'
    rw [step_of_ne_running hrun, hold]
    exact same_withPacket c p

theorem same_run : ∀ {evs : List Ev} {c o : Child}, Same c o → c.readFlag = true → c.writeFlag = false →
    (∀ e ∈ evs, e.HasOpcode) → Same (evs.foldl Child.step c) (evs.foldl Old.step o) := by
  intro evs
  induction evs with
  | nil => intro c o h _ _ _; exact h
  | cons e evs ih =>
    intro c o h hr hw he
    obtain ⟨hr', hw'⟩ := step_flags c e
    have hstep := same_step h hr hw (he e List.mem_cons_self)
    exact ih hstep (hr'.trans hr) (hw'.trans hw) fun e' he' => he e' (List.mem_cons_of_mem e he')

/-! ### What should hold -/

/-- **The servers agree**, each with its memory: up to every event they have sent the same datagrams, each in answer to
the same event, one has stopped if and only if the other has, and nothing has been overrun. -/
def Agree (mem mem' : Mem) (fs : FileSys) (src : Addr) (r : Request) (evs : List Ev) : Prop :=
  ∀ es, es <+: evs →
    (es.foldl Child.step (Child.start mem fs src r.bytes)).status ≠ .fault ∧
      (es.foldl Old.step (Old.start mem' fs src r.bytes)).hist =
        (es.foldl Child.step (Child.start mem fs src r.bytes)).hist ∧
      (es.foldl Old.step (Old.start mem' fs src r.bytes)).status =
        (es.foldl Child.step (Child.start mem fs src r.bytes)).status

/-- A file that is sent in octet mode has a full first block. -/
def FullFirst (fs : FileSys) (r : Request) : Prop :=
  isOctet r.mode = true → ∀ content, fs.openRdwr r.name = some content → nobytes ≤ content.length

/-! ### Two memories -/

section Start

variable {mem mem' : Mem} {fs : FileSys} {r : Request} {content : Bytes} (src : Addr)

/-- The two children are the same but for `packet`, or they are both gone and have left the same history. -/
def Alike (c o : Child) : Prop :=
  Same c o ∨ c.status ≠ .running ∧ o.status = c.status ∧ o.hist = c.hist

/-- A full block leaves nothing of what was in `data`. -/
theorem take_blit_full (data : Bytes) (h : nobytes ≤ content.length) :
    (blit data 0 (content.take nobytes)).take nobytes = content.take nobytes := by
  have htake := take_blit_zero data (content.take nobytes)
  rwa [List.length_take, Nat.min_eq_left h] at htake

theorem forked_fits (mem : Mem) (r : Request) : RequestFits (recvInto mem.packet r.bytes) := by
  intro _
  rw [parseReq_bytes]
  exact Option.some_ne_none _

theorem start_octet (mem : Mem) (hw : r.write = false) (hmode : isOctet r.mode = true)
    (hfile : fs.openRdwr r.name = some content) :
    Child.start mem fs src r.bytes = { ({ Child.forked mem src r.bytes with
        readFlag := true, writeFlag := false, sendPack := zeros 517, modeFlag := 0
        readFd := content.drop nobytes }).transmit
          ([0, 3, 0, 1] ++ (blit mem.data 0 (content.take nobytes)).take nobytes) with blockNumber := 1 } := by
  rw [start_read src hw]
  exact rrq_octet (parseReq_forked src mem r) hmode hfile

/-- **The code before the loop**: what it finds in the two memories makes no difference. -/
theorem start_alike (mem mem' : Mem) (hw : r.write = false) (hfull : FullFirst fs r) :
    Alike (Child.start mem fs src r.bytes) (Old.start mem' fs src r.bytes) := by
  unfold Old.start
  by_cases hoctet : isOctet r.mode = true
  · cases hfile : fs.openRdwr r.name with
    | none =>
      have hboth : ∀ m, (Child.start m fs src r.bytes).hist = [.recv src r.bytes] ∧
          (Child.start m fs src r.bytes).status = .exited := fun _ => start_octet_none src hw hoctet hfile
      obtain ⟨hh, hs⟩ := hboth mem
      obtain ⟨hh', hs'⟩ := hboth mem'
      exact .inr ⟨by simp [hs], hs'.trans hs.symm, hh'.trans hh.symm⟩
    | some content => -- a first block that fills the buffer leaves nothing of the memory in it
      have hlen := hfull hoctet content hfile
      rw [start_octet src mem hw hoctet hfile, start_octet src mem' hw hoctet hfile, take_blit_full _ hlen,
        take_blit_full _ hlen]
      exact .inl rfl
  · rw [start_read src hw, start_read src hw]
    by_cases hnet : isNetascii r.mode = true
    · cases hfile : fs.fopenR r.name with
      | none =>
        left
        simp only [Child.rrq, parseReq_forked, hoctet, hnet, hfile, if_true, Bool.false_eq_true, if_false]
        rfl
      | some content =>
        left
        rw [rrq_netascii (parseReq_forked src mem r) hnet hfile rfl,
          rrq_netascii (parseReq_forked src mem' r) hnet hfile rfl]
        rfl
    · left
      simp only [Child.rrq, parseReq_forked, hoctet, hnet, Bool.false_eq_true, if_false]
      rfl

theorem Alike.run {c o : Child} (h : Alike c o) (hr : c.readFlag = true) (hw : c.writeFlag = false) {evs : List Ev}
    (hevs : ∀ e ∈ evs, e.HasOpcode) : (evs.foldl Old.step o).hist = (evs.foldl Child.step c).hist ∧
      (evs.foldl Old.step o).status = (evs.foldl Child.step c).status := by
  rcases h with h | ⟨hover, hs, hh⟩
  · rw [same_run h hr hw hevs]
    exact ⟨rfl, rfl⟩
  · have hold : ∀ evs : List Ev, evs.foldl Old.step o = o := by
      intro evs
      induction evs with
      | nil => rfl
      | cons e evs ih =>
        have hstep : Old.step o e = o := if_neg (by rw [hs]; exact hover)
        rw [List.foldl_cons, hstep, ih]
    rw [hold, run_of_ne_running hover]
    exact ⟨hh, hs⟩

theorem ne_fault_run {c : Child} (h : c.status ≠ .fault) {evs : List Ev} (hevs : AllSteps Child.turn NoError c evs) :
    (evs.foldl Child.step c).status ≠ .fault := by
  refine inv_of_allSteps (I := fun c => c.status ≠ .fault) (fun c e hc he => ?_) h hevs
  by_cases hrun : c.status = .running
  · exact ne_fault_of_status (step_status hrun he)
  · rw [step_of_ne_running hrun]
    exact hc

/-- Memory with a one in every byte of `data`. -/
def Mem.ones : Mem :=
  { packet := zeros maxChar, data := List.replicate maxChar 1, sendPack := [], sizeSp := 0
    packet_length := length_zeros _, data_length := List.length_replicate }

/-- Servers that agree whatever their memories send no byte of them. -/
theorem fullFirst_of_agree (hw : r.write = false)
    (h : (Old.start Mem.ones fs src r.bytes).hist = (Child.start Mem.clear fs src r.bytes).hist) : FullFirst fs r := by
  intro hoctet content hfile
  by_contra hshort
  have htake : content.take nobytes = content := List.take_of_length_le (by omega)
  unfold Old.start at h
  rw [start_octet src _ hw hoctet hfile, start_octet src _ hw hoctet hfile, htake] at h
  have hblock : (blit Mem.ones.data 0 content).take nobytes = (blit Mem.clear.data 0 content).take nobytes := by
    have hhist := (hist_transmit _ _).symm.trans (h.trans (hist_transmit _ _))
    simp only [List.cons.injEq, Io.send.injEq, List.append_cancel_left_eq] at hhist
    exact hhist.1.2
  -- the byte behind the content of the file
  have hlt : content.length < nobytes := Nat.lt_of_not_le hshort
  have hpos : 0 < maxChar - content.length := Nat.sub_pos_of_lt (hlt.trans (by decide))
  have hbyte := congrArg (fun d : Bytes => d[content.length]?) hblock
  simp [blit_zero, hlt, hpos, Mem.ones, Mem.clear, zeros] at hbyte

end Start

/-- **When the old and the new server agree on a download.** For every read request and every sequence of events, the
two send the same datagrams and stop at the same event, whatever is in the memories of either, if and only if the file
has a full first block or is not sent in octet mode, and a running child gets no ERROR packet. -/
theorem agree_iff (fs : FileSys) (src : Addr) (r : Request) (hw : r.write = false) (evs : List Ev)
    (hevs : ∀ e ∈ evs, e.HasOpcode) :
    (∀ mem mem', Agree mem mem' fs src r evs) ↔
      FullFirst fs r ∧ ∀ mem, AllSteps Child.turn NoError (Child.start mem fs src r.bytes) evs := by
  constructor
  · intro h
    refine ⟨fullFirst_of_agree src hw (h Mem.clear Mem.ones [] List.nil_prefix).2.1, fun mem => ?_⟩
    by_contra hno
    exact (h mem mem evs List.prefix_rfl).1 (fault_of_error hno)
  · rintro ⟨hfull, hno⟩ mem mem' es ⟨fs', rfl⟩
    have hflags := rrq_flags (Child.forked mem src r.bytes) mem.data fs
    rw [← start_read src hw] at hflags
    have hstart : (Child.start mem fs src r.bytes).status ≠ .fault := (sound_start (forked_fits mem r) fs src).bound.1
    have hrun := (start_alike src mem mem' hw hfull).run hflags.1 hflags.2 fun e he =>
      hevs e (List.mem_append_left _ he)
    exact ⟨ne_fault_run hstart (hno mem).of_append, hrun⟩

def Request.netascii : Request :=
  { Request.octet with mode := ascii "netascii", zero_notMem_mode := by decide, length_mode := by decide }

/-- A timeout, a datagram with an unknown opcode, an ACK and a DATA packet, in a session for a file of two lines. -/
theorem agree_two_lines : Request.netascii.write = false ∧
    ∀ mem mem', Agree mem mem' (.single [97, 10, 98, 10]) 7 Request.netascii
      [.timeout, .recv 7 [0, 9], .recv 7 [0, 4, 0, 1], .recv 7 [0, 3]] := by
  refine ⟨rfl, (agree_iff _ 7 Request.netascii rfl _ ?_).2 ⟨fun hoctet => absurd hoctet (by decide), fun mem => ?_⟩⟩
  · intro e he
    simp only [List.mem_cons, List.not_mem_nil, or_false] at he
    rcases he with rfl | rfl | rfl | rfl
    · trivial
    · exact Nat.le_refl 2
    · exact (show 2 ≤ 4 by omega)
    · exact Nat.le_refl 2
  · refine allSteps_of_forall fun e he c => ?_
    simp only [List.mem_cons, List.not_mem_nil, or_false] at he
    rcases he with rfl | rfl | rfl | rfl
    · trivial
    all_goals
      intro _
      rw [opcode_recvInto (by decide)]
      decide

/-- A file of one letter in octet mode: the packets have 511 bytes that were in the memories before. -/
theorem not_agree_one_letter :
    (Old.start Mem.ones (.single [65]) 7 Request.octet.bytes).hist ≠
        (Child.start Mem.clear (.single [65]) 7 Request.octet.bytes).hist ∧
      ¬ ∀ mem mem', Agree mem mem' (.single [65]) 7 Request.octet [] := by
  have hshort : ¬ FullFirst (.single [65]) Request.octet := by
    intro hfull
    exact absurd (hfull (by decide) [65] rfl) (by decide)
  have hne : (Old.start Mem.ones (.single [65]) 7 Request.octet.bytes).hist ≠
      (Child.start Mem.clear (.single [65]) 7 Request.octet.bytes).hist :=
    fun h => hshort (fullFirst_of_agree 7 rfl h)
  exact ⟨hne, fun h => hne (h Mem.clear Mem.ones [] List.nil_prefix).2.1⟩

end TamuProofs.Tftp
