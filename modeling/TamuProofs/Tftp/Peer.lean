import TamuProofs.Tftp.StopAndWait

/-!
# Is a session bound to its client?

`recvfrom` stores the sender of every datagram in `client_addr`, and `sendto` takes its target from there. So
a datagram from anyone moves the session to its sender, and the branches do not ask who sent it. Nothing is known
of a child that has written over the end of an array.

* `Bound src` — everything sent went to the client that made the request, and nothing was overrun;
* `Ignores src` — a datagram from another address leaves the transfer as it was;
* `Sound src` — the invariant: nothing went elsewhere, and a read session has its last DATA packet in
  `send_pack`;
* **`bound_iff_fromClient`**: a session is bound to its client exactly when the request fits its buffers, nobody
  sends it an ERROR packet and no other address a DATA or ACK packet, and a read session times out only after a
  datagram of its client.
-/

namespace TamuProofs.Tftp

open TamuProofs.Lib

/-! ### The property -/

def Io.GoesTo (src : Addr) : Io → Prop
  | .recv _ _ => True
  | .send dst _ => dst = src
  | .resend dst _ => dst = src

def AllTo (src : Addr) (hist : List Io) : Prop := ∀ io ∈ hist, io.GoesTo src

/-- Every datagram of the session went to `src`, and it has not written over the end of an array. -/
def Bound (src : Addr) (c : Child) : Prop := c.status ≠ .fault ∧ AllTo src c.hist

/-- `block_number`, the place in the file or what was written to it, `send_pack` and `stop_flag`. -/
def SameTransfer (c c' : Child) : Prop :=
  c'.blockNumber = c.blockNumber ∧ c'.readFd = c.readFd ∧ c'.fp = c.fp ∧ c'.written = c.written ∧
    c'.sendPack = c.sendPack ∧ c'.stopFlag = c.stopFlag

/-- A datagram from another address leaves the transfer as it was. -/
def Ignores (src : Addr) (c : Child) : Ev → Prop
  | .timeout => True
  | .recv sender d => sender ≠ src → SameTransfer c (c.step (.recv sender d))

/-- A running session gets no ERROR packet, and a DATA or ACK packet from its client only, and a read session does not
time out while `client_addr` is another address. -/
def FromClient (src : Addr) (c : Child) : Ev → Prop
  | .timeout => c.status = .running → c.readFlag = true → c.writeFlag = false → c.clientAddr = src
  | .recv sender d =>
    c.status = .running → opcode (recvInto c.packet d) ≠ 5 ∧
      (sender ≠ src → opcode (recvInto c.packet d) ≠ 3 ∧ opcode (recvInto c.packet d) ≠ 4)

/-- If the datagram in `packet` is a request, its name and mode fit `Filename` and `Mode`. -/
def RequestFits (packet : Bytes) : Prop := opcode packet = 1 ∨ opcode packet = 2 → parseReq packet ≠ none

/-! ### What the branches send -/

section Sends

variable (c : Child)

theorem onData_sends : ∃ d, c.onData.hist = .send c.clientAddr d :: c.hist := by
  unfold Child.onData
  dsimp only
  split_ifs <;> exact ⟨_, rfl⟩

/-- The ACK branch answers, unless it ends a download. -/
theorem onAck_sends (h : ¬ (c.readFlag = true ∧ c.writeFlag = false ∧ c.stopFlag = true)) :
    ∃ d, c.onAck.hist = .send c.clientAddr d :: c.hist := by
  unfold Child.onAck
  dsimp only
  split
  · exact ⟨_, rfl⟩
  · rename_i hflags
    have hr : c.readFlag = true := by
      by_contra hr
      exact hflags (.inl hr)
    have hw : c.writeFlag = false := by
      by_contra hw
      exact hflags (.inr (by simpa using hw))
    rw [if_neg fun hs => h ⟨hr, hw, hs⟩]
    unfold Child.nextBlock Child.nextData
    dsimp only
    split_ifs <;> exact ⟨_, rfl⟩

/-- In a read session the DATA branch is the end. -/
theorem onData_closed {c : Child} (hr : c.readFlag = true) : c.onData.status = .closed := by
  have hflags : c.readFlag = true ∨ ¬ c.writeFlag = true := .inl hr
  unfold Child.onData
  dsimp only
  rw [if_pos hflags]
  rfl

theorem onAck_pack {c : Child} (hr : c.readFlag = true) (hw : c.writeFlag = false)
    (hrun : c.onAck.status = .running) : c.onAck.sendPack.getD 1 0 = 3 := by
  cases hs : c.stopFlag with
  | true =>
    rw [onAck_stop hr hw hs] at hrun
    cases hrun
  | false =>
    rw [onAck_next hr hw hs, nextBlock_eq]
    rfl

theorem onData_status {c : Child} (hrun : c.status = .running) :
    c.onData.status = .running ∨ c.onData.status = .closed := by
  unfold Child.onData
  dsimp only
  split_ifs
  · exact Or.inr rfl
  · exact Or.inr rfl
  · exact Or.inl hrun

theorem onAck_status {c : Child} (hrun : c.status = .running) :
    c.onAck.status = .running ∨ c.onAck.status = .closed := by
  unfold Child.onAck
  dsimp only
  split_ifs
  · exact Or.inr rfl
  · exact Or.inr rfl
  · left
    rw [nextBlock_eq]
    exact (nextData_frame _).1.trans hrun

/-- Of the branches on the opcode, only that of an ERROR packet goes wrong. -/
theorem dispatch_status {c : Child} (hrun : c.status = .running) (h5 : opcode c.packet ≠ 5) :
    c.dispatch.status = .running ∨ c.dispatch.status = .closed := by
  unfold Child.dispatch
  rw [if_neg h5]
  split_ifs
  · exact onData_status hrun
  · exact onAck_status hrun
  · exact Or.inl hrun

theorem onTimeout_status {c : Child} (hrun : c.status = .running) :
    c.onTimeout.status = .running ∨ c.onTimeout.status = .closed := by
  unfold Child.onTimeout
  dsimp only
  split_ifs
  · exact Or.inr rfl
  · exact Or.inl hrun
  · exact Or.inr rfl
  · exact Or.inl hrun
  · exact Or.inl hrun

theorem ne_fault_of_status {c : Child} (h : c.status = .running ∨ c.status = .closed) : c.status ≠ .fault := by
  rcases h with h | h <;> simp [h]

theorem clearPacket_sendPack : c.clearPacket.sendPack = c.sendPack := by
  unfold Child.clearPacket
  split <;> rfl

theorem sameTransfer_clearPacket {c' : Child} : SameTransfer c c'.clearPacket ↔ SameTransfer c c' := by
  unfold Child.clearPacket
  split <;> exact Iff.rfl

end Sends

/-! ### Steps -/

/-- Nothing went elsewhere, and a read session has its last DATA packet in `send_pack`. -/
structure Sound (src : Addr) (c : Child) : Prop where
  bound : Bound src c
  pack : c.status = .running → c.readFlag = true → c.writeFlag = false → c.sendPack.getD 1 0 = 3

section Steps

variable {c : Child} {src sender : Addr} {d : Bytes}

/-- A datagram that is received and answered leaves the session sound if what the branch does is. -/
theorem Sound.clearPacket (h : Sound src c) : Sound src c.clearPacket := by
  refine ⟨?_, fun hrun hr hw => ?_⟩
  · rw [Bound, clearPacket_status, clearPacket_hist]
    exact h.bound
  · rw [clearPacket_status] at hrun
    rw [(clearPacket_flags c).1] at hr
    rw [(clearPacket_flags c).2] at hw
    rw [clearPacket_sendPack]
    exact h.pack hrun hr hw

theorem Sound.received (h : Sound src c) (sender : Addr) (d : Bytes) : Sound src (c.received sender d) :=
  ⟨⟨h.bound.1, List.forall_mem_cons.2 ⟨trivial, h.bound.2⟩⟩, h.pack⟩

theorem Sound.over {c' : Child} (hall : AllTo src c'.hist) (hs : c'.status = .closed ∨ c'.status = .exited) :
    Sound src c' := by
  rcases hs with hs | hs
  · exact ⟨⟨by simp [hs], hall⟩, fun hrun => absurd (hs.symm.trans hrun) (by simp)⟩
  · exact ⟨⟨by simp [hs], hall⟩, fun hrun => absurd (hs.symm.trans hrun) (by simp)⟩

theorem Sound.dispatch_client (h : Sound src c) (hc : c.clientAddr = src) (hrun : c.status = .running)
    (h5 : opcode c.packet ≠ 5) : Sound src c.dispatch := by
  have hsend : ∀ {c' : Child}, (∃ d, c'.hist = .send c.clientAddr d :: c.hist) → AllTo src c'.hist := by
    rintro c' ⟨d, hd⟩
    rw [hd]
    exact List.forall_mem_cons.2 ⟨hc, h.bound.2⟩
  rcases dispatch_cases c with ⟨-, hd⟩ | ⟨-, hd⟩ | ⟨hop, -⟩ | ⟨-, hd⟩
  · rw [hd]
    refine ⟨⟨ne_fault_of_status (onData_status hrun), hsend (onData_sends c)⟩, fun hrun hr _ => ?_⟩
    rw [(onData_flags c).1] at hr
    rw [onData_closed hr] at hrun
    cases hrun
  · rw [hd]
    by_cases hstop : c.readFlag = true ∧ c.writeFlag = false ∧ c.stopFlag = true
    · obtain ⟨hr, hw, hs⟩ := hstop
      rw [onAck_stop hr hw hs]
      exact Sound.over h.bound.2 (.inl rfl)
    · refine ⟨⟨ne_fault_of_status (onAck_status hrun), hsend (onAck_sends c hstop)⟩, fun hrun hr hw => ?_⟩
      rw [(onAck_flags c).1] at hr
      rw [(onAck_flags c).2] at hw
      exact onAck_pack hr hw hrun
  · exact absurd hop h5
  · rw [hd]
    exact h

theorem dispatch_other (h3 : opcode c.packet ≠ 3) (h4 : opcode c.packet ≠ 4) (h5 : opcode c.packet ≠ 5) :
    c.dispatch = c := by
  unfold Child.dispatch
  rw [if_neg h3, if_neg h4, if_neg h5]

theorem Sound.timeout (h : Sound src c) (hrun : c.status = .running)
    (hc : c.readFlag = true → c.writeFlag = false → c.clientAddr = src) : Sound src c.onTimeout := by
  have hall : AllTo src c.onTimeout.hist := by
    unfold Child.onTimeout
    split
    · rename_i hread
      have hcl : c.clientAddr = src := hc hread.1 (by simpa using hread.2)
      dsimp only
      split_ifs <;> exact List.forall_mem_cons.2 ⟨hcl, h.bound.2⟩
    · dsimp only
      split_ifs <;> exact h.bound.2
  have hpack : c.onTimeout.sendPack = c.sendPack := by
    unfold Child.onTimeout
    dsimp only
    split_ifs <;> rfl
  refine ⟨⟨ne_fault_of_status (onTimeout_status hrun), hall⟩, fun _ hr hw => ?_⟩
  rw [(onTimeout_flags c).1] at hr
  rw [(onTimeout_flags c).2] at hw
  rw [hpack]
  exact h.pack hrun hr hw

theorem Sound.step (h : Sound src c) {e : Ev} (he : FromClient src c e) : Sound src (c.step e) := by
  by_cases hrun : c.status = .running
  · cases e with
    | timeout =>
      rw [step_timeout hrun]
      exact h.timeout hrun (he hrun)
    | recv sender d =>
      obtain ⟨h5, hother⟩ := he hrun
      rw [step_recv hrun]
      by_cases hs : sender = src
      · exact ((h.received sender d).dispatch_client hs hrun h5).clearPacket
      · obtain ⟨h3, h4⟩ := hother hs
        rw [dispatch_other (c := c.received sender d) h3 h4 h5]
        exact (h.received sender d).clearPacket
  · rw [step_of_ne_running hrun]
    exact h

theorem ignores_of_fromClient {e : Ev} (he : FromClient src c e) : Ignores src c e := by
  cases e with
  | timeout => trivial
  | recv sender d =>
    intro hs
    by_cases hrun : c.status = .running
    · obtain ⟨h5, hother⟩ := he hrun
      obtain ⟨h3, h4⟩ := hother hs
      rw [step_recv hrun, sameTransfer_clearPacket, dispatch_other (c := c.received sender d) h3 h4 h5]
      exact ⟨rfl, rfl, rfl, rfl, rfl, rfl⟩
    · rw [step_of_ne_running hrun]
      exact ⟨rfl, rfl, rfl, rfl, rfl, rfl⟩

theorem not_bound_of_send {c' : Child} {hist : List Io} (hs : sender ≠ src)
    (h : ∃ d, c'.hist = .send sender d :: hist) : ¬ Bound src c'.clearPacket := by
  obtain ⟨d, hd⟩ := h
  rintro ⟨-, hall⟩
  rw [clearPacket_hist, hd] at hall
  exact hs (List.forall_mem_cons.1 hall).1

theorem Sound.fromClient (h : Sound src c) {e : Ev} (hb : Bound src (c.step e)) (hi : Ignores src c e) :
    FromClient src c e := by
  cases e with
  | timeout =>
    intro hrun hr hw
    -- the timeout sends to `clientAddr`
    have hread : c.readFlag = true ∧ ¬ c.writeFlag = true := ⟨hr, by simp [hw]⟩
    have hall := hb.2
    rw [step_timeout hrun, Child.onTimeout, if_pos hread] at hall
    dsimp only at hall
    split at hall
    · exact (List.forall_mem_cons.1 hall).1
    · exact (List.forall_mem_cons.1 hall).1
  | recv sender d =>
    intro hrun
    rw [step_recv hrun] at hb
    refine ⟨fun h5 => ?_, fun hs => ⟨fun h3 => ?_, fun h4 => ?_⟩⟩
    · -- an ERROR packet overruns `ErrMsg`
      have hd : (c.received sender d).dispatch = (c.received sender d).onError := by
        have hop : opcode (c.received sender d).packet = 5 := h5
        simp [Child.dispatch, hop]
      rw [hd, Bound, clearPacket_status] at hb
      exact hb.1 rfl
    · rw [dispatch_data h3] at hb
      exact not_bound_of_send hs (onData_sends _) hb
    · have hsame := hi hs
      rw [step_recv hrun] at hsame
      rw [dispatch_ack h4] at hb hsame
      by_cases hstop : c.readFlag = true ∧ c.writeFlag = false ∧ c.stopFlag = true
      · -- the ACK of another address ends the download and clears the last packet
        obtain ⟨hr, hw, hstop⟩ := hstop
        rw [sameTransfer_clearPacket, onAck_stop (c := c.received sender d) hr hw hstop] at hsame
        have hzero : zeros 517 = c.sendPack := hsame.2.2.2.2.1
        have hpack := h.pack hrun hr hw
        rw [← hzero] at hpack
        exact absurd hpack (by decide)
      · exact not_bound_of_send hs (onAck_sends (c.received sender d) hstop) hb

theorem Sound.run_iff (h : Sound src c) (evs : List Ev) :
    AllStates Child.turn (Bound src) c evs ∧ AllSteps Child.turn (Ignores src) c evs ↔
      AllSteps Child.turn (FromClient src) c evs := by
  refine allStates_and_allSteps_iff (I := Sound src) (fun c h => h.bound) ?_ ?_ ?_ h
  · intro c e h he
    exact ⟨c.step e, rfl, h.step he⟩
  · intro c e _ he
    exact ignores_of_fromClient he
  · intro c e c' h hc hb hi
    cases hc
    exact h.fromClient hb hi

/-! ### The start of a session -/

theorem sound_declined {c' : Child} (hall : AllTo src c.hist) (hc : c.clientAddr = src)
    (hreq : parseReq c.packet ≠ none) (h : Declined c c') : Sound src c' := by
  rcases h with ⟨hnone, -⟩ | ⟨-, ⟨hs, hh⟩ | ⟨hs, code, msg, hh⟩⟩
  · exact absurd hnone hreq
  · exact Sound.over (hh ▸ hall) (.inr hs)
  · refine Sound.over ?_ (.inl hs)
    rw [hh]
    exact List.forall_mem_cons.2 ⟨hc, hall⟩

theorem sound_rrq (hall : AllTo src c.hist) (hc : c.clientAddr = src) (hrun : c.status = .running)
    (hreq : parseReq c.packet ≠ none) (data : Bytes) (fs : FileSys) : Sound src (c.rrq data fs) := by
  rcases rrq_cases c data fs with h | ⟨-, c', b, heq, ho, -⟩
  · exact sound_declined hall hc hreq h
  · have hne : c'.status ≠ .fault := by simp [ho.status.trans hrun]
    have hall' : AllTo src c'.hist := ho.hist ▸ hall
    rw [heq]
    exact ⟨⟨hne, List.forall_mem_cons.2 ⟨ho.client.trans hc, hall'⟩⟩, fun _ _ _ => rfl⟩

theorem sound_wrq (hall : AllTo src c.hist) (hc : c.clientAddr = src) (hrun : c.status = .running)
    (hreq : parseReq c.packet ≠ none) (fs : FileSys) : Sound src (c.wrq fs) := by
  rcases wrq_cases c fs with h | ⟨-, c', heq, ho⟩
  · exact sound_declined hall hc hreq h
  · have hne : c'.status ≠ .fault := by simp [ho.status.trans hrun]
    have hall' : AllTo src c'.hist := ho.hist ▸ hall
    rw [heq]
    exact ⟨⟨hne, List.forall_mem_cons.2 ⟨ho.client.trans hc, hall'⟩⟩,
      fun _ hr _ => Bool.noConfusion (ho.read.symm.trans hr)⟩

theorem sound_start {mem : Mem} {req : Bytes} (hfits : RequestFits (recvInto mem.packet req)) (fs : FileSys)
    (src : Addr) : Sound src (Child.start mem fs src req) := by
  have hall : AllTo src (Child.forked mem src req).hist := List.forall_mem_cons.2 ⟨trivial, by simp⟩
  unfold Child.start
  dsimp only
  split_ifs with h1 h2
  · exact sound_rrq hall rfl rfl (hfits (.inl h1)) _ _
  · exact sound_wrq hall rfl rfl (hfits (.inr h2)) _
  · exact ⟨⟨by simp [Child.forked], hall⟩, fun _ hr => nomatch hr⟩

theorem rrq_fault (data : Bytes) (fs : FileSys) (hreq : parseReq c.packet = none) :
    (c.rrq data fs).status = .fault := by
  simp only [Child.rrq, hreq]

theorem wrq_fault (fs : FileSys) (hreq : parseReq c.packet = none) : (c.wrq fs).status = .fault := by
  simp only [Child.wrq, hreq]

/-- A request that does not fit its buffers overruns one of them. -/
theorem start_fault {mem : Mem} {req : Bytes} (hfits : ¬ RequestFits (recvInto mem.packet req)) (fs : FileSys)
    (src : Addr) : (Child.start mem fs src req).status = .fault := by
  rw [RequestFits, Classical.not_imp, not_not] at hfits
  obtain ⟨hop, hreq⟩ := hfits
  rcases hop with hop | hop
  · rw [start_rrq hop]
    exact rrq_fault _ _ hreq
  · rw [start_wrq hop]
    exact wrq_fault _ hreq

end Steps

/-- **A session is bound to its client, exactly**: along any run of a session nothing is overrun, everything it sends
goes to the client that made the request, and the datagrams of others leave the transfer as it was, if and only if the
request fits its buffers and every step of the run is one that `FromClient` allows. -/
theorem bound_iff_fromClient (mem : Mem) (fs : FileSys) (src : Addr) (req : Bytes) (evs : List Ev) :
    AllStates Child.turn (Bound src) (Child.start mem fs src req) evs ∧
        AllSteps Child.turn (Ignores src) (Child.start mem fs src req) evs ↔
      RequestFits (recvInto mem.packet req) ∧
        AllSteps Child.turn (FromClient src) (Child.start mem fs src req) evs := by
  by_cases hfits : RequestFits (recvInto mem.packet req)
  · rw [and_iff_right hfits]
    exact (sound_start hfits fs src).run_iff evs
  · refine iff_of_false (fun h => ?_) fun h => hfits h.1
    exact h.1.head.1 (start_fault hfits fs src)

/-- A download of client 1: an ACK from address 2 gets the next block. -/
theorem not_bound_other_ack :
    ¬ (AllStates Child.turn (Bound 1) (Child.start Mem.clear (.single (zeros 1536)) 1 (request 1 "octet"))
          [.recv 2 (ackPack 1)] ∧
        AllSteps Child.turn (Ignores 1) (Child.start Mem.clear (.single (zeros 1536)) 1 (request 1 "octet"))
          [.recv 2 (ackPack 1)]) := by
  have hfits : RequestFits (recvInto Mem.clear.packet (request 1 "octet")) := by
    intro _
    rw [parseReq_request_octet]
    exact Option.some_ne_none _
  rw [(sound_start hfits _ _).run_iff]
  rintro ⟨h, -⟩
  obtain ⟨c, hc, -, -, hs⟩ := serving_start_octet 1 (by decide) parseReq_request_octet (by decide)
    (openRdwr_single (zeros 1536))
  rw [hc] at h
  exact ((h hs.running).2 (by decide)).2 (opcode_recvInto_ackPack _ _)

end TamuProofs.Tftp
