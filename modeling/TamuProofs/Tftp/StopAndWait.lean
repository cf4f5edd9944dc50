import TamuProofs.Lib.Run
import TamuProofs.Tftp.Download

/-!
# Is a download stop-and-wait?

`StopAndWait` asks of a history that each block but the first was sent only after the block before it had
been acknowledged.  The ACK branch sends the next block on every ACK, whatever its number, so a duplicate of
an older ACK breaks the property.

* `step_of_asks`, `step_of_not_asks` — a datagram either asks for the next block, and gets it, or leaves
  the number of blocks sent as it is;
* `Waits` — the invariant: `block_number` counts the blocks, and the last block is not acknowledged yet;
* `stopAndWait_iff_acksCurrent` — a run is stop-and-wait if and only if each ACK that asks for a block
  carries the number of the block sent last.
-/

namespace TamuProofs.Tftp

open TamuProofs.Lib

/-! ### The property -/

/-- The first transmission of a block. -/
def Io.isBlock : Io → Bool
  | .send _ d => d.take 2 == [0, 3]
  | .recv _ _ => false
  | .resend _ _ => false

/-- How many blocks a history has sent, retransmissions apart. -/
def blocks (hist : List Io) : ℕ := hist.countP Io.isBlock

/-- Since the first transmission of block `n`, an ACK with its number was received. -/
def Acked (n : ℕ) (hist : List Io) : Prop :=
  ∃ newer src d older, hist = newer ++ .recv src d :: older ∧ d.take 4 = ackPack n ∧ blocks older = n

/-- **Stop and wait**: whenever a block is sent for the first time, the block before it is acknowledged. -/
def StopAndWait (hist : List Io) : Prop :=
  ∀ newer io older, hist = newer ++ io :: older → io.isBlock = true → 0 < blocks older →
    Acked (blocks older) older

theorem blocks_cons (io : Io) (hist : List Io) :
    blocks (io :: hist) = blocks hist + if io.isBlock then 1 else 0 := List.countP_cons

theorem acked_cons {n : ℕ} {io : Io} {hist : List Io} :
    Acked n (io :: hist) ↔
      (∃ src d, io = .recv src d ∧ d.take 4 = ackPack n ∧ blocks hist = n) ∨ Acked n hist := by
  constructor
  · rintro ⟨newer, src, d, older, h, hd, hn⟩
    cases newer with
    | nil =>
      obtain ⟨rfl, rfl⟩ := List.cons.inj h
      exact Or.inl ⟨src, d, rfl, hd, hn⟩
    | cons io' newer => exact Or.inr ⟨newer, src, d, older, (List.cons.inj h).2, hd, hn⟩
  · rintro (⟨src, d, rfl, hd, hn⟩ | ⟨newer, src, d, older, rfl, hd, hn⟩)
    · exact ⟨[], src, d, hist, rfl, hd, hn⟩
    · exact ⟨io :: newer, src, d, older, rfl, hd, hn⟩

theorem stopAndWait_cons {io : Io} {hist : List Io} :
    StopAndWait (io :: hist) ↔
      (io.isBlock = true → 0 < blocks hist → Acked (blocks hist) hist) ∧ StopAndWait hist := by
  constructor
  · intro h
    exact ⟨h [] io hist rfl, fun newer io' older hh => h (io :: newer) io' older (by rw [hh]; rfl)⟩
  · rintro ⟨h, h'⟩ newer io' older hh
    cases newer with
    | nil =>
      obtain ⟨rfl, rfl⟩ := List.cons.inj hh
      exact h
    | cons io'' newer => exact h' newer io' older (List.cons.inj hh).2

/-- An ACK cannot come before its block. -/
theorem Acked.le_blocks {n : ℕ} {hist : List Io} (h : Acked n hist) : n ≤ blocks hist := by
  obtain ⟨newer, src, d, older, rfl, -, rfl⟩ := h
  simp [blocks, Io.isBlock]

/-! ### What is neither a block nor received -/

/-- A transmission that is not a new block. -/
def Io.Quiet (io : Io) : Prop := io.isBlock = false ∧ ∀ src d, io ≠ .recv src d

section Quiet

variable {ios hist : List Io}

theorem blocks_quiet_append (h : ∀ io ∈ ios, io.Quiet) : blocks (ios ++ hist) = blocks hist := by
  have : blocks ios = 0 := List.countP_eq_zero.2 fun io hio => by simp [(h io hio).1]
  rw [blocks, List.countP_append]
  exact (congrArg (· + _) this).trans (Nat.zero_add _)

theorem acked_quiet_append {n : ℕ} (h : ∀ io ∈ ios, io.Quiet) : Acked n (ios ++ hist) ↔ Acked n hist := by
  induction ios with
  | nil => rfl
  | cons io ios ih =>
    rw [List.cons_append, acked_cons, ih fun io' hio' => h io' (List.mem_cons_of_mem _ hio')]
    apply or_iff_right
    rintro ⟨src, d, hio, -⟩
    exact (h io List.mem_cons_self).2 src d hio

theorem stopAndWait_quiet_append (h : ∀ io ∈ ios, io.Quiet) : StopAndWait (ios ++ hist) ↔ StopAndWait hist := by
  induction ios with
  | nil => rfl
  | cons io ios ih =>
    rw [List.cons_append, stopAndWait_cons, ih fun io' hio' => h io' (List.mem_cons_of_mem _ hio')]
    apply and_iff_right
    intro hio
    rw [(h io List.mem_cons_self).1] at hio
    cases hio

end Quiet

theorem quiet_send_errPack (dst : Addr) (code : UInt8) (msg : String) : (Io.send dst (errPack code msg)).Quiet :=
  ⟨rfl, fun _ _ h => by cases h⟩

theorem quiet_send_ack (dst : Addr) (n : ℕ) : (Io.send dst ([0, 4] ++ blockBytes n)).Quiet :=
  ⟨rfl, fun _ _ h => by cases h⟩

/-! ### What a step does to the history -/

section Steps

variable {c : Child} {d : Bytes}

/-- The datagram makes a read session send its next block. -/
def Asks (c : Child) (d : Bytes) : Prop :=
  c.readFlag = true ∧ c.writeFlag = false ∧ c.stopFlag = false ∧ opcode (recvInto c.packet d) = 4

/-- **A datagram that asks for the next block** gets it. -/
theorem step_of_asks (src : Addr) (hrun : c.status = .running) (h : Asks c d) :
    ∃ c' b, c.step (.recv src d) = c' ∧
      c'.hist = .send src (dataPack (c.blockNumber + 1) b) :: .recv src d :: c.hist ∧
      c'.status = .running ∧ c'.readFlag = true ∧ c'.writeFlag = false ∧
      c'.blockNumber = (c.blockNumber + 1) % 65536 := by
  obtain ⟨hr, hw, hs, hop⟩ := h
  obtain ⟨f1, f2, f3, -⟩ := nextData_frame (c.asked src d)
  exact ⟨_, _, step_asked src hrun hr hw hs hop, hist_asked_transmit _ _ _ _, f1.trans hrun, f2.trans hr,
    f3.trans hw, rfl⟩

/-- What a step that sends no block leaves as it is, if the session goes on. -/
structure SameSession (c c' : Child) : Prop where
  running : c'.status = .running
  readFlag : c'.readFlag = c.readFlag
  writeFlag : c'.writeFlag = c.writeFlag
  read : c.readFlag = true → c'.blockNumber = c.blockNumber ∧ c'.stopFlag = c.stopFlag

theorem clearPacket_hist (c : Child) : c.clearPacket.hist = c.hist := by
  unfold Child.clearPacket
  split <;> rfl

theorem clearPacket_status (c : Child) : c.clearPacket.status = c.status := by
  unfold Child.clearPacket
  split <;> rfl

theorem refuse_hist (c : Child) (code : UInt8) (msg : String) :
    (c.refuse code msg).hist = [.send c.clientAddr (errPack code msg)] ++ c.hist := hist_transmit _ _

theorem refuse_status (c : Child) (code : UInt8) (msg : String) : (c.refuse code msg).status ≠ .running := by
  simp [Child.refuse]

theorem onData_quiet (hrun : c.status = .running) :
    ∃ ios, (∀ io ∈ ios, io.Quiet) ∧ c.onData.hist = ios ++ c.hist ∧
      (c.onData.status = .running → SameSession c c.onData) := by
  by_cases h : c.readFlag = true ∨ ¬ c.writeFlag = true
  · have hd : c.onData = { c with sendPack := zeros 517 }.refuse 0 "Access violation." := if_pos h
    rw [hd]
    exact ⟨_, by simpa using quiet_send_errPack _ _ _, refuse_hist _ _ _,
      fun hr => absurd hr (refuse_status _ _ _)⟩
  · have hread : c.readFlag = true → False := fun hr => h (Or.inl hr)
    refine ⟨[.send c.clientAddr ([0, 4] ++ blockBytes (c.blockNumber % 65536))],
      by simpa using quiet_send_ack _ _, ?_, ?_⟩
    all_goals
      simp only [Child.onData]
      rw [if_neg h]
      split
    · exact hist_transmit _ _
    · exact hist_transmit _ _
    · intro hr; cases hr
    · exact fun _ => ⟨hrun, rfl, rfl, fun hr => (hread hr).elim⟩

theorem dispatch_quiet (hrun : c.status = .running)
    (h : ¬ (c.readFlag = true ∧ c.writeFlag = false ∧ c.stopFlag = false ∧ opcode c.packet = 4)) :
    ∃ ios, (∀ io ∈ ios, io.Quiet) ∧ c.dispatch.hist = ios ++ c.hist ∧
      (c.dispatch.status = .running → SameSession c c.dispatch) := by
  rcases dispatch_cases c with ⟨-, hd⟩ | ⟨h4, hd⟩ | ⟨-, hd⟩ | ⟨-, hd⟩
  · rw [hd]
    exact onData_quiet hrun
  · rw [hd]
    by_cases hacc : ¬ c.readFlag = true ∨ c.writeFlag = true
    · have hack : c.onAck = { c with sendPack := zeros 517 }.refuse 2 "Access violation." := if_pos hacc
      rw [hack]
      exact ⟨_, by simpa using quiet_send_errPack _ _ _, refuse_hist _ _ _,
        fun hr => absurd hr (refuse_status _ _ _)⟩
    · rw [not_or, not_not, Bool.not_eq_true] at hacc
      -- the ACK of a download that asks for nothing ends it
      have hstop : c.stopFlag = true := by
        by_contra hs
        exact h ⟨hacc.1, hacc.2, by simpa using hs, h4⟩
      rw [onAck_stop hacc.1 hacc.2 hstop]
      exact ⟨[], by simp, rfl, fun hr => by cases hr⟩
  · rw [hd]
    exact ⟨[], by simp, rfl, fun hr => by cases hr⟩
  · rw [hd]
    exact ⟨[], by simp, rfl, fun _ => ⟨hrun, rfl, rfl, fun _ => ⟨rfl, rfl⟩⟩⟩

/-- **A datagram that does not ask for the next block** does not get one. -/
theorem step_of_not_asks (src : Addr) (hrun : c.status = .running) (h : ¬ Asks c d) :
    ∃ c' ios, c.step (.recv src d) = c' ∧ (∀ io ∈ ios, io.Quiet) ∧
      c'.hist = ios ++ .recv src d :: c.hist ∧
      (c'.status = .running → SameSession c c') := by
  obtain ⟨ios, hios, hhist, hsame⟩ := dispatch_quiet (c := c.received src d) hrun h
  refine ⟨_, ios, step_recv hrun src d, hios, (clearPacket_hist _).trans hhist, fun hr => ?_⟩
  rw [clearPacket_status] at hr
  obtain ⟨-, h2, h3, h4⟩ := hsame hr
  rw [clearPacket_running hr]
  exact ⟨hr, h2, h3, h4⟩

theorem step_timeout_quiet (hrun : c.status = .running) :
    ∃ c' ios, c.step .timeout = c' ∧ (∀ io ∈ ios, io.Quiet) ∧ c'.hist = ios ++ c.hist ∧
      (c'.status = .running → SameSession c c') := by
  rw [step_timeout hrun]
  unfold Child.onTimeout
  by_cases hr : c.readFlag = true ∧ ¬ c.writeFlag = true
  · -- a download sends its packet again
    have hq : (Io.resend c.clientAddr (c.sendPack.take c.sizeSp)).Quiet := ⟨rfl, fun _ _ h => by cases h⟩
    rw [if_pos hr]
    refine ⟨_, [_], rfl, by simpa using hq, ?_, fun h => ?_⟩
    · dsimp only
      split <;> rfl
    · dsimp only at h ⊢
      split at h
      · cases h
      · rw [if_neg ‹_›]
        exact ⟨hrun, rfl, rfl, fun _ => ⟨rfl, rfl⟩⟩
  · -- an upload only counts
    rw [if_neg hr]
    refine ⟨_, [], rfl, by simp, ?_, fun h => ?_⟩
    · dsimp only
      split
      · split <;> rfl
      · rfl
    · dsimp only at h ⊢
      split at h
      · rename_i hw
        rw [if_pos hw]
        split at h
        · cases h
        · rw [if_neg ‹_›]
          exact ⟨hrun, rfl, rfl, fun _ => ⟨rfl, rfl⟩⟩
      · rw [if_neg ‹_›]
        exact ⟨hrun, rfl, rfl, fun _ => ⟨rfl, rfl⟩⟩

end Steps

/-! ### The invariant -/

/-- Where a child stands: a session that is not a read session has sent no block; in a read session
`block_number` counts the blocks, and while blocks are left the last one is not acknowledged. -/
structure Waits (c : Child) : Prop where
  hist : StopAndWait c.hist
  other : c.status = .running → c.readFlag = false → blocks c.hist = 0
  read : c.status = .running → c.readFlag = true →
    c.writeFlag = false ∧ 0 < blocks c.hist ∧ c.blockNumber = blocks c.hist % 65536
  waiting : c.status = .running → c.readFlag = true → c.stopFlag = false → ¬ Acked (blocks c.hist) c.hist

theorem waits_of_not_running {c : Child} (h : StopAndWait c.hist) (hrun : c.status ≠ .running) : Waits c :=
  ⟨h, fun hr => absurd hr hrun, fun hr => absurd hr hrun, fun hr => absurd hr hrun⟩

/-- An ACK has opcode 4, whatever it is received over. -/
theorem opcode_of_take_eq_ackPack {packet d : Bytes} {n : ℕ} (h : d.take 4 = ackPack n) :
    opcode (recvInto packet d) = 4 := by
  rw [ackPack, blockBytes_eq] at h
  obtain ⟨a, b, rest, rfl⟩ : ∃ a b rest, d = 0 :: 4 :: a :: b :: rest := by
    match d, h with
    | a :: b :: x :: y :: rest, h =>
      simp only [List.take_succ_cons, List.take_zero, List.cons_append, List.nil_append, List.cons.injEq] at h
      obtain ⟨rfl, rfl, -⟩ := h
      exact ⟨x, y, rest, rfl⟩
  rfl

theorem ackPack_mod (n : ℕ) : ackPack (n % 65536) = ackPack n := by
  rw [ackPack, Nat.mod_mod, ackPack]

/-- The ACKs a run may see: one that asks for the next block carries the number of the last one. -/
def AcksCurrent (c : Child) : Ev → Prop
  | .timeout => True
  | .recv _ d => c.status = .running → Asks c d → d.take 4 = ackPack c.blockNumber

section Invariant

variable {c : Child} {src : Addr} {d : Bytes}

theorem stopAndWait_asked_iff (h : Waits c) (hrun : c.status = .running) (ha : Asks c d) (b : Bytes) :
    StopAndWait (.send src (dataPack (c.blockNumber + 1) b) :: .recv src d :: c.hist) ↔
      d.take 4 = ackPack c.blockNumber := by
  obtain ⟨-, hpos, hnum⟩ := h.read hrun ha.1
  have hb : blocks (.recv src d :: c.hist) = blocks c.hist := by simp [blocks_cons, Io.isBlock]
  rw [stopAndWait_cons, stopAndWait_cons, hb, acked_cons, hnum, ackPack_mod]
  constructor
  · rintro ⟨h1, -⟩
    rcases h1 rfl hpos with ⟨src', d', hio, hd, -⟩ | hack
    · cases hio
      exact hd
    · exact absurd hack (h.waiting hrun ha.1 ha.2.2.1)
  · intro hd
    exact ⟨fun _ _ => Or.inl ⟨src, d, rfl, hd, rfl⟩, fun hf => (by cases hf), h.hist⟩

theorem Waits.quiet {c' : Child} {ios : List Io} (h : Waits c) (hrun : c.status = .running)
    (hios : ∀ io ∈ ios, io.Quiet) (hhist : c'.hist = ios ++ c.hist)
    (hsame : c'.status = .running → SameSession c c') : Waits c' := by
  have hsw : StopAndWait c'.hist := by
    rw [hhist, stopAndWait_quiet_append hios]
    exact h.hist
  by_cases hr : c'.status = .running
  · obtain ⟨-, h2, h3, h4⟩ := hsame hr
    have hb : blocks c'.hist = blocks c.hist := by rw [hhist, blocks_quiet_append hios]
    refine ⟨hsw, fun _ hf => ?_, fun _ ht => ?_, fun _ ht hs => ?_⟩
    · rw [hb]
      exact h.other hrun (h2 ▸ hf)
    · rw [h2] at ht
      rw [h3, hb, (h4 ht).1]
      exact h.read hrun ht
    · rw [h2] at ht
      rw [(h4 ht).2] at hs
      rw [hb, hhist, acked_quiet_append hios]
      exact h.waiting hrun ht hs
  · exact waits_of_not_running hsw hr

/-- A received datagram that is no ACK of the last block, put on the history. -/
theorem Waits.recv (h : Waits c) (hrun : c.status = .running)
    (hop : c.readFlag = true → c.stopFlag = false → ¬ d.take 4 = ackPack (blocks c.hist)) :
    Waits { c with hist := .recv src d :: c.hist } := by
  have hb : blocks (.recv src d :: c.hist) = blocks c.hist := by simp [blocks_cons, Io.isBlock]
  refine ⟨?_, fun _ hf => hb.trans (h.other hrun hf), fun _ ht => ?_, fun _ ht hs => ?_⟩
  · exact stopAndWait_cons.2 ⟨fun hf => (by cases hf), h.hist⟩
  · show c.writeFlag = false ∧ 0 < blocks (.recv src d :: c.hist) ∧ _
    rw [hb]
    exact h.read hrun ht
  · show ¬ Acked (blocks (.recv src d :: c.hist)) (.recv src d :: c.hist)
    rw [hb, acked_cons]
    rintro (⟨src', d', hio, hd, -⟩ | hack)
    · cases hio
      exact hop ht hs hd
    · exact h.waiting hrun ht hs hack

theorem Waits.step {e : Ev} (h : Waits c) (he : AcksCurrent c e) : Waits (c.step e) := by
  by_cases hrun : c.status ≠ .running
  · rw [step_of_ne_running hrun]
    exact h
  rw [not_not] at hrun
  cases e with
  | timeout =>
    obtain ⟨c', ios, hc', hios, hhist, hsame⟩ := step_timeout_quiet hrun
    rw [hc']
    exact h.quiet hrun hios hhist hsame
  | recv src d =>
    by_cases ha : Asks c d
    · -- the next block goes out
      obtain ⟨c', b, hc', hhist, hrun', hr', hw', hn'⟩ := step_of_asks src hrun ha
      obtain ⟨-, -, hnum⟩ := h.read hrun ha.1
      have hb : blocks c'.hist = blocks c.hist + 1 := by
        rw [hhist]
        simp [blocks_cons, Io.isBlock, dataPack]
      rw [hc']
      refine ⟨?_, fun _ hf => ?_, fun _ _ => ⟨hw', by omega, by omega⟩, fun _ _ _ hack => ?_⟩
      · rw [hhist]
        exact (stopAndWait_asked_iff h hrun ha b).2 (he hrun ha)
      · rw [hr'] at hf
        cases hf
      · -- the new block is out, and nothing was received since
        rw [hb, hhist, acked_cons, acked_cons] at hack
        rcases hack with ⟨src', d', hio, -⟩ | ⟨src', d', -, -, hn⟩ | hack
        · cases hio
        · omega
        · have := hack.le_blocks
          omega
    · -- no new block
      obtain ⟨c', ios, hc', hios, hhist, hsame⟩ := step_of_not_asks src hrun ha
      have hrecv : Waits { c with hist := .recv src d :: c.hist } := h.recv hrun fun ht hs hd =>
        ha ⟨ht, (h.read hrun ht).1, hs, opcode_of_take_eq_ackPack hd⟩
      rw [hc']
      exact hrecv.quiet hrun hios hhist fun hr => ⟨hr, (hsame hr).2, (hsame hr).3, (hsame hr).4⟩

theorem Waits.acksCurrent {e : Ev} (h : Waits c) (hsw : StopAndWait (c.step e).hist) : AcksCurrent c e := by
  cases e with
  | timeout => trivial
  | recv src d =>
    intro hrun ha
    obtain ⟨c', b, hc', hhist, -⟩ := step_of_asks src hrun ha
    rw [hc', hhist] at hsw
    exact (stopAndWait_asked_iff h hrun ha b).1 hsw

/-- One turn of the transfer loop as a step of a machine. -/
def Child.turn (c : Child) (e : Ev) : Option Child := some (c.step e)

theorem Waits.allStates_iff (h : Waits c) (evs : List Ev) :
    AllStates Child.turn (fun c => StopAndWait c.hist) c evs ↔ AllSteps Child.turn AcksCurrent c evs := by
  refine allStates_iff_allSteps (I := Waits) (fun _ hI => hI.hist) (fun c e hI hC => ⟨_, rfl, hI.step hC⟩) ?_ h
  intro c e c' hI hc' hsw
  cases hc'
  exact hI.acksCurrent hsw

end Invariant

/-! ### The start of a session -/

section Start

variable {c : Child} {src : Addr} {req : Bytes}

theorem stopAndWait_request : StopAndWait [.recv src req] :=
  stopAndWait_cons.2 ⟨fun hf => (by cases hf), fun newer io older hh => by simp at hh⟩

theorem waits_idle (hhist : c.hist = [.recv src req]) (hr : c.readFlag = false) : Waits c := by
  refine ⟨hhist ▸ stopAndWait_request, fun _ _ => by rw [hhist]; rfl, ?_, ?_⟩
  all_goals
    intro _ ht
    rw [hr] at ht
    cases ht

theorem waits_gone (hhist : c.hist = [.recv src req]) (hrun : c.status ≠ .running) : Waits c :=
  waits_of_not_running (hhist ▸ stopAndWait_request) hrun

theorem waits_declined {c' : Child} (hhist : c.hist = [.recv src req]) (h : Declined c c') : Waits c' := by
  rcases h with ⟨-, hs, hh⟩ | ⟨-, ⟨hs, hh⟩ | ⟨hs, code, msg, hh⟩⟩
  · exact waits_gone (hh.trans hhist) (by simp [hs])
  · exact waits_gone (hh.trans hhist) (by simp [hs])
  · have hquiet : ∀ io ∈ [Io.send c.clientAddr (errPack code msg)], io.Quiet := by
      simpa using quiet_send_errPack _ _ _
    refine waits_of_not_running ?_ (by simp [hs])
    rw [hh, hhist]
    exact (stopAndWait_quiet_append hquiet).2 stopAndWait_request

theorem waits_first (hhist : c.hist = [.recv src req]) (hr : c.readFlag = true) (hw : c.writeFlag = false)
    (b : Bytes) : Waits { c.transmit ([0, 3, 0, 1] ++ b) with blockNumber := 1 } := by
  have hhist' : (c.transmit ([0, 3, 0, 1] ++ b)).hist = [.send c.clientAddr (dataPack 1 b), .recv src req] := by
    rw [hist_transmit, hhist, dataPack_one]
  have hb : blocks (c.transmit ([0, 3, 0, 1] ++ b)).hist = 1 := by rw [hhist']; rfl
  refine ⟨?_, fun _ hf => ?_, fun _ _ => ⟨hw, by rw [hb]; decide, by rw [hb]⟩, fun _ _ _ => ?_⟩
  · show StopAndWait (c.transmit _).hist
    rw [hhist', stopAndWait_cons]
    exact ⟨fun _ h0 => absurd h0 (by simp [blocks, Io.isBlock]), stopAndWait_request⟩
  · exact Bool.noConfusion (hr.symm.trans hf)
  · show ¬ Acked (blocks (c.transmit _).hist) (c.transmit _).hist
    rw [hb, hhist', acked_cons, acked_cons]
    rintro (⟨_, _, hio, -⟩ | ⟨_, _, -, -, hn⟩ | ⟨newer, _, _, _, hnil, -⟩)
    · cases hio
    · simp [blocks] at hn
    · simp at hnil

theorem waits_rrq (data : Bytes) (fs : FileSys) (hhist : c.hist = [.recv src req]) :
    Waits (c.rrq data fs) := by
  rcases rrq_cases c data fs with h | ⟨-, c', b, heq, ho, -⟩
  · exact waits_declined hhist h
  · rw [heq]
    exact waits_first (ho.hist.trans hhist) ho.read ho.write b

theorem waits_wrq (fs : FileSys) (hhist : c.hist = [.recv src req]) : Waits (c.wrq fs) := by
  rcases wrq_cases c fs with h | ⟨-, c', heq, ho⟩
  · exact waits_declined hhist h
  · have hread : ¬ c'.readFlag = true := by simp [ho.read]
    have hack : ∀ io ∈ [Io.send c'.clientAddr (ackPack 0)], io.Quiet :=
      List.forall_mem_singleton.2 (quiet_send_ack _ _)
    have hidle : Waits c' := waits_idle (ho.hist.trans hhist) ho.read
    rw [heq]
    refine ⟨?_, fun _ _ => ?_, fun _ ht => absurd ht hread, fun _ ht => absurd ht hread⟩
    · show StopAndWait (Child.transmit _ _).hist
      rw [hist_transmit]
      exact (stopAndWait_quiet_append hack).2 hidle.hist
    · show blocks (Child.transmit _ _).hist = 0
      rw [hist_transmit, ho.hist, hhist]
      rfl

theorem waits_start (mem : Mem) (fs : FileSys) (src : Addr) (req : Bytes) :
    Waits (Child.start mem fs src req) := by
  unfold Child.start
  dsimp only
  split
  · exact waits_rrq _ _ rfl
  split
  · exact waits_wrq _ rfl
  · exact waits_idle rfl rfl

/-- **Stop and wait, exactly**: the run of a session on any events is stop-and-wait in every state if and
only if every ACK that asks for a block carries the number of the block sent last. -/
theorem stopAndWait_iff_acksCurrent (mem : Mem) (fs : FileSys) (src : Addr) (req : Bytes) (evs : List Ev) :
    AllStates Child.turn (fun c => StopAndWait c.hist) (Child.start mem fs src req) evs ↔
      AllSteps Child.turn AcksCurrent (Child.start mem fs src req) evs :=
  (waits_start mem fs src req).allStates_iff evs

/-- The client's ACK of block 1 comes twice: block 3 goes out with block 2 not acknowledged. -/
theorem not_stopAndWait_duplicate :
    ¬ AllStates Child.turn (fun c => StopAndWait c.hist)
      (Child.start Mem.clear (FileSys.single (zeros 1536)) 0 (request 1 "octet"))
      [.recv 0 (ackPack 1), .recv 0 (ackPack 1)] := by
  rw [(waits_start _ _ _ _).allStates_iff]
  rintro ⟨-, h⟩
  obtain ⟨c, hc, -, -, hs⟩ := serving_start_octet 0 (by decide) parseReq_request_octet (by decide)
    (openRdwr_single (zeros 1536))
  obtain ⟨c', hc', hs', -, -⟩ := hs.ack 0 1
  rw [hc] at h
  obtain ⟨h2, -⟩ := h c' (congrArg some hc')
  have hstop : c'.stopFlag = false := by
    rw [hs'.stopFlag]
    simp [length_zeros, nobytes]
  have := h2 hs'.running ⟨hs'.read, hs'.write, hstop, opcode_recvInto_ackPack _ _⟩
  rw [hs'.block] at this
  revert this
  decide

end Start

end TamuProofs.Tftp
