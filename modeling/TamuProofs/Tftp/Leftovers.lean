import Mathlib.Data.List.GetD
import TamuProofs.Tftp.Retransmit
import TamuProofs.Tftp.Timeouts

/-!
# What a DATA packet finds in the buffer

`recvfrom` puts a datagram over whatever `packet` holds, and the DATA branch writes the string that starts
behind the header.  Where a payload has no NUL of its own, the string runs on into the bytes left there by
the request, or by a request that the parent received earlier.

* `Awaiting.step` — what every state of a write session at the head of the loop has in common;
* `appended_eq` — the bytes that a DATA packet adds to the file, as a string in the buffer;
* `exists_receiving` — any byte behind the header can be zero, and can be something else;
* `unaffected_iff_ends` — hence exactly which DATA packets are not affected by what was there before.
-/

namespace TamuProofs.Tftp

open TamuProofs.Lib

/-! ### Write sessions at the head of the loop -/

/-- A state of some write session at the head of the transfer loop. -/
def Receiving (c : Child) : Prop :=
  ∃ (mem : Mem) (fs : FileSys) (src : Addr) (req : Bytes) (evs : List Ev),
    opcode (recvInto mem.packet req) = 2 ∧ evs.foldl Child.step (Child.start mem fs src req) = c ∧
      c.status = .running

/-- What the session has in common with every other one. -/
structure Awaiting (c : Child) : Prop where
  taking : ∃ k, Taking c k
  length : c.packet.length = maxChar

section Steps

variable {c : Child}

theorem Awaiting.timeout (h : Awaiting c) (hrun : (c.step .timeout).status = .running) :
    Awaiting (c.step .timeout) := by
  obtain ⟨k, hk⟩ := h.taking
  have hlen : (blit c.packet 0 ([0, 3] ++ blockBytes (c.blockNumber % 65536) ++ [0])).length = maxChar := by
    rw [length_blit, h.length]
    rw [h.length, List.length_append, List.length_append, length_blockBytes]
    decide
  rw [step_timeout hk.running, onTimeout_write hk.read hk.write] at hrun ⊢
  dsimp only at hrun ⊢
  split at hrun
  · cases hrun
  · rename_i h2
    rw [if_neg h2]
    exact ⟨⟨k, hk.running, hk.read, hk.write, hk.mode, hk.nextch, hk.stop, hk.block⟩, hlen⟩

theorem Awaiting.recv (h : Awaiting c) (src : Addr) (d : Bytes) (hrun : (c.step (.recv src d)).status = .running) :
    Awaiting (c.step (.recv src d)) := by
  obtain ⟨k, hk⟩ := h.taking
  rcases dispatch_cases (c.received src d) with ⟨h3, -⟩ | ⟨-, hd⟩ | ⟨-, hd⟩ | ⟨-, hd⟩
  · obtain ⟨c', hc', -, -, -, hclosed, hnext⟩ := hk.data src h3 rfl
    rw [hc'] at hrun ⊢
    by_cases he : eofChar ∈ cstr ((recvInto c.packet d).drop header)
    · rw [hclosed he] at hrun
      cases hrun
    · obtain ⟨htak, hpack, -⟩ := hnext he
      exact ⟨⟨k + 1, htak⟩, by rw [hpack, length_zeros]⟩
  · rw [step_recv hk.running, clearPacket_status, hd] at hrun
    simp [Child.onAck, Child.received, Child.refuse, hk.read] at hrun
  · rw [step_recv hk.running, clearPacket_status, hd] at hrun
    cases hrun
  · rw [step_recv hk.running, hd, clearPacket_running (c := c.received src d) hk.running]
    exact ⟨⟨k, hk.running, hk.read, hk.write, hk.mode, hk.nextch, hk.stop, hk.block⟩, length_zeros _⟩

/-- **One turn of the loop** of a write session. -/
theorem Awaiting.step (h : Awaiting c) (e : Ev) (hrun : (c.step e).status = .running) : Awaiting (c.step e) := by
  cases e with
  | timeout => exact h.timeout hrun
  | recv src d => exact h.recv src d hrun

theorem Awaiting.run {evs : List Ev} (h : Awaiting c) (hrun : (evs.foldl Child.step c).status = .running) :
    Awaiting (evs.foldl Child.step c) := by
  induction evs generalizing c with
  | nil => exact h
  | cons e evs ih =>
    by_cases hs : (c.step e).status = .running
    · exact ih (h.step e hs) hrun
    · rw [List.foldl_cons, run_of_ne_running hs] at hrun
      exact absurd hrun hs

end Steps

theorem awaiting_start {mem : Mem} {fs : FileSys} {src : Addr} {req : Bytes}
    (hop : opcode (recvInto mem.packet req) = 2) (hrun : (Child.start mem fs src req).status = .running) :
    Awaiting (Child.start mem fs src req) := by
  cases hreq : parseReq (recvInto mem.packet req) with
  | none =>
    rw [start_wrq hop, wrq_fault (c := Child.forked mem src req) fs hreq] at hrun
    cases hrun
  | some p =>
    by_cases hfile : fs.fopenWx p.1 = true
    · obtain ⟨c, hc, hready, hpack, -⟩ := ready_start src hop hreq hfile
      rw [hc]
      exact ⟨⟨0, hready.toTaking⟩, by rw [hpack, length_recvInto mem.packet_length]⟩
    · have hreq' : parseReq (Child.forked mem src req).packet = some p := hreq
      rw [start_wrq hop] at hrun
      simp [Child.wrq, hreq', hfile, Child.refuse] at hrun

theorem Receiving.awaiting {c : Child} (h : Receiving c) : Awaiting c := by
  obtain ⟨mem, fs, src, req, evs, hop, rfl, hrun⟩ := h
  refine Awaiting.run (awaiting_start hop ?_) hrun
  by_contra hs
  rw [run_of_ne_running hs] at hrun
  exact hs hrun

/-! ### One DATA packet -/

/-- The bytes that the datagram adds to the file. -/
def appended (c : Child) (src : Addr) (d : Bytes) : Bytes :=
  (c.step (.recv src d)).written.drop c.written.length

/-- The payload of a datagram, as much of it as `packet` holds. -/
def payload (d : Bytes) : Bytes := (d.take maxChar).drop header

section Packet

variable {c : Child} {d : Bytes} {src : Addr}

/-- What the DATA branch takes for the payload. -/
theorem drop_recvInto (packet : Bytes) (hd : header ≤ d.length) :
    (recvInto packet d).drop header = payload d ++ packet.drop (min maxChar d.length) := by
  have hlen : header ≤ (d.take maxChar).length := by
    rw [List.length_take]
    exact le_min (by decide) hd
  rw [recvInto, blit_zero, List.drop_append_of_le_length hlen, List.length_take]
  rfl

theorem appended_eq (h : Awaiting c) (hd : header ≤ d.length) (hop : opcode d = 3) :
    appended c src d = cstr (payload d ++ c.packet.drop (min maxChar d.length)) := by
  obtain ⟨k, hk⟩ := h.taking
  have hop' : opcode (recvInto c.packet d) = 3 := (opcode_recvInto ((by decide : 2 ≤ header).trans hd) _).trans hop
  obtain ⟨c', hc', hw, -⟩ := hk.data src hop' rfl
  rw [appended, hc', hw, List.drop_left, drop_recvInto c.packet hd]

/-- The payload ends the string itself, or leaves no room for anything behind it. -/
def Ends (d : Bytes) : Prop := 0 ∈ payload d ∨ maxChar ≤ d.length

theorem appended_of_ends (h : Awaiting c) (hd : header ≤ d.length) (hop : opcode d = 3) (he : Ends d) :
    appended c src d = cstr (payload d) := by
  rw [appended_eq h hd hop]
  rcases he with h0 | hfull
  · exact cstr_append_of_mem h0 _
  · rw [min_eq_left hfull, List.drop_of_length_le h.length.le, List.append_nil]

theorem appended_of_not_ends (h : Awaiting c) (hd : header ≤ d.length) (hop : opcode d = 3) (he : ¬ Ends d) :
    appended c src d = d.drop header ++ cstr (c.packet.drop d.length) := by
  rw [Ends, not_or, not_le] at he
  rw [appended_eq h hd hop, cstr_append he.1, min_eq_right he.2.le, payload, List.take_of_length_le he.2.le]

theorem payload_prefix_drop (d : Bytes) : payload d <+: d.drop header := by
  rw [payload, List.drop_take]
  exact List.take_prefix _ _

/-- The packet adds bytes of its own only. -/
theorem appended_prefix_iff (h : Awaiting c) (hd : header ≤ d.length) (hop : opcode d = 3) :
    appended c src d <+: d.drop header ↔ Ends d ∨ c.packet.getD d.length 0 = 0 := by
  by_cases he : Ends d
  · rw [appended_of_ends h hd hop he]
    exact iff_of_true ((cstr_prefix_self _).trans (payload_prefix_drop d)) (Or.inl he)
  · have hnil : cstr (c.packet.drop d.length) = [] ↔ c.packet.getD d.length 0 = 0 := by
      rw [cstr_eq_nil_iff]
      simp [List.getD_eq_getElem?_getD]
    rw [appended_of_not_ends h hd hop he, or_iff_right he, ← hnil]
    constructor
    · intro hp
      have hlen := hp.length_le
      rw [List.length_append] at hlen
      apply List.length_eq_zero_iff.1
      omega
    · intro h0
      exact ⟨[], by rw [h0, List.append_nil, List.append_nil]⟩

end Packet

/-! ### What may be in the buffer -/

def writeRequest (rest : Bytes) : Bytes := [0, 2, 102, 0] ++ rest

theorem recvInto_writeRequest {rest : Bytes} (hlen : rest.length ≤ 996) :
    recvInto Mem.clear.packet (writeRequest rest) =
      [0, 2, 102, 0] ++ (rest ++ Mem.clear.packet.drop (4 + rest.length)) := by
  have hle : (writeRequest rest).length ≤ maxChar := by
    rw [writeRequest, List.length_append]
    exact Nat.add_le_add_left hlen 4
  rw [recvInto, List.take_of_length_le hle, blit_zero, writeRequest, List.append_assoc, List.length_append]
  rfl

theorem receiving_writeRequest {rest : Bytes} (hlen : rest.length ≤ 996) (h0 : 0 ∈ rest)
    (hm : (cstr rest).length < 10) :
    ∃ c, Receiving c ∧ c.packet = [0, 2, 102, 0] ++ (rest ++ Mem.clear.packet.drop (4 + rest.length)) := by
  have hop : opcode (recvInto Mem.clear.packet (writeRequest rest)) = 2 :=
    opcode_recvInto (by simp [writeRequest]) _
  have hreq : parseReq (recvInto Mem.clear.packet (writeRequest rest)) = some (ascii "f", cstr rest) := by
    rw [recvInto_writeRequest hlen]
    refine parseReq_eq ?_ (cstr_append_of_mem h0 _) (by decide) hm
    exact cstr_append_of_mem (show (0 : UInt8) ∈ [102, 0] by decide) _
  have hfile : FileSys.empty.fopenWx (ascii "f") = true := rfl
  obtain ⟨c, hc, hready, hpack, -⟩ := ready_start 0 hop hreq hfile
  refine ⟨c, ⟨Mem.clear, FileSys.empty, 0, _, [], hop, hc, hready.running⟩, ?_⟩
  rw [hpack, recvInto_writeRequest hlen]

theorem getD_header_add (rest : Bytes) (m : ℕ) :
    ([0, 2, 102, 0] ++ rest).getD (header + m) 0 = rest.getD m 0 := by
  rw [List.getD_append_right _ _ _ _ (Nat.le_add_right 4 m)]
  exact congrArg (rest.getD · 0) (Nat.add_sub_cancel_left 4 m)

/-- **Any byte behind the header** may be zero, and may be something else. -/
theorem exists_receiving {n : ℕ} (hn : header ≤ n) (hn' : n < maxChar) :
    (∃ c, Receiving c ∧ c.packet.getD n 0 = 0) ∧ ∃ c, Receiving c ∧ c.packet.getD n 0 ≠ 0 := by
  obtain ⟨m, rfl⟩ := Nat.exists_eq_add_of_le hn
  have hm : m < 996 := Nat.lt_of_add_lt_add_left hn'
  constructor
  · -- an empty mode in a clear buffer
    have hlen : ([0] : Bytes).length ≤ 996 := by decide
    obtain ⟨c, hc, hpack⟩ := receiving_writeRequest hlen (by decide) (by decide)
    refine ⟨c, hc, ?_⟩
    rw [hpack, getD_header_add]
    cases m with
    | zero => rfl
    | succ m =>
      rw [List.singleton_append, List.getD_cons_succ]
      exact getD_drop_zeros maxChar _ m
  · cases m with
    | zero => -- the first letter of the mode
      have hlen : ([120, 0] : Bytes).length ≤ 996 := by decide
      obtain ⟨c, hc, hpack⟩ := receiving_writeRequest hlen (by decide) (by decide)
      refine ⟨c, hc, ?_⟩
      rw [hpack, getD_header_add]
      decide
    | succ m => -- an empty mode, and letters behind it
      have hlen : (0 :: List.replicate (m + 1) (120 : UInt8)).length ≤ 996 := by
        rw [List.length_cons, List.length_replicate]
        exact hm
      obtain ⟨c, hc, hpack⟩ := receiving_writeRequest hlen List.mem_cons_self (by simp [cstr_cons])
      refine ⟨c, hc, ?_⟩
      rw [hpack, getD_header_add, List.cons_append, List.getD_cons_succ,
        List.getD_append _ _ _ _ (by simp)]
      simp [List.getD_eq_getElem?_getD]

/-! ### The property -/

/-- **A DATA packet is unaffected**: whatever state of whatever write session it arrives in, it adds the same
bytes to the file. -/
def Unaffected (d : Bytes) : Prop :=
  ∀ c c', Receiving c → Receiving c' → ∀ src src', appended c src d = appended c' src' d

/-- Without a NUL of its own, a packet that does not fill the buffer adds different bytes in different states. -/
theorem ends_of_unaffected {d : Bytes} (hd : header ≤ d.length) (hop : opcode d = 3) (h : Unaffected d) :
    Ends d := by
  by_contra he
  obtain ⟨⟨c, hc, h0⟩, c', hc', hne⟩ := exists_receiving hd (not_le.1 (not_or.1 he).2)
  have hown : appended c 0 d <+: d.drop header := (appended_prefix_iff hc.awaiting hd hop).2 (Or.inr h0)
  rw [h c c' hc hc' 0 0, appended_prefix_iff hc'.awaiting hd hop] at hown
  exact hown.elim he hne

/-- **Which DATA packets are unaffected** by what the buffer held before: those with a NUL in the payload and
those that fill the buffer.  Any other one adds only bytes of its own in just those states in which the byte
behind it is zero. -/
theorem unaffected_iff_ends {d : Bytes} (hd : header ≤ d.length) (hop : opcode d = 3) :
    (Unaffected d ↔ Ends d) ∧
      ∀ c, Receiving c → ∀ src,
        (appended c src d <+: d.drop header ↔ Ends d ∨ c.packet.getD d.length 0 = 0) := by
  refine ⟨⟨ends_of_unaffected hd hop, fun he c c' hc hc' src src' => ?_⟩, fun c hc src =>
    appended_prefix_iff hc.awaiting hd hop⟩
  rw [appended_of_ends hc.awaiting hd hop he, appended_of_ends hc'.awaiting hd hop he]

theorem unaffected_terminated : Unaffected [0, 3, 0, 1, 65, 0] :=
  (unaffected_iff_ends (by decide) (by decide)).1.2 (Or.inl (by decide))

/-- After the request for `f` in mode `octet`, a first DATA packet with the one letter `A` adds four letters of
the mode as well. -/
theorem not_unaffected_one_letter :
    appended (Child.start Mem.clear FileSys.empty 0 (request 2 "octet")) 0 [0, 3, 0, 1, 65] = ascii "Actet" ∧
      ¬ Unaffected [0, 3, 0, 1, 65] := by
  have he : ¬ Ends [0, 3, 0, 1, 65] := by simp [Ends, payload, maxChar, header]
  obtain ⟨c, hc, hready, hpack, -⟩ := ready_request_write
  have haw : Awaiting c := ⟨⟨0, hready.toTaking⟩, by rw [hpack, length_recvInto Mem.clear.packet_length]⟩
  refine ⟨?_, fun h => he (ends_of_unaffected (by decide) (by decide) h)⟩
  rw [hc, appended_of_not_ends haw (by decide) (by decide) he, hpack]
  decide

end TamuProofs.Tftp
