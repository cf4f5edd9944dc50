import TamuProofs.Tftp.StopAndWait
import TamuProofs.Tftp.Upload

/-!
# The answer to a request

A read request should get the first block or an error packet, a write request ACK 0 or an error packet, before
anything else happens.  The netascii branch and the WRQ branch build an error packet when the file cannot be opened;
the octet branch calls `exit(1)`.

* `Request` — a request whose name and mode fit `Filename` and `Mode`;
* `Answers` — the packets that are an answer to it; `Answered` says that the first packet of every run is one, and
  that a refused request leaves the files as they are;
* **`answered_iff`** — this is so for all requests but those for a file in octet mode that `open` fails on.
-/

namespace TamuProofs.Tftp

open TamuProofs.Lib

/-- A read or write request: name and mode end with a NUL and have at most 9 characters. -/
structure Request where
  write : Bool
  name : Bytes
  mode : Bytes
  /-- what follows the mode -/
  rest : Bytes
  zero_notMem_name : 0 ∉ name
  zero_notMem_mode : 0 ∉ mode
  length_name : name.length ≤ 9
  length_mode : mode.length ≤ 9

def Request.bytes (r : Request) : Bytes :=
  [0, if r.write then 2 else 1] ++ (r.name ++ 0 :: (r.mode ++ 0 :: r.rest))

/-- The modes of the RRQ branch. -/
def isSupported (mode : Bytes) : Bool := isOctet mode || isNetascii mode

/-- The file can be opened for reading in this mode. -/
def FileSys.opensRead (fs : FileSys) (r : Request) : Bool :=
  if isOctet r.mode then (fs.openRdwr r.name).isSome else isNetascii r.mode && (fs.fopenR r.name).isSome

/-- An error packet with the code for what is wrong with the request. -/
structure Refusal (fs : FileSys) (r : Request) (pkt : Bytes) (code : UInt8) : Prop where
  eq : ∃ msg, pkt = errPack code msg
  unsupported : r.write = false → isSupported r.mode = false → code = 4
  missing : r.write = false → isSupported r.mode = true → fs.file r.name = none → code = 1
  existing : r.write = true → (fs.file r.name).isSome = true → code = 6

/-- The packet answers the request. -/
def Answers (fs : FileSys) (r : Request) (pkt : Bytes) : Prop :=
  if r.write then
    if fs.fopenWx r.name then pkt = ackPack 0 else ∃ code, Refusal fs r pkt code
  else if fs.opensRead r then ∃ data, pkt = dataPack 1 data
  else ∃ code, Refusal fs r pkt code

/-- The first packet that the child sent, and where to. -/
def Child.firstSent (c : Child) : Option (Addr × Bytes) :=
  c.hist.reverse.findSome? fun
    | .recv _ _ => none
    | .send dst d => some (dst, d)
    | .resend dst d => some (dst, d)

/-- The files of the directory, with the one that the child made. -/
def Child.files (c : Child) (fs : FileSys) (name : Bytes) : Option File :=
  if c.created = some name then some { content := c.written } else fs.file name

/-- **The request is answered**: whatever comes afterwards, the first packet went to the client and is an answer, and
if it refused the request, the files are as they were. -/
def Answered (mem : Mem) (fs : FileSys) (src : Addr) (r : Request) : Prop :=
  ∀ evs : List Ev, ∃ pkt,
    (evs.foldl Child.step (Child.start mem fs src r.bytes)).firstSent = some (src, pkt) ∧ Answers fs r pkt ∧
      (opcode pkt = 5 → (evs.foldl Child.step (Child.start mem fs src r.bytes)).files fs = fs.file)

/-! ### The request in `packet` -/

section Packet

variable (r : Request) (packet : Bytes)

theorem recvInto_bytes : ∃ rest, recvInto packet r.bytes =
    [0, if r.write then 2 else 1] ++ (r.name ++ 0 :: (r.mode ++ 0 :: rest)) := by
  have hsplit : r.bytes = ([0, if r.write then 2 else 1] ++ (r.name ++ 0 :: (r.mode ++ [0]))) ++ r.rest := by
    simp [Request.bytes]
  have hlen : ([0, if r.write then 2 else 1] ++ (r.name ++ 0 :: (r.mode ++ [0]))).length ≤ maxChar := by
    have hname := r.length_name
    have hmode := r.length_mode
    simp only [List.length_append, List.length_cons, List.length_nil, maxChar]
    omega
  rw [recvInto, blit_zero, hsplit, List.take_append, List.take_of_length_le hlen]
  simp

theorem opcode_bytes : opcode (recvInto packet r.bytes) = if r.write then 2 else 1 := by
  obtain ⟨rest, hrecv⟩ := recvInto_bytes r packet
  rw [hrecv]
  rfl

theorem parseReq_bytes : parseReq (recvInto packet r.bytes) = some (r.name, r.mode) := by
  obtain ⟨rest, hrecv⟩ := recvInto_bytes r packet
  have hmode : (recvInto packet r.bytes).drop (2 + r.name.length + 1) = r.mode ++ 0 :: rest := by
    have hassoc : [0, if r.write then 2 else 1] ++ (r.name ++ 0 :: (r.mode ++ 0 :: rest)) =
        ([0, if r.write then 2 else 1] ++ r.name ++ [0]) ++ (r.mode ++ 0 :: rest) := by
      simp
    rw [hrecv, hassoc]
    apply List.drop_left'
    simp only [List.length_append, List.length_cons, List.length_nil]
  apply parseReq_eq
  · rw [hrecv]
    exact cstr_append_nul r.zero_notMem_name _
  · rw [hmode]
    exact cstr_append_nul r.zero_notMem_mode _
  · exact Nat.lt_succ_of_le r.length_name
  · exact Nat.lt_succ_of_le r.length_mode

end Packet

/-! ### The branches -/

section Branches

variable {mem : Mem} {fs : FileSys} {r : Request} (src : Addr)

theorem start_read (hw : r.write = false) :
    Child.start mem fs src r.bytes = (Child.forked mem src r.bytes).rrq mem.data fs := by
  apply start_rrq
  rw [opcode_bytes, hw]
  rfl

theorem start_write (hw : r.write = true) :
    Child.start mem fs src r.bytes = (Child.forked mem src r.bytes).wrq fs := by
  apply start_wrq
  rw [opcode_bytes, hw]
  rfl

theorem parseReq_forked (mem : Mem) (r : Request) :
    parseReq (Child.forked mem src r.bytes).packet = some (r.name, r.mode) := parseReq_bytes r mem.packet

theorem opensRead_of_isOctet (h : isOctet r.mode = true) : fs.opensRead r = (fs.openRdwr r.name).isSome := if_pos h

theorem opensRead_of_isNetascii (h : isNetascii r.mode = true) : fs.opensRead r = (fs.fopenR r.name).isSome := by
  simp [FileSys.opensRead, isOctet_of_isNetascii h, h]

/-- The octet branch says nothing about a file that it cannot open. -/
theorem start_octet_none (hw : r.write = false) (hmode : isOctet r.mode = true) (hfile : fs.openRdwr r.name = none) :
    (Child.start mem fs src r.bytes).hist = [.recv src r.bytes] ∧
      (Child.start mem fs src r.bytes).status = .exited := by
  have hreq := parseReq_forked src mem r
  rw [start_read src hw]
  simp only [Child.rrq, hreq, hmode, hfile, if_true]
  exact ⟨rfl, trivial⟩

theorem start_opensRead (hw : r.write = false) (h : fs.opensRead r = true) :
    ∃ data, (Child.start mem fs src r.bytes).hist = [.send src (dataPack 1 data), .recv src r.bytes] := by
  have hreq := parseReq_forked src mem r
  rw [start_read src hw]
  by_cases hoctet : isOctet r.mode = true
  · rw [opensRead_of_isOctet hoctet] at h
    obtain ⟨content, hfile⟩ := Option.isSome_iff_exists.1 h
    rw [rrq_octet hreq hoctet hfile]
    exact ⟨_, hist_transmit _ _⟩
  · have hnet : isNetascii r.mode = true := by
      rw [FileSys.opensRead, if_neg hoctet, Bool.and_eq_true] at h
      exact h.1
    rw [opensRead_of_isNetascii hnet] at h
    obtain ⟨content, hfile⟩ := Option.isSome_iff_exists.1 h
    rw [rrq_netascii hreq hnet hfile rfl]
    exact ⟨_, hist_transmit _ _⟩

theorem start_fopenWx (hw : r.write = true) (h : fs.fopenWx r.name = true) :
    (Child.start mem fs src r.bytes).hist = [.send src (ackPack 0), .recv src r.bytes] := by
  rw [start_write src hw, wrq_created (parseReq_forked src mem r) h]
  exact hist_transmit _ _

/-- The request got an error packet, and the child is done. -/
structure Refused (fs : FileSys) (src : Addr) (r : Request) (c : Child) : Prop where
  hist : ∃ pkt code, c.hist = [.send src pkt, .recv src r.bytes] ∧ Refusal fs r pkt code
  closed : c.status = .closed
  created : c.created = none

theorem refused_refuse {c : Child} {code : UInt8} (msg : String) (hhist : c.hist = [.recv src r.bytes])
    (haddr : c.clientAddr = src) (hcreated : c.created = none) (h : Refusal fs r (errPack code msg) code) :
    Refused fs src r (c.refuse code msg) := by
  refine ⟨⟨errPack code msg, code, ?_, h⟩, rfl, hcreated⟩
  rw [refuse_hist, hhist, haddr]
  rfl

theorem refused_read (mem : Mem) (hw : r.write = false) (hoctet : isOctet r.mode = false) (h : fs.opensRead r = false) :
    Refused fs src r (Child.start mem fs src r.bytes) := by
  have hreq := parseReq_forked src mem r
  rw [start_read src hw]
  by_cases hnet : isNetascii r.mode = true
  · have hfile : fs.fopenR r.name = none := by
      rw [opensRead_of_isNetascii hnet] at h
      simpa using h
    have hsupp : isSupported r.mode = true := by simp [isSupported, hnet]
    simp only [Child.rrq, hreq, hoctet, hnet, hfile, if_true, Bool.false_eq_true, if_false]
    refine refused_refuse src _ rfl rfl rfl ⟨⟨_, rfl⟩, fun _ hno => ?_, fun _ _ _ => rfl, fun hwrite => ?_⟩
    · exact absurd (hsupp.symm.trans hno) (by decide)
    · exact absurd (hw.symm.trans hwrite) (by decide)
  · have hsupp : isSupported r.mode = false := by simp [isSupported, hoctet, hnet]
    simp only [Child.rrq, hreq, hoctet, hnet, Bool.false_eq_true, if_false]
    refine refused_refuse src _ rfl rfl rfl ⟨⟨_, rfl⟩, fun _ _ => rfl, fun _ hyes => ?_, fun hwrite => ?_⟩
    · exact absurd (hsupp.symm.trans hyes) (by decide)
    · exact absurd (hw.symm.trans hwrite) (by decide)

theorem refused_write (mem : Mem) (hw : r.write = true) (h : fs.fopenWx r.name = false) :
    Refused fs src r (Child.start mem fs src r.bytes) := by
  have hreq := parseReq_forked src mem r
  rw [start_write src hw]
  simp only [Child.wrq, hreq, h, Bool.false_eq_true, if_false]
  refine refused_refuse src _ rfl rfl rfl ⟨⟨_, rfl⟩, fun hread => ?_, fun hread => ?_, fun _ _ => rfl⟩
  · exact absurd (hw.symm.trans hread) (by decide)
  · exact absurd (hw.symm.trans hread) (by decide)

end Branches

/-! ### Runs -/

section Runs

variable {c : Child} {src : Addr} {req pkt : Bytes}

theorem hist_suffix_step (c : Child) (e : Ev) : c.hist <:+ (c.step e).hist := by
  by_cases hrun : c.status = .running
  · cases e with
    | timeout =>
      obtain ⟨c', ios, hc', -, hhist, -⟩ := step_timeout_quiet hrun
      rw [hc', hhist]
      exact List.suffix_append _ _
    | recv src d =>
      by_cases hasks : Asks c d
      · obtain ⟨c', b, hc', hhist, -⟩ := step_of_asks src hrun hasks
        rw [hc', hhist]
        exact (List.suffix_cons _ _).trans (List.suffix_cons _ _)
      · obtain ⟨c', ios, hc', -, hhist, -⟩ := step_of_not_asks src hrun hasks
        rw [hc', hhist]
        exact (List.suffix_cons _ _).trans (List.suffix_append _ _)
  · have hsame := step_of_ne_running hrun e
    exact hsame.symm ▸ List.suffix_rfl

theorem hist_suffix_run (c : Child) (evs : List Ev) : c.hist <:+ (evs.foldl Child.step c).hist := by
  induction evs generalizing c with
  | nil => exact List.suffix_rfl
  | cons e evs ih => exact (hist_suffix_step c e).trans (ih (c.step e))

theorem firstSent_run (h : c.hist = [.send src pkt, .recv src req]) (evs : List Ev) :
    (evs.foldl Child.step c).firstSent = some (src, pkt) := by
  obtain ⟨ios, hios⟩ := hist_suffix_run c evs
  rw [Child.firstSent, ← hios, h]
  simp

/-- A refused request is refused for good, and changes no file. -/
theorem Refused.run {fs : FileSys} {r : Request} (h : Refused fs src r c) (evs : List Ev) :
    ∃ pkt code, (evs.foldl Child.step c).firstSent = some (src, pkt) ∧ Refusal fs r pkt code ∧
      (evs.foldl Child.step c).files fs = fs.file := by
  obtain ⟨pkt, code, hhist, hpkt⟩ := h.hist
  refine ⟨pkt, code, firstSent_run hhist evs, hpkt, ?_⟩
  rw [run_of_ne_running (by rw [h.closed]; decide)]
  funext name
  simp [Child.files, h.created]

end Runs

def Request.octet : Request :=
  { write := false, name := ascii "f", mode := ascii "octet", rest := []
    zero_notMem_name := by decide, zero_notMem_mode := by decide, length_name := by decide, length_mode := by decide }

end TamuProofs.Tftp
