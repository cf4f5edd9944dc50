import TamuProofs.Tftp.Defs

/-!
# The packets of the TFTP server, and what its history says about them

Block numbers in packets (`blockNo`), the packets the server and its clients build (`dataPack`, `ackPack`),
the numbered packets of a list of blocks, and the datagrams that a history shows as transmitted.
-/

namespace TamuProofs.Tftp

open TamuProofs.Lib

/-! ### Block numbers -/

/-- The number in bytes 2 and 3 of a packet, high byte first. -/
def blockNo (d : Bytes) : ℕ := (d.getD 2 0).toNat * 256 + (d.getD 3 0).toNat

/-- The DATA packet of block `k`. -/
def dataPack (k : ℕ) (payload : Bytes) : Bytes := [0, 3] ++ blockBytes (k % 65536) ++ payload

/-- The ACK packet of block `k`. -/
def ackPack (k : ℕ) : Bytes := [0, 4] ++ blockBytes (k % 65536)

theorem and_ff00_shift (n : ℕ) : (n &&& 0xFF00) >>> 8 = n / 256 % 256 := by
  rw [Nat.shiftRight_and_distrib, show 0xFF00 >>> 8 = 2 ^ 8 - 1 by rfl, Nat.and_two_pow_sub_one_eq_mod,
    Nat.shiftRight_eq_div_pow]

theorem and_00ff (n : ℕ) : n &&& 0x00FF = n % 256 := Nat.and_two_pow_sub_one_eq_mod n 8

theorem blockBytes_eq (n : ℕ) : blockBytes n = [UInt8.ofNat (n / 256), UInt8.ofNat n] := by
  unfold blockBytes
  rw [and_ff00_shift, and_00ff]
  simp only [List.cons.injEq, and_true]
  constructor <;> (rw [← UInt8.toNat_inj]; simp)

@[simp] theorem length_blockBytes (n : ℕ) : (blockBytes n).length = 2 := rfl

theorem blockNo_blockBytes (a b : UInt8) {n : ℕ} (hn : n < 65536) (rest : Bytes) :
    blockNo ([a, b] ++ blockBytes n ++ rest) = n := by
  rw [blockBytes_eq]
  simp only [blockNo, List.cons_append, List.nil_append, List.getD_cons_succ, List.getD_cons_zero,
    UInt8.toNat_ofNat']
  omega

@[simp] theorem blockNo_dataPack (k : ℕ) (payload : Bytes) : blockNo (dataPack k payload) = k % 65536 :=
  blockNo_blockBytes 0 3 (Nat.mod_lt _ (by decide)) payload

@[simp] theorem blockNo_ackPack (k : ℕ) : blockNo (ackPack k) = k % 65536 := by
  have := blockNo_blockBytes 0 4 (Nat.mod_lt k (by decide : 0 < 65536)) []
  rwa [List.append_nil] at this

@[simp] theorem length_dataPack (k : ℕ) (payload : Bytes) :
    (dataPack k payload).length = payload.length + 4 := by
  simp [dataPack]; omega

@[simp] theorem drop_dataPack (k : ℕ) (payload : Bytes) : (dataPack k payload).drop 4 = payload := rfl

theorem dataPack_one (payload : Bytes) : [0, 3, 0, 1] ++ payload = dataPack 1 payload := rfl

/-- The DATA packets of the blocks `bs`, the first of which is block `k + 1`. -/
def numbered : ℕ → List Bytes → List Bytes
  | _, [] => []
  | k, b :: bs => dataPack (k + 1) b :: numbered (k + 1) bs

@[simp] theorem length_numbered (k : ℕ) (bs : List Bytes) : (numbered k bs).length = bs.length := by
  induction bs generalizing k with
  | nil => rfl
  | cons b bs ih => simp [numbered, ih]

theorem getElem?_numbered (k i : ℕ) (bs : List Bytes) :
    (numbered k bs)[i]? = bs[i]?.map (dataPack (k + i + 1)) := by
  induction bs generalizing k i with
  | nil => simp [numbered]
  | cons b bs ih =>
    cases i with
    | zero => rfl
    | succ i =>
      simp only [numbered, List.getElem?_cons_succ, ih]
      rw [show k + 1 + i + 1 = k + (i + 1) + 1 by omega]

theorem map_drop_numbered (k : ℕ) (bs : List Bytes) : (numbered k bs).map (List.drop 4) = bs := by
  induction bs generalizing k with
  | nil => rfl
  | cons b bs ih => simp [numbered, ih]

theorem numbered_dropLast (k : ℕ) (bs : List Bytes) :
    (numbered k bs).dropLast = numbered k bs.dropLast := by
  induction bs generalizing k with
  | nil => rfl
  | cons b bs ih =>
    cases bs with
    | nil => rfl
    | cons b' bs => simpa [numbered] using ih (k + 1)

theorem mem_numbered {k : ℕ} {bs : List Bytes} {d : Bytes} (h : d ∈ numbered k bs) :
    ∃ j, ∃ b ∈ bs, d = dataPack j b := by
  obtain ⟨i, hi⟩ := List.mem_iff_getElem?.1 h
  rw [getElem?_numbered, Option.map_eq_some_iff] at hi
  obtain ⟨b, hb, rfl⟩ := hi
  exact ⟨_, b, List.mem_of_getElem? hb, rfl⟩

theorem mem_getLast?_numbered {k : ℕ} {bs : List Bytes} {d : Bytes} (h : d ∈ (numbered k bs).getLast?) :
    ∃ j, ∃ b ∈ bs.getLast?, d = dataPack j b := by
  rw [List.getLast?_eq_getElem?, length_numbered, getElem?_numbered, Option.mem_def,
    Option.map_eq_some_iff] at h
  obtain ⟨b, hb, rfl⟩ := h
  exact ⟨_, b, by rwa [List.getLast?_eq_getElem?], rfl⟩

/-! ### What was transmitted -/

/-- The datagram of an entry of the history, if it is a transmission. -/
def Io.sent? : Io → Option Bytes
  | .recv _ _ => none
  | .send _ d => some d
  | .resend _ d => some d

/-- Everything that was transmitted, in order. -/
def transmitted (hist : List Io) : List Bytes := (hist.filterMap Io.sent?).reverse

/-- The transmissions latest first, leaving out each one that repeats the one just before it. -/
def distinctRev : List Io → List Bytes
  | [] => []
  | io :: hist =>
    match io.sent? with
    | none => distinctRev hist
    | some d => if (distinctRev hist).head? = some d then distinctRev hist else d :: distinctRev hist

/-- An answer that is not the last transmission over again. -/
theorem distinctRev_send_recv {hist : List Io} {d d' : Bytes} (dst src : Addr) (e : Bytes)
    (h : (distinctRev hist).head? = some d) (hne : d ≠ d') :
    distinctRev (.send dst d' :: .recv src e :: hist) = d' :: distinctRev hist := by
  simp [distinctRev, Io.sent?, h, hne]

theorem distinctRev_resend {hist : List Io} {d : Bytes} (dst : Addr)
    (h : (distinctRev hist).head? = some d) :
    distinctRev (.resend dst d :: hist) = distinctRev hist := by
  simp [distinctRev, Io.sent?, h]

/-- The distinct transmissions, in order. -/
def distinctSent (hist : List Io) : List Bytes := (distinctRev hist).reverse

/-- The latest transmission; the client's next ACK is for it. -/
def lastSent (hist : List Io) : Bytes := ((hist.filterMap Io.sent?).head?).getD []

/-- The ACK a client sends for a DATA packet: opcode 4 and the packet's block number. -/
def ackOf (d : Bytes) : Bytes := [0, 4] ++ (d.drop 2).take 2

theorem ackOf_dataPack (k : ℕ) (payload : Bytes) : ackOf (dataPack k payload) = ackPack k := rfl

end TamuProofs.Tftp
