import Mathlib.Algebra.Ring.Nat
import Mathlib.Tactic.SplitIfs
import TamuProofs.Sbcp.Defs

/-!
# SBCP messages in memory and on the wire

A message is a C struct that is written to the socket as it stands in memory, and read back into a struct of
the same layout. Whoever builds one sets some of its fields and leaves the others as the memory was, so every
function here takes the struct before (`prior`).

* `Message.toBytes`, `Message.ofBytes` — the 1036 bytes of a message; `ofBytes_toBytes` is the round trip;
* `construct` — the constructor of `server.h`, `joinChat`, `sendMsg`, `idleClient` — the senders of `client.c`;
* `clientShow` — the checks of the client, and what it displays;
* `view_construct` — the strings in a message built are those of `sbcpMessage`;
* **`meets_iff_primed`**: what a built message shows and what its `Length` says is right exactly when the
  memory before happened to hold the right lengths.
-/

namespace TamuProofs.Sbcp

open TamuProofs.Lib

/-! ### The structs -/

/-- The types of attributes, and the two types of messages that only clients send. -/
def USERNAME : BitVec 16 := 2
def MESSAGE : BitVec 16 := 4
def REASON : BitVec 16 := 1
def CLIENT_COUNT : BitVec 16 := 3
def EMPTY : BitVec 16 := 0
def JOIN : UInt8 := 2
def SEND : UInt8 := 4

/-- `sizeof sbcp_payload`. -/
def payloadSize : ℕ := 512

/-- `sbcp_attribute`, and `SBCP_Attribute` of the client. -/
@[ext] structure Attr where
  type : BitVec 16
  length : BitVec 16
  payload : Bytes
  payload_length : payload.length = payloadSize

/-- `sbcp_message`, and `SBCP_Message` of the client. -/
@[ext] structure Message where
  vrsn : UInt8
  type : UInt8
  length : BitVec 16
  attr0 : Attr
  attr1 : Attr

/-- A `short`, little-endian. -/
def shortBytes (x : BitVec 16) : Bytes := [UInt8.ofBitVec (x.extractLsb' 0 8), UInt8.ofBitVec (x.extractLsb' 8 8)]

/-- The `short` at `off`. -/
def shortAt (bytes : Bytes) (off : ℕ) : BitVec 16 :=
  (bytes.getD (off + 1) 0).toBitVec ++ (bytes.getD off 0).toBitVec

def Attr.toBytes (a : Attr) : Bytes := shortBytes a.type ++ shortBytes a.length ++ a.payload

/-- A message as it is written. -/
def Message.toBytes (m : Message) : Bytes :=
  [m.vrsn, m.type] ++ shortBytes m.length ++ m.attr0.toBytes ++ m.attr1.toBytes

/-- The attribute at `off`. -/
def Attr.ofBytes (bytes : Bytes) (off : ℕ) (h : off + 4 + payloadSize ≤ bytes.length) : Attr where
  type := shortAt bytes off
  length := shortAt bytes (off + 2)
  payload := (bytes.drop (off + 4)).take payloadSize
  payload_length := by
    simp only [List.length_take, List.length_drop]
    omega

/-- A message as it is read. -/
def Message.ofBytes (bytes : Bytes) (h : bytes.length = msgSize) : Message where
  vrsn := bytes.getD 0 0
  type := bytes.getD 1 0
  length := shortAt bytes 2
  attr0 := .ofBytes bytes 4 (by rw [h]; decide)
  attr1 := .ofBytes bytes 520 (by rw [h]; decide)

theorem Attr.length_toBytes (a : Attr) : a.toBytes.length = 516 := by
  simp [Attr.toBytes, shortBytes, a.payload_length, payloadSize]

theorem Message.length_toBytes (m : Message) : m.toBytes.length = msgSize := by
  simp [Message.toBytes, shortBytes, Attr.length_toBytes, msgSize]

theorem shortAt_shortBytes (pre : Bytes) (x : BitVec 16) (post : Bytes) :
    shortAt (pre ++ (shortBytes x ++ post)) pre.length = x := by
  have h0 : (pre ++ (shortBytes x ++ post)).getD pre.length 0 = UInt8.ofBitVec (x.extractLsb' 0 8) := by
    simp [shortBytes, List.getD_eq_getElem?_getD]
  have h1 : (pre ++ (shortBytes x ++ post)).getD (pre.length + 1) 0 = UInt8.ofBitVec (x.extractLsb' 8 8) := by
    simp [shortBytes, List.getD_eq_getElem?_getD]
  rw [shortAt, h0, h1]
  apply BitVec.eq_of_getLsbD_eq
  intro i hi
  rw [BitVec.getLsbD_append]
  split_ifs with h
  · simp [h]
  · simp [show i - 8 < 8 by omega, show 8 + (i - 8) = i by omega]

theorem Attr.ofBytes_toBytes (pre : Bytes) (a : Attr) (post : Bytes) {off : ℕ} (hoff : off = pre.length)
    (h : off + 4 + payloadSize ≤ (pre ++ (a.toBytes ++ post)).length) :
    Attr.ofBytes (pre ++ (a.toBytes ++ post)) off h = a := by
  subst hoff
  have htype := shortAt_shortBytes pre a.type (shortBytes a.length ++ (a.payload ++ post))
  have hlen := shortAt_shortBytes (pre ++ shortBytes a.type) a.length (a.payload ++ post)
  have hpay : ((pre ++ (a.toBytes ++ post)).drop (pre.length + 4)).take payloadSize = a.payload := by
    have hdrop : (pre ++ (a.toBytes ++ post)).drop (pre.length + 4) = a.payload ++ post := by
      rw [List.drop_append]
      simp [Attr.toBytes, shortBytes]
    rw [hdrop, ← a.payload_length, List.take_left]
  ext1
  · simpa [Attr.ofBytes, Attr.toBytes] using htype
  · simpa [Attr.ofBytes, Attr.toBytes, shortBytes] using hlen
  · exact hpay

/-- **The round trip**: a message is read as it was written. -/
theorem Message.ofBytes_toBytes (m : Message) : Message.ofBytes m.toBytes m.length_toBytes = m := by
  have hlen := shortAt_shortBytes [m.vrsn, m.type] m.length (m.attr0.toBytes ++ m.attr1.toBytes)
  have hsize : (shortBytes m.length).length = 2 := rfl
  ext1
  · rfl
  · rfl
  · simpa [Message.ofBytes, Message.toBytes] using hlen
  · have heq : m.toBytes = ([m.vrsn, m.type] ++ shortBytes m.length) ++ (m.attr0.toBytes ++ m.attr1.toBytes) := by
      simp [Message.toBytes]
    simp only [Message.ofBytes, heq]
    exact Attr.ofBytes_toBytes _ m.attr0 m.attr1.toBytes rfl _
  · have heq : m.toBytes = ([m.vrsn, m.type] ++ shortBytes m.length ++ m.attr0.toBytes) ++ (m.attr1.toBytes ++ []) := by
      simp [Message.toBytes]
    simp only [Message.ofBytes, heq]
    refine Attr.ofBytes_toBytes _ m.attr1 [] ?_ _
    simp [Attr.length_toBytes, hsize]

/-! ### Building a message -/

/-- `strcpy(sbcp_payload, s)`; `none` when it runs over the end. -/
def Attr.strcpy (a : Attr) (s : Bytes) : Option Attr :=
  if h : (cstr s).length < payloadSize then
    some { a with
      payload := blit a.payload 0 (cstr s ++ [0])
      payload_length := by
        rw [length_blit, a.payload_length]
        simp only [a.payload_length, List.length_append, List.length_singleton]
        omega }
  else none

/-- `strncpy(sbcp_payload, s, sizeof sbcp_payload)`. -/
def Attr.strncpy (a : Attr) (s : Bytes) : Attr :=
  { a with
    payload := (cstr s ++ zeros payloadSize).take payloadSize
    payload_length := by simp [length_zeros] }

/-- `Attribute[0].Type = type` and the copy of the payload. -/
def Message.setAttr0 (m : Message) (type : BitVec 16) (s : Bytes) : Option Message :=
  (m.attr0.strcpy s).map fun a => { m with attr0 := { a with type := type } }

/-- The same for `Attribute[1]`. -/
def Message.setAttr1 (m : Message) (type : BitVec 16) (s : Bytes) : Option Message :=
  (m.attr1.strcpy s).map fun a => { m with attr1 := { a with type := type } }

/-- The constructor `sbcp_message(msg_type, payload1, payload2)` in the memory `prior`; `none` when a payload
does not fit, or on `exit(-1)`. -/
def construct (prior : Message) (msgType : UInt8) (payload1 payload2 : Bytes) : Option Message :=
  let m := { prior with vrsn := 3, type := msgType }
  if msgType = JOIN then m.setAttr0 USERNAME payload1
  else if msgType = SEND then m.setAttr0 MESSAGE payload1
  else if msgType = FWD then (m.setAttr0 USERNAME payload1).bind fun m => m.setAttr1 MESSAGE payload2
  else if msgType = ACK then (m.setAttr0 CLIENT_COUNT payload1).bind fun m => m.setAttr1 USERNAME payload2
  else if msgType = NAK then some { m with attr0 := { m.attr0.strncpy payload1 with type := REASON } }
  else if msgType = ONLINE then m.setAttr0 USERNAME payload1
  else if msgType = OFFLINE then m.setAttr0 USERNAME payload1
  else if msgType = IDLE then m.setAttr0 USERNAME payload1
  else none

/-- An attribute that is not there: type `EMPTY`, length 0, and an empty string. -/
def Attr.empty (a : Attr) : Attr :=
  { a with
    type := EMPTY
    length := 0
    payload := blit a.payload 0 [0]
    payload_length := by
      rw [length_blit, a.payload_length]
      rw [a.payload_length]
      decide }

/-- The header as the client's senders set it. The lengths of the attributes are added up before they are
set. -/
def clientHeader (prior : Message) (type : UInt8) : Message :=
  { prior with vrsn := 3, type := type, length := 2 * 1 + 2 + prior.attr0.length + prior.attr1.length }

/-- A message of the client with one attribute. -/
def clientMessage (prior : Message) (type : UInt8) (attrType : BitVec 16) (text : Bytes) : Option Message :=
  let m := clientHeader prior type
  (m.attr0.strcpy text).map fun a =>
    { m with
      attr0 := { a with type := attrType, length := 2 * 2 + BitVec.ofNat 16 (cstr text).length }
      attr1 := m.attr1.empty }

def joinChat (prior : Message) (username : Bytes) : Option Message := clientMessage prior JOIN USERNAME username

def sendMsg (prior : Message) (message : Bytes) : Option Message := clientMessage prior SEND MESSAGE message

def idleClient (prior : Message) : Message :=
  let m := clientHeader prior IDLE
  { m with attr0 := m.attr0.empty, attr1 := m.attr1.empty }

/-! ### Receiving a message -/

/-- What the client displays, by the strings it puts into its text. -/
inductive Line
  | fwd (username message : Bytes)
  | ack (count names : Bytes)
  | nak (reason : Bytes)
  | online (username : Bytes)
  | offline (username : Bytes)
  | idle (username : Bytes)
  deriving DecidableEq

/-- The checks of the client on a packet of which `recvBytes` bytes were received. -/
def clientShow (recvBytes : ℤ) (packet : Message) : Option Line :=
  let s0 := cstr packet.attr0.payload
  let s1 := cstr packet.attr1.payload
  if packet.length.toInt ≤ recvBytes then
    if packet.vrsn = 3 then
      if packet.type = FWD ∧ packet.attr0.type = USERNAME ∧ packet.attr1.type = MESSAGE then
        if s1 ≠ ascii "N/A" then some (.fwd s0 s1) else none
      else if packet.type = ACK ∧ packet.attr0.type = CLIENT_COUNT ∧ packet.attr1.type = USERNAME then
        if s1 ≠ ascii "N/A" then some (.ack s0 s1) else none
      else if packet.type = NAK ∧ packet.attr0.type = REASON then some (.nak s0)
      else if packet.type = ONLINE ∧ packet.attr0.type = USERNAME then some (.online s0)
      else if packet.type = OFFLINE ∧ packet.attr0.type = USERNAME then some (.offline s0)
      else if packet.type = IDLE ∧ packet.attr0.type = USERNAME then some (.idle s0)
      else none
    else none
  else none

/-! ### What is asked of a message -/

/-- The types of messages that the server sends. -/
inductive Kind
  | fwd | ack | nak | online | offline | idle
  deriving DecidableEq

def Kind.code : Kind → UInt8
  | .fwd => FWD
  | .ack => ACK
  | .nak => NAK
  | .online => ONLINE
  | .offline => OFFLINE
  | .idle => IDLE

/-- The messages with two payloads. -/
def Kind.Two : Kind → Prop
  | .fwd | .ack => True
  | _ => False

instance : DecidablePred Kind.Two
  | .fwd | .ack => .isTrue trivial
  | .nak | .online | .offline | .idle => .isFalse id

/-- What a client should display of a message of this kind. -/
def Kind.line : Kind → Bytes → Bytes → Line
  | .fwd, s0, s1 => .fwd s0 s1
  | .ack, s0, s1 => .ack s0 s1
  | .nak, s0, _ => .nak s0
  | .online, s0, _ => .online s0
  | .offline, s0, _ => .offline s0
  | .idle, s0, _ => .idle s0

inductive Built
  | server (kind : Kind) (payload1 payload2 : Bytes)
  | joinChat (username : Bytes)
  | sendMsg (message : Bytes)
  | idleClient

/-- The message, built in the memory `prior`. -/
def Built.message (prior : Message) : Built → Option Message
  | .server kind payload1 payload2 => construct prior kind.code payload1 payload2
  | .joinChat username => Sbcp.joinChat prior username
  | .sendMsg message => Sbcp.sendMsg prior message
  | .idleClient => some (Sbcp.idleClient prior)

/-- Its payloads are shorter than 512 characters, and the second is not the filler. -/
def Built.Proper : Built → Prop
  | .server kind payload1 payload2 =>
    payload1.length < payloadSize ∧ (kind.Two → payload2.length < payloadSize ∧ payload2 ≠ ascii "N/A")
  | .joinChat username => username.length < payloadSize
  | .sendMsg message => message.length < payloadSize
  | .idleClient => True

/-- `Length` is the header and the lengths of the attributes. -/
def Message.LengthOk (m : Message) : Prop :=
  m.length.toInt = 4 + (m.attr0.length.toInt + m.attr1.length.toInt)

instance (m : Message) : Decidable m.LengthOk := inferInstanceAs (Decidable (_ = _))

/-- A message of the server, arrived whole, is displayed with its payloads. -/
def Built.Shown (m : Message) : Built → Prop
  | .server kind payload1 payload2 =>
    clientShow msgSize (.ofBytes m.toBytes m.length_toBytes) = some (kind.line payload1 payload2)
  | _ => True

/-- **What is asked of a message built in the memory `prior`.** -/
def Built.Meets (prior : Message) (b : Built) : Prop := ∃ m, b.message prior = some m ∧ b.Shown m ∧ m.LengthOk

/-- The memory before held the right lengths, and no payload holds a NUL. -/
def Built.Primed (prior : Message) : Built → Prop
  | .server kind payload1 payload2 =>
    (prior.length.toInt ≤ msgSize ∧ 0 ∉ payload1 ∧ (kind.Two → 0 ∉ payload2)) ∧ prior.LengthOk
  | .joinChat username => prior.attr0.length + prior.attr1.length = 4 + BitVec.ofNat 16 (cstr username).length
  | .sendMsg message => prior.attr0.length + prior.attr1.length = 4 + BitVec.ofNat 16 (cstr message).length
  | .idleClient => prior.attr0.length + prior.attr1.length = 0

/-! ### Strings in a payload -/

theorem cstr_cstr_append (s rest : Bytes) : cstr (cstr s ++ 0 :: rest) = cstr s :=
  cstr_append_nul (zero_notMem_cstr s) rest

theorem strcpy_spec (a : Attr) {s : Bytes} (h : s.length < payloadSize) :
    ∃ a', a.strcpy s = some a' ∧ a'.length = a.length ∧ cstr a'.payload = cstr s := by
  have hfit : (cstr s).length < payloadSize := (length_cstr_le s).trans_lt h
  refine ⟨_, dif_pos hfit, rfl, ?_⟩
  show cstr (blit a.payload 0 (cstr s ++ [0])) = cstr s
  rw [blit_zero, List.append_assoc, List.singleton_append, cstr_cstr_append]

theorem cstr_strncpy (a : Attr) {s : Bytes} (h : s.length < payloadSize) :
    cstr (a.strncpy s).payload = cstr s := by
  have hfit : (cstr s).length < payloadSize := (length_cstr_le s).trans_lt h
  obtain ⟨n, hn⟩ : ∃ n, payloadSize - (cstr s).length = n + 1 := ⟨payloadSize - (cstr s).length - 1, by omega⟩
  have htake : (zeros payloadSize).take (n + 1) = 0 :: zeros n := by
    have hle : n + 1 ≤ payloadSize := by omega
    rw [zeros, List.take_replicate, Nat.min_eq_left hle, List.replicate_succ]
    rfl
  show cstr ((cstr s ++ zeros payloadSize).take payloadSize) = cstr s
  rw [List.take_append, List.take_of_length_le hfit.le, hn, htake, cstr_cstr_append]

/-! ### What the constructor builds -/

/-- The type of the first attribute. -/
def Kind.attr0 : Kind → BitVec 16
  | .ack => CLIENT_COUNT
  | .nak => REASON
  | _ => USERNAME

/-- The type of the second attribute, where there is one. -/
def Kind.attr1 : Kind → BitVec 16
  | .fwd => MESSAGE
  | _ => USERNAME

/-- `m` carries the payloads, and the lengths that were in the memory `prior`. -/
structure Carries (prior m : Message) (kind : Kind) (payload1 payload2 : Bytes) : Prop where
  vrsn : m.vrsn = 3
  type : m.type = kind.code
  length : m.length = prior.length
  length0 : m.attr0.length = prior.attr0.length
  length1 : m.attr1.length = prior.attr1.length
  type0 : m.attr0.type = kind.attr0
  string0 : cstr m.attr0.payload = cstr payload1
  second : kind.Two → m.attr1.type = kind.attr1 ∧ cstr m.attr1.payload = cstr payload2

section Carries

variable {prior m : Message} {kind : Kind} {payload1 payload2 : Bytes}

theorem carries_one (kind : Kind) (hone : ¬ kind.Two) (h1 : payload1.length < payloadSize) :
    ∃ m, ({ prior with vrsn := 3, type := kind.code } : Message).setAttr0 kind.attr0 payload1 = some m ∧
      Carries prior m kind payload1 payload2 := by
  obtain ⟨a, ha, hlen, hstr⟩ := strcpy_spec prior.attr0 h1
  refine ⟨_, congrArg _ ha, rfl, rfl, rfl, hlen, rfl, rfl, hstr, fun h => (hone h).elim⟩

theorem carries_two (kind : Kind) (h1 : payload1.length < payloadSize) (h2 : payload2.length < payloadSize) :
    ∃ m, (({ prior with vrsn := 3, type := kind.code } : Message).setAttr0 kind.attr0 payload1).bind
        (fun m => m.setAttr1 kind.attr1 payload2) = some m ∧ Carries prior m kind payload1 payload2 := by
  obtain ⟨a, ha, hlen, hstr⟩ := strcpy_spec prior.attr0 h1
  obtain ⟨b, hb, hlen', hstr'⟩ := strcpy_spec prior.attr1 h2
  refine ⟨{ prior with
      vrsn := 3, type := kind.code, attr0 := { a with type := kind.attr0 }, attr1 := { b with type := kind.attr1 } },
    ?_, rfl, rfl, rfl, hlen, hlen', rfl, hstr, fun _ => ⟨rfl, hstr'⟩⟩
  rw [Message.setAttr0, ha]
  show (prior.attr1.strcpy payload2).map _ = _
  rw [hb]
  rfl

theorem construct_carries (h1 : payload1.length < payloadSize) (h2 : kind.Two → payload2.length < payloadSize) :
    ∃ m, construct prior kind.code payload1 payload2 = some m ∧ Carries prior m kind payload1 payload2 := by
  cases kind with
  | fwd => exact carries_two .fwd h1 (h2 trivial)
  | ack => exact carries_two .ack h1 (h2 trivial)
  | nak => exact ⟨_, rfl, rfl, rfl, rfl, rfl, rfl, rfl, cstr_strncpy prior.attr0 h1, fun h => h.elim⟩
  | online => exact carries_one .online id h1
  | offline => exact carries_one .offline id h1
  | idle => exact carries_one .idle id h1

/-- The message holds the strings that `sbcpMessage` keeps. -/
theorem view_construct (h : Carries prior m kind payload1 payload2) (h1 : 0 ∉ payload1) (h2 : 0 ∉ payload2) :
    sbcpMessage kind.code payload1 payload2 =
      { type := m.type, payload0 := cstr m.attr0.payload
        payload1 := if m.type = FWD ∨ m.type = ACK then some (cstr m.attr1.payload) else none } := by
  rw [h.type, h.string0, cstr_eq_self_iff.2 h1]
  cases kind with
  | fwd => rw [(h.second trivial).2, cstr_eq_self_iff.2 h2]; rfl
  | ack => rw [(h.second trivial).2, cstr_eq_self_iff.2 h2]; rfl
  | nak => rfl
  | online => rfl
  | offline => rfl
  | idle => rfl

/-- The client displays what it is sent, unless `Length` says that more was to come. -/
theorem clientShow_carries (h : Carries prior m kind payload1 payload2) :
    clientShow msgSize m =
      if prior.length.toInt ≤ msgSize ∧ (kind.Two → cstr payload2 ≠ ascii "N/A") then
        some (kind.line (cstr payload1) (cstr payload2))
      else none := by
  unfold clientShow
  dsimp only
  rw [h.length, h.vrsn, h.type, h.type0, h.string0]
  by_cases hlen : prior.length.toInt ≤ msgSize
  · rw [if_pos hlen, if_pos rfl]
    cases kind with
    | fwd =>
      obtain ⟨htype, hstr⟩ := h.second trivial
      rw [htype, hstr]
      simp [Kind.code, Kind.attr0, Kind.attr1, Kind.line, Kind.Two, hlen]
    | ack =>
      obtain ⟨htype, hstr⟩ := h.second trivial
      rw [htype, hstr]
      simp [Kind.code, Kind.attr0, Kind.attr1, Kind.line, Kind.Two, hlen, ACK, FWD]
    | nak => simp [Kind.code, Kind.attr0, Kind.line, Kind.Two, hlen, ACK, FWD, NAK]
    | online => simp [Kind.code, Kind.attr0, Kind.line, Kind.Two, hlen, ACK, FWD, NAK, ONLINE]
    | offline => simp [Kind.code, Kind.attr0, Kind.line, Kind.Two, hlen, ACK, FWD, NAK, ONLINE, OFFLINE]
    | idle => simp [Kind.code, Kind.attr0, Kind.line, Kind.Two, hlen, ACK, FWD, NAK, ONLINE, OFFLINE, IDLE]
  · rw [if_neg hlen, if_neg fun hboth => hlen hboth.1]

theorem line_eq_iff {s0 s1 t0 t1 : Bytes} :
    kind.line s0 s1 = kind.line t0 t1 ↔ s0 = t0 ∧ (kind.Two → s1 = t1) := by
  cases kind <;> simp [Kind.line, Kind.Two]

theorem shown_iff (h : Carries prior m kind payload1 payload2) (hna : kind.Two → payload2 ≠ ascii "N/A") :
    clientShow msgSize m = some (kind.line payload1 payload2) ↔
      prior.length.toInt ≤ msgSize ∧ 0 ∉ payload1 ∧ (kind.Two → 0 ∉ payload2) := by
  rw [clientShow_carries h]
  constructor
  · intro hshow
    split_ifs at hshow with hcond
    obtain ⟨h1, h2⟩ := line_eq_iff.1 (Option.some.inj hshow)
    exact ⟨hcond.1, cstr_eq_self_iff.1 h1, fun htwo => cstr_eq_self_iff.1 (h2 htwo)⟩
  · rintro ⟨hlen, h1, h2⟩
    have hcut : kind.Two → cstr payload2 = payload2 := fun htwo => cstr_eq_self_iff.2 (h2 htwo)
    have hname : kind.Two → cstr payload2 ≠ ascii "N/A" := by
      intro htwo
      rw [hcut htwo]
      exact hna htwo
    rw [if_pos ⟨hlen, hname⟩, line_eq_iff.2 ⟨cstr_eq_self_iff.2 h1, hcut⟩]

end Carries

/-! ### Lengths -/

theorem toInt_ofNat_short {n : ℕ} (hn : n < 2 ^ 15) : (BitVec.ofNat 16 n).toInt = n := by
  have hnat : (BitVec.ofNat 16 n).toNat = n := by
    rw [BitVec.toNat_ofNat]
    exact Nat.mod_eq_of_lt (by omega)
  rw [BitVec.toInt_eq_toNat_of_lt (by omega), hnat]

/-- A sum of lengths made before they are set is right only by chance. -/
theorem header_length_iff (x y : BitVec 16) {n : ℕ} (hn : n < 1024) :
    (2 * 1 + 2 + x + y).toInt = 4 + ((BitVec.ofNat 16 n).toInt + (0 : BitVec 16).toInt) ↔
      x + y = BitVec.ofNat 16 n := by
  have hsum : (4 : ℤ) + ((BitVec.ofNat 16 n).toInt + (0 : BitVec 16).toInt) = (BitVec.ofNat 16 (4 + n)).toInt := by
    rw [toInt_ofNat_short (by omega), toInt_ofNat_short (by omega)]
    simp
  rw [hsum, BitVec.toInt_inj, BitVec.ofNat_add, show (2 * 1 + 2 : BitVec 16) = BitVec.ofNat 16 4 from rfl,
    BitVec.add_assoc]
  exact BitVec.add_right_inj _

theorem lengthOk_carries {prior m : Message} {kind : Kind} {payload1 payload2 : Bytes}
    (h : Carries prior m kind payload1 payload2) : m.LengthOk ↔ prior.LengthOk := by
  rw [Message.LengthOk, h.length, h.length0, h.length1]
  rfl

theorem clientMessage_iff (prior : Message) (type : UInt8) (attrType : BitVec 16) {text : Bytes}
    (h : text.length < payloadSize) :
    (∃ m, clientMessage prior type attrType text = some m ∧ m.LengthOk) ↔
      prior.attr0.length + prior.attr1.length = 4 + BitVec.ofNat 16 (cstr text).length := by
  obtain ⟨a, ha, -, -⟩ := strcpy_spec (clientHeader prior type).attr0 h
  have hbound : (cstr text).length < payloadSize := (length_cstr_le text).trans_lt h
  have hlen : (cstr text).length < 512 := hbound
  have hiff := header_length_iff prior.attr0.length prior.attr1.length
    (n := 4 + (cstr text).length) (by omega)
  rw [BitVec.ofNat_add] at hiff
  simp only [clientMessage, ha, Option.map_some, Option.some.injEq, exists_eq_left']
  exact hiff

theorem idleClient_iff (prior : Message) :
    (idleClient prior).LengthOk ↔ prior.attr0.length + prior.attr1.length = 0 :=
  header_length_iff prior.attr0.length prior.attr1.length (n := 0) (by omega)

/-- **Messages are what they should be exactly when the memory before was right.** A message of the server is
displayed with its payloads and has the right `Length` if and only if the `Length` that was in memory is at most
the size of a message and the sum of the attribute lengths that were there, and no payload holds a NUL; a message
of the client has the right `Length` if and only if the attribute lengths that were in memory add up to those it
sets. -/
theorem meets_iff_primed (prior : Message) (b : Built) (hb : b.Proper) : b.Meets prior ↔ b.Primed prior := by
  cases b with
  | server kind payload1 payload2 =>
    obtain ⟨m, hm, hcarries⟩ : ∃ m, construct prior kind.code payload1 payload2 = some m ∧
        Carries prior m kind payload1 payload2 := construct_carries hb.1 fun htwo => (hb.2 htwo).1
    have hshown := shown_iff hcarries fun htwo => (hb.2 htwo).2
    simp only [Built.Meets, Built.message, Built.Shown, Built.Primed, hm, Option.some.injEq, exists_eq_left',
      Message.ofBytes_toBytes, hshown, lengthOk_carries hcarries]
  | joinChat username =>
    simp only [Built.Meets, Built.message, Built.Shown, true_and]
    exact clientMessage_iff prior JOIN USERNAME hb
  | sendMsg message =>
    simp only [Built.Meets, Built.message, Built.Shown, true_and]
    exact clientMessage_iff prior SEND MESSAGE hb
  | idleClient =>
    simp only [Built.Meets, Built.message, Built.Shown, true_and, Option.some.injEq, exists_eq_left']
    exact idleClient_iff prior

/-! ### Two memories -/

/-- Memory of zeros, but for the `Length` of the message. -/
def Message.blank (length : BitVec 16) : Message where
  vrsn := 0
  type := 0
  length := length
  attr0 := ⟨0, 0, zeros payloadSize, length_zeros _⟩
  attr1 := ⟨0, 0, zeros payloadSize, length_zeros _⟩

/-- A notice built where a large number was: the client takes it for incomplete. -/
theorem not_meets_large : ¬ (Built.server .online (ascii "ann") (ascii "N/A")).Meets (.blank 0x7FFF) := by
  rintro ⟨m, hm, hshown, -⟩
  obtain ⟨m', hm', hcarries⟩ : ∃ m', construct (.blank 0x7FFF) Kind.online.code (ascii "ann") (ascii "N/A") =
      some m' ∧ Carries (.blank 0x7FFF) m' .online (ascii "ann") (ascii "N/A") :=
    construct_carries (by decide) fun htwo => htwo.elim
  obtain rfl : m = m' := Option.some.inj (hm.symm.trans hm')
  rw [Built.Shown, Message.ofBytes_toBytes, shown_iff hcarries fun htwo => htwo.elim] at hshown
  exact absurd hshown.1 (by decide)

/-- The same notice built where a 4 was. -/
theorem meets_four : (Built.server .online (ascii "ann") (ascii "N/A")).Meets (.blank 4) :=
  (meets_iff_primed (.blank 4) (.server .online (ascii "ann") (ascii "N/A"))
    ⟨by decide, fun htwo => htwo.elim⟩).2 ⟨⟨by decide, by decide, fun htwo => htwo.elim⟩, by decide⟩

end TamuProofs.Sbcp
