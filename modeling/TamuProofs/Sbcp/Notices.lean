import Mathlib.Algebra.Order.BigOperators.Group.List
import Mathlib.Data.Nat.Digits.Defs
import TamuProofs.Sbcp.Broadcast
import TamuProofs.Sbcp.Framing
import TamuProofs.Sbcp.Wire

/-!
# What an orderly server sends

`Orderly` adds to the invariant of the registry that no slot behind those in use holds the descriptor of a client.
In such a state every event has the effect that the protocol asks for: the notice that is due goes once to each
client that is online, but not to the one it is about, and nothing else goes to them.

* `Reacts` — the effect of one event, `Orderly.reacts` — every allowed event of whole messages has it;
* `Msg.build` — a message as it leaves the server, `clientShow_build` — what a client displays of it.
-/

namespace TamuProofs.Sbcp

open TamuProofs.Lib

/-! ### One slot of many -/

section Unique

variable {α : Type*} {p : ℕ → Prop} [DecidablePred p] {n m : ℕ}

theorem flatMap_range_none (f : ℕ → List α) (h : ∀ k < n, ¬ p k) :
    ((List.range n).flatMap fun k => if p k then f k else []) = [] := by
  refine List.flatMap_eq_nil_iff.2 fun k hk => ?_
  rw [if_neg (h k (List.mem_range.1 hk))]

theorem flatMap_range_unique (f : ℕ → List α) (hm : m < n) (hp : p m) (h : ∀ k < n, p k → k = m) :
    ((List.range n).flatMap fun k => if p k then f k else []) = f m := by
  induction n with
  | zero => omega
  | succ n ih =>
    rw [List.range_succ, List.flatMap_append, List.flatMap_singleton]
    by_cases hn : m = n
    · subst hn
      rw [if_pos hp, flatMap_range_none f fun k hk hpk => hk.ne (h k (by omega) hpk), List.nil_append]
    · rw [if_neg fun hpn => hn (h n (Nat.lt_succ_self n) hpn).symm, List.append_nil]
      exact ih (by omega) fun k hk => h k (by omega)

theorem foldl_range_unique (f : ℕ → α) (a : α) (hm : m < n) (hp : p m) (h : ∀ k < n, p k → k = m) :
    (List.range n).foldl (fun x k => if p k then f k else x) a = f m := by
  induction n with
  | zero => omega
  | succ n ih =>
    rw [List.range_succ, List.foldl_append, List.foldl_cons, List.foldl_nil]
    by_cases hn : m = n
    · subst hn
      rw [if_pos hp]
    · rw [if_neg fun hpn => hn (h n (Nat.lt_succ_self n) hpn).symm]
      exact ih (by omega) fun k hk => h k (by omega)

end Unique

/-! ### Messages -/

/-- A message as the server builds it in the memory `prior`. -/
def Msg.build (prior : Message) (m : Msg) : Option Message :=
  construct prior m.type m.payload0 (m.payload1.getD (ascii "N/A"))

/-- The message has one of the types of the server, and its strings fit. -/
structure Msg.Fits (m : Msg) : Prop where
  kind : ∃ kind : Kind, m.type = kind.code
  payload0 : m.payload0.length < payloadSize
  payload1 : (m.payload1.getD (ascii "N/A")).length < payloadSize

theorem Msg.Fits.build {m : Msg} (h : m.Fits) (prior : Message) : ∃ packet, m.build prior = some packet := by
  obtain ⟨kind, hkind⟩ := h.kind
  obtain ⟨packet, hpacket, -⟩ :
      ∃ packet, construct prior kind.code m.payload0 (m.payload1.getD (ascii "N/A")) = some packet ∧
        Carries prior packet kind m.payload0 (m.payload1.getD (ascii "N/A")) :=
    construct_carries h.payload0 fun _ => h.payload1
  exact ⟨packet, by rw [Msg.build, hkind, hpacket]⟩

theorem fits_sbcpMessage (kind : Kind) {payload0 payload1 : Bytes} (h0 : payload0.length < payloadSize)
    (h1 : payload1.length < payloadSize) : (sbcpMessage kind.code payload0 payload1).Fits := by
  unfold sbcpMessage
  split
  · exact ⟨⟨kind, rfl⟩, h0, h1⟩
  · exact ⟨⟨kind, rfl⟩, h0, show (ascii "N/A").length < payloadSize by decide⟩

theorem fits_nullchar : nullchar.Fits := fits_sbcpMessage .fwd (by decide) (by decide)

/-- **What a client displays of a message of the server**, if the `Length` that was in memory does not say that
more is to come. -/
theorem clientShow_build (kind : Kind) {payload0 payload1 : Bytes} (h0 : 0 ∉ payload0)
    (hlen0 : payload0.length < payloadSize) (h1 : 0 ∉ payload1) (hlen1 : payload1.length < payloadSize)
    {prior packet : Message} (hprior : prior.length.toInt ≤ msgSize)
    (hbuild : (sbcpMessage kind.code payload0 payload1).build prior = some packet) :
    clientShow msgSize packet =
      if kind.Two → payload1 ≠ ascii "N/A" then some (kind.line payload0 payload1) else none := by
  obtain ⟨built, hbuilt, hcarries⟩ : ∃ built, construct prior kind.code payload0 payload1 = some built ∧
      Carries prior built kind payload0 payload1 := construct_carries hlen0 fun _ => hlen1
  -- a message with one payload does not look at the second
  have hsame : (sbcpMessage kind.code payload0 payload1).build prior = construct prior kind.code payload0 payload1 := by
    cases kind <;> rfl
  cases hbuilt.symm.trans (hsame.symm.trans hbuild)
  rw [clientShow_carries hcarries, cstr_eq_self_iff.2 h0, cstr_eq_self_iff.2 h1]
  simp [hprior]

/-- The message that carries a notice. -/
def Notice.msg (n : Notice) : Msg := sbcpMessage n.type n.name (n.text.getD (ascii "N/A"))

/-- What a client displays of a notice.  A text that reads `N/A` it takes for the filler. -/
def Notice.line (n : Notice) : Option Line :=
  if n.type = FWD then n.text.bind fun text => if text = ascii "N/A" then none else some (.fwd n.name text)
  else if n.type = ONLINE then some (.online n.name)
  else if n.type = OFFLINE then some (.offline n.name)
  else if n.type = IDLE then some (.idle n.name)
  else none

/-- A notice whose strings have no NUL and fit, with a text exactly if it has the type `FWD`. -/
structure Notice.Proper (n : Notice) : Prop where
  type : n.type = FWD ∨ n.type = ONLINE ∨ n.type = OFFLINE ∨ n.type = IDLE
  name : 0 ∉ n.name ∧ n.name.length < 16
  text : ∀ text ∈ n.text, 0 ∉ text ∧ text.length < payloadSize
  isSome : n.text.isSome ↔ n.type = FWD

theorem Notice.proper_of_none {n : Notice} (htype : n.type = ONLINE ∨ n.type = OFFLINE ∨ n.type = IDLE)
    (hname : 0 ∉ n.name ∧ n.name.length < 16) (htext : n.text = none) : n.Proper := by
  refine ⟨.inr htype, hname, (fun t ht => by rw [htext] at ht; cases ht), ?_⟩
  have hne : n.type ≠ FWD := by rcases htype with h | h | h <;> rw [h] <;> decide
  simp [htext, hne]

namespace Notice.Proper

variable {n : Notice}

theorem name_lt (h : n.Proper) : n.name.length < payloadSize := h.name.2.trans (by decide)

theorem text_getD (h : n.Proper) :
    0 ∉ n.text.getD (ascii "N/A") ∧ (n.text.getD (ascii "N/A")).length < payloadSize := by
  cases htext : n.text with
  | none => exact ⟨(by decide : (0 : UInt8) ∉ ascii "N/A"), (by decide : (ascii "N/A").length < payloadSize)⟩
  | some text => exact h.text text htext

theorem exists_kind (h : n.Proper) : ∃ kind : Kind, n.type = kind.code ∧ n.line =
    if kind.Two → n.text.getD (ascii "N/A") ≠ ascii "N/A" then some (kind.line n.name (n.text.getD (ascii "N/A")))
    else none := by
  unfold Notice.line
  rcases h.type with ht | ht | ht | ht
  · obtain ⟨text, htext⟩ := Option.isSome_iff_exists.1 (h.isSome.2 ht)
    refine ⟨.fwd, ht, ?_⟩
    rw [ht, htext]
    by_cases hna : text = ascii "N/A"
    · simp [hna, Kind.Two]
    · simp [hna, Kind.Two, Kind.line]
  · refine ⟨.online, ht, ?_⟩
    rw [ht]
    simp [Kind.Two, Kind.line, FWD, ONLINE]
  · refine ⟨.offline, ht, ?_⟩
    rw [ht]
    simp [Kind.Two, Kind.line, FWD, ONLINE, OFFLINE]
  · refine ⟨.idle, ht, ?_⟩
    rw [ht]
    simp [Kind.Two, Kind.line, FWD, ONLINE, OFFLINE, IDLE]

theorem fits (h : n.Proper) : n.msg.Fits := by
  obtain ⟨kind, hkind, -⟩ := h.exists_kind
  rw [Notice.msg, hkind]
  exact fits_sbcpMessage kind h.name_lt h.text_getD.2

theorem show_eq (h : n.Proper) {prior packet : Message} (hprior : prior.length.toInt ≤ msgSize)
    (hbuild : n.msg.build prior = some packet) : clientShow msgSize packet = n.line := by
  obtain ⟨kind, hkind, hline⟩ := h.exists_kind
  rw [Notice.msg, hkind] at hbuild
  rw [hline, clientShow_build kind h.name.1 h.name_lt h.text_getD.1 h.text_getD.2 hprior hbuild]

end Notice.Proper

theorem show_nullchar {prior packet : Message} (hprior : prior.length.toInt ≤ msgSize)
    (hbuild : nullchar.build prior = some packet) : clientShow msgSize packet = none := by
  have hshow := clientShow_build .fwd (by decide) (by decide) (by decide) (by decide) hprior hbuild
  rw [hshow, if_neg fun h => h trivial rfl]

/-! ### Orderly servers -/

/-- **An orderly server**: the slots in use are the clients that are online, and no slot behind them holds the
descriptor of a client, or one that `accept` could return. -/
structure Orderly (s : Server) : Prop where
  inv : Inv s
  bound : s.clntCount ≤ s.maxClnt
  small : s.maxClnt < 2 ^ 31
  names : ∀ k < s.clntCount, 0 ∉ (s.currClnt k).username ∧ (s.currClnt k).username.length < 16
  spare : ∀ k, s.clntCount ≤ k → ∀ d : ℕ, (s.currClnt k).fd = d → d ∈ s.opened ∧ (d ∈ s.master → d = s.srvrFd)

/-- The memory of the slots holds no descriptor that is free. -/
def Mem.Stale (mem : Mem) : Prop := ∀ k, ∀ d : ℕ, (mem.slot k).2 = d → d ∈ mem.opened

theorem orderly_start {mem : Mem} (hmem : mem.Stale) {maxClnt : ℕ} (hmax : maxClnt < 2 ^ 31) (srvrFd : ℕ) :
    Orderly (Server.start mem maxClnt srvrFd) := by
  refine ⟨inv_start mem maxClnt srvrFd, Nat.zero_le _, hmax, fun k hk => absurd hk (Nat.not_lt_zero k),
    fun k _ d hd => ?_⟩
  unfold Server.start at hd
  dsimp only at hd
  split at hd
  · have hneg : (-1 : ℤ) = d := hd
    omega
  · exact ⟨Finset.mem_insert_of_mem (hmem k d hd), fun hm => Finset.mem_singleton.1 hm⟩

section Forward

variable {s : Server} {d : ℕ} {self : ℤ} {fwd : Msg} {n : ℕ}

/-- **A message that is forwarded** reaches each client that is online, but not the one it comes from, once. -/
theorem Orderly.heardBy_forward (h : Orderly s) (hd : s.Online d) (hself : (d : ℤ) ≠ self) (fwd : Msg) :
    heardBy d (s.forwardMessage fwd self s.clntCount) = [fwd, nullchar] := by
  obtain ⟨m, ⟨hm, hfd⟩, huniq⟩ := h.inv.registry.slot d hd.1 hd.2.1
  rw [heardBy_forwardMessage hd.1 hself]
  refine flatMap_range_unique (fun _ => [fwd, nullchar]) (hm.trans (Nat.lt_succ_self _)) hfd fun k hk hkd => ?_
  rcases Nat.lt_succ_iff_lt_or_eq.1 hk with hk | rfl
  · exact huniq k ⟨hk, hkd⟩
  · exact absurd ((h.spare _ le_rfl d hkd).2 hd.1) hd.2.1

theorem heardBy_forward_self (s : Server) (d : ℕ) (fwd : Msg) (n : ℕ) : heardBy d (s.forwardMessage fwd d n) = [] := by
  rw [Server.forwardMessage, heardBy_flatMap]
  refine List.flatMap_eq_nil_iff.2 fun j _ => ?_
  rw [heardBy_test]
  split
  · rename_i hset
    rw [heardBy_write_ne hset.2, heardBy_write_ne hset.2, heardBy_nil]
  · rfl

theorem write_mem_forward {fd : ℤ} {m : Msg} (h : .write fd m ∈ s.forwardMessage fwd self n) :
    m = fwd ∨ m = nullchar := by
  obtain ⟨j, -, hj⟩ := List.mem_flatMap.1 h
  dsimp only at hj
  rw [List.mem_cons] at hj
  have hwrite := hj.resolve_left fun htest => by cases htest
  split at hwrite
  · rcases List.mem_cons.1 hwrite with hw | hw
    · exact .inl (Out.write.inj hw).2
    · exact .inr (Out.write.inj (List.mem_singleton.1 hw)).2
  · cases hwrite

theorem fits_forward (hfwd : fwd.Fits) {fd : ℤ} {m : Msg} (h : .write fd m ∈ s.forwardMessage fwd self n) : m.Fits := by
  rcases write_mem_forward h with rfl | rfl
  · exact hfwd
  · exact fits_nullchar

end Forward

/-! ### Events -/

/-- What a client hears of a notice. -/
def newsFor (d : ℕ) : Option Notice → List Msg
  | none => []
  | some n => if n.about = d then [] else [n.msg, nullchar]

/-- The message that a client is welcomed with: the number of the clients and their names. -/
structure Welcome (m : Msg) : Prop where
  ack : ∃ count names, m = sbcpMessage ACK count names ∧ 0 ∉ count ∧ count.length < payloadSize ∧
    0 ∉ names ∧ names.length < payloadSize ∧ names ≠ ascii "N/A"

/-- **What an event leads to**: the clients that are online hear of the notice that is due, and one that comes in
hears its welcome. -/
structure Reacts (s : Server) (e : Ev) (s' : Server) (out : List Out) : Prop where
  step : s.step e = some (s', out)
  orderly : Orderly s'
  fits : ∀ fd m, .write fd m ∈ out → m.Fits
  proper : ∀ n ∈ s.due e, n.Proper
  heard : ∀ d, s.Online d → heardBy d out = newsFor d (s.due e)
  stays : ∀ d, s'.Online d → s.Online d → s'.joinedAs d = s.joinedAs d
  joins : ∀ d, s'.Online d → ¬ s.Online d → ∃ bytes namelist m n, e = .connect d bytes namelist ∧
    s.due e = some n ∧ n.about = d ∧ s'.joinedAs d = s.nameIn bytes ∧ Welcome m ∧ heardBy d out = [m, nullchar]
  gone : ∀ i, e = .hangup i → ¬ s'.Online i
  limit : s'.maxClnt = s.maxClnt

theorem Orderly.heardBy_notice {s : Server} {d : ℕ} (h : Orderly s) (hd : s.Online d) (n : Notice) :
    heardBy d (s.forwardMessage n.msg n.about s.clntCount) = newsFor d (some n) := by
  by_cases hn : n.about = d
  · rw [newsFor, if_pos hn, hn, heardBy_forward_self]
  · rw [newsFor, if_neg hn]
    exact h.heardBy_forward hd (by omega) _

/-- A message that came in whole, with an end to its text. -/
def Ev.Whole : Ev → Prop
  | .read _ bytes => bytes.length = msgSize ∧ 0 ∈ bytes.drop 8
  | _ => True

section Events

variable {s : Server} {fd i : ℕ} {bytes namelist : Bytes}

theorem Orderly.online_iff (h : Orderly s) {d : ℕ} : s.Online d ↔ d ∈ s.master ∧ d ≠ s.srvrFd :=
  ⟨fun hd => ⟨hd.1, hd.2.1⟩, fun hd => ⟨hd.1, hd.2, h.inv.reach d hd.1⟩⟩

theorem Orderly.exists_slot (h : Orderly s) (hi : s.Online i) : ∃ m < s.clntCount, (s.currClnt m).fd = i ∧
    (s.currClnt m).username = s.joinedAs i ∧ ∀ k < s.clntCount, (s.currClnt k).fd = i → k = m := by
  obtain ⟨m, ⟨hm, hfd⟩, huniq⟩ := h.inv.registry.slot i hi.1 hi.2.1
  exact ⟨m, hm, hfd, h.inv.registry.name i hi.1 hi.2.1 m hm hfd, fun k hk hkd => huniq k ⟨hk, hkd⟩⟩

theorem Orderly.joinedAs_proper (h : Orderly s) (hi : s.Online i) : 0 ∉ s.joinedAs i ∧ (s.joinedAs i).length < 16 := by
  obtain ⟨m, hm, -, hname, -⟩ := h.exists_slot hi
  rw [← hname]
  exact h.names m hm

theorem Orderly.congr {s' : Server} (h : Orderly s) (h1 : s'.master = s.master) (h2 : s'.srvrFd = s.srvrFd)
    (h3 : s'.clntCount = s.clntCount) (h4 : s'.currClnt = s.currClnt) (h5 : s'.joinedAs = s.joinedAs)
    (h6 : s.opened ⊆ s'.opened) (h7 : s'.fdmax = s.fdmax) (h8 : s'.maxClnt = s.maxClnt) : Orderly s' := by
  refine ⟨⟨h.inv.registry.congr h1 h2 h3 h4 h5, ?_, ?_, ?_⟩, ?_, h8 ▸ h.small, ?_, ?_⟩
  · rw [h1, h2]
    exact h.inv.listening
  · rw [h1]
    exact h.inv.opened.trans h6
  · rw [h1, h7]
    exact h.inv.reach
  · rw [h3, h8]
    exact h.bound
  · rw [h3, h4]
    exact h.names
  · rw [h3, h4, h1, h2]
    exact fun k hk d hd => ⟨h6 (h.spare k hk d hd).1, (h.spare k hk d hd).2⟩

/-! #### Messages -/

theorem payload_readInto (hlen : bytes.length = msgSize) (hnul : 0 ∈ bytes.drop 8) (buf : Bytes) :
    payload (readInto buf bytes) = payload bytes := by
  have h8 : 8 ≤ bytes.length := by rw [hlen]; decide
  rw [payload, readInto, List.take_of_length_le hlen.le, blit_zero, List.drop_append_of_le_length h8,
    cstr_append_of_mem hnul]
  rfl

theorem Orderly.reacts_text (h : Orderly s) (hi : s.Online i) (hlen : bytes.length = msgSize)
    (hnul : 0 ∈ bytes.drop 8) (hidle : msgType bytes ≠ IDLE) (htext : (payload bytes).length < 512) :
    ∃ s' out, Reacts s (.read i bytes) s' out := by
  obtain ⟨m, hm, hfd, hname, huniq⟩ := h.exists_slot hi
  have hne : bytes ≠ [] := List.ne_nil_of_length_pos (by rw [hlen]; decide)
  have hfold : (List.range s.clntCount).foldl
      (fun name k => if (s.currClnt k).fd = i then (s.currClnt k).username else name) s.fwdName = s.joinedAs i :=
    (foldl_range_unique (fun k => (s.currClnt k).username) _ hm hfd huniq).trans hname
  have hdue : s.due (.read i bytes) =
      some { about := i, type := FWD, name := s.joinedAs i, text := some (payload bytes) } := by
    rw [Server.due, if_pos ⟨hi, hlen⟩, if_neg hidle]
  have hproper : Notice.Proper { about := i, type := FWD, name := s.joinedAs i, text := some (payload bytes) } :=
    ⟨.inl rfl, h.joinedAs_proper hi, fun t ht => by cases ht; exact ⟨zero_notMem_cstr _, htext⟩, by simp⟩
  refine ⟨{ s with sendMsg := readInto s.sendMsg bytes, fwdName := s.joinedAs i },
    s.forwardMessage (sbcpMessage FWD (s.joinedAs i) (payload bytes)) i s.clntCount,
    ⟨?_, ?_, ?_, ?_, ?_, ?_, ?_, ?_, rfl⟩⟩
  · rw [step_read hi hne]
    unfold Server.read
    dsimp only
    rw [msgType_readInto s.sendMsg hlen, if_neg hidle, payload_readInto hlen hnul, if_pos htext, hfold]
    rfl
  · exact h.congr rfl rfl rfl rfl rfl (Finset.Subset.refl _) rfl rfl
  · exact fun fd m hm => fits_forward hproper.fits hm
  · rw [hdue]
    intro n hn
    cases hn
    exact hproper
  · intro d hd
    rw [hdue]
    exact h.heardBy_notice hd { about := i, type := FWD, name := s.joinedAs i, text := some (payload bytes) }
  · exact fun d _ _ => rfl
  · exact fun d hd hd' => absurd hd hd'
  · exact fun i hi => by cases hi

theorem Orderly.reacts_idle (h : Orderly s) (hi : s.Online i) (hlen : bytes.length = msgSize)
    (hidle : msgType bytes = IDLE) :
    ∃ s' out, Reacts s (.read i bytes) s' out := by
  obtain ⟨m, hm, hfd, hname, huniq⟩ := h.exists_slot hi
  have hne : bytes ≠ [] := List.ne_nil_of_length_pos (by rw [hlen]; decide)
  -- one slot holds the descriptor, so the loop over the slots forwards once
  have hloop : ((List.range s.clntCount).flatMap fun k => if (s.currClnt k).fd = i then
      s.forwardMessage (sbcpMessage IDLE (s.currClnt k).username (ascii "N/A")) i s.clntCount else []) =
      s.forwardMessage (sbcpMessage IDLE (s.joinedAs i) (ascii "N/A")) i s.clntCount := by
    rw [← hname]
    exact flatMap_range_unique (fun k => s.forwardMessage (sbcpMessage IDLE (s.currClnt k).username (ascii "N/A")) i
      s.clntCount) hm hfd huniq
  have hdue : s.due (.read i bytes) = some { about := i, type := IDLE, name := s.joinedAs i, text := none } := by
    rw [Server.due, if_pos ⟨hi, hlen⟩, if_pos hidle]
  have hproper : Notice.Proper { about := i, type := IDLE, name := s.joinedAs i, text := none } :=
    Notice.proper_of_none (.inr (.inr rfl)) (h.joinedAs_proper hi) rfl
  refine ⟨{ s with sendMsg := readInto s.sendMsg bytes },
    s.forwardMessage (sbcpMessage IDLE (s.joinedAs i) (ascii "N/A")) i s.clntCount,
    ⟨?_, ?_, ?_, ?_, ?_, ?_, ?_, ?_, rfl⟩⟩
  · rw [step_read hi hne]
    unfold Server.read
    dsimp only
    rw [msgType_readInto s.sendMsg hlen, if_pos hidle, ← hloop]
    rfl
  · exact h.congr rfl rfl rfl rfl rfl (Finset.Subset.refl _) rfl rfl
  · exact fun fd m hm => fits_forward hproper.fits hm
  · rw [hdue]
    intro n hn
    cases hn
    exact hproper
  · intro d hd
    rw [hdue]
    exact h.heardBy_notice hd { about := i, type := IDLE, name := s.joinedAs i, text := none }
  · exact fun d _ _ => rfl
  · exact fun d hd hd' => absurd hd hd'
  · exact fun i hi => by cases hi

/-! #### Hang-ups -/

theorem hangupLoop_last {m : ℕ} (hm : m + 1 = s.clntCount) (hfd : (s.currClnt m).fd = i)
    (huniq : ∀ k < s.clntCount, (s.currClnt k).fd = i → k = m) (n k : ℕ) (hk : k ≤ m) (hn : m < k + n) :
    Server.hangupLoop i n k s = (s.left i m,
      s.forwardMessage (sbcpMessage OFFLINE (s.currClnt m).username (ascii "N/A")) i s.clntCount) := by
  induction n generalizing k with
  | zero => omega
  | succ n ih =>
    rw [Server.hangupLoop, if_pos (by omega : k < s.clntCount)]
    rcases hk.eq_or_lt with rfl | hlt
    · -- the slot of the client
      rw [if_pos hfd]
      dsimp only
      rw [hangupLoop_miss n (k + 1) fun j hj hj' => ?_, List.append_nil, hfd]
      have hbound : j < s.clntCount - 1 := hj'
      omega
    · -- a slot in front of it
      rw [if_neg fun he => hlt.ne (huniq k (by omega) he)]
      exact ih (k + 1) hlt (by omega)

theorem Orderly.reacts_hangup (h : Orderly s) (hi : s.Online i) (hlast : (s.currClnt (s.clntCount - 1)).fd = i) :
    ∃ s' out, Reacts s (.hangup i) s' out := by
  obtain ⟨m, hm, hfd, hname, huniq⟩ := h.exists_slot hi
  -- the one that leaves has the last slot, so the slots in front of it stay as they are
  obtain rfl := huniq (s.clntCount - 1) (by omega) hlast
  have hm' : s.clntCount - 1 + 1 = s.clntCount := by omega
  have hout : s.hangup i = ((s.left i (s.clntCount - 1)).drop i,
      s.forwardMessage (sbcpMessage OFFLINE (s.joinedAs i) (ascii "N/A")) i s.clntCount) := by
    rw [Server.hangup, hangupLoop_last hm' hfd huniq s.clntCount 0 (Nat.zero_le _) (by omega), hname]
  have hdue : s.due (.hangup i) = some { about := i, type := OFFLINE, name := s.joinedAs i, text := none } := if_pos hi
  have hproper : Notice.Proper { about := i, type := OFFLINE, name := s.joinedAs i, text := none } :=
    Notice.proper_of_none (.inr (.inl rfl)) (h.joinedAs_proper hi) rfl
  have hold : ∀ {k}, k ≠ s.clntCount - 1 → (s.left i (s.clntCount - 1)).currClnt k = s.currClnt k := left_slot_ne
  refine ⟨(s.left i (s.clntCount - 1)).drop i,
    s.forwardMessage (sbcpMessage OFFLINE (s.joinedAs i) (ascii "N/A")) i s.clntCount,
    ⟨?_, ⟨?_, ?_, h.small, ?_, ?_⟩, ?_, ?_, ?_, ?_, ?_, ?_, rfl⟩⟩
  · rw [step_hangup hi, hout]
  · obtain ⟨s', hs', hinv⟩ := h.inv.step (e := .hangup i) fun _ => hlast
    rw [Server.next, step_hangup hi, hout] at hs'
    cases hs'
    exact hinv
  · exact (Nat.sub_le _ _).trans h.bound
  · intro k hk
    have hk' : k < s.clntCount - 1 := hk
    show 0 ∉ ((s.left i (s.clntCount - 1)).currClnt k).username ∧
      ((s.left i (s.clntCount - 1)).currClnt k).username.length < 16
    rw [hold hk'.ne]
    exact h.names k (by omega)
  · intro k hk d hd
    have hk' : s.clntCount - 1 ≤ k := hk
    have hd' : ((s.left i (s.clntCount - 1)).currClnt k).fd = d := hd
    by_cases hkm : k = s.clntCount - 1
    · -- the slot that was reset holds -1, which is no descriptor
      rw [hkm, left_slot_self] at hd'
      have hneg : (-1 : ℤ) = d := hd'
      omega
    · rw [hold hkm] at hd'
      obtain ⟨hopen, hsrv⟩ := h.spare k (by omega) d hd'
      have hdi : d ≠ i := fun hdi => hi.2.1 (hdi ▸ hsrv (hdi ▸ hi.1))
      exact ⟨Finset.mem_erase.2 ⟨hdi, Finset.mem_erase.2 ⟨hdi, hopen⟩⟩,
        fun hmem => hsrv (Finset.mem_of_mem_erase hmem)⟩
  · exact fun fd m hm => fits_forward hproper.fits hm
  · rw [hdue]
    intro n hn
    cases hn
    exact hproper
  · intro d hd
    rw [hdue]
    exact h.heardBy_notice hd { about := i, type := OFFLINE, name := s.joinedAs i, text := none }
  · exact fun d _ _ => rfl
  · exact fun d hd hd' => absurd ⟨Finset.mem_of_mem_erase hd.1, hd.2.1, hd.2.2⟩ hd'
  · intro j hj hon
    cases hj
    exact (Finset.mem_erase.1 hon.1).1 rfl

/-! #### Connections -/

/-- An event that writes to a descriptor that is no client's, and calls for no notice. -/
theorem Orderly.reacts_aside (h : Orderly s) (hmem : fd ∉ s.master) {e : Ev} {s' : Server} {ms : List Msg}
    (hdue : s.due e = none) (hstep : s.step e = some (s', ms.map (.write fd))) (ho : Orderly s')
    (hfits : ∀ m ∈ ms, m.Fits) (hmaster : s'.master = s.master) (hsrv : s'.srvrFd = s.srvrFd)
    (hjoin : s'.joinedAs = s.joinedAs) (hne : ∀ i, e ≠ .hangup i) (hlimit : s'.maxClnt = s.maxClnt) :
    Reacts s e s' (ms.map (.write fd)) := by
  refine ⟨hstep, ho, fun fd' m hm => ?_, ?_, fun d hd => ?_, fun d _ _ => by rw [hjoin], fun d hd hd' => ?_,
    (fun i hi => absurd hi (hne i)), hlimit⟩
  · obtain ⟨m', hm', heq⟩ := List.mem_map.1 hm
    cases heq
    exact hfits m hm'
  · rw [hdue]
    exact fun n hn => by cases hn
  · have hne : (fd : ℤ) ≠ d := fun he => hmem (by rw [Int.natCast_inj.1 he]; exact hd.1)
    rw [hdue]
    show heardBy d (ms.map (.write fd)) = []
    clear hstep hfits
    induction ms with
    | nil => rfl
    | cons m ms ih => rw [List.map_cons, heardBy_write_ne hne, ih]
  · have hdm := hd.1
    have hds := hd.2.1
    rw [hmaster] at hdm
    rw [hsrv] at hds
    exact absurd (h.online_iff.2 ⟨hdm, hds⟩) hd'

theorem Orderly.reacts_refused (h : Orderly s) (hfd : fd ∉ s.opened)
    (hno : s.maxClnt ≤ s.clntCount ∨ s.Taken (s.nameIn bytes)) :
    ∃ s' out, Reacts s (.connect fd bytes namelist) s' out := by
  have hmem := h.inv.notMem_master hfd
  have hsub : s.opened ⊆ insert fd s.opened := Finset.subset_insert _ _
  have hdue : s.due (.connect fd bytes namelist) = none := by
    rw [Server.due, if_neg]
    rintro ⟨-, hroom, ht⟩
    exact hno.elim (fun hfull => absurd hroom hfull.not_gt) ht
  by_cases hfull : s.maxClnt ≤ s.clntCount
  · have hstep : s.step (.connect fd bytes namelist) = some ({ s with opened := insert fd s.opened },
        [sbcpMessage NAK (ascii "Too many users in the chat room!") (ascii "N/A"), nullchar].map (.write fd)) :=
      (if_neg hfd).trans (if_pos hfull)
    refine ⟨_, _, h.reacts_aside hmem hdue hstep (h.congr rfl rfl rfl rfl rfl hsub rfl rfl) ?_ rfl rfl rfl
      (fun _ => Ev.noConfusion) rfl⟩
    simp only [List.forall_mem_cons]
    exact ⟨fits_sbcpMessage .nak (by decide) (by decide), fits_nullchar, by simp⟩
  · have ht := hno.resolve_left hfull
    have hstep : s.step (.connect fd bytes namelist) = some ({ s with
        opened := insert fd s.opened
        joinMsg := readInto s.joinMsg bytes
        master := (insert fd s.master).erase fd },
        [sbcpMessage NAK (ascii "Username already exist!") (ascii "N/A")].map (.write fd)) :=
      (if_neg hfd).trans (connect_taken_eq (Nat.lt_of_not_le hfull) ht)
    rw [Finset.erase_insert hmem] at hstep
    refine ⟨_, _, h.reacts_aside hmem hdue hstep (h.congr rfl rfl rfl rfl rfl hsub rfl rfl) ?_ rfl rfl rfl
      (fun _ => Ev.noConfusion) rfl⟩
    simp only [List.forall_mem_cons]
    exact ⟨fits_sbcpMessage .nak (by decide) (by decide), by simp⟩

theorem orderly_joined (h : Orderly s) (hfd : fd ∉ s.opened) (hroom : s.clntCount < s.maxClnt)
    (ht : ¬ s.Taken (s.nameIn bytes)) (hf : s.Fits fd bytes namelist) : Orderly (s.joined fd bytes) := by
  have hmem := h.inv.notMem_master hfd
  refine ⟨?_, hroom, h.small, fun k hk => ?_, fun k hk d hd => ?_⟩
  · obtain ⟨s', hs', hinv⟩ := h.inv.step (e := .connect fd bytes namelist) fun _ _ _ => hf
    rw [Server.next, Server.step, if_neg hfd, connect_joined hroom ht hf] at hs'
    cases hs'
    exact hinv
  · rcases Nat.lt_succ_iff_lt_or_eq.1 hk with hk | rfl
    · rw [joined_slot_ne hk.ne]
      exact h.names k hk
    · rw [joined_slot_self]
      exact ⟨zero_notMem_cstr _, hf.1⟩
  · have hk' : s.clntCount + 1 ≤ k := hk
    rw [joined_slot_ne (by omega)] at hd
    obtain ⟨hopen, hsrv⟩ := h.spare k (by omega) d hd
    refine ⟨Finset.mem_insert_of_mem hopen, fun hm => ?_⟩
    rcases Finset.mem_insert.1 hm with rfl | hm
    · exact absurd hopen hfd
    · exact hsrv hm

theorem Orderly.names_spec (h : Orderly s) (hpos : 0 < s.clntCount) : 0 ∉ s.names ∧ 10 ∈ s.names := by
  unfold Server.names
  constructor
  · intro h0
    obtain ⟨k, hk, hmem⟩ := List.mem_flatMap.1 h0
    rcases List.mem_append.1 hmem with hname | hsep
    · exact (h.names k (List.mem_range.1 hk)).1 hname
    · split at hsep
      · exact absurd hsep (by decide)
      · exact absurd hsep (by decide)
  · refine List.mem_flatMap.2 ⟨s.clntCount - 1, List.mem_range.2 (by omega), ?_⟩
    rw [if_neg (Nat.lt_irrefl _)]
    exact List.mem_append_right _ (by decide)

/-- The list of the names of few clients is short. -/
theorem Orderly.length_names_joined (h : Orderly s) (fd : ℕ) (hroom : s.clntCount < s.maxClnt)
    (hname : (s.nameIn bytes).length < 16) :
    (s.joined fd bytes).names.length ≤ 18 * s.maxClnt := by
  -- each name takes 15 characters at most, and what separates it from the next takes 2
  have hslot : ∀ i ∈ List.range (s.clntCount + 1), (((s.joined fd bytes).currClnt i).username ++
      if i < s.clntCount + 1 - 1 then ascii ", " else ascii "\n").length ≤ 18 := by
    intro i hi
    have huser : ((s.joined fd bytes).currClnt i).username.length < 16 := by
      rcases Nat.lt_succ_iff_lt_or_eq.1 (List.mem_range.1 hi) with hi | rfl
      · rw [joined_slot_ne hi.ne]
        exact (h.names i hi).2
      · rw [joined_slot_self]
        exact hname
    have hsep : (if i < s.clntCount + 1 - 1 then ascii ", " else ascii "\n").length ≤ 2 := by
      split <;> decide
    rw [List.length_append]
    omega
  have hsum : (s.joined fd bytes).names.length ≤ (s.clntCount + 1) * 18 := by
    unfold Server.names
    rw [List.length_flatMap]
    refine (List.sum_le_card_nsmul _ 18 fun n hn => ?_).trans_eq ?_
    · obtain ⟨i, hi, rfl⟩ := List.mem_map.1 hn
      exact hslot i hi
    · rw [List.length_map, List.length_range, Nat.nsmul_eq_mul]
      rfl
  omega

theorem ascii_toString_spec {n : ℕ} (hn : n < 2 ^ 32) :
    0 ∉ ascii (toString n) ∧ (ascii (toString n)).length < payloadSize := by
  have hlist : (toString n).toList = Nat.toDigits 10 n := Nat.toList_repr
  constructor
  · intro h0
    obtain ⟨c, hc, hc0⟩ := List.mem_map.1 h0
    rw [hlist] at hc
    have hdigit := Nat.isDigit_of_mem_toDigits (by decide) (by decide) hc
    -- a decimal digit is no NUL
    have hrange : 48 ≤ c.toNat ∧ c.toNat ≤ 57 := by
      rw [Char.isDigit, Bool.and_eq_true, decide_eq_true_eq, decide_eq_true_eq] at hdigit
      exact hdigit
    have hval := congrArg UInt8.toNat hc0
    rw [UInt8.toNat_ofNat] at hval
    simp at hval
    omega
  · rw [ascii, List.length_map, hlist]
    have hle := Nat.toDigits_length 10 n 10 (by decide) (hn.trans (by norm_num))
    have hsize : payloadSize = 512 := rfl
    omega

theorem Orderly.reacts_joined (h : Orderly s) (hfd : fd ∉ s.opened)
    (hroom : s.clntCount < s.maxClnt) (ht : ¬ s.Taken (s.nameIn bytes)) (hf : s.Fits fd bytes namelist) :
    Reacts s (.connect fd bytes namelist) (s.joined fd bytes) (s.joinedOut fd bytes namelist) := by
  have hmem := h.inv.notMem_master hfd
  have ho := orderly_joined h hfd hroom ht hf
  have hdue : s.due (.connect fd bytes namelist) =
      some { about := fd, type := ONLINE, name := s.nameIn bytes, text := none } := if_pos ⟨hfd, hroom, ht⟩
  have hproper : Notice.Proper { about := fd, type := ONLINE, name := s.nameIn bytes, text := none } :=
    Notice.proper_of_none (.inl rfl) ⟨zero_notMem_cstr _, hf.1⟩ rfl
  have hsmall := h.small
  obtain ⟨hcount, hcountlen⟩ := ascii_toString_spec (n := s.clntCount + 1) (by omega)
  obtain ⟨hnames, hlast⟩ := ho.names_spec (Nat.succ_pos _)
  -- no NUL in the list of names, and a newline at its end, so it is not the text of a notice
  have hlist : 0 ∉ cstr namelist ++ (s.joined fd bytes).names := by
    rw [List.mem_append, not_or]
    exact ⟨zero_notMem_cstr _, hnames⟩
  have hwelcome : Welcome (sbcpMessage ACK (ascii (toString (s.clntCount + 1)))
      (cstr namelist ++ (s.joined fd bytes).names)) := by
    refine ⟨_, _, rfl, hcount, hcountlen, hlist, hf.2, fun hna => ?_⟩
    have h10 := List.mem_append_right (cstr namelist) hlast
    rw [hna] at h10
    exact absurd h10 (by decide)
  refine ⟨(if_neg hfd).trans (connect_joined hroom ht hf), ho, fun d m hm => ?_, ?_, fun d hd => ?_, ?_, ?_,
    (fun i hi => by cases hi), rfl⟩
  · rcases List.mem_append.1 hm with hm | hm
    · rcases List.mem_cons.1 hm with hw | hw
      · rw [(Out.write.inj hw).2]
        exact fits_sbcpMessage .ack hcountlen hf.2
      · rw [(Out.write.inj (List.mem_singleton.1 hw)).2]
        exact fits_nullchar
    · exact fits_forward hproper.fits hm
  · rw [hdue]
    intro n hn
    cases hn
    exact hproper
  · have hne : d ≠ fd := fun he => hmem (he ▸ hd.1)
    have hd' : (s.joined fd bytes).Online d :=
      ho.online_iff.2 ⟨Finset.mem_insert_of_mem hd.1, hd.2.1⟩
    rw [hdue, heardBy_joinedOut hne]
    exact ho.heardBy_notice hd' { about := fd, type := ONLINE, name := s.nameIn bytes, text := none }
  · intro d _ hd
    exact joinedAs_ne fun he => hmem (he ▸ hd.1)
  · -- only the new client is online now and was not before
    intro d hd hd'
    obtain rfl : d = fd := by
      by_contra hne
      exact hd' (h.online_iff.2 ⟨(Finset.mem_insert.1 hd.1).resolve_left hne, hd.2.1⟩)
    refine ⟨bytes, namelist, _, _, rfl, hdue, rfl, joinedAs_self s d bytes, hwelcome, ?_⟩
    rw [Server.joinedOut, heardBy_append, heardBy_forward_self, List.append_nil, heardBy_write_self,
      heardBy_write_self, heardBy_nil]

/-- **Every allowed event of whole messages has the effect that the protocol asks for.** -/
theorem Orderly.reacts (h : Orderly s) {e : Ev} (he : Allowed s e) (hw : e.Whole)
    (hconn : ∀ fd bytes namelist, e = .connect fd bytes namelist → fd ∉ s.opened)
    (hon : ∀ i, (∃ bytes, e = .read i bytes) ∨ e = .hangup i ∨ e = .readError i → s.Online i) :
    ∃ s' out, Reacts s e s' out := by
  cases e with
  | acceptError =>
    exact ⟨s, [], rfl, h, (fun _ _ hm => by cases hm), (fun _ hn => by cases hn), fun _ _ => rfl, fun _ _ _ => rfl,
      (fun d hd hd' => absurd hd hd'), (fun i hi => by cases hi), rfl⟩
  | connect fd bytes namelist =>
    have hfd := hconn fd bytes namelist rfl
    by_cases hno : s.maxClnt ≤ s.clntCount ∨ s.Taken (s.nameIn bytes)
    · exact h.reacts_refused hfd hno
    · rw [not_or, Nat.not_le] at hno
      exact ⟨_, _, h.reacts_joined hfd hno.1 hno.2 (he hfd hno.1 hno.2)⟩
  | read i bytes =>
    have hi := hon i (.inl ⟨bytes, rfl⟩)
    have hne : bytes ≠ [] := List.ne_nil_of_length_pos (by rw [hw.1]; decide)
    by_cases hidle : msgType bytes = IDLE
    · exact h.reacts_idle hi hw.1 hidle
    · have htext := he hi hne (by rwa [msgType_readInto s.sendMsg hw.1])
      rw [payload_readInto hw.1 hw.2] at htext
      exact h.reacts_text hi hw.1 hw.2 hidle htext
  | hangup i =>
    have hi := hon i (.inr (.inl rfl))
    exact h.reacts_hangup hi (he hi)
  | readError i => exact absurd (hon i (.inr (.inr rfl))) he

end Events

end TamuProofs.Sbcp
