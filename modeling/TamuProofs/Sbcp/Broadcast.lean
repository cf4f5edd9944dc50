import TamuProofs.Sbcp.Registry

/-!
# Who gets a notice

`Broadcast` is what a message, a join, a hang-up or an IDLE message of a client should lead to: one notice to
every other client that is online, none to anyone else, and no test of a descriptor that is not one.

The loop of `forward_message` tests one slot more than there are clients.  The slots that hold a descriptor
are never more than `clnt_count` (`Sparse`, in every state that can be reached), so every call tests a slot
that was reset or never written (`exists_invalid_test`).

* `broadcast_iff_unregistered` — a notice is as it should be only where none is sent and none is due.
-/

namespace TamuProofs.Sbcp

open TamuProofs.Lib

/-! ### What is due -/

/-- A notice: the client it is about, its type, the client's name, and the text of a message. -/
structure Notice where
  about : ℕ
  type : UInt8
  name : Bytes
  text : Option Bytes

/-- The notice that an event calls for, if it calls for one. -/
def Server.due (s : Server) : Ev → Option Notice
  | .acceptError => none
  | .connect fd bytes _ =>
    if fd ∉ s.opened ∧ s.clntCount < s.maxClnt ∧ ¬ ∃ i < s.clntCount, (s.currClnt i).username = s.nameIn bytes then
      some { about := fd, type := ONLINE, name := s.nameIn bytes, text := none }
    else none
  | .read i bytes =>
    if s.Online i ∧ bytes.length = msgSize then
      if msgType bytes = IDLE then some { about := i, type := IDLE, name := s.joinedAs i, text := none }
      else some { about := i, type := FWD, name := s.joinedAs i, text := some (payload bytes) }
    else none
  | .hangup i =>
    if s.Online i then some { about := i, type := OFFLINE, name := s.joinedAs i, text := none } else none
  | .readError _ => none

/-- The message carries the notice. -/
def Notice.Matches (n : Notice) (m : Msg) : Prop :=
  m.type = n.type ∧ m.payload0 = n.name ∧ (n.text = none ∨ m.payload1 = n.text)

instance (n : Notice) (m : Msg) : Decidable (n.Matches m) := inferInstanceAs (Decidable (_ ∧ _))

/-- A write of the notice to `d`. -/
def Notice.sentTo (n : Notice) (d : ℕ) : Out → Bool
  | .test _ _ => false
  | .write fd m => decide (fd = d ∧ n.Matches m)

/-- `d` is online and not the client that the notice is about. -/
def Server.Other (s : Server) (n : Notice) (d : ℕ) : Prop := d ∈ s.master ∧ d ≠ s.srvrFd ∧ d ≠ n.about

/-- **What a broadcast should do.** -/
structure Broadcast (s : Server) (n : Notice) (out : List Out) : Prop where
  tests : ∀ fd init, .test fd init ∈ out → init = true ∧ 0 ≤ fd
  writes : ∀ fd m, .write fd m ∈ out → 0 ≤ fd
  delivered : ∀ d, s.Other n d → out.countP (n.sentTo d) = 1
  only : ∀ fd m, .write fd m ∈ out → n.Matches m → ∃ d : ℕ, s.Other n d ∧ fd = d

/-! ### The slots that hold a descriptor -/

/-- The slot was written and holds a descriptor. -/
def ClntInfo.Valid (c : ClntInfo) : Prop := c.init = true ∧ 0 ≤ c.fd

instance (c : ClntInfo) : Decidable c.Valid := inferInstanceAs (Decidable (_ ∧ _))

/-- The slots that hold a descriptor. -/
def Server.valid (s : Server) : Finset ℕ := (Finset.range (s.maxClnt + 1)).filter fun k => (s.currClnt k).Valid

/-- There are no more of them than `clnt_count`. -/
structure Sparse (s : Server) : Prop where
  bound : s.clntCount ≤ s.maxClnt
  init : ∀ k < s.clntCount, (s.currClnt k).init = true
  few : s.valid.card ≤ s.clntCount

section Sparse

variable {s : Server} {fd i : ℕ} {bytes namelist : Bytes}

theorem Sparse.congr {s' : Server} (h : Sparse s) (h1 : s'.maxClnt = s.maxClnt)
    (h2 : s'.clntCount = s.clntCount) (h3 : s'.currClnt = s.currClnt) : Sparse s' := by
  obtain ⟨r1, r2, r3⟩ := h
  unfold Server.valid at r3
  rw [← h1, ← h2] at r1
  rw [← h2, ← h3] at r2
  rw [← h1, ← h2, ← h3] at r3
  exact ⟨r1, r2, r3⟩

theorem sparse_start (mem : Mem) (maxClnt srvrFd : ℕ) : Sparse (Server.start mem maxClnt srvrFd) := by
  refine ⟨Nat.zero_le _, fun k hk => absurd hk (Nat.not_lt_zero k), ?_⟩
  rw [Server.valid, Finset.filter_false_of_mem]
  · exact Nat.zero_le _
  · intro k _ hk
    unfold Server.start ClntInfo.Valid at hk
    dsimp only at hk
    split at hk
    · exact absurd hk.2 (by decide)
    · exact Bool.noConfusion hk.1

theorem sparse_joined (h : Sparse s) (hfull : s.clntCount < s.maxClnt) : Sparse (s.joined fd bytes) := by
  refine ⟨hfull, fun k hk => ?_, ?_⟩
  · rcases (Nat.lt_succ_iff_lt_or_eq.1 hk) with hk | rfl
    · rw [joined_slot_ne hk.ne]
      exact h.init k hk
    · rw [joined_slot_self]
  · have hsub : (s.joined fd bytes).valid ⊆ insert s.clntCount s.valid := by
      intro k hk
      obtain ⟨hrange, hv⟩ := Finset.mem_filter.1 hk
      by_cases hkc : k = s.clntCount
      · exact hkc ▸ Finset.mem_insert_self _ _
      · rw [joined_slot_ne hkc] at hv
        exact Finset.mem_insert_of_mem (Finset.mem_filter.2 ⟨hrange, hv⟩)
    calc (s.joined fd bytes).valid.card ≤ (insert s.clntCount s.valid).card := Finset.card_le_card hsub
      _ ≤ s.valid.card + 1 := Finset.card_insert_le _ _
      _ ≤ s.clntCount + 1 := Nat.succ_le_succ h.few

theorem sparse_left (h : Sparse s) {k : ℕ} (hk : k < s.clntCount) (hfd : (s.currClnt k).fd = i) :
    Sparse (s.left i k) := by
  have hmem : k ∈ s.valid := by
    have := h.bound
    exact Finset.mem_filter.2 ⟨Finset.mem_range.2 (by omega), h.init k hk, by omega⟩
  refine ⟨(Nat.sub_le _ _).trans h.bound, fun j hj => ?_, ?_⟩
  · have hj' : j < s.clntCount - 1 := hj
    by_cases hjk : j = k
    · rw [hjk, left_slot_self]
      rfl
    · rw [left_slot_ne hjk]
      exact h.init j (by omega)
  · have hsub : (s.left i k).valid ⊆ s.valid.erase k := by
      intro j hj
      obtain ⟨hrange, hv⟩ := Finset.mem_filter.1 hj
      have hjk : j ≠ k := by
        rintro rfl
        rw [left_slot_self] at hv
        exact absurd hv.2 (by decide)
      rw [left_slot_ne hjk] at hv
      exact Finset.mem_erase.2 ⟨hjk, Finset.mem_filter.2 ⟨hrange, hv⟩⟩
    have hcard := Finset.card_le_card hsub
    rw [Finset.card_erase_of_mem hmem] at hcard
    exact hcard.trans (Nat.sub_le_sub_right h.few 1)

theorem sparse_hangupLoop (n k : ℕ) (h : Sparse s) : Sparse (Server.hangupLoop i n k s).1 := by
  induction n generalizing k s with
  | zero => exact h
  | succ n ih =>
    rw [Server.hangupLoop]
    split
    · rename_i hk
      split
      · rename_i hfd
        exact ih (k + 1) (sparse_left h hk hfd)
      · exact ih (k + 1) h
    · exact h

theorem Sparse.step (h : Sparse s) {e : Ev} {s' : Server} (hs' : s.next e = some s') : Sparse s' := by
  cases next_moves hs' with
  | same => exact h
  | full fd _ => exact h.congr rfl rfl rfl
  | taken fd bytes _ => exact h.congr rfl rfl rfl
  | joined fd bytes _ hfull _ => exact sparse_joined h hfull
  | read bytes name => exact h.congr rfl rfl rfl
  | hangup i _ => exact (sparse_hangupLoop s.clntCount 0 h).congr rfl rfl rfl
  | drop i _ => exact h.congr rfl rfl rfl

/-- **The slots that hold a descriptor are few in every state that can be reached.** -/
theorem sparse_of_run {mem : Mem} {maxClnt srvrFd : ℕ} {evs : List Ev}
    (hrun : evs.foldlM Server.next (Server.start mem maxClnt srvrFd) = some s) : Sparse s :=
  inv_of_run (I := Sparse) (fun _ _ _ h hs' => h.step hs') (sparse_start mem maxClnt srvrFd) hrun

/-! ### Tests of what is no descriptor -/

/-- The output shows a test of a slot that was never written or holds no descriptor. -/
def BadTest (out : List Out) : Prop := ∃ fd init, .test fd init ∈ out ∧ ¬ (init = true ∧ 0 ≤ fd)

theorem not_broadcast_of_badTest {n : Notice} {out : List Out} (h : BadTest out) : ¬ Broadcast s n out := by
  obtain ⟨fd, init, hmem, hbad⟩ := h
  exact fun hb => hbad (hb.tests fd init hmem)

theorem BadTest.mono {out out' : List Out} (h : BadTest out) (hsub : out ⊆ out') : BadTest out' := by
  obtain ⟨fd, init, hmem, hbad⟩ := h
  exact ⟨fd, init, hsub hmem, hbad⟩

/-- **Every call of `forward_message`** with the current count tests such a slot. -/
theorem exists_invalid_test (h : Sparse s) (fwd : Msg) (selfFd : ℤ) :
    BadTest (s.forwardMessage fwd selfFd s.clntCount) := by
  -- otherwise the slots up to `clnt_count` would all hold a descriptor, one too many
  obtain ⟨j, hj, hbad⟩ : ∃ j ≤ s.clntCount, ¬ (s.currClnt j).Valid := by
    by_contra hall
    push Not at hall
    have hsub : Finset.range (s.clntCount + 1) ⊆ s.valid := by
      intro k hk
      have hk' : k ≤ s.clntCount := Nat.lt_succ_iff.1 (Finset.mem_range.1 hk)
      have := h.bound
      exact Finset.mem_filter.2 ⟨Finset.mem_range.2 (by omega), hall k hk'⟩
    have hcard := Finset.card_le_card hsub
    rw [Finset.card_range] at hcard
    exact absurd (hcard.trans h.few) (Nat.not_succ_le_self _)
  refine ⟨(s.currClnt j).fd, (s.currClnt j).init, ?_, hbad⟩
  exact List.mem_flatMap.2 ⟨j, List.mem_range.2 (Nat.lt_succ_of_le hj), List.mem_cons_self⟩

theorem badTest_hangupLoop (h : Sparse s) {m : ℕ} (hm : m < s.clntCount) (hfd : (s.currClnt m).fd = i) (n k : ℕ)
    (hk : k ≤ m) (hn : m < k + n) : BadTest (Server.hangupLoop i n k s).2 := by
  induction n generalizing k with
  | zero => omega
  | succ n ih =>
    rw [Server.hangupLoop, if_pos (by omega : k < s.clntCount)]
    split
    · exact (exists_invalid_test h _ _).mono (List.subset_append_left _ _)
    · rename_i hne
      rcases hk.eq_or_lt with rfl | hlt
      · exact absurd hfd hne
      · exact ih (k + 1) hlt (by omega)

/-! ### The exact condition -/

/-- Nothing is sent and nothing is due: the notice is about a client that goes idle or offline, no slot in use
has its descriptor, and no other client is online. -/
structure Unregistered (s : Server) (n : Notice) : Prop where
  type : n.type = IDLE ∨ n.type = OFFLINE
  unregistered : ∀ k < s.clntCount, (s.currClnt k).fd ≠ n.about
  alone : ∀ d, ¬ s.Other n d

theorem broadcast_nil {n : Notice} : Broadcast s n [] ↔ ∀ d, ¬ s.Other n d := by
  constructor
  · intro h d hd
    exact absurd (h.delivered d hd) (by simp)
  · intro h
    exact ⟨by simp, by simp, fun d hd => absurd hd (h d), by simp⟩

theorem broadcast_iff_of_cases {n : Notice} {out : List Out} (htype : n.type = IDLE ∨ n.type = OFFLINE)
    (hbad : (∃ k < s.clntCount, (s.currClnt k).fd = n.about) → BadTest out)
    (hnil : (∀ k < s.clntCount, (s.currClnt k).fd ≠ n.about) → out = []) :
    Broadcast s n out ↔ Unregistered s n := by
  by_cases hreg : ∀ k < s.clntCount, (s.currClnt k).fd ≠ n.about
  · rw [hnil hreg, broadcast_nil]
    exact ⟨fun h => ⟨htype, hreg, h⟩, fun h => h.alone⟩
  · refine iff_of_false (not_broadcast_of_badTest (hbad ?_)) fun h => hreg h.unregistered
    push Not at hreg
    exact hreg

theorem hangup_broadcast_iff (h : Sparse s) (i : ℕ) {n : Notice} (hn : n.about = i) (htype : n.type = OFFLINE) :
    Broadcast s n (s.hangup i).2 ↔ Unregistered s n := by
  refine broadcast_iff_of_cases (Or.inr htype) ?_ fun hreg => ?_
  · rintro ⟨m, hm, hfd⟩
    exact badTest_hangupLoop h hm (hn ▸ hfd) s.clntCount 0 (Nat.zero_le _) (by omega)
  · rw [Server.hangup, hangupLoop_miss s.clntCount 0 fun j _ hj => hn ▸ hreg j hj]

theorem idle_broadcast_iff (h : Sparse s) {s' : Server} {out : List Out} {n : Notice}
    (hidle : msgType (readInto s.sendMsg bytes) = IDLE) (hread : s.read i bytes = some (s', out))
    (hn : n.about = i) (htype : n.type = IDLE) : Broadcast s n out ↔ Unregistered s n := by
  unfold Server.read at hread
  dsimp only at hread
  rw [if_pos hidle] at hread
  cases hread
  refine broadcast_iff_of_cases (Or.inl htype) ?_ fun hreg => ?_
  · rintro ⟨m, hm, hfd⟩
    have hs : Sparse { s with sendMsg := readInto s.sendMsg bytes } := h.congr rfl rfl rfl
    refine (exists_invalid_test hs (sbcpMessage IDLE (s.currClnt m).username (ascii "N/A")) i).mono fun o ho => ?_
    refine List.mem_flatMap.2 ⟨m, List.mem_range.2 hm, ?_⟩
    rwa [if_pos (hn ▸ hfd)]
  · apply List.flatMap_eq_nil_iff.2
    intro k hk
    rw [if_neg (hn ▸ hreg k (List.mem_range.1 hk))]

/-- A message that is not IDLE always goes through `forward_message`. -/
theorem badTest_message (h : Sparse s) {s' : Server} {out : List Out}
    (hidle : msgType (readInto s.sendMsg bytes) ≠ IDLE) (hread : s.read i bytes = some (s', out)) :
    BadTest out := by
  unfold Server.read at hread
  dsimp only at hread
  rw [if_neg hidle] at hread
  split at hread
  · cases hread
    exact exists_invalid_test (h.congr rfl rfl rfl) _ _
  · cases hread

theorem badTest_connect (h : Sparse s) {s' : Server} {out : List Out} (hfull : s.clntCount < s.maxClnt)
    (ht : ¬ s.Taken (s.nameIn bytes)) (hconn : s.connect fd bytes namelist = some (s', out)) : BadTest out := by
  by_cases hf : s.Fits fd bytes namelist
  · cases (connect_joined hfull ht hf).symm.trans hconn
    exact (exists_invalid_test (sparse_joined h hfull) _ _).mono (List.subset_append_right _ _)
  · cases (connect_overflow hfull ht hf).symm.trans hconn

theorem broadcast_iff_of_badTest {n : Notice} {out : List Out} (hbad : BadTest out)
    (htype : ¬ (n.type = IDLE ∨ n.type = OFFLINE)) : Broadcast s n out ↔ Unregistered s n :=
  iff_of_false (not_broadcast_of_badTest hbad) fun hu => htype hu.type

theorem msgType_readInto (msg : Bytes) (h : bytes.length = msgSize) :
    msgType (readInto msg bytes) = msgType bytes := by
  have h1 : 1 < bytes.length := by rw [h]; decide
  rw [msgType, readInto, List.take_of_length_le h.le, blit_zero, List.getD_eq_getElem?_getD,
    List.getElem?_append_left h1, ← List.getD_eq_getElem?_getD]
  rfl

theorem Sparse.broadcast_iff (h : Sparse s) {e : Ev} {s' : Server} {out : List Out} {n : Notice}
    (hstep : s.step e = some (s', out)) (hdue : s.due e = some n) : Broadcast s n out ↔ Unregistered s n := by
  cases e with
  | acceptError => cases hdue
  | readError i => cases hdue
  | connect fd bytes namelist =>
    rw [Server.due] at hdue
    split at hdue
    · rename_i hacc
      obtain ⟨hfd, hfull, ht⟩ := hacc
      cases hdue
      rw [Server.step, if_neg hfd] at hstep
      exact broadcast_iff_of_badTest (badTest_connect h hfull ht hstep)
        (show ¬ (ONLINE = IDLE ∨ ONLINE = OFFLINE) by decide)
    · cases hdue
  | hangup i =>
    rw [Server.due] at hdue
    by_cases hi : s.Online i
    · rw [if_pos hi] at hdue
      rw [step_hangup hi] at hstep
      cases hdue
      cases hstep
      exact hangup_broadcast_iff h i rfl rfl
    · rw [if_neg hi] at hdue
      cases hdue
  | read i bytes =>
    rw [Server.due] at hdue
    by_cases hi : s.Online i ∧ bytes.length = msgSize
    swap
    · rw [if_neg hi] at hdue
      cases hdue
    have hne : bytes ≠ [] := fun h0 => absurd (h0 ▸ hi.2) (by decide)
    have htype := msgType_readInto s.sendMsg hi.2
    rw [if_pos hi] at hdue
    rw [step_read hi.1 hne] at hstep
    by_cases hidle : msgType bytes = IDLE
    · -- IDLE is sent from the loop over the slots
      rw [if_pos hidle] at hdue
      cases hdue
      exact idle_broadcast_iff h (htype.trans hidle) hstep rfl rfl
    · -- FWD is sent behind it
      rw [if_neg hidle] at hdue
      cases hdue
      exact broadcast_iff_of_badTest (badTest_message h (htype ▸ hidle) hstep)
        (show ¬ (FWD = IDLE ∨ FWD = OFFLINE) by decide)

end Sparse

/-- **Broadcasts**: in every state that can be reached, and for every event that calls for a notice, the
server does what a broadcast should do if and only if it sends nothing and nothing is due. -/
theorem broadcast_iff_unregistered (mem : Mem) (maxClnt srvrFd : ℕ) (evs : List Ev) (s : Server)
    (hrun : evs.foldlM Server.next (Server.start mem maxClnt srvrFd) = some s) (e : Ev) (s' : Server)
    (out : List Out) (hstep : s.step e = some (s', out)) (n : Notice) (hdue : s.due e = some n) :
    Broadcast s n out ↔ Unregistered s n :=
  (sparse_of_run hrun).broadcast_iff hstep hdue

def Server.pair : Server :=
  ((Server.start Mem.clear 2 3).joined 4 (joinBytes "ann")).joined 5 (joinBytes "bob")

theorem run_pair :
    [Ev.connect 4 (joinBytes "ann") [], .connect 5 (joinBytes "bob") []].foldlM Server.next
      (Server.start Mem.clear 2 3) = some Server.pair := by
  rw [List.foldlM_cons, next_start_ann]
  show List.foldlM Server.next ((Server.start Mem.clear 2 3).joined 4 (joinBytes "ann")) _ = _
  rw [List.foldlM_cons, next_joined_bob]
  rfl

/-- When the first of two clients has left, the second one is alone and in no slot in use: its hang-up calls
for no notice and gets none. -/
theorem broadcast_second_leaves :
    Broadcast (Server.pair.hangup 4).1 { about := 5, type := OFFLINE, name := ascii "bob", text := none }
      ((Server.pair.hangup 4).1.hangup 5).2 := by
  have hrun : [Ev.connect 4 (joinBytes "ann") [], .connect 5 (joinBytes "bob") [], .hangup 4].foldlM Server.next
      (Server.start Mem.clear 2 3) = some (Server.pair.hangup 4).1 := by
    rw [show [Ev.connect 4 (joinBytes "ann") [], .connect 5 (joinBytes "bob") [], .hangup 4] =
      [Ev.connect 4 (joinBytes "ann") [], .connect 5 (joinBytes "bob") []] ++ [.hangup 4] from rfl,
      List.foldlM_append, run_pair]
    rfl
  refine (broadcast_iff_unregistered _ _ _ _ _ hrun (.hangup 5) _ _ rfl _ rfl).2 ⟨Or.inr rfl, ?_, ?_⟩
  · intro k hk
    obtain rfl : k = 0 := Nat.lt_one_iff.1 hk
    decide
  · rintro d ⟨hd, hne, hab⟩
    have hd' : d ∈ ({5, 3} : Finset ℕ) := hd
    rcases Finset.mem_insert.1 hd' with rfl | hd'
    · exact hab rfl
    · exact hne (Finset.mem_singleton.1 hd')

def sendBytes (text : String) : Bytes := blit (zeros msgSize) 0 ([3, 4, 0, 0, 4, 0, 0, 0] ++ ascii text)

/-- With two clients in the room, a message of the first one makes the server test the third slot. -/
theorem not_broadcast_message :
    ∃ s' out, Server.pair.step (.read 4 (sendBytes "hi")) = some (s', out) ∧
      Server.pair.due (.read 4 (sendBytes "hi")) =
        some { about := 4, type := FWD, name := ascii "ann", text := some (ascii "hi") } ∧
      ¬ Broadcast Server.pair { about := 4, type := FWD, name := ascii "ann", text := some (ascii "hi") } out := by
  have hlen : (sendBytes "hi").length = msgSize :=
    (length_blit (by rw [length_zeros]; decide)).trans (length_zeros _)
  have hdue : Server.pair.due (.read 4 (sendBytes "hi")) =
      some { about := 4, type := FWD, name := ascii "ann", text := some (ascii "hi") } := by
    rw [Server.due, if_pos ⟨by decide, hlen⟩, if_neg (by decide)]
    rfl
  obtain ⟨name, out, hread⟩ := read_eq Server.pair 4 (sendBytes "hi") fun _ => by decide
  have hne : sendBytes "hi" ≠ [] := List.ne_nil_of_length_pos (by rw [hlen]; decide)
  have hstep := (step_read (by decide) hne).trans hread
  refine ⟨_, out, hstep, hdue, fun hb => ?_⟩
  have htype : ¬ (FWD = IDLE ∨ FWD = OFFLINE) := by decide
  exact htype (((sparse_of_run run_pair).broadcast_iff hstep hdue).1 hb).type

end TamuProofs.Sbcp
