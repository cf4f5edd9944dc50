import TamuProofs.Lib.Run
import TamuProofs.Sbcp.Defs

/-!
# The registry of the chat server

`Registry` says that the slots in use and the client descriptors in `master` are in one-to-one
correspondence, each slot with the name its client joined with.  A join and a message keep it.  A hang-up
resets the slot of the client where it stands and moves the bound down by one, so it keeps the registry only
if the client is the one in the last slot; a read error does not free the slot at all.

* `registry_joined`, `registry_left` — the two steps that change the registry and keep it;
* `registry_iff_allowed` — a run keeps the registry in every state if and only if each of its steps is allowed.
-/

namespace TamuProofs.Sbcp

open TamuProofs.Lib

/-- **The registry invariant.** -/
structure Registry (s : Server) : Prop where
  slot : ∀ d ∈ s.master, d ≠ s.srvrFd → ∃! k, k < s.clntCount ∧ (s.currClnt k).fd = d
  name : ∀ d ∈ s.master, d ≠ s.srvrFd → ∀ k < s.clntCount, (s.currClnt k).fd = d →
    (s.currClnt k).username = s.joinedAs d
  client : ∀ k < s.clntCount, ∃ d ∈ s.master, d ≠ s.srvrFd ∧ (s.currClnt k).fd = d
  count : s.clntCount = (s.master.erase s.srvrFd).card
  distinct : ∀ d ∈ s.master, ∀ d' ∈ s.master, d ≠ s.srvrFd → d' ≠ s.srvrFd →
    s.joinedAs d = s.joinedAs d' → d = d'

/-- The registry, and what is known of the descriptors. -/
structure Inv (s : Server) : Prop where
  registry : Registry s
  listening : s.srvrFd ∈ s.master
  opened : s.master ⊆ s.opened
  reach : ∀ d ∈ s.master, d ≤ s.fdmax

/-- The steps that keep the registry: what is copied fits, the client that hangs up is the one in the last
slot, and no read fails. -/
def Allowed (s : Server) : Ev → Prop
  | .acceptError => True
  | .connect fd bytes namelist =>
    fd ∉ s.opened → s.clntCount < s.maxClnt → ¬ s.Taken (s.nameIn bytes) → s.Fits fd bytes namelist
  | .read i bytes =>
    s.Online i → bytes ≠ [] → msgType (readInto s.sendMsg bytes) ≠ IDLE →
      (payload (readInto s.sendMsg bytes)).length < 512
  | .hangup i => s.Online i → (s.currClnt (s.clntCount - 1)).fd = i
  | .readError i => ¬ s.Online i

section Steps

variable {s : Server} {fd i : ℕ} {bytes namelist : Bytes}

theorem inv_start (mem : Mem) (maxClnt srvrFd : ℕ) : Inv (Server.start mem maxClnt srvrFd) := by
  have hm : ∀ d ∈ (Server.start mem maxClnt srvrFd).master, d = srvrFd := fun d hd => Finset.mem_singleton.1 hd
  refine ⟨⟨?_, ?_, ?_, ?_, ?_⟩, Finset.mem_singleton_self _, ?_, ?_⟩
  · intro d hd hne
    exact absurd (hm d hd) hne
  · intro d hd hne
    exact absurd (hm d hd) hne
  · intro k hk
    exact absurd hk (Nat.not_lt_zero k)
  · show 0 = (({srvrFd} : Finset ℕ).erase srvrFd).card
    rw [Finset.erase_singleton, Finset.card_empty]
  · intro d hd d' _ hne
    exact absurd (hm d hd) hne
  · intro d hd
    rw [hm d hd]
    exact Finset.mem_insert_self _ _
  · intro d hd
    exact (hm d hd).le

/-! ### Joins -/

theorem Registry.slot_eq (h : Registry s) {j k : ℕ} (hj : j < s.clntCount) (hk : k < s.clntCount)
    (hjk : (s.currClnt j).fd = (s.currClnt k).fd) : j = k := by
  obtain ⟨d, hd, hne, hfd⟩ := h.client j hj
  obtain ⟨m, -, huniq⟩ := h.slot d hd hne
  rw [huniq j ⟨hj, hfd⟩, huniq k ⟨hk, hjk ▸ hfd⟩]

theorem Registry.taken_of_joinedAs (h : Registry s) {d : ℕ} (hd : d ∈ s.master) (hne : d ≠ s.srvrFd) :
    s.Taken (s.joinedAs d) := by
  obtain ⟨k, ⟨hk, hfd⟩, -⟩ := h.slot d hd hne
  exact ⟨k, hk, h.name d hd hne k hk hfd⟩

theorem Inv.notMem_master (h : Inv s) (hfd : fd ∉ s.opened) : fd ∉ s.master := fun hm => hfd (h.opened hm)

theorem Inv.slot_ne (h : Inv s) (hfd : fd ∉ s.opened) {k : ℕ} (hk : k < s.clntCount) : (s.currClnt k).fd ≠ fd := by
  intro he
  obtain ⟨d, hd, -, hd'⟩ := h.registry.client k hk
  rw [he, Int.natCast_inj] at hd'
  exact h.notMem_master hfd (hd' ▸ hd)

theorem joined_distinct (h : Inv s) (hfd : fd ∉ s.opened) (ht : ¬ s.Taken (s.nameIn bytes)) :
    ∀ d ∈ insert fd s.master, ∀ d' ∈ insert fd s.master, d ≠ s.srvrFd → d' ≠ s.srvrFd →
      (s.joined fd bytes).joinedAs d = (s.joined fd bytes).joinedAs d' → d = d' := by
  have hmem := h.notMem_master hfd
  have hjoin : ∀ {d}, d ∈ s.master → (s.joined fd bytes).joinedAs d = s.joinedAs d := fun hd =>
    joinedAs_ne (ne_of_mem_of_not_mem hd hmem)
  have hjoinfd := joinedAs_self s fd bytes
  have hfresh : ∀ {d}, d ∈ s.master → d ≠ s.srvrFd → s.joinedAs d ≠ s.nameIn bytes := fun hd hne he =>
    ht (he ▸ h.registry.taken_of_joinedAs hd hne)
  intro d hd d' hd' hne hne' heq
  rcases Finset.mem_insert.1 hd with he | hm <;> rcases Finset.mem_insert.1 hd' with he' | hm'
  · rw [he, he']
  · rw [he, hjoinfd, hjoin hm'] at heq
    exact absurd heq.symm (hfresh hm' hne')
  · rw [he', hjoinfd, hjoin hm] at heq
    exact absurd heq (hfresh hm hne)
  · rw [hjoin hm, hjoin hm'] at heq
    exact h.registry.distinct d hm d' hm' hne hne' heq

/-- **A client taken in** gets the next slot. -/
theorem registry_joined (h : Inv s) (hfd : fd ∉ s.opened) (ht : ¬ s.Taken (s.nameIn bytes)) :
    Registry (s.joined fd bytes) := by
  have hmem := h.notMem_master hfd
  have hsrv : fd ≠ s.srvrFd := fun he => hmem (he ▸ h.listening)
  -- the slots in use before the join are as they were
  have hold : ∀ {k}, k < s.clntCount → (s.joined fd bytes).currClnt k = s.currClnt k := fun hk =>
    joined_slot_ne hk.ne
  have hnew := joined_slot_self s fd bytes
  have hcases : ∀ {k}, k < s.clntCount + 1 → k < s.clntCount ∨ k = s.clntCount := by omega
  refine ⟨?_, ?_, ?_, ?_, joined_distinct h hfd ht⟩
  · intro d hd hne
    rcases Finset.mem_insert.1 hd with rfl | hd
    · -- the new client has the new slot
      refine ⟨s.clntCount, ⟨Nat.lt_succ_self _, by rw [hnew]⟩, ?_⟩
      rintro k ⟨hk, hkd⟩
      rcases hcases hk with hk | rfl
      · rw [hold hk] at hkd
        exact absurd hkd (h.slot_ne hfd hk)
      · rfl
    · -- the others keep theirs
      obtain ⟨k, ⟨hk, hkd⟩, huniq⟩ := h.registry.slot d hd hne
      refine ⟨k, ⟨Nat.lt_succ_of_lt hk, by rw [hold hk, hkd]⟩, ?_⟩
      rintro j ⟨hj, hjd⟩
      rcases hcases hj with hj | rfl
      · exact huniq j ⟨hj, by rwa [hold hj] at hjd⟩
      · rw [hnew, Int.natCast_inj] at hjd
        exact absurd (hjd ▸ hd) hmem
  · intro d hd hne k hk hkd
    rcases hcases hk with hk' | rfl
    · rw [hold hk'] at hkd ⊢
      rcases Finset.mem_insert.1 hd with rfl | hd'
      · exact absurd hkd (h.slot_ne hfd hk')
      · rw [joinedAs_ne (ne_of_mem_of_not_mem hd' hmem)]
        exact h.registry.name d hd' hne k hk' hkd
    · rw [hnew] at hkd ⊢
      rw [← Int.natCast_inj.1 hkd, joinedAs_self]
  · intro k hk
    rcases hcases hk with hk | rfl
    · obtain ⟨d, hd, hne, hkd⟩ := h.registry.client k hk
      exact ⟨d, Finset.mem_insert_of_mem hd, hne, by rw [hold hk, hkd]⟩
    · exact ⟨fd, Finset.mem_insert_self _ _, hsrv, by rw [hnew]⟩
  · show s.clntCount + 1 = ((insert fd s.master).erase s.srvrFd).card
    rw [Finset.erase_insert_of_ne hsrv, Finset.card_insert_of_notMem (fun hm => hmem (Finset.mem_of_mem_erase hm)),
      ← h.registry.count]

/-! ### Hang-ups -/

theorem hangupLoop_miss (n k : ℕ) (h : ∀ j, k ≤ j → j < s.clntCount → (s.currClnt j).fd ≠ i) :
    Server.hangupLoop i n k s = (s, []) := by
  induction n generalizing k with
  | zero => rfl
  | succ n ih =>
    rw [Server.hangupLoop]
    split
    · rename_i hk
      rw [if_neg (h k le_rfl hk)]
      exact ih (k + 1) fun j hj => h j (by omega)
    · rfl

theorem hangupLoop_hit {m : ℕ} (hm : m < s.clntCount) (hfd : (s.currClnt m).fd = i) (n k : ℕ) (hk : k ≤ m)
    (hn : m < k + n) (huniq : ∀ j < s.clntCount, (s.currClnt j).fd = i → j = m) :
    ∃ out, Server.hangupLoop i n k s = (s.left i m, out) := by
  induction n generalizing k with
  | zero => omega
  | succ n ih =>
    rw [Server.hangupLoop, if_pos (by omega : k < s.clntCount)]
    rcases hk.eq_or_lt with rfl | hlt
    · rw [if_pos hfd]
      have hmiss : Server.hangupLoop i n (k + 1) (s.left i k) = (s.left i k, []) := by
        refine hangupLoop_miss n (k + 1) fun j hj hj' he => ?_
        have hne : j ≠ k := by omega
        have hj'' : j < s.clntCount - 1 := hj'
        rw [left_slot_ne hne] at he
        exact hne (huniq j (by omega) he)
      dsimp only
      rw [hmiss]
      exact ⟨_, rfl⟩
    · rw [if_neg fun he => hlt.ne (huniq k (by omega) he)]
      exact ih (k + 1) hlt (by omega)

theorem hangup_eq (h : Registry s) (hi : s.Online i) :
    ∃ m < s.clntCount, (s.currClnt m).fd = i ∧ ∃ out, s.hangup i = ((s.left i m).drop i, out) := by
  obtain ⟨m, ⟨hm, hfd⟩, huniq⟩ := h.slot i hi.1 hi.2.1
  obtain ⟨out, hout⟩ := hangupLoop_hit hm hfd s.clntCount 0 (Nat.zero_le _) (by omega)
    fun j hj hj' => huniq j ⟨hj, hj'⟩
  refine ⟨m, hm, hfd, out, ?_⟩
  rw [Server.hangup, hout]

/-- **A client that leaves the last slot** leaves the registry as it should be. -/
theorem registry_left (h : Inv s) (hi : s.Online i) {m : ℕ} (hm : m + 1 = s.clntCount)
    (hfd : (s.currClnt m).fd = i) : Registry ((s.left i m).drop i) := by
  have hold : ∀ {k}, k < s.clntCount - 1 → ((s.left i m).drop i).currClnt k = s.currClnt k := fun hk =>
    left_slot_ne (i := i) (by omega)
  have hmem : ∀ {d}, d ∈ ((s.left i m).drop i).master ↔ d ≠ i ∧ d ∈ s.master := Finset.mem_erase
  have hbound : ((s.left i m).drop i).clntCount = s.clntCount - 1 := rfl
  refine ⟨?_, ?_, ?_, ?_, ?_⟩
  · -- the slots in front of the last one hold the clients that stay
    intro d hd hne
    obtain ⟨hdi, hd⟩ := hmem.1 hd
    obtain ⟨k, ⟨hk, hkd⟩, huniq⟩ := h.registry.slot d hd hne
    have hkm : k ≠ m := by
      rintro rfl
      rw [hfd, Int.natCast_inj] at hkd
      exact hdi hkd.symm
    refine ⟨k, ⟨by omega, by rw [hold (by omega), hkd]⟩, ?_⟩
    rintro j ⟨hj, hjd⟩
    rw [hbound] at hj
    rw [hold hj] at hjd
    exact huniq j ⟨by omega, hjd⟩
  · intro d hd hne k hk hkd
    rw [hbound] at hk
    rw [hold hk] at hkd ⊢
    exact h.registry.name d (hmem.1 hd).2 hne k (by omega) hkd
  · intro k hk
    rw [hbound] at hk
    obtain ⟨d, hd, hne, hkd⟩ := h.registry.client k (by omega)
    refine ⟨d, hmem.2 ⟨?_, hd⟩, hne, by rw [hold hk, hkd]⟩
    rintro rfl
    -- two slots would hold the same descriptor
    have := h.registry.slot_eq (by omega : k < s.clntCount) (by omega : m < s.clntCount) (hkd.trans hfd.symm)
    omega
  · show s.clntCount - 1 = ((s.master.erase i).erase s.srvrFd).card
    rw [Finset.erase_right_comm, Finset.card_erase_of_mem (Finset.mem_erase.2 ⟨hi.2.1, hi.1⟩), ← h.registry.count]
  · intro d hd d' hd' hne hne' heq
    exact h.registry.distinct d (hmem.1 hd).2 d' (hmem.1 hd').2 hne hne' heq

/-- A slot in the middle that was reset is in use and has no client. -/
theorem not_registry_left {m : ℕ} (hm : m + 1 < s.clntCount) : ¬ Registry ((s.left i m).drop i) := by
  intro h
  obtain ⟨d, -, -, hd⟩ := h.client m (show m < s.clntCount - 1 by omega)
  rw [show ((s.left i m).drop i).currClnt m = ClntInfo.reset from left_slot_self s i m] at hd
  have : (-1 : ℤ) = d := hd
  omega

/-- After a read error the slot of the client is still in use. -/
theorem not_registry_drop (h : Registry s) (hi : s.Online i) : ¬ Registry (s.drop i) := by
  intro h'
  obtain ⟨m, ⟨hm, hfd⟩, -⟩ := h.slot i hi.1 hi.2.1
  obtain ⟨d, hd, -, hd'⟩ := h'.client m hm
  rw [show (s.drop i).currClnt m = s.currClnt m from rfl, hfd, Int.natCast_inj] at hd'
  exact (Finset.mem_erase.1 hd).1 hd'.symm

/-! ### Steps and runs -/

theorem Registry.congr {s' : Server} (h : Registry s) (h1 : s'.master = s.master) (h2 : s'.srvrFd = s.srvrFd)
    (h3 : s'.clntCount = s.clntCount) (h4 : s'.currClnt = s.currClnt) (h5 : s'.joinedAs = s.joinedAs) :
    Registry s' := by
  obtain ⟨r1, r2, r3, r4, r5⟩ := h
  rw [← h1, ← h2, ← h3, ← h4] at r1 r3
  rw [← h1, ← h2, ← h3, ← h4, ← h5] at r2
  rw [← h1, ← h2, ← h3] at r4
  rw [← h1, ← h2, ← h5] at r5
  exact ⟨r1, r2, r3, r4, r5⟩

theorem inv_connect (h : Inv s) (hfd : fd ∉ s.opened)
    (hfits : s.clntCount < s.maxClnt → ¬ s.Taken (s.nameIn bytes) → s.Fits fd bytes namelist) :
    ∃ s' out, s.connect fd bytes namelist = some (s', out) ∧ Inv s' := by
  have hmem := h.notMem_master hfd
  have hsub : s.master ⊆ insert fd s.opened := h.opened.trans (Finset.subset_insert _ _)
  by_cases hfull : s.maxClnt ≤ s.clntCount
  · obtain ⟨out, hout⟩ := connect_full hfull
    exact ⟨_, out, hout, h.registry.congr rfl rfl rfl rfl rfl, h.listening, hsub, h.reach⟩
  rw [Nat.not_le] at hfull
  by_cases ht : s.Taken (s.nameIn bytes)
  · obtain ⟨out, hout⟩ := connect_taken hfull ht
    rw [Finset.erase_insert hmem] at hout
    exact ⟨_, out, hout, h.registry.congr rfl rfl rfl rfl rfl, h.listening, hsub, h.reach⟩
  · refine ⟨_, _, connect_joined hfull ht (hfits hfull ht), registry_joined h hfd ht, ?_, ?_, ?_⟩
    · exact Finset.mem_insert_of_mem h.listening
    · exact Finset.insert_subset_insert _ h.opened
    · show ∀ d ∈ insert fd s.master, d ≤ if s.fdmax < fd then fd else s.fdmax
      intro d hd
      rcases Finset.mem_insert.1 hd with rfl | hd
      · split <;> omega
      · have := h.reach d hd
        split <;> omega

theorem read_eq (s : Server) (i : ℕ) (bytes : Bytes)
    (h : msgType (readInto s.sendMsg bytes) ≠ IDLE → (payload (readInto s.sendMsg bytes)).length < 512) :
    ∃ name out, s.read i bytes = some ({ s with sendMsg := readInto s.sendMsg bytes, fwdName := name }, out) := by
  unfold Server.read
  dsimp only
  by_cases hidle : msgType (readInto s.sendMsg bytes) = IDLE
  · rw [if_pos hidle]
    exact ⟨s.fwdName, _, rfl⟩
  · rw [if_neg hidle, if_pos (h hidle)]
    exact ⟨_, _, rfl⟩

theorem Inv.step (h : Inv s) {e : Ev} (he : Allowed s e) : ∃ s', s.next e = some s' ∧ Inv s' := by
  cases e with
  | acceptError => exact ⟨s, rfl, h⟩
  | connect fd bytes namelist =>
    by_cases hfd : fd ∈ s.opened
    · exact ⟨s, by simp [Server.next, Server.step, hfd], h⟩
    · obtain ⟨s', out, hs', hinv⟩ := inv_connect h hfd (he hfd)
      exact ⟨s', by simp [Server.next, Server.step, hfd, hs'], hinv⟩
  | read i bytes =>
    by_cases hi : s.Online i ∧ bytes ≠ []
    · obtain ⟨name, out, hout⟩ := read_eq s i bytes (he hi.1 hi.2)
      refine ⟨_, by rw [Server.next, step_read hi.1 hi.2, hout]; rfl, ?_⟩
      exact ⟨h.registry.congr rfl rfl rfl rfl rfl, h.listening, h.opened, h.reach⟩
    · exact ⟨s, by rw [Server.next, Server.step, if_neg hi]; rfl, h⟩
  | hangup i =>
    by_cases hi : s.Online i
    · obtain ⟨m, hm, hfd, out, hout⟩ := hangup_eq h.registry hi
      have hlast : m = s.clntCount - 1 := h.registry.slot_eq hm (by omega) (hfd.trans (he hi).symm)
      refine ⟨_, by rw [Server.next, step_hangup hi, hout]; rfl, ?_⟩
      refine ⟨registry_left h hi (by omega) hfd, Finset.mem_erase.2 ⟨hi.2.1.symm, h.listening⟩, ?_, ?_⟩
      · intro d hd
        obtain ⟨hne, hd⟩ := Finset.mem_erase.1 hd
        exact Finset.mem_erase.2 ⟨hne, Finset.mem_erase.2 ⟨hne, h.opened hd⟩⟩
      · exact fun d hd => h.reach d (Finset.mem_of_mem_erase hd)
    · exact ⟨s, by rw [Server.next, Server.step, if_neg hi]; rfl, h⟩
  | readError i => exact ⟨s, by rw [Server.next, Server.step, if_neg he]; rfl, h⟩

theorem Inv.allowed (h : Inv s) {e : Ev} {s' : Server} (hs' : s.next e = some s') (hr : Registry s') :
    Allowed s e := by
  cases e with
  | acceptError => trivial
  | connect fd bytes namelist =>
    intro hfd hfull ht
    by_contra hf
    rw [Server.next, Server.step, if_neg hfd, connect_overflow hfull ht hf] at hs'
    cases hs'
  | read i bytes =>
    intro hi hb hidle
    by_contra htext
    rw [Server.next, step_read hi hb] at hs'
    unfold Server.read at hs'
    dsimp only at hs'
    rw [if_neg hidle, if_neg htext] at hs'
    cases hs'
  | hangup i =>
    intro hi
    obtain ⟨m, hm, hfd, out, hout⟩ := hangup_eq h.registry hi
    rw [Server.next, step_hangup hi, hout] at hs'
    cases hs'
    by_cases hlast : m + 1 < s.clntCount
    · -- a slot in front of the last one is reset, and the last one is lost
      exact absurd hr (not_registry_left hlast)
    · -- the last slot
      rw [show s.clntCount - 1 = m by omega, hfd]
  | readError i =>
    intro hi
    rw [Server.next, Server.step, if_pos hi] at hs'
    cases hs'
    exact not_registry_drop h.registry hi hr

theorem Inv.allStates_iff (h : Inv s) (evs : List Ev) :
    AllStates Server.next Registry s evs ↔ AllSteps Server.next Allowed s evs :=
  allStates_iff_allSteps (I := Inv) (fun _ h => h.registry) (fun _ _ h he => h.step he)
    (fun _ _ _ h hs' hr => h.allowed hs' hr) h

end Steps

/-- Cleared memory, with the standard descriptors open. -/
def Mem.clear : Mem :=
  { slot := fun _ => ([], 0), joinMsg := zeros msgSize, sendMsg := zeros msgSize, fwdName := []
    stray := fun _ => false, opened := {0, 1, 2} }

/-- The JOIN message of a client: version 3, type 2, and the name. -/
def joinBytes (name : String) : Bytes := [3, 2, 0, 0, 2, 0, 0, 0] ++ ascii name ++ [0]

theorem next_start_ann :
    (Server.start Mem.clear 2 3).next (.connect 4 (joinBytes "ann") []) =
      some ((Server.start Mem.clear 2 3).joined 4 (joinBytes "ann")) := by
  rw [Server.next, Server.step, if_neg (by decide), connect_joined (by decide) (by unfold Server.Taken; decide)
    (by unfold Server.Fits; decide)]
  rfl

theorem next_joined_bob :
    ((Server.start Mem.clear 2 3).joined 4 (joinBytes "ann")).next (.connect 5 (joinBytes "bob") []) =
      some (((Server.start Mem.clear 2 3).joined 4 (joinBytes "ann")).joined 5 (joinBytes "bob")) := by
  rw [Server.next, Server.step, if_neg (by decide), connect_joined (by decide) (by unfold Server.Taken; decide)
    (by unfold Server.Fits; decide)]
  rfl

end TamuProofs.Sbcp
