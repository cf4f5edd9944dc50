import TamuProofs.Sbcp.Broadcast
import TamuProofs.Sbcp.Refused

/-!
# The capacity of the room

`curr_clnt` has `max_clnt + 2` slots, and no loop of the server checks that it stays below that.
`Server.indices` lists the slots that the code looks at on an event, loop by loop: the lookups run up to
`clnt_count`, the lookup on a hang-up up to a count that falls under it, and `forward_message` one further.

* `step_eq_of_indices` — the slots in the list are all that a step reads;
* `next_slot_of_notMem` — they are all that it writes;
* **`capacity_of_run`** — in every state that can be reached the count is within bounds, the slots are within
  the array, `select` waits for every client and the scan up to `fdmax` meets every client.
-/

namespace TamuProofs.Sbcp

open TamuProofs.Lib

/-! ### The slots that the code looks at -/

/-- The slots that are reset at the start of `Server::sbcp`. -/
def resetIndices : List ℕ := List.range 3

/-- The loop of `forward_message`. -/
def forwardIndices (numOfClnt : ℕ) : List ℕ := List.range (numOfClnt + 1)

/-- The loop of `is_clnt_exist` from slot `k` on, with `n` turns at most.  It returns at the first slot that
has the name. -/
def Server.existIndices (s : Server) (name : Bytes) : ℕ → ℕ → List ℕ
  | 0, _ => []
  | n + 1, k => k :: if (s.currClnt k).username = name then [] else s.existIndices name n (k + 1)

/-- A connection: the lookup of the name; if it is new, the slot that is filled, the list of names, the slot of
the new client once more, and the notice to the others. -/
def Server.connectIndices (s : Server) (bytes : Bytes) : List ℕ :=
  if s.maxClnt ≤ s.clntCount then []
  else s.existIndices (s.nameIn bytes) s.clntCount 0 ++
    if ∃ i < s.clntCount, (s.currClnt i).username = s.nameIn bytes then []
    else [s.clntCount] ++ List.range (s.clntCount + 1) ++ [s.clntCount + 1 - 1] ++ forwardIndices (s.clntCount + 1)

/-- The loop on a hang-up of `i`, with the bound that moves. -/
def Server.hangupIndices (i : ℕ) : ℕ → ℕ → Server → List ℕ
  | 0, _, _ => []
  | n + 1, k, s =>
    if k < s.clntCount then
      if (s.currClnt k).fd = i then
        k :: forwardIndices s.clntCount ++ Server.hangupIndices i n (k + 1) (s.left i k)
      else k :: Server.hangupIndices i n (k + 1) s
    else []

def Server.readIndices (s : Server) (i : ℕ) (bytes : Bytes) : List ℕ :=
  if msgType (readInto s.sendMsg bytes) = IDLE then
    (List.range s.clntCount).flatMap fun k =>
      k :: if (s.currClnt k).fd = i then forwardIndices s.clntCount else []
  else List.range s.clntCount ++ forwardIndices s.clntCount

/-- The slots of `curr_clnt` that the code looks at on an event. -/
def Server.indices (s : Server) : Ev → List ℕ
  | .acceptError => []
  | .connect fd bytes _ => if fd ∈ s.opened then [] else s.connectIndices bytes
  | .read i bytes => if s.Online i ∧ bytes ≠ [] then s.readIndices i bytes else []
  | .hangup i => if s.Online i then Server.hangupIndices i s.clntCount 0 s else []
  | .readError _ => []

section Bounds

variable {s : Server} {i j : ℕ} {bytes : Bytes}

theorem lt_of_mem_existIndices {name : Bytes} {n k : ℕ} (h : j ∈ s.existIndices name n k) : j < k + n := by
  induction n generalizing k with
  | zero => cases h
  | succ n ih =>
    rw [Server.existIndices] at h
    rcases List.mem_cons.1 h with rfl | h
    · omega
    · split at h
      · cases h
      · have := ih h
        omega

theorem lt_of_mem_forwardIndices {n : ℕ} (h : j ∈ forwardIndices n) : j < n + 1 := List.mem_range.1 h

theorem le_of_mem_connectIndices (h : j ∈ s.connectIndices bytes) : j ≤ s.maxClnt := by
  unfold Server.connectIndices at h
  split at h
  · cases h
  rename_i hfull
  rcases List.mem_append.1 h with h | h
  · have := lt_of_mem_existIndices h
    omega
  · split at h
    · cases h
    · simp only [forwardIndices, List.mem_append, List.mem_singleton, List.mem_range] at h
      omega

/-- The count falls as the loop goes on, so the bound at its start is the largest. -/
theorem le_of_mem_hangupIndices {n k : ℕ} (h : j ∈ Server.hangupIndices i n k s) : j ≤ s.clntCount := by
  induction n generalizing k s with
  | zero => cases h
  | succ n ih =>
    rw [Server.hangupIndices] at h
    split at h
    · split at h
      · rcases List.mem_append.1 h with h | h
        · rcases List.mem_cons.1 h with rfl | h
          · omega
          · have := lt_of_mem_forwardIndices h
            omega
        · exact (ih h).trans (Nat.sub_le _ _)
      · rcases List.mem_cons.1 h with rfl | h
        · omega
        · exact ih h
    · cases h

theorem le_of_mem_readIndices (h : j ∈ s.readIndices i bytes) : j ≤ s.clntCount := by
  unfold Server.readIndices at h
  split at h
  · obtain ⟨k, hk, h⟩ := List.mem_flatMap.1 h
    rw [List.mem_range] at hk
    rcases List.mem_cons.1 h with rfl | h
    · omega
    · split at h
      · have := lt_of_mem_forwardIndices h
        omega
      · cases h
  · rcases List.mem_append.1 h with h | h
    · exact (List.mem_range.1 h).le
    · have := lt_of_mem_forwardIndices h
      omega

theorem le_of_mem_indices (hcount : s.clntCount ≤ s.maxClnt) {e : Ev} (h : j ∈ s.indices e) :
    j ≤ s.maxClnt := by
  unfold Server.indices at h
  cases e with
  | acceptError => cases h
  | connect fd bytes namelist =>
    dsimp only at h
    split at h
    · cases h
    · exact le_of_mem_connectIndices h
  | read i bytes =>
    dsimp only at h
    split at h
    · exact (le_of_mem_readIndices h).trans hcount
    · cases h
  | hangup i =>
    dsimp only at h
    split at h
    · exact (le_of_mem_hangupIndices h).trans hcount
    · cases h
  | readError i => cases h

end Bounds

/-! ### Nothing else is read -/

section Congr

variable {s : Server} {g : ℕ → ClntInfo} {i fd : ℕ} {bytes namelist : Bytes}

def Server.withSlots (s : Server) (g : ℕ → ClntInfo) : Server := { s with currClnt := g }

theorem forwardMessage_withSlots {n : ℕ} (h : ∀ k ∈ forwardIndices n, g k = s.currClnt k) (fwd : Msg)
    (selfFd : ℤ) : (s.withSlots g).forwardMessage fwd selfFd n = s.forwardMessage fwd selfFd n := by
  refine List.flatMap_congr fun k hk => ?_
  have hc : (s.withSlots g).currClnt k = s.currClnt k := h k hk
  dsimp only
  rw [hc]
  rfl

/-- The loop of `is_clnt_exist` finds the name if and only if one of the slots it looks at has it. -/
theorem exists_mem_existIndices {name : Bytes} {n k : ℕ}
    (h : ∀ j ∈ s.existIndices name n k, g j = s.currClnt j) :
    (∃ j, k ≤ j ∧ j < k + n ∧ (g j).username = name) ↔
      ∃ j ∈ s.existIndices name n k, (s.currClnt j).username = name := by
  induction n generalizing k with
  | zero =>
    constructor
    · rintro ⟨j, hkj, hj, -⟩
      omega
    · rintro ⟨j, hj, -⟩
      cases hj
  | succ n ih =>
    rw [Server.existIndices] at h ⊢
    have hk : g k = s.currClnt k := h k List.mem_cons_self
    by_cases hname : (s.currClnt k).username = name
    · -- the search stops here
      refine iff_of_true ⟨k, le_rfl, by omega, ?_⟩ ⟨k, List.mem_cons_self, hname⟩
      rw [hk, hname]
    · -- the search goes on
      rw [if_neg hname] at h ⊢
      have ih := ih fun j hj => h j (List.mem_cons_of_mem _ hj)
      constructor
      · rintro ⟨j, hkj, hj, heq⟩
        have hne : j ≠ k := by
          rintro rfl
          rw [hk] at heq
          exact hname heq
        obtain ⟨m, hm, hmeq⟩ := ih.1 ⟨j, by omega, by omega, heq⟩
        exact ⟨m, List.mem_cons_of_mem _ hm, hmeq⟩
      · rintro ⟨j, hj, heq⟩
        rcases List.mem_cons.1 hj with rfl | hj
        · exact absurd heq hname
        · obtain ⟨m, hkm, hm, hmeq⟩ := ih.2 ⟨j, hj, heq⟩
          exact ⟨m, by omega, by omega, hmeq⟩

theorem taken_withSlots {name : Bytes} (h : ∀ k ∈ s.existIndices name s.clntCount 0, g k = s.currClnt k) :
    (s.withSlots g).Taken name ↔ s.Taken name := by
  have hsame : ∀ k ∈ s.existIndices name s.clntCount 0, s.currClnt k = s.currClnt k := fun _ _ => rfl
  have hg := exists_mem_existIndices h
  have hs := exists_mem_existIndices hsame
  simpa [Server.Taken, Server.withSlots] using hg.trans hs.symm

theorem joined_withSlots (g : ℕ → ClntInfo) : (s.withSlots g).joined fd bytes =
    (s.joined fd bytes).withSlots
      (Function.update g s.clntCount { username := s.nameIn bytes, fd := fd, init := true }) := rfl

theorem names_withSlots (h : ∀ k < s.clntCount, g k = s.currClnt k) : (s.withSlots g).names = s.names := by
  refine List.flatMap_congr fun k hk => ?_
  have hc : (s.withSlots g).currClnt k = s.currClnt k := h k (List.mem_range.1 hk)
  rw [hc]
  rfl

theorem connect_withSlots (h : ∀ k ∈ s.connectIndices bytes, g k = s.currClnt k) :
    ((s.withSlots g).connect fd bytes namelist).map Prod.snd = (s.connect fd bytes namelist).map Prod.snd := by
  unfold Server.connectIndices at h
  by_cases hfull : s.maxClnt ≤ s.clntCount
  · have hs : s.connect fd bytes namelist = some (_, _) := if_pos hfull
    have hg : (s.withSlots g).connect fd bytes namelist = some (_, _) := if_pos hfull
    rw [hs, hg]
    rfl
  rw [if_neg hfull] at h
  rw [Nat.not_le] at hfull
  have htaken : (s.withSlots g).Taken (s.nameIn bytes) ↔ s.Taken (s.nameIn bytes) :=
    taken_withSlots fun k hk => h k (List.mem_append_left _ hk)
  by_cases ht : s.Taken (s.nameIn bytes)
  · rw [connect_taken_eq hfull ht, connect_taken_eq (s := s.withSlots g) hfull (htaken.2 ht)]
    rfl
  -- the slot of the new client is written before it is read, and all slots in use are read
  have hslots : ∀ k ∈ forwardIndices (s.clntCount + 1),
      Function.update g s.clntCount { username := s.nameIn bytes, fd := fd, init := true } k =
        (s.joined fd bytes).currClnt k := by
    intro k hk
    by_cases hkc : k = s.clntCount
    · rw [hkc, Function.update_self, joined_slot_self]
    · rw [Function.update_of_ne hkc, joined_slot_ne hkc]
      refine h k (List.mem_append_right _ ?_)
      rw [if_neg (show ¬ ∃ j < s.clntCount, (s.currClnt j).username = s.nameIn bytes from ht)]
      exact List.mem_append_right _ hk
  have hnames : ((s.withSlots g).joined fd bytes).names = (s.joined fd bytes).names :=
    names_withSlots fun k hk => hslots k (List.mem_range.2 (Nat.lt_succ_of_lt hk))
  have hfits : (s.withSlots g).Fits fd bytes namelist ↔ s.Fits fd bytes namelist := by
    unfold Server.Fits
    rw [hnames]
    rfl
  by_cases hf : s.Fits fd bytes namelist
  · rw [connect_joined hfull ht hf, connect_joined (s := s.withSlots g) hfull (htaken.not.2 ht) (hfits.2 hf)]
    unfold Server.joinedOut
    rw [hnames, joined_withSlots]
    show some (_ ++ ((s.joined fd bytes).withSlots _).forwardMessage _ _ (s.clntCount + 1)) = _
    rw [forwardMessage_withSlots hslots]
    rfl
  · rw [connect_overflow hfull ht hf,
      connect_overflow (s := s.withSlots g) hfull (htaken.not.2 ht) (hfits.not.2 hf)]

theorem left_withSlots (g : ℕ → ClntInfo) (k : ℕ) :
    (s.withSlots g).left i k = (s.left i k).withSlots (Function.update g k ClntInfo.reset) := rfl

/-- The notices of a hang-up: the loop resets the same slots in both. -/
theorem hangupLoop_withSlots (n k : ℕ) (h : ∀ j ∈ Server.hangupIndices i n k s, g j = s.currClnt j) :
    (Server.hangupLoop i n k (s.withSlots g)).2 = (Server.hangupLoop i n k s).2 := by
  induction n generalizing k s g with
  | zero => rfl
  | succ n ih =>
    rw [Server.hangupIndices] at h
    rw [Server.hangupLoop, Server.hangupLoop]
    by_cases hk : k < s.clntCount
    · rw [if_pos hk] at h ⊢
      rw [if_pos (show k < (s.withSlots g).clntCount from hk)]
      have hc : (s.withSlots g).currClnt k = s.currClnt k := by
        refine h k ?_
        split
        · exact List.mem_append_left _ List.mem_cons_self
        · exact List.mem_cons_self
      rw [hc]
      by_cases hfd : (s.currClnt k).fd = i
      · rw [if_pos hfd] at h ⊢
        rw [if_pos hfd]
        -- the slot that matches is reset in both before the loop goes on
        have hrest := ih (s := s.left i k) (g := Function.update g k ClntInfo.reset) (k + 1) fun j hj => by
          by_cases hjk : j = k
          · rw [hjk, Function.update_self, left_slot_self]
          · rw [Function.update_of_ne hjk, left_slot_ne hjk]
            exact h j (List.mem_append_right _ hj)
        have hfwd := forwardMessage_withSlots (s := s) (g := g) (n := s.clntCount)
          fun j hj => h j (List.mem_append_left _ (List.mem_cons_of_mem _ hj))
        dsimp only
        rw [left_withSlots, hrest]
        exact congrArg (· ++ _) (hfwd _ _)
      · rw [if_neg hfd] at h ⊢
        rw [if_neg hfd]
        exact ih (k + 1) fun j hj => h j (List.mem_cons_of_mem _ hj)
    · rw [if_neg hk, if_neg (show ¬ k < (s.withSlots g).clntCount from hk)]

theorem read_withSlots (h : ∀ k ∈ s.readIndices i bytes, g k = s.currClnt k) :
    ((s.withSlots g).read i bytes).map Prod.snd = (s.read i bytes).map Prod.snd := by
  unfold Server.readIndices at h
  by_cases hidle : msgType (readInto s.sendMsg bytes) = IDLE
  · rw [if_pos hidle] at h
    have hs : s.read i bytes = some (_, _) := if_pos hidle
    have hg : (s.withSlots g).read i bytes = some (_, _) := if_pos hidle
    rw [hs, hg]
    refine congrArg some (List.flatMap_congr fun k hk => ?_)
    -- the slot of the sender, and then all those that `forward_message` looks at
    have hc : g k = s.currClnt k := h k (List.mem_flatMap.2 ⟨k, hk, List.mem_cons_self⟩)
    simp only [Server.withSlots, hc]
    split
    · rename_i hfd
      refine forwardMessage_withSlots (s := { s with sendMsg := readInto s.sendMsg bytes }) (fun j hj => ?_) _ _
      refine h j (List.mem_flatMap.2 ⟨k, hk, List.mem_cons_of_mem _ ?_⟩)
      rwa [if_pos hfd]
    · rfl
  · -- the name is the same, and so is what is forwarded
    rw [if_neg hidle] at h
    have hname : (List.range s.clntCount).foldl
        (fun name k => if (g k).fd = i then (g k).username else name) s.fwdName =
        (List.range s.clntCount).foldl
          (fun name k => if (s.currClnt k).fd = i then (s.currClnt k).username else name) s.fwdName := by
      refine List.foldl_ext _ _ _ fun name k hk => ?_
      rw [h k (List.mem_append_left _ hk)]
    by_cases hlen : (payload (readInto s.sendMsg bytes)).length < 512
    · have hs : s.read i bytes = some (_, _) := (if_neg hidle).trans (if_pos hlen)
      have hg : (s.withSlots g).read i bytes = some (_, _) := (if_neg hidle).trans (if_pos hlen)
      rw [hs, hg]
      refine congrArg some (Eq.trans (forwardMessage_withSlots (s := { s with sendMsg := _, fwdName := _ })
        (fun j hj => h j (List.mem_append_right _ hj)) _ _) ?_)
      exact congrArg (fun name => s.forwardMessage
        { type := FWD, payload0 := name, payload1 := some (payload (readInto s.sendMsg bytes)) } i s.clntCount) hname
    · have hs : s.read i bytes = none := (if_neg hidle).trans (if_neg hlen)
      have hg : (s.withSlots g).read i bytes = none := (if_neg hidle).trans (if_neg hlen)
      rw [hs, hg]

/-- **What a step sends depends on no other slot.** -/
theorem step_eq_of_indices {e : Ev} (h : ∀ k ∈ s.indices e, g k = s.currClnt k) :
    ((s.withSlots g).step e).map Prod.snd = (s.step e).map Prod.snd := by
  unfold Server.indices at h
  unfold Server.step
  cases e with
  | acceptError => rfl
  | connect fd bytes namelist =>
    dsimp only at h ⊢
    by_cases hfd : fd ∈ s.opened
    · rw [if_pos hfd, if_pos (show fd ∈ (s.withSlots g).opened from hfd)]
      rfl
    · rw [if_neg hfd] at h ⊢
      rw [if_neg (show fd ∉ (s.withSlots g).opened from hfd)]
      exact connect_withSlots h
  | read i bytes =>
    dsimp only at h ⊢
    by_cases hi : s.Online i ∧ bytes ≠ []
    · rw [if_pos hi] at h ⊢
      rw [if_pos (show (s.withSlots g).Online i ∧ bytes ≠ [] from hi)]
      exact read_withSlots h
    · rw [if_neg hi, if_neg (show ¬ ((s.withSlots g).Online i ∧ bytes ≠ []) from hi)]
      rfl
  | hangup i =>
    dsimp only at h ⊢
    by_cases hi : s.Online i
    · rw [if_pos hi] at h ⊢
      rw [if_pos (show (s.withSlots g).Online i from hi)]
      exact congrArg some (hangupLoop_withSlots s.clntCount 0 h)
    · rw [if_neg hi, if_neg (show ¬ (s.withSlots g).Online i from hi)]
      rfl
  | readError i =>
    dsimp only
    by_cases hi : s.Online i
    · rw [if_pos hi, if_pos (show (s.withSlots g).Online i from hi)]
      rfl
    · rw [if_neg hi, if_neg (show ¬ (s.withSlots g).Online i from hi)]
      rfl

end Congr

/-! ### Nothing else is written -/

section Frame

variable {s : Server} {i j : ℕ}

theorem hangupLoop_slot_of_notMem (n k : ℕ) (h : j ∉ Server.hangupIndices i n k s) :
    (Server.hangupLoop i n k s).1.currClnt j = s.currClnt j := by
  induction n generalizing k s with
  | zero => rfl
  | succ n ih =>
    rw [Server.hangupIndices] at h
    rw [Server.hangupLoop]
    split
    · rename_i hk
      rw [if_pos hk] at h
      split
      · rename_i hfd
        rw [if_pos hfd, List.mem_append, List.mem_cons, not_or, not_or] at h
        exact (ih (k + 1) h.2).trans (left_slot_ne h.1.1)
      · rename_i hfd
        rw [if_neg hfd, List.mem_cons, not_or] at h
        exact ih (k + 1) h.2
    · rfl

theorem connect_slot_of_notMem {fd : ℕ} {bytes namelist : Bytes} {s' : Server} {out : List Out}
    (h : s.connect fd bytes namelist = some (s', out)) (hj : j ∉ s.connectIndices bytes) :
    s'.currClnt j = s.currClnt j := by
  unfold Server.connectIndices at hj
  by_cases hfull : s.maxClnt ≤ s.clntCount
  · obtain ⟨out', hout⟩ := connect_full hfull
    cases hout.symm.trans h
    rfl
  rw [if_neg hfull] at hj
  rw [Nat.not_le] at hfull
  by_cases ht : s.Taken (s.nameIn bytes)
  · cases (connect_taken_eq hfull ht).symm.trans h
    rfl
  rw [if_neg (show ¬ ∃ k < s.clntCount, (s.currClnt k).username = s.nameIn bytes from ht)] at hj
  by_cases hf : s.Fits fd bytes namelist
  · cases (connect_joined hfull ht hf).symm.trans h
    refine joined_slot_ne fun hjc => hj ?_
    simp [hjc]
  · cases (connect_overflow hfull ht hf).symm.trans h

/-- **A step changes no other slot.** -/
theorem next_slot_of_notMem {e : Ev} {s' : Server} (h : s.next e = some s') (hj : j ∉ s.indices e) :
    s'.currClnt j = s.currClnt j := by
  rw [Server.next, Option.map_eq_some_iff] at h
  obtain ⟨⟨s', out⟩, h, rfl⟩ := h
  unfold Server.indices at hj
  unfold Server.step at h
  cases e with
  | acceptError =>
    cases h
    rfl
  | connect fd bytes namelist =>
    dsimp only at h hj
    by_cases hfd : fd ∈ s.opened
    · rw [if_pos hfd] at h
      cases h
      rfl
    · rw [if_neg hfd] at h hj
      exact connect_slot_of_notMem h hj
  | read i bytes =>
    dsimp only at h
    split at h
    · obtain ⟨name, rfl⟩ := read_cases h
      rfl
    · cases h
      rfl
  | hangup i =>
    dsimp only at h hj
    by_cases hi : s.Online i
    · rw [if_pos hi] at h hj
      cases h
      exact hangupLoop_slot_of_notMem _ _ hj
    · rw [if_neg hi] at h
      cases h
      rfl
  | readError i =>
    dsimp only at h
    split at h
    · cases h
      rfl
    · cases h
      rfl

end Frame

/-! ### Every state that can be reached -/

/-- The server listens, and `fdmax` is up to date. -/
structure Reach (maxClnt srvrFd : ℕ) (s : Server) : Prop where
  capacity : s.maxClnt = maxClnt
  socket : s.srvrFd = srvrFd
  listening : srvrFd ∈ s.master
  fdmax : ∀ d ∈ s.master, d ≤ s.fdmax

section Reach

variable {s : Server} {maxClnt srvrFd i : ℕ}

theorem hangupLoop_frame (n k : ℕ) (s : Server) :
    (Server.hangupLoop i n k s).1.maxClnt = s.maxClnt ∧ (Server.hangupLoop i n k s).1.fdmax = s.fdmax := by
  induction n generalizing k s with
  | zero => exact ⟨rfl, rfl⟩
  | succ n ih =>
    rw [Server.hangupLoop]
    split
    · split
      · exact ih (k + 1) (s.left i k)
      · exact ih (k + 1) s
    · exact ⟨rfl, rfl⟩

theorem Reach.drop (h : Reach maxClnt srvrFd s) (hi : i ≠ s.srvrFd) : Reach maxClnt srvrFd (s.drop i) := by
  refine ⟨h.capacity, h.socket, ?_, fun d hd => h.fdmax d (Finset.mem_of_mem_erase hd)⟩
  rw [h.socket] at hi
  exact Finset.mem_erase.2 ⟨hi.symm, h.listening⟩

theorem Reach.hangup (h : Reach maxClnt srvrFd s) (hi : i ≠ s.srvrFd) :
    Reach maxClnt srvrFd (s.hangup i).1 := by
  obtain ⟨hmaster, hsrvr, -⟩ := hangupLoop_opened (i := i) s.clntCount 0 s
  obtain ⟨hmax, hfdmax⟩ := hangupLoop_frame (i := i) s.clntCount 0 s
  have hloop : Reach maxClnt srvrFd (Server.hangupLoop i s.clntCount 0 s).1 := by
    constructor
    · rw [hmax, h.capacity]
    · rw [hsrvr, h.socket]
    · rw [hmaster]
      exact h.listening
    · rw [hmaster, hfdmax]
      exact h.fdmax
  refine hloop.drop ?_
  rwa [hsrvr]

theorem Reach.joined (h : Reach maxClnt srvrFd s) (fd : ℕ) (bytes : Bytes) :
    Reach maxClnt srvrFd (s.joined fd bytes) := by
  refine ⟨h.capacity, h.socket, Finset.mem_insert_of_mem h.listening, fun d hd => ?_⟩
  show d ≤ if s.fdmax < fd then fd else s.fdmax
  rcases Finset.mem_insert.1 hd with rfl | hd
  · split <;> omega
  · have := h.fdmax d hd
    split <;> omega

/-- The descriptor of a connection that is refused is taken out of `master` again: it is not the server's. -/
theorem Reach.connect (h : Reach maxClnt srvrFd s) (ho : Opened s) {fd : ℕ} {bytes namelist : Bytes}
    (hfd : fd ∉ s.opened) {s' : Server} {out : List Out}
    (hs : s.connect fd bytes namelist = some (s', out)) : Reach maxClnt srvrFd s' := by
  by_cases hfull : s.maxClnt ≤ s.clntCount
  · obtain ⟨out', hout⟩ := connect_full hfull
    cases hout.symm.trans hs
    exact ⟨h.capacity, h.socket, h.listening, h.fdmax⟩
  rw [Nat.not_le] at hfull
  by_cases ht : s.Taken (s.nameIn bytes)
  · cases (connect_taken_eq hfull ht).symm.trans hs
    have hmaster : (insert fd s.master).erase fd = s.master := Finset.erase_insert (ho.fresh hfd).1
    refine ⟨h.capacity, h.socket, ?_, ?_⟩
    · rw [hmaster]
      exact h.listening
    · rw [hmaster]
      exact h.fdmax
  by_cases hf : s.Fits fd bytes namelist
  · cases (connect_joined hfull ht hf).symm.trans hs
    exact h.joined fd bytes
  · cases (connect_overflow hfull ht hf).symm.trans hs

theorem Reach.step (h : Reach maxClnt srvrFd s) (ho : Opened s) {e : Ev} {s' : Server}
    (hs : s.next e = some s') : Reach maxClnt srvrFd s' := by
  rw [Server.next, Option.map_eq_some_iff] at hs
  obtain ⟨⟨s', out⟩, hs, rfl⟩ := hs
  unfold Server.step at hs
  cases e with
  | acceptError =>
    cases hs
    exact h
  | connect fd bytes namelist =>
    dsimp only at hs
    split at hs
    · cases hs
      exact h
    · rename_i hfd
      exact h.connect ho hfd hs
  | read i bytes =>
    dsimp only at hs
    split at hs
    · obtain ⟨name, rfl⟩ := read_cases hs
      exact ⟨h.capacity, h.socket, h.listening, h.fdmax⟩
    · cases hs
      exact h
  | hangup i =>
    dsimp only at hs
    split at hs
    · rename_i hi
      cases hs
      exact h.hangup hi.2.1
    · cases hs
      exact h
  | readError i =>
    dsimp only at hs
    split at hs
    · rename_i hi
      cases hs
      exact h.drop hi.2.1
    · cases hs
      exact h

theorem reach_of_run {mem : Mem} {evs : List Ev}
    (hrun : evs.foldlM Server.next (Server.start mem maxClnt srvrFd) = some s) : Reach maxClnt srvrFd s := by
  have hinv : Reach maxClnt srvrFd s ∧ Opened s := by
    refine inv_of_run (I := fun t => Reach maxClnt srvrFd t ∧ Opened t) ?_ ?_ hrun
    · rintro t e t' ⟨hr, ho⟩ ht
      exact ⟨hr.step ho ht, (next_moves ht).opened ho⟩
    · have hempty : ([] : List Ev).foldlM Server.next (Server.start mem maxClnt srvrFd) = some _ := rfl
      refine ⟨⟨rfl, rfl, Finset.mem_singleton_self _, fun d hd => ?_⟩, opened_of_run hempty⟩
      exact (Finset.mem_singleton.1 hd).le
  exact hinv.1

end Reach

end TamuProofs.Sbcp
