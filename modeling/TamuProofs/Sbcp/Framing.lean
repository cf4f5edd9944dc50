import Mathlib.Algebra.Ring.Nat
import Mathlib.Tactic.Ring
import TamuProofs.Sbcp.Refused

/-!
# The stream of a client, cut into reads

A client writes messages of `msgSize` bytes, and the server takes what one `read` returns for one message.
TCP may return less than a message, or the end of one message and the start of the next: `segmented` is what
the server sees of a client whose bytes arrive in the given pieces. `Agree` compares two ways to cut the same
bytes: the join is accepted in both or in neither, and every other client is sent the same messages.

Every read has the same effect on the number of messages (`score_read`), whatever is in it, so with another
client to send them to the numbers of reads must agree, and then every piece is a message.

* **`agree_iff_unaffected`** — the pieces agree with the messages in the cases of `Unaffected`, and in no other.
-/

namespace TamuProofs.Sbcp

open TamuProofs.Lib

/-! ### A client's stream -/

/-- A run of events, with all that goes on at the descriptors. -/
def Server.outs (s : Server) : List Ev → Option (Server × List Out)
  | [] => some (s, [])
  | e :: evs => (s.step e).bind fun p => (p.1.outs evs).map fun r => (r.1, p.2 ++ r.2)

/-- A client that connects, and the pieces in which its bytes arrive. -/
def segmented (fd : ℕ) (namelist : Bytes) : List Bytes → List Ev
  | [] => []
  | c :: cs => .connect fd c namelist :: cs.map (.read fd)

/-- The messages written to `d`. -/
def heardBy (d : ℕ) (out : List Out) : List Msg :=
  out.filterMap fun
    | .test _ _ => none
    | .write fd m => if fd = d then some m else none

/-- The pieces of a stream of messages. -/
structure Segments (msgs pieces : List Bytes) : Prop where
  flatten : pieces.flatten = msgs.flatten
  pos : ∀ c ∈ pieces, c ≠ []
  le : ∀ c ∈ pieces, c.length ≤ msgSize

/-- **The same join and the same messages**, for two ways to cut the stream of a client. -/
def Agree (s : Server) (fd : ℕ) (namelist : Bytes) (a b : List Bytes) : Prop :=
  ∃ t out t' out', s.outs (segmented fd namelist a) = some (t, out) ∧
    s.outs (segmented fd namelist b) = some (t', out') ∧ (fd ∈ t.master ↔ fd ∈ t'.master) ∧
    ∀ d ∈ s.master, d ≠ s.srvrFd → heardBy d out = heardBy d out'

/-! ### When nothing is lost -/

/-- The texts of the messages that these reads leave in `send_msg` fit their buffer. -/
def TextsFit : Bytes → List Bytes → Prop
  | _, [] => True
  | buf, c :: cs => (msgType (readInto buf c) = IDLE ∨ (payload (readInto buf c)).length < 512) ∧
      TextsFit (readInto buf c) cs

/-- The strings in the pieces fit the buffers of the server. -/
def Server.Buffered (s : Server) (fd : ℕ) (namelist : Bytes) : List Bytes → Prop
  | [] => True
  | c :: cs => s.Refuses c ∨ s.Fits fd c namelist ∧ TextsFit s.sendMsg cs

/-- None of the slots that `forward_message` tests after the next join holds the descriptor of a client. -/
def Server.Alone (s : Server) : Prop :=
  ∀ j ≤ s.clntCount + 1, j ≠ s.clntCount → ∀ d ∈ s.master, d ≠ s.srvrFd → (s.currClnt j).fd ≠ d

/-- The first piece is refused. -/
def Server.RefusesFirst (s : Server) (pieces : List Bytes) : Prop := ∃ c ∈ pieces.head?, s.Refuses c

/-- **What it takes** for the pieces to have the effect of the messages: the strings in them fit, and the pieces
are the messages, or the server decides on the join in the same way and there is no one to send a message to. -/
structure Server.Unaffected (s : Server) (fd : ℕ) (namelist : Bytes) (msgs pieces : List Bytes) : Prop where
  msgsFit : s.Buffered fd namelist msgs
  piecesFit : s.Buffered fd namelist pieces
  same : pieces = msgs ∨ (s.RefusesFirst pieces ↔ s.RefusesFirst msgs) ∧ (s.RefusesFirst msgs ∨ s.Alone)

/-! ### What is heard -/

@[simp] theorem heardBy_nil (d : ℕ) : heardBy d [] = [] := rfl

@[simp] theorem heardBy_append (d : ℕ) (out out' : List Out) :
    heardBy d (out ++ out') = heardBy d out ++ heardBy d out' := List.filterMap_append

theorem heardBy_flatMap {α : Type*} (d : ℕ) (l : List α) (f : α → List Out) :
    heardBy d (l.flatMap f) = l.flatMap fun x => heardBy d (f x) := List.filterMap_flatMap

@[simp] theorem heardBy_test (d : ℕ) (fd : ℤ) (init : Bool) (out : List Out) :
    heardBy d (.test fd init :: out) = heardBy d out := rfl

@[simp] theorem heardBy_write_self (d : ℕ) (m : Msg) (out : List Out) :
    heardBy d (.write d m :: out) = m :: heardBy d out := by simp [heardBy]

theorem heardBy_write_ne {d : ℕ} {fd : ℤ} (h : fd ≠ d) (m : Msg) (out : List Out) :
    heardBy d (.write fd m :: out) = heardBy d out := by simp [heardBy, h]

/-- A slot whose descriptor is `d` gives `d` the message and the one that pushes it out. -/
theorem heardBy_forwardMessage {s : Server} {d : ℕ} {self : ℤ} (hd : d ∈ s.master) (hself : (d : ℤ) ≠ self)
    (fwd : Msg) (n : ℕ) : heardBy d (s.forwardMessage fwd self n) =
      (List.range (n + 1)).flatMap fun j => if (s.currClnt j).fd = d then [fwd, nullchar] else [] := by
  rw [Server.forwardMessage, heardBy_flatMap]
  refine List.flatMap_congr fun j _ => ?_
  rw [heardBy_test]
  by_cases hj : (s.currClnt j).fd = d
  · have hset : s.isSet (s.currClnt j).fd = true := by simp [Server.isSet, hj, hd]
    rw [if_pos ⟨hset, hj ▸ hself⟩, if_pos hj, hj]
    simp
  · rw [if_neg hj]
    split
    · rw [heardBy_write_ne hj, heardBy_write_ne hj, heardBy_nil]
    · rfl

/-! ### The score of a read -/

/-- The messages are counted so that an IDLE message, which is sent once for every slot of the client, counts
no more than a text, which is sent once. -/
def score (q : ℤ) (heard : List Msg) : ℤ := (heard.map fun m => if m.type = IDLE then 2 - q else q).sum

@[simp] theorem score_nil (q : ℤ) : score q [] = 0 := rfl

@[simp] theorem score_append (q : ℤ) (l l' : List Msg) : score q (l ++ l') = score q l + score q l' := by
  simp [score]

theorem score_flatMap_ite {q c : ℤ} {α : Type*} (p : α → Prop) [DecidablePred p] (xs : List α)
    {f : α → List Msg} (hf : ∀ x, score q (f x) = c) :
    score q (xs.flatMap fun x => if p x then f x else []) = xs.countP (fun x => p x) * c := by
  induction xs with
  | nil => simp
  | cons x xs ih =>
    rw [List.flatMap_cons, score_append, ih, List.countP_cons]
    by_cases hx : p x <;> simp [hx, hf]
    ring

/-- The slots of `d` that `forward_message` tests, and the slots of `i` that the loops over the clients find. -/
def Server.tested (s : Server) (d : ℕ) : ℕ :=
  (List.range (s.clntCount + 1)).countP fun j => (s.currClnt j).fd = d

def Server.found (s : Server) (i : ℕ) : ℕ := (List.range s.clntCount).countP fun k => (s.currClnt k).fd = i

section Score

variable {s s' : Server} {d i : ℕ} {bytes : Bytes} {out : List Out}

theorem score_forwardMessage (hd : d ∈ s.master) (hi : d ≠ i) (q : ℤ) (fwd : Msg) :
    score q (heardBy d (s.forwardMessage fwd i s.clntCount)) =
      s.tested d * if fwd.type = IDLE then 2 else 2 * q := by
  have hnull : nullchar.type ≠ IDLE := by decide
  have hpair : score q [fwd, nullchar] = if fwd.type = IDLE then 2 else 2 * q := by
    by_cases hf : fwd.type = IDLE <;> simp [score, hf, hnull]
    ring
  rw [heardBy_forwardMessage hd (Int.ofNat_inj.not.2 hi), Server.tested]
  exact score_flatMap_ite _ _ fun _ => hpair

theorem read_outs (h : s.read i bytes = some (s', out)) :
    (out = (List.range s.clntCount).flatMap fun k =>
      if (s.currClnt k).fd = i then
        ({ s with sendMsg := readInto s.sendMsg bytes } : Server).forwardMessage
          (sbcpMessage IDLE (s.currClnt k).username (ascii "N/A")) i s.clntCount
      else []) ∨
    ∃ name fwd, out = ({ s with sendMsg := readInto s.sendMsg bytes, fwdName := name } : Server).forwardMessage
      fwd i s.clntCount ∧ fwd.type = FWD := by
  unfold Server.read at h
  dsimp only at h
  split at h
  · cases h
    exact Or.inl rfl
  · split at h
    · cases h
      exact Or.inr ⟨_, _, rfl, rfl⟩
    · cases h

/-- **Every read scores the same**, a text or an IDLE message. -/
theorem score_read (hd : d ∈ s.master) (hi : d ≠ i) (h : s.read i bytes = some (s', out)) :
    score (s.found i) (heardBy d out) = s.tested d * (2 * s.found i) := by
  rcases read_outs h with rfl | ⟨name, fwd, rfl, hfwd⟩
  · rw [heardBy_flatMap]
    simp only [apply_ite (heardBy d), heardBy_nil]
    -- one call for every slot of the client
    have hcalls := score_flatMap_ite (fun k => (s.currClnt k).fd = i) (List.range s.clntCount) fun k =>
      score_forwardMessage (s := { s with sendMsg := readInto s.sendMsg bytes }) hd hi (s.found i)
        (sbcpMessage IDLE (s.currClnt k).username (ascii "N/A"))
    refine hcalls.trans ?_
    show (s.found i : ℤ) * (s.tested d * 2) = _
    ring
  · have htext : fwd.type ≠ IDLE := by
      rw [hfwd]
      decide
    have hscore := score_forwardMessage (s := { s with sendMsg := readInto s.sendMsg bytes, fwdName := name })
      hd hi (s.found i) fwd
    rw [if_neg htext] at hscore
    exact hscore

theorem heardBy_forwardMessage_alone (hd : d ∈ s.master) (hi : d ≠ i) (h : s.tested d = 0) (fwd : Msg) :
    heardBy d (s.forwardMessage fwd i s.clntCount) = [] := by
  rw [heardBy_forwardMessage hd (Int.ofNat_inj.not.2 hi), List.flatMap_eq_nil_iff]
  intro j hj
  have hne := List.countP_eq_zero.1 h j hj
  rw [if_neg (by simpa using hne)]

/-- A client that no slot tested belongs to hears nothing. -/
theorem heardBy_read_alone (hd : d ∈ s.master) (hi : d ≠ i) (h0 : s.tested d = 0)
    (h : s.read i bytes = some (s', out)) : heardBy d out = [] := by
  rcases read_outs h with rfl | ⟨name, fwd, rfl, -⟩
  · rw [heardBy_flatMap, List.flatMap_eq_nil_iff]
    intro k _
    split
    · exact heardBy_forwardMessage_alone (s := { s with sendMsg := _ }) hd hi h0 _
    · rfl
  · exact heardBy_forwardMessage_alone (s := { s with sendMsg := _, fwdName := name }) hd hi h0 _

theorem read_isSome_iff : (s.read i bytes).isSome ↔
    msgType (readInto s.sendMsg bytes) = IDLE ∨ (payload (readInto s.sendMsg bytes)).length < 512 := by
  unfold Server.read
  dsimp only
  by_cases htype : msgType (readInto s.sendMsg bytes) = IDLE
  · simp [htype]
  · by_cases htext : (payload (readInto s.sendMsg bytes)).length < 512 <;> simp [htype, htext]

end Score

/-! ### The reads of a client that is online -/

section Reads

variable {s t : Server} {fd : ℕ} {cs : List Bytes} {out : List Out}

theorem outs_cons {e : Ev} {evs : List Ev} {s' : Server} (h : s.step e = some (s', out)) :
    s.outs (e :: evs) = (s'.outs evs).map fun r => (r.1, out ++ r.2) := by
  rw [Server.outs, h, Option.bind_some]

/-- What is said to a client that is not in `master` is never read. -/
theorem outs_offline (h : ¬ s.Online fd) (cs : List Bytes) : s.outs (cs.map (.read fd)) = some (s, []) := by
  induction cs with
  | nil => rfl
  | cons c cs ih =>
    have hstep : s.step (.read fd c) = some (s, []) := if_neg fun h' => h h'.1
    rw [List.map_cons, outs_cons hstep, ih]
    rfl

theorem outs_reads_isSome (hon : s.Online fd) (hpos : ∀ c ∈ cs, c ≠ []) :
    (s.outs (cs.map (.read fd))).isSome ↔ TextsFit s.sendMsg cs := by
  induction cs generalizing s with
  | nil => simp [Server.outs, TextsFit]
  | cons c cs ih =>
    have hpos' : ∀ c ∈ cs, c ≠ [] := fun c hc => hpos c (List.mem_cons_of_mem _ hc)
    have hstep := step_read hon (hpos c List.mem_cons_self)
    rw [TextsFit, List.map_cons, ← read_isSome_iff (i := fd)]
    cases hread : s.read fd c with
    | none => simp [Server.outs, hstep, hread]
    | some r =>
      obtain ⟨s', out⟩ := r
      rw [outs_cons (hstep.trans hread), Option.isSome_map]
      obtain ⟨name, rfl⟩ := read_cases hread
      have h' := ih (s := { s with sendMsg := readInto s.sendMsg c, fwdName := name }) hon hpos'
      rw [h']
      simp

/-- **What the reads do**: they leave the room alone, each adds the same score to what the others hear. -/
theorem outs_reads (hon : s.Online fd) (hpos : ∀ c ∈ cs, c ≠ []) (h : s.outs (cs.map (.read fd)) = some (t, out)) :
    t.master = s.master ∧ ∀ d ∈ s.master, d ≠ fd →
      score (s.found fd) (heardBy d out) = cs.length * (s.tested d * (2 * s.found fd)) ∧
      (s.tested d = 0 → heardBy d out = []) := by
  induction cs generalizing s out with
  | nil =>
    cases h
    exact ⟨rfl, fun d _ _ => ⟨by simp, fun _ => rfl⟩⟩
  | cons c cs ih =>
    have hpos' : ∀ c ∈ cs, c ≠ [] := fun c hc => hpos c (List.mem_cons_of_mem _ hc)
    have hstep := step_read hon (hpos c List.mem_cons_self)
    rw [List.map_cons] at h
    cases hread : s.read fd c with
    | none =>
      rw [Server.outs, hstep, hread] at h
      cases h
    | some r =>
      obtain ⟨s', first⟩ := r
      rw [outs_cons (hstep.trans hread), Option.map_eq_some_iff] at h
      obtain ⟨⟨t', rest⟩, hrest, heq⟩ := h
      cases heq
      have hfirst := fun d hd hne => score_read (d := d) hd hne hread
      have hsilent := fun d hd hne h0 => heardBy_read_alone (d := d) hd hne h0 hread
      -- a read leaves the slots, so the next ones are forwarded to the same clients
      obtain ⟨name, rfl⟩ := read_cases hread
      obtain ⟨hmaster, hheard⟩ :=
        ih (s := { s with sendMsg := readInto s.sendMsg c, fwdName := name }) hon hpos' hrest
      refine ⟨hmaster, fun d hd hne => ⟨?_, fun h0 => ?_⟩⟩
      · have hr : score (s.found fd) (heardBy d rest) = _ := (hheard d hd hne).1
        rw [heardBy_append, score_append, hfirst d hd hne, hr, List.length_cons]
        push_cast
        show _ + _ * ((s.tested d : ℤ) * (2 * s.found fd)) = _
        ring
      · rw [heardBy_append, hsilent d hd hne h0, (hheard d hd hne).2 h0]
        rfl

end Reads

/-! ### A whole stream -/

section Stream

variable {s t : Server} {fd d : ℕ} {namelist c c' : Bytes} {cs : List Bytes} {out : List Out}

theorem joined_fd (j : ℕ) :
    ((s.joined fd c).currClnt j).fd = if j = s.clntCount then (fd : ℤ) else (s.currClnt j).fd := by
  by_cases hj : j = s.clntCount
  · rw [if_pos hj, hj, joined_slot_self]
  · rw [if_neg hj, joined_slot_ne hj]

theorem tested_joined (c c' : Bytes) : (s.joined fd c).tested d = (s.joined fd c').tested d := by
  simp only [Server.tested, joined_fd]
  rfl

theorem found_joined (c c' : Bytes) : (s.joined fd c).found fd = (s.joined fd c').found fd := by
  simp only [Server.found, joined_fd]
  rfl

theorem found_joined_pos : 0 < (s.joined fd c).found fd := by
  rw [Server.found, List.countP_pos_iff]
  refine ⟨s.clntCount, List.mem_range.2 (Nat.lt_succ_self _), ?_⟩
  simp [joined_slot_self]

/-- Someone else is tested unless the client is alone. -/
theorem alone_iff_tested (hfd : fd ∉ s.master) (c : Bytes) :
    s.Alone ↔ ∀ d ∈ s.master, d ≠ s.srvrFd → (s.joined fd c).tested d = 0 := by
  have hne : ∀ d ∈ s.master, (fd : ℤ) ≠ d := fun d hd h => hfd (Int.ofNat_inj.1 h ▸ hd)
  have hrange : ∀ j, j ∈ List.range ((s.joined fd c).clntCount + 1) ↔ j ≤ s.clntCount + 1 := fun j => by
    rw [List.mem_range]
    exact Nat.lt_succ_iff
  constructor
  · intro h d hd hsrv
    rw [Server.tested, List.countP_eq_zero]
    intro j hj
    rw [joined_fd]
    by_cases hjc : j = s.clntCount
    · simp [hjc, hne d hd]
    · simpa [hjc] using h j ((hrange j).1 hj) hjc d hd hsrv
  · intro h j hj hjc d hd hsrv
    have h0 := List.countP_eq_zero.1 (h d hd hsrv) j ((hrange j).2 hj)
    rw [joined_fd, if_neg hjc] at h0
    simpa using h0

/-- A client that is refused: nothing is heard, and the rest of the stream is never read. -/
theorem outs_refused (hopen : fd ∉ s.opened) (hfd : fd ∉ s.master) (h : s.Refuses c) (cs : List Bytes) :
    ∃ t out, s.outs (segmented fd namelist (c :: cs)) = some (t, out) ∧ fd ∉ t.master ∧
      ∀ d ∈ s.master, heardBy d out = [] := by
  have hne : ∀ d ∈ s.master, (fd : ℤ) ≠ d := fun d hd h => hfd (Int.ofNat_inj.1 h ▸ hd)
  obtain ⟨s', out, hconn, hmaster, hheard⟩ : ∃ s' out, s.connect fd c namelist = some (s', out) ∧
      fd ∉ s'.master ∧ ∀ d ∈ s.master, heardBy d out = [] := by
    by_cases hfull : s.maxClnt ≤ s.clntCount
    · refine ⟨_, _, if_pos hfull, hfd, fun d hd => ?_⟩
      rw [heardBy_write_ne (hne d hd), heardBy_write_ne (hne d hd), heardBy_nil]
    · refine ⟨_, _, connect_taken_eq (Nat.lt_of_not_le hfull) (h.resolve_left hfull), ?_, fun d hd => ?_⟩
      · exact Finset.notMem_erase fd _
      · rw [heardBy_write_ne (hne d hd), heardBy_nil]
  refine ⟨s', out, ?_, hmaster, hheard⟩
  rw [segmented, outs_cons ((step_connect hopen).trans hconn), outs_offline fun hon => hmaster hon.1]
  simp

theorem joined_online (hsrv : fd ≠ s.srvrFd) (c : Bytes) : (s.joined fd c).Online fd := by
  refine ⟨Finset.mem_insert_self _ _, hsrv, ?_⟩
  show fd ≤ if s.fdmax < fd then fd else s.fdmax
  split <;> omega

theorem heardBy_joinedOut (hne : d ≠ fd) : heardBy d (s.joinedOut fd c namelist) =
    heardBy d ((s.joined fd c).forwardMessage (sbcpMessage ONLINE (s.nameIn c) (ascii "N/A")) fd
      (s.joined fd c).clntCount) := by
  have hne' : (fd : ℤ) ≠ d := Int.ofNat_inj.not.2 hne.symm
  rw [Server.joinedOut, heardBy_append, heardBy_write_ne hne', heardBy_write_ne hne', heardBy_nil]
  rfl

theorem outs_accepted_iff (hopen : fd ∉ s.opened) (hsrv : fd ≠ s.srvrFd) (h : ¬ s.Refuses c)
    (hpos : ∀ c ∈ cs, c ≠ []) :
    s.Buffered fd namelist (c :: cs) ↔ ∃ t out, s.outs (segmented fd namelist (c :: cs)) = some (t, out) := by
  obtain ⟨hfull, ht⟩ := not_or.1 h
  rw [Nat.not_le] at hfull
  by_cases hf : s.Fits fd c namelist
  · have hconn : s.step (.connect fd c namelist) = _ := (step_connect hopen).trans (connect_joined hfull ht hf)
    have hbuf : s.Buffered fd namelist (c :: cs) ↔ TextsFit (s.joined fd c).sendMsg cs := by
      simp [Server.Buffered, h, hf, Server.joined]
    rw [segmented, outs_cons hconn, hbuf, ← outs_reads_isSome (joined_online hsrv c) hpos]
    cases (s.joined fd c).outs (cs.map (.read fd)) <;> simp
  · have hconn : s.step (.connect fd c namelist) = _ := (step_connect hopen).trans (connect_overflow hfull ht hf)
    rw [segmented, Server.outs, hconn]
    simp [Server.Buffered, h, hf]

theorem outs_accepted (hopen : fd ∉ s.opened) (hfd : fd ∉ s.master) (hsrv : fd ≠ s.srvrFd) (h : ¬ s.Refuses c)
    (hpos : ∀ c ∈ cs, c ≠ []) (hout : s.outs (segmented fd namelist (c :: cs)) = some (t, out)) :
    fd ∈ t.master ∧ ∀ d ∈ s.master,
      score ((s.joined fd c).found fd) (heardBy d out) =
        (cs.length + 1) * ((s.joined fd c).tested d * (2 * (s.joined fd c).found fd)) ∧
      ((s.joined fd c).tested d = 0 → heardBy d out = []) := by
  obtain ⟨hfull, ht⟩ := not_or.1 h
  rw [Nat.not_le] at hfull
  have hf : s.Fits fd c namelist := ((outs_accepted_iff hopen hsrv h hpos).2 ⟨t, out, hout⟩).resolve_left h |>.1
  have hconn : s.step (.connect fd c namelist) = _ := (step_connect hopen).trans (connect_joined hfull ht hf)
  rw [segmented, outs_cons hconn, Option.map_eq_some_iff] at hout
  obtain ⟨⟨t', rest⟩, hrest, heq⟩ := hout
  cases heq
  obtain ⟨hmaster, hheard⟩ := outs_reads (joined_online hsrv c) hpos hrest
  refine ⟨hmaster ▸ Finset.mem_insert_self _ _, fun d hd => ?_⟩
  have hne : d ≠ fd := fun h => hfd (h ▸ hd)
  have hd' : d ∈ (s.joined fd c).master := Finset.mem_insert_of_mem hd
  have htype : (sbcpMessage ONLINE (s.nameIn c) (ascii "N/A")).type ≠ IDLE := show ONLINE ≠ IDLE by decide
  obtain ⟨hscore, hsilent⟩ := hheard d hd' hne
  rw [heardBy_append, heardBy_joinedOut hne]
  refine ⟨?_, fun h0 => ?_⟩
  · rw [score_append, score_forwardMessage hd' hne, hscore, if_neg htype]
    ring
  · rw [heardBy_forwardMessage_alone hd' hne h0, hsilent h0]
    rfl

end Stream

/-! ### Two ways to cut one stream -/

theorem Agree.symm {s : Server} {fd : ℕ} {namelist : Bytes} {a b : List Bytes} (h : Agree s fd namelist a b) :
    Agree s fd namelist b a := by
  obtain ⟨t, out, t', out', ha, hb, hm, hh⟩ := h
  exact ⟨t', out', t, out, hb, ha, hm.symm, fun d hd hne => (hh d hd hne).symm⟩

theorem Agree.trans {s : Server} {fd : ℕ} {namelist : Bytes} {a b c : List Bytes} (h : Agree s fd namelist a b)
    (h' : Agree s fd namelist b c) : Agree s fd namelist a c := by
  obtain ⟨t, out, t', out', ha, hb, hm, hh⟩ := h
  obtain ⟨u, uout, u', uout', hb', hc, hm', hh'⟩ := h'
  cases hb.symm.trans hb'
  exact ⟨t, out, u', uout', ha, hc, hm.trans hm', fun d hd hne => (hh d hd hne).trans (hh' d hd hne)⟩

section Exact

variable {s : Server} {fd : ℕ} {namelist m c : Bytes} {ms cs : List Bytes}

@[simp] theorem refusesFirst_cons : s.RefusesFirst (c :: cs) ↔ s.Refuses c := by simp [Server.RefusesFirst]

/-- Both are taken in. The scores agree only if there are as many pieces as messages, or no one to hear them. -/
theorem agree_iff_of_accepted (hopen : fd ∉ s.opened) (hfd : fd ∉ s.master) (hsrv : fd ≠ s.srvrFd)
    (hmsgs : ∀ x ∈ m :: ms, x.length = msgSize) (hseg : Segments (m :: ms) (c :: cs)) (hm : ¬ s.Refuses m)
    (hc : ¬ s.Refuses c) :
    Agree s fd namelist (c :: cs) (m :: ms) ↔ s.Unaffected fd namelist (m :: ms) (c :: cs) := by
  have hposm : ∀ x ∈ ms, x ≠ [] := fun x hx h0 => by
    have := hmsgs x (List.mem_cons_of_mem _ hx)
    rw [h0] at this
    cases this
  have hposc : ∀ x ∈ cs, x ≠ [] := fun x hx => hseg.pos x (List.mem_cons_of_mem _ hx)
  have hbufm : s.Buffered fd namelist (m :: ms) ↔ _ := outs_accepted_iff hopen hsrv hm hposm
  have hbufc : s.Buffered fd namelist (c :: cs) ↔ _ := outs_accepted_iff hopen hsrv hc hposc
  constructor
  · rintro ⟨t, out, t', out', houtc, houtm, -, hheard⟩
    refine ⟨hbufm.2 ⟨_, _, houtm⟩, hbufc.2 ⟨_, _, houtc⟩, ?_⟩
    by_cases halone : s.Alone
    · exact .inr ⟨by simp [hm, hc], .inr halone⟩
    left
    rw [alone_iff_tested hfd m] at halone
    push Not at halone
    obtain ⟨d, hd, hsrvd, htested⟩ := halone
    -- the score of a client is proportional to the number of reads, so these are as many as the messages
    have hscorem := ((outs_accepted hopen hfd hsrv hm hposm houtm).2 d hd).1
    have hscorec := ((outs_accepted hopen hfd hsrv hc hposc houtc).2 d hd).1
    rw [tested_joined c m, found_joined c m, hheard d hd hsrvd, hscorem] at hscorec
    have hfound : 0 < (s.joined fd m).found fd := found_joined_pos
    have hunit : ((s.joined fd m).tested d * (2 * (s.joined fd m).found fd) : ℤ) ≠ 0 :=
      mul_ne_zero (Int.natCast_ne_zero.2 htested) (by omega)
    -- as many pieces as messages, and no piece longer than a message: they are the same
    have hcount := mul_right_cancel₀ hunit hscorec
    refine eq_of_flatten_eq hseg.le hmsgs hseg.flatten ?_
    rw [List.length_cons, List.length_cons]
    omega
  · rintro ⟨hfitm, hfitc, hsame⟩
    obtain ⟨t, out, houtc⟩ := hbufc.1 hfitc
    obtain ⟨t', out', houtm⟩ := hbufm.1 hfitm
    obtain ⟨hmasterm, hheardm⟩ := outs_accepted hopen hfd hsrv hm hposm houtm
    obtain ⟨hmasterc, hheardc⟩ := outs_accepted hopen hfd hsrv hc hposc houtc
    refine ⟨t, out, t', out', houtc, houtm, iff_of_true hmasterc hmasterm, fun d hd hsrvd => ?_⟩
    rcases hsame with heq | ⟨-, href | halone⟩
    · rw [heq, houtm] at houtc
      cases houtc
      rfl
    · exact absurd (refusesFirst_cons.1 href) hm
    · rw [(hheardc d hd).2 ((alone_iff_tested hfd c).1 halone d hd hsrvd),
        (hheardm d hd).2 ((alone_iff_tested hfd m).1 halone d hd hsrvd)]

theorem agree_of_refused (hopen : fd ∉ s.opened) (hfd : fd ∉ s.master) (hm : s.Refuses m) (hc : s.Refuses c) :
    Agree s fd namelist (c :: cs) (m :: ms) := by
  obtain ⟨t, out, houtc, hmasterc, hheardc⟩ := outs_refused hopen hfd hc cs
  obtain ⟨t', out', houtm, hmasterm, hheardm⟩ := outs_refused hopen hfd hm ms
  refine ⟨t, out, t', out', houtc, houtm, iff_of_false hmasterc hmasterm, fun d hd _ => ?_⟩
  rw [hheardc d hd, hheardm d hd]

theorem mem_master_iff {t : Server} {out : List Out} (hopen : fd ∉ s.opened) (hfd : fd ∉ s.master)
    (hsrv : fd ≠ s.srvrFd) (hpos : ∀ x ∈ cs, x ≠ [])
    (hout : s.outs (segmented fd namelist (c :: cs)) = some (t, out)) : fd ∈ t.master ↔ ¬ s.Refuses c := by
  by_cases hc : s.Refuses c
  · obtain ⟨t', out', hout', hmaster, -⟩ := outs_refused hopen hfd hc cs
    cases hout'.symm.trans hout
    exact iff_of_false hmaster fun h => h hc
  · exact iff_of_true (outs_accepted hopen hfd hsrv hc hpos hout).1 hc

/-- The pieces have the effect of the messages exactly when they are unaffected. -/
theorem agree_msgs_iff (hopen : fd ∉ s.opened) (hfd : fd ∉ s.master) (hsrv : fd ≠ s.srvrFd)
    {msgs pieces : List Bytes} (hmsgs : ∀ x ∈ msgs, x.length = msgSize) (hseg : Segments msgs pieces) :
    Agree s fd namelist pieces msgs ↔ s.Unaffected fd namelist msgs pieces := by
  have hmsgpos : ∀ x ∈ msgs, x ≠ [] := fun x hx h0 => by
    have hlen := hmsgs x hx
    rw [h0] at hlen
    cases hlen
  cases msgs with
  | nil => -- no messages, no pieces
    obtain rfl : pieces = [] := by
      refine List.eq_nil_iff_forall_not_mem.2 fun c hc => hseg.pos c hc ?_
      exact List.flatten_eq_nil_iff.1 hseg.flatten c hc
    refine iff_of_true ⟨s, [], s, [], rfl, rfl, Iff.rfl, fun _ _ _ => rfl⟩ ⟨trivial, trivial, .inl rfl⟩
  | cons m ms =>
    obtain ⟨c, cs, rfl⟩ : ∃ c cs, pieces = c :: cs := by
      refine List.exists_cons_of_ne_nil fun h0 => hmsgpos m List.mem_cons_self ?_
      have hflat := hseg.flatten
      rw [h0, List.flatten_nil, eq_comm, List.flatten_cons, List.append_eq_nil_iff] at hflat
      exact hflat.1
    have hposm : ∀ x ∈ ms, x ≠ [] := fun x hx => hmsgpos x (List.mem_cons_of_mem _ hx)
    have hposc : ∀ x ∈ cs, x ≠ [] := fun x hx => hseg.pos x (List.mem_cons_of_mem _ hx)
    by_cases hdec : s.Refuses c ↔ s.Refuses m
    · -- both joins are refused, or both are accepted
      by_cases hm : s.Refuses m
      · have hc := hdec.2 hm
        refine iff_of_true (agree_of_refused hopen hfd hm hc) ?_
        exact ⟨.inl hm, .inl hc, .inr ⟨by simp [hm, hc], .inl (refusesFirst_cons.2 hm)⟩⟩
      · exact agree_iff_of_accepted hopen hfd hsrv hmsgs hseg hm (mt hdec.1 hm)
    · -- the joins already differ
      refine iff_of_false (fun h => hdec ?_) fun h => hdec ?_
      · obtain ⟨t, out, t', out', houtc, houtm, hmaster, -⟩ := h
        rw [mem_master_iff hopen hfd hsrv hposc houtc, mem_master_iff hopen hfd hsrv hposm houtm] at hmaster
        exact not_iff_not.1 hmaster
      · rcases h.same with heq | ⟨href, -⟩
        · cases heq
          rfl
        · simpa using href

end Exact

/-- **When framing does not depend on segmentation.** In every state that can be reached, a client connects and
writes messages. However its bytes arrive, they have the effect of one read for each message if and only if they
are `Unaffected`; and they have the effect of any other pieces that are unaffected in the same case. -/
theorem agree_iff_unaffected (mem : Mem) (maxClnt srvrFd : ℕ) (evs : List Ev) (s : Server)
    (hrun : evs.foldlM Server.next (Server.start mem maxClnt srvrFd) = some s) (fd : ℕ) (hfd : fd ∉ s.opened)
    (namelist : Bytes) (msgs pieces : List Bytes) (hmsgs : ∀ m ∈ msgs, m.length = msgSize)
    (hseg : Segments msgs pieces) :
    (Agree s fd namelist pieces msgs ↔ s.Unaffected fd namelist msgs pieces) ∧
      ∀ others, Segments msgs others → s.Unaffected fd namelist msgs others →
        (Agree s fd namelist pieces others ↔ s.Unaffected fd namelist msgs pieces) := by
  obtain ⟨hmaster, hsrv⟩ := (opened_of_run hrun).fresh hfd
  have hiff : ∀ others, Segments msgs others →
      (Agree s fd namelist others msgs ↔ s.Unaffected fd namelist msgs others) :=
    fun others hothers => agree_msgs_iff hfd hmaster hsrv hmsgs hothers
  refine ⟨hiff pieces hseg, fun others hothers hun => ?_⟩
  have hagree := (hiff others hothers).2 hun
  rw [← hiff pieces hseg]
  exact ⟨fun h => h.trans hagree, fun h => h.trans hagree.symm⟩

/-! ### Two clients -/

/-- The first client, alone in the room: its JOIN message arrives in two pieces. -/
theorem agree_first_ann :
    Agree (Server.start Mem.clear 2 3) 4 [] [joinBytes "ann", zeros 1024] [joinBytes "ann" ++ zeros 1024] := by
  refine (agree_iff_unaffected Mem.clear 2 3 [] _ rfl 4 (by decide) [] _ _ ?_ ?_).1.2 ?_
  · simp [joinBytes, ascii, length_zeros, msgSize]
  · have hzeros : zeros 1024 ≠ [] := List.ne_nil_of_length_pos (by simp [length_zeros])
    refine ⟨by simp, ?_, ?_⟩
    · simp [joinBytes, hzeros]
    · simp [joinBytes, ascii, length_zeros, msgSize]
  · refine ⟨.inr ⟨by unfold Server.Fits; decide, trivial⟩, .inr ⟨by unfold Server.Fits; decide, ?_⟩, .inr ⟨?_, ?_⟩⟩
    · unfold TextsFit TextsFit
      decide
    · rw [refusesFirst_cons, refusesFirst_cons]
      unfold Server.Refuses Server.Taken
      decide
    · right
      intro j hj hj0 d hd hne
      exact absurd (Finset.mem_singleton.1 hd) hne

def textBytes (text : String) : Bytes := [3, 4, 0, 0, 4, 0, 0, 0] ++ ascii text

/-- The second client's message arrives in two pieces, and the first client is sent two texts. -/
theorem not_agree_bob :
    [Ev.connect 4 (joinBytes "ann") []].foldlM Server.next (Server.start Mem.clear 2 3) =
        some ((Server.start Mem.clear 2 3).joined 4 (joinBytes "ann")) ∧
      Segments [joinBytes "bob" ++ zeros 1024, textBytes "hello" ++ zeros 1023]
        [joinBytes "bob" ++ zeros 1024, textBytes "hel", ascii "lo" ++ zeros 1023] ∧
      ¬ Agree ((Server.start Mem.clear 2 3).joined 4 (joinBytes "ann")) 5 []
        [joinBytes "bob" ++ zeros 1024, textBytes "hel", ascii "lo" ++ zeros 1023]
        [joinBytes "bob" ++ zeros 1024, textBytes "hello" ++ zeros 1023] := by
  have hseg : Segments [joinBytes "bob" ++ zeros 1024, textBytes "hello" ++ zeros 1023]
      [joinBytes "bob" ++ zeros 1024, textBytes "hel", ascii "lo" ++ zeros 1023] := by
    refine ⟨?_, ?_, ?_⟩
    · simp [textBytes, ascii]
    · simp [joinBytes, textBytes, ascii]
    · simp [joinBytes, textBytes, ascii, length_zeros, msgSize]
  refine ⟨by rw [List.foldlM_cons, next_start_ann]; rfl, hseg, fun h => ?_⟩
  have hun := (agree_msgs_iff (by decide) (by decide) (by decide) ?_ hseg).1 h
  · rcases hun.same with heq | ⟨-, href | halone⟩
    · simp at heq
    · rw [refusesFirst_cons] at href
      revert href
      unfold Server.Refuses Server.Taken
      decide
    · exact halone 0 (by decide) (by decide) 4 (by decide) (by decide) rfl
  · simp [joinBytes, textBytes, ascii, length_zeros, msgSize]

end TamuProofs.Sbcp
