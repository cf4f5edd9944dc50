import TamuProofs.Tftp.Download

/-!
# Does a netascii download end early?

The two loops over `getc` store its result in a `char` and compare it with `EOF`, so a byte `0xFF` of the file
ends the transfer like the end of the file.  A client acknowledges each block once, after fewer than ten
timeouts (`paced`).

* `Reads` — what is sent and what is pending are together the encoding of the text of the file, up to the
  first `0xFF`; once `stop_flag` is set, all of it is sent (`Read`);
* `Reads.pause`, `Reads.ackAfter` — timeouts and ACKs keep it (`Stands`), and an ACK leaves less to send;
* `Reads.ends` — hence the session comes to its end;
* `never_early_iff` — and the server gets through the file exactly when there is no `0xFF` in it.
-/

namespace TamuProofs.Tftp

open TamuProofs.Lib

/-- The payloads of the packets that were sent for the first time, in order. -/
def sentPayloads : List Io → List Bytes
  | [] => []
  | .send _ d :: hist => sentPayloads hist ++ [d.drop header]
  | .recv _ _ :: hist => sentPayloads hist
  | .resend _ _ :: hist => sentPayloads hist

/-- **Not too early**: if `stop_flag` is set or a short block is out, nothing is left of the file and all of it
has been translated and sent. -/
def NotEarly (file : Bytes) (c : Child) : Prop :=
  c.stopFlag = true ∨ (∃ b ∈ sentPayloads c.hist, b.length < nobytes) →
    c.fp = [] ∧ (sentPayloads c.hist).flatten = netascii file

/-! ### Where a netascii session stands -/

/-- All of the text of the file is sent. -/
structure Read (file : Bytes) (c : Child) : Prop where
  stop : c.stopFlag = true
  sent : (sentPayloads c.hist).flatten = netascii (text file)
  past : c.fp = (pastText file).tail

/-- Part of it is sent, in full blocks, and the rest is pending. -/
structure Rest (file : Bytes) (c : Child) : Prop where
  stop : c.stopFlag = false
  sent : (sentPayloads c.hist).flatten ++ pendingOf c.nextch (text c.fp) = netascii (text file)
  past : pastText c.fp = pastText file
  full : ∀ b ∈ sentPayloads c.hist, b.length = nobytes

/-- A netascii session that goes on. -/
structure Reads (file : Bytes) (c : Child) : Prop where
  running : c.status = .running
  read : c.readFlag = true
  write : c.writeFlag = false
  mode : c.modeFlag = 1
  file : Rest file c ∨ Read file c

section Steps

variable {c : Child} {file : Bytes}

/-- How much is left to send: nothing once `stop_flag` is set. -/
def toSend (c : Child) : ℕ := if c.stopFlag then 0 else (pendingOf c.nextch (text c.fp)).length + 1

theorem Reads.timeout (h : Reads file c) (ht : c.timeCount < 9) :
    ∃ c', c.step .timeout = c' ∧ Reads file c' ∧ toSend c' = toSend c ∧ c'.timeCount = c.timeCount + 1 := by
  refine ⟨_, (step_timeout h.running).trans (onTimeout_read h.read h.write ht), ?_, rfl, rfl⟩
  refine ⟨h.running, h.read, h.write, h.mode, ?_⟩
  exact h.file.imp (fun h => ⟨h.stop, h.sent, h.past, h.full⟩) fun h => ⟨h.stop, h.sent, h.past⟩

theorem Reads.pause {t : ℕ} (h : Reads file c) (ht : c.timeCount + t < 10) :
    Reads file (pause t c) ∧ toSend (Tftp.pause t c) = toSend c := by
  refine pause_inv (I := fun c' => Reads file c' ∧ toSend c' = toSend c) ?_ ⟨h, rfl⟩ ht
  rintro c₁ ⟨h₁, hleft₁⟩ ht₁
  obtain ⟨c', hc', h', hleft, htime⟩ := h₁.timeout ht₁
  rw [hc']
  exact ⟨⟨h', hleft.trans hleft₁⟩, htime⟩

/-- **One more block** behind the blocks `sent`, which `g` starts with and `f` ends with: it is full and what
is left is shorter by it, or it is the last one and the text is sent. -/
theorem rest_or_read {f g : Fill} (sent : List Bytes) (h : Fills nobytes g f) (hdata : g.data = [])
    (hstop : g.stopFlag = false) (hsent : sent.flatten ++ pendingOf g.nextch (text g.fp) = netascii (text file))
    (hpast : pastText g.fp = pastText file) (hfull : ∀ b ∈ sent, b.length = nobytes)
    (hhist : sentPayloads c.hist = sent ++ [f.data]) (hnextch : c.nextch = f.nextch) (hfp : c.fp = f.fp)
    (hflag : c.stopFlag = f.stopFlag) :
    (Rest file c ∨ Read file c) ∧ toSend c ≤ (pendingOf g.nextch (text g.fp)).length := by
  obtain ⟨h1, h2, -, h4, h5⟩ := h
  rw [hdata, List.nil_append] at h1
  rw [hstop, Bool.false_or] at h2
  have hflat : (sentPayloads c.hist).flatten = sent.flatten ++ f.data := by simp [hhist]
  by_cases hlt : (pendingOf g.nextch (text g.fp)).length < nobytes
  · -- the rest does not fill the buffer
    have hs : c.stopFlag = true := by rw [hflag, h2, decide_eq_true hlt]
    refine ⟨Or.inr ⟨hs, ?_, by rw [hfp, (h5 hlt).2, hpast]⟩, by simp [toSend, hs]⟩
    rw [hflat, h1, List.take_of_length_le hlt.le, hsent]
  · -- the rest goes on behind the block
    have hle : nobytes ≤ (pendingOf g.nextch (text g.fp)).length := Nat.le_of_not_lt hlt
    have hs : c.stopFlag = false := by rw [hflag, h2, decide_eq_false hlt]
    obtain ⟨hp, hr⟩ := h4 hle
    refine ⟨Or.inl ⟨hs, ?_, by rw [hfp, hr, hpast], ?_⟩, ?_⟩
    · rw [hflat, hnextch, hfp, hp, h1, List.append_assoc, List.take_append_drop, hsent]
    · rw [hhist]
      intro b hb
      rcases List.mem_append.1 hb with hb | hb
      · exact hfull b hb
      · rw [List.mem_singleton.1 hb, h1, List.length_take, Nat.min_eq_left hle]
    · have h512 : 0 < nobytes := by decide
      rw [toSend, hs, hnextch, hfp, hp, List.length_drop]
      simp only [Bool.false_eq_true, if_false]
      omega

theorem opcode_ackOf (packet d : Bytes) : opcode (recvInto packet (ackOf d)) = 4 := rfl

theorem nextData_netascii (hmode : c.modeFlag = 1) (hstop : c.stopFlag = false) :
    ∃ f, Fills nobytes { data := [], nextch := c.nextch, fp := c.fp, stopFlag := false } f ∧
      c.nextData = (f.data, { c with nextch := f.nextch, fp := f.fp, stopFlag := f.stopFlag }) := by
  have h0 : ¬ c.modeFlag = 0 := by rw [hmode]; decide
  rw [← hstop]
  exact ⟨_, fills_ackLoop nobytes _, if_neg h0⟩

theorem Reads.ack_next (h : Reads file c) (hrest : Rest file c) (src : Addr) (d : Bytes) :
    ∃ c', c.step (.recv src (ackOf d)) = c' ∧ Reads file c' ∧ c'.timeCount = 0 ∧ toSend c' < toSend c := by
  obtain ⟨f, hf, hnext⟩ := nextData_netascii (c := c.asked src (ackOf d)) h.mode hrest.stop
  have hstep := step_asked src h.running h.read h.write hrest.stop (opcode_ackOf c.packet d)
  have hhist := hist_asked_transmit c src (ackOf d)
    (dataPack (c.blockNumber + 1) (c.asked src (ackOf d)).nextData.1)
  rw [hnext] at hstep hhist
  have hsent : sentPayloads (Io.send src (dataPack (c.blockNumber + 1) f.data) :: .recv src (ackOf d) :: c.hist) =
      sentPayloads c.hist ++ [f.data] := rfl
  rw [← hhist] at hsent
  obtain ⟨c', hc', h1, h2, h3, h4, hreads, htime⟩ :
      ∃ c', c.step (.recv src (ackOf d)) = c' ∧ sentPayloads c'.hist = sentPayloads c.hist ++ [f.data] ∧
        c'.nextch = f.nextch ∧ c'.fp = f.fp ∧ c'.stopFlag = f.stopFlag ∧
        (Rest file c' ∨ Read file c' → Reads file c') ∧ c'.timeCount = 0 :=
    ⟨_, hstep, hsent, rfl, rfl, rfl, fun hfile => ⟨h.running, h.read, h.write, h.mode, hfile⟩, rfl⟩
  obtain ⟨hfile, hle⟩ := rest_or_read _ hf rfl rfl hrest.sent hrest.past hrest.full h1 h2 h3 h4
  refine ⟨c', hc', hreads hfile, htime, Nat.lt_of_le_of_lt hle ?_⟩
  rw [toSend, hrest.stop]
  exact Nat.lt_succ_self _

theorem Reads.ack_stop (h : Reads file c) (hread : Read file c) (src : Addr) (d : Bytes) :
    ∃ c', c.step (.recv src (ackOf d)) = c' ∧ c'.status = .closed ∧ Read file c' := by
  refine ⟨{ c.received src (ackOf d) with sendPack := zeros 517, status := .closed }, ?_, rfl, hread.stop,
    hread.sent, hread.past⟩
  rw [step_recv h.running, dispatch_ack (opcode_ackOf c.packet d),
    onAck_stop (c := c.received src (ackOf d)) h.read h.write hread.stop, clearPacket_of_ne (by simp)]

/-- Where a netascii session stands after an ACK: it goes on, or it is over and the text is sent. -/
def Stands (file : Bytes) (c : Child) : Prop :=
  Reads file c ∧ c.timeCount = 0 ∨ c.status = .closed ∧ Read file c

/-- **A pause and an ACK.** -/
theorem Reads.ackAfter {t : ℕ} (h : Reads file c) (ht : c.timeCount + t < 10) :
    (Tftp.pause t c).status = .running ∧
      ((Reads file (ackAfter t c) ∧ (Tftp.ackAfter t c).timeCount = 0) ∧ toSend (Tftp.ackAfter t c) < toSend c ∨
        (Tftp.ackAfter t c).status = .closed ∧ Read file (Tftp.ackAfter t c)) := by
  obtain ⟨hp, hleft⟩ := h.pause ht
  refine ⟨hp.running, ?_⟩
  rw [← hleft]
  rcases hp.file with hrest | hread
  · obtain ⟨c', hc', hreads, htime, hlt⟩ := hp.ack_next hrest _ (lastSent (Tftp.pause t c).hist)
    rw [Tftp.ackAfter, Child.ackEv, hc']
    exact Or.inl ⟨⟨hreads, htime⟩, hlt⟩
  · obtain ⟨c', hc', hclosed, hread'⟩ := hp.ack_stop hread _ (lastSent (Tftp.pause t c).hist)
    rw [Tftp.ackAfter, Child.ackEv, hc']
    exact Or.inr ⟨hclosed, hread'⟩

/-- **After every ACK** the session stands somewhere. -/
theorem Stands.paced {ts : ℕ → ℕ} (hts : ∀ k, ts k < 10) (h : Stands file c) (n : ℕ) :
    Stands file (paced ts n c) := by
  induction n generalizing c ts with
  | zero => exact h
  | succ n ih =>
    refine ih (fun k => hts (k + 1)) ?_
    rcases h with ⟨hreads, htime⟩ | ⟨hclosed, hread⟩
    · have ht := hts 0
      rcases (hreads.ackAfter (by omega : c.timeCount + ts 0 < 10)).2 with ⟨hnext, -⟩ | hover
      · exact Or.inl hnext
      · exact Or.inr hover
    · have hne : c.status ≠ .running := by simp [hclosed]
      rw [ackAfter, pause_of_ne_running hne, step_of_ne_running hne]
      exact Or.inr ⟨hclosed, hread⟩

/-- **The session comes to its end**, since every ACK leaves less to send. -/
theorem Reads.ends {ts : ℕ → ℕ} (hts : ∀ k, ts k < 10) (h : Reads file c) (htime : c.timeCount = 0) :
    ∃ n, EndsAt ts n c := by
  induction hm : toSend c using Nat.strong_induction_on generalizing c ts with
  | _ m ih =>
    have ht := hts 0
    obtain ⟨hrun, hnext⟩ := h.ackAfter (by omega : c.timeCount + ts 0 < 10)
    rcases hnext with ⟨⟨hreads, htime'⟩, hlt⟩ | ⟨hclosed, -⟩
    · obtain ⟨n, hn⟩ := ih _ (hm ▸ hlt) (fun k => hts (k + 1)) hreads htime' rfl
      exact ⟨n + 1, (endsAt_succ ts n c).2 ⟨hrun, hn⟩⟩
    · exact ⟨1, (endsAt_succ ts 0 c).2 ⟨hrun, fun k hk => absurd hk (Nat.not_lt_zero k), hclosed⟩⟩

end Steps

/-! ### Whole downloads -/

theorem length_netascii_append (l r : Bytes) :
    (netascii (l ++ r)).length = (netascii l).length + (netascii r).length := by
  rw [netascii, netascii, netascii, List.flatMap_append, List.length_append]

theorem netascii_ne_nil {l : Bytes} (h : l ≠ []) : netascii l ≠ [] := by
  cases l with
  | nil => exact absurd rfl h
  | cons b l => rw [translate_spec]; exact List.cons_ne_nil _ _

/-- The encoding of the text is that of the whole file only if there is nothing behind the text. -/
theorem netascii_text_ne {file : Bytes} (h : eofChar ∈ file) : netascii (text file) ≠ netascii file := by
  have hsplit : text file ++ pastText file = file := List.takeWhile_append_dropWhile
  have hne : pastText file ≠ [] := by
    intro hnil
    have := List.dropWhile_eq_nil_iff.1 hnil eofChar h
    simp at this
  intro heq
  have hlen := length_netascii_append (text file) (pastText file)
  rw [hsplit, ← heq] at hlen
  apply netascii_ne_nil hne
  apply List.length_eq_zero_iff.1
  omega

section Start

variable {mem : Mem} {fs : FileSys} {req filename mode file : Bytes}

theorem reads_start (src : Addr) (hop : opcode (recvInto mem.packet req) = 1)
    (hreq : parseReq (recvInto mem.packet req) = some (filename, mode)) (hmode : isNetascii mode = true)
    (hfile : fs.fopenR filename = some file) :
    ∃ c, Child.start mem fs src req = c ∧ Reads file c ∧ c.timeCount = 0 := by
  have hloop := rrqLoop_eq_ackLoop nobytes { data := [], nextch := eofChar, fp := file, stopFlag := false } rfl
  have hf := fills_ackLoop nobytes { data := [], nextch := eofChar, fp := file, stopFlag := false }
  refine ⟨_, (start_rrq hop src).trans
    (rrq_netascii (c := Child.forked mem src req) hreq hmode hfile hloop), ⟨rfl, rfl, rfl, rfl, ?_⟩, rfl⟩
  refine (rest_or_read [] hf rfl rfl ?_ rfl (by simp) ?_ rfl rfl rfl).1
  · rw [pendingOf_eof]
    rfl
  · show sentPayloads (Child.transmit _ _).hist = _
    rw [hist_transmit]
    rfl

/-- Without a byte `0xFF`, the text is the file. -/
theorem Stands.notEarly {c : Child} (h : Stands file c) (he : eofChar ∉ file) : NotEarly file c := by
  have hread : Read file c → c.fp = [] ∧ (sentPayloads c.hist).flatten = netascii file := fun hr => by
    have hpast := hr.past
    have hsent := hr.sent
    rw [pastText_eq_nil he] at hpast
    rw [text_eq_self he] at hsent
    exact ⟨hpast, hsent⟩
  intro hend
  rcases h with ⟨hreads, -⟩ | ⟨-, hr⟩
  · rcases hreads.file with hrest | hr
    · -- no block is short yet
      exfalso
      rcases hend with hs | ⟨b, hb, hlt⟩
      · exact Bool.noConfusion (hs.symm.trans hrest.stop)
      · exact absurd (hrest.full b hb) hlt.ne
    · exact hread hr
  · exact hread hr

/-- With one, the session is over before the end of the file. -/
theorem Stands.early {c : Child} (h : Stands file c) (hclosed : c.status = .closed) (he : eofChar ∈ file) :
    ¬ NotEarly file c := by
  intro hne
  rcases h with ⟨hgoing, -⟩ | ⟨-, hread⟩
  · exact absurd hgoing.running (by simp [hclosed])
  · obtain ⟨-, hall⟩ := hne (Or.inl hread.stop)
    exact netascii_text_ne he (hread.sent.symm.trans hall)

theorem netascii_session (src : Addr) (hop : opcode (recvInto mem.packet req) = 1)
    (hreq : parseReq (recvInto mem.packet req) = some (filename, mode)) (hmode : isNetascii mode = true)
    (hfile : fs.fopenR filename = some file) {ts : ℕ → ℕ} (hts : ∀ k, ts k < 10) :
    (∃ n, EndsAt ts n (Child.start mem fs src req)) ∧
      ∀ n, Stands file (paced ts n (Child.start mem fs src req)) := by
  obtain ⟨c, hc, hreads, htime⟩ := reads_start src hop hreq hmode hfile
  rw [hc]
  exact ⟨hreads.ends hts htime, Stands.paced hts (Or.inl ⟨hreads, htime⟩)⟩

/-- **Which netascii downloads do not end early**: a client that acknowledges every block once always comes to
the end of the session, and the server sets `stop_flag` and sends the short block only with the whole file
translated and sent if and only if the file has no byte `0xFF`. -/
theorem never_early_iff (src : Addr) (hop : opcode (recvInto mem.packet req) = 1)
    (hreq : parseReq (recvInto mem.packet req) = some (filename, mode)) (hmode : isNetascii mode = true)
    (hfile : fs.fopenR filename = some file) {ts : ℕ → ℕ} (hts : ∀ k, ts k < 10) :
    (∃ n, EndsAt ts n (Child.start mem fs src req)) ∧
      ((∀ n, NotEarly file (paced ts n (Child.start mem fs src req))) ↔ eofChar ∉ file) := by
  obtain ⟨⟨n, hn⟩, hstands⟩ := netascii_session src hop hreq hmode hfile hts
  refine ⟨⟨n, hn⟩, fun h he => ?_, fun he n => (hstands n).notEarly he⟩
  exact (hstands n).early hn.2 he (h n)

theorem never_early_one_line :
    eofChar ∉ [97, 10] ∧ NotEarly [97, 10] (paced (fun _ => 3) 1
      (Child.start Mem.clear (FileSys.single [97, 10]) 0 (request 1 "netascii"))) :=
  ⟨by decide, (never_early_iff 0 (by decide) parseReq_request_netascii (by decide) (by rfl)
    (fun _ => by decide)).2.2 (by decide) 1⟩

/-- Of the file `a`, `0xFF`, `b` the client gets the one letter `a`. -/
theorem not_never_early_eof :
    ¬ ∀ n, NotEarly [97, 0xFF, 98] (paced (fun _ => 0) n
      (Child.start Mem.clear (FileSys.single [97, 0xFF, 98]) 0 (request 1 "netascii"))) := by
  have hts : ∀ k, (fun _ : ℕ => 0) k < 10 := fun _ => Nat.succ_pos 9
  have hfile : (FileSys.single [97, 0xFF, 98]).fopenR (ascii "f") = some [97, 0xFF, 98] := rfl
  obtain ⟨⟨n, hn⟩, hstands⟩ := netascii_session 0 (by decide) parseReq_request_netascii (by decide) hfile hts
  intro h
  exact (hstands n).early hn.2 (by decide) (h n)

end Start

end TamuProofs.Tftp
