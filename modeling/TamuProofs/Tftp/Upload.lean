import TamuProofs.Tftp.Download

/-!
# Uploads: a client that sends its file block by block

A write session writes, for each DATA packet, the string that starts behind the header in `packet`, and
answers with an ACK that carries its own count of the blocks.

* `Taking.data` — one DATA packet: the string is appended, the ACK goes out, and the session is over if the
  string holds the byte `0xFF`;
* `Ready.deliver` — the same after a pause; with two timeouts or more the session is over and the packet lost;
* `upload_clean` — from the second block on nothing is left over in `packet`, and a file without NUL is
  stored as it is, if no block but the last holds `0xFF` and the client keeps the pace;
* `upload_iff` — hence the exact condition for a whole upload.  The first block is different: `packet` still
  holds the request, and what the block does not cover is taken for part of the file.
-/

namespace TamuProofs.Tftp

open TamuProofs.Lib

/-! ### One DATA packet -/

/-- A write session that has taken `k` blocks. -/
structure Taking (c : Child) (k : ℕ) : Prop where
  running : c.status = .running
  read : c.readFlag = false
  write : c.writeFlag = true
  mode : c.modeFlag ≠ 1
  nextch : c.nextch = eofChar
  stop : c.stopFlag = false
  block : c.blockNumber = (k + 1) % 65536

theorem putLoop_eq {modeFlag : ℤ} (hm : modeFlag ≠ 1) : ∀ (data w : Bytes) (stop : Bool),
    putLoop modeFlag data { written := w, nextch := eofChar, stopFlag := stop } =
      { written := w ++ data, nextch := eofChar, stopFlag := stop || decide (eofChar ∈ data) } := by
  intro data
  induction data with
  | nil => intro w stop; simp [putLoop]
  | cons ch data ih =>
    intro w stop
    have heof : ¬ 0 ≤ charVal eofChar := by decide
    rw [putLoop, if_neg heof]
    simp only [if_neg hm]
    rw [ih]
    simp only [charVal_eq_neg_one_iff, List.append_assoc, List.singleton_append, Put.mk.injEq, true_and]
    by_cases h : ch = eofChar
    · simp [h]
    · simp [h, Ne.symm h]

section Steps

variable {c : Child} {k t : ℕ} {b : Bytes}

theorem onData_write (hr : c.readFlag = false) (hw : c.writeFlag = true) (hm : c.modeFlag ≠ 1)
    (hn : c.nextch = eofChar) (hs : c.stopFlag = false) {s : Bytes} (hstr : cstr (c.packet.drop header) = s) :
    ∃ c', c.onData = c' ∧ c'.written = c.written ++ s ∧
      c'.hist = .send c.clientAddr ([0, 4] ++ blockBytes (c.blockNumber % 65536)) :: c.hist ∧
      c'.created = c.created ∧ c'.readFlag = false ∧ c'.writeFlag = true ∧ c'.modeFlag = c.modeFlag ∧
      c'.nextch = eofChar ∧ c'.blockNumber = (c.blockNumber + 1) % 65536 ∧ c'.timeCount = c.timeCount ∧
      c'.stopFlag = decide (eofChar ∈ s) ∧ c'.status = if eofChar ∈ s then .closed else c.status := by
  have hacc : ¬ (c.readFlag = true ∨ ¬ c.writeFlag = true) := by simp [hr, hw]
  simp only [Child.onData]
  rw [if_neg hacc, hstr, hn, hs, putLoop_eq hm, Bool.false_or]
  by_cases h : eofChar ∈ s
  · refine ⟨_, if_pos (decide_eq_true h), rfl, hist_transmit _ _, rfl, hr, hw, rfl, rfl, rfl, rfl, rfl, ?_⟩
    rw [if_pos h]
  · have hd : ¬ decide (eofChar ∈ s) = true := by simp [h]
    refine ⟨_, if_neg hd, rfl, hist_transmit _ _, rfl, hr, hw, rfl, rfl, rfl, rfl, rfl, ?_⟩
    rw [if_neg h]
    rfl

/-- **One DATA packet of a write session.** -/
theorem Taking.data (h : Taking c k) (src : Addr) {d s : Bytes} (hop : opcode (recvInto c.packet d) = 3)
    (hstr : cstr ((recvInto c.packet d).drop header) = s) :
    ∃ c', c.step (.recv src d) = c' ∧ c'.written = c.written ++ s ∧
      c'.hist = .send src (ackPack (k + 1)) :: .recv src d :: c.hist ∧ c'.created = c.created ∧
      (eofChar ∈ s → c'.status = .closed) ∧
      (eofChar ∉ s → Taking c' (k + 1) ∧ c'.packet = zeros maxChar ∧ c'.timeCount = 0) := by
  obtain ⟨c', hc', hw, hhist, hcr, hrf, hwf, hmode, hnext, hblock, htime, hstop, hstatus⟩ :=
    onData_write (c := c.received src d) h.read h.write h.mode h.nextch h.stop hstr
  have hack : [0, 4] ++ blockBytes ((c.received src d).blockNumber % 65536) = ackPack (k + 1) := by
    rw [show (c.received src d).blockNumber = (k + 1) % 65536 from h.block, Nat.mod_mod]
    rfl
  rw [hack] at hhist
  rw [step_recv h.running, dispatch_data (c := c.received src d) hop, hc']
  by_cases he : eofChar ∈ s
  · -- 0xFF counts as the end of the file, whatever comes behind it
    rw [if_pos he] at hstatus
    rw [clearPacket_of_ne (by simp [hstatus])]
    exact ⟨c', rfl, hw, hhist, hcr, fun _ => hstatus, fun h' => absurd he h'⟩
  · have hrun : c'.status = .running := by
      rw [if_neg he] at hstatus
      exact hstatus.trans h.running
    have hb : c'.blockNumber = (k + 1 + 1) % 65536 := by
      rw [hblock, show (c.received src d).blockNumber = (k + 1) % 65536 from h.block]
      omega
    rw [clearPacket_running hrun]
    refine ⟨_, rfl, hw, hhist, hcr, fun h' => absurd h' he, fun _ => ⟨⟨hrun, hrf, hwf, ?_, hnext, ?_, hb⟩, rfl,
      htime⟩⟩
    · exact hmode ▸ h.mode
    · exact hstop.trans (decide_eq_false he)

/-- What is found behind the header: the payload, and behind it what was in `packet` before. -/
theorem drop_recvInto_dataPack (packet : Bytes) (j : ℕ) (hb : b.length ≤ nobytes) :
    (recvInto packet (dataPack j b)).drop header = b ++ packet.drop (header + b.length) := by
  have hlen : (dataPack j b).length ≤ maxChar := by
    rw [length_dataPack]
    exact (Nat.add_le_add_right hb 4).trans (by decide)
  have hadd : (dataPack j b).length = header + b.length := by rw [length_dataPack, Nat.add_comm]; rfl
  rw [recvInto, List.take_of_length_le hlen, blit_zero, hadd]
  rfl

theorem opcode_recvInto_dataPack (packet : Bytes) (j : ℕ) (b : Bytes) :
    opcode (recvInto packet (dataPack j b)) = 3 := rfl

/-! ### Pauses -/

/-- What a write session keeps while nothing is received. -/
structure Idle (c c' : Child) : Prop where
  written : c'.written = c.written
  hist : c'.hist = c.hist
  created : c'.created = c.created

theorem onTimeout_write (hr : c.readFlag = false) (hw : c.writeFlag = true) :
    c.onTimeout =
      let c' := { c with
        packet := blit c.packet 0 ([0, 3] ++ blockBytes (c.blockNumber % 65536) ++ [0])
        timeCount := c.timeCount + 1 }
      if 2 ≤ c'.timeCount then { c' with stopFlag := true, status := .closed } else c' := by
  simp [Child.onTimeout, hr, hw]

/-- A session that waits for a block, with no timeout counted. -/
structure Ready (c : Child) (k : ℕ) : Prop extends Taking c k where
  time : c.timeCount = 0

/-- The first timeout puts a DATA header and a NUL into `packet`. -/
theorem Ready.timeout (h : Ready c k) :
    ∃ c', c.step .timeout = c' ∧ Taking c' k ∧ c'.timeCount = 1 ∧ Idle c c' ∧
      c'.packet.drop header = 0 :: c.packet.drop (header + 1) := by
  have h2 : ¬ 2 ≤ c.timeCount + 1 := by rw [h.time]; decide
  refine ⟨_, ((step_timeout h.running).trans (onTimeout_write h.read h.write)).trans (if_neg h2), ?_, ?_,
    ⟨rfl, rfl, rfl⟩, ?_⟩
  · exact ⟨h.running, h.read, h.write, h.mode, h.nextch, h.stop, h.block⟩
  · exact congrArg (· + 1) h.time
  · rw [blit_zero]
    rfl

theorem Taking.timeout_closed (h : Taking c k) (ht : c.timeCount = 1) :
    (c.step .timeout).status = .closed ∧ Idle c (c.step .timeout) := by
  have h2 : 2 ≤ c.timeCount + 1 := by rw [ht]
  rw [step_timeout h.running, onTimeout_write h.read h.write, if_pos h2]
  exact ⟨rfl, rfl, rfl, rfl⟩

theorem Ready.pause_lt (h : Ready c k) (ht : t < 2) :
    Taking (pause t c) k ∧ Idle c (pause t c) ∧
      (pause t c).packet.drop header = if t = 0 then c.packet.drop header else 0 :: c.packet.drop (header + 1) := by
  obtain rfl | rfl : t = 0 ∨ t = 1 := by omega
  · exact ⟨h.toTaking, ⟨rfl, rfl, rfl⟩, rfl⟩
  · obtain ⟨c', hc', htak, -, hidle, hpack⟩ := h.timeout
    rw [pause, hc']
    exact ⟨htak, hidle, hpack⟩

theorem Ready.pause_ge (h : Ready c k) (ht : 2 ≤ t) : (pause t c).status = .closed ∧ Idle c (pause t c) := by
  obtain ⟨t, rfl⟩ := Nat.exists_eq_add_of_le' ht
  obtain ⟨c', hc', htak, htime, hidle, -⟩ := h.timeout
  obtain ⟨hclosed, hidle'⟩ := htak.timeout_closed htime
  rw [pause, hc', pause, pause_of_ne_running (by simp [hclosed])]
  exact ⟨hclosed, hidle'.written.trans hidle.written, hidle'.hist.trans hidle.hist,
    hidle'.created.trans hidle.created⟩

/-! ### A DATA packet after a pause -/

def deliver (src : Addr) (d : Bytes) (t : ℕ) (c : Child) : Child := (pause t c).step (.recv src d)

theorem deliver_of_ne_running (h : c.status ≠ .running) (src : Addr) (d : Bytes) : deliver src d t c = c := by
  rw [deliver, pause_of_ne_running h, step_of_ne_running h]

/-- What is left in `packet` behind a payload of `n` bytes. -/
def leftover (t : ℕ) (packet : Bytes) (n : ℕ) : Bytes :=
  if t = 0 then packet.drop (header + n) else (0 :: packet.drop (header + 1)).drop n

theorem leftover_zeros (t n : ℕ) : (leftover t (zeros maxChar) n).getD 0 0 = 0 := by
  unfold leftover
  split
  · exact getD_drop_zeros _ _ 0
  · cases n with
    | zero => rfl
    | succ n =>
      rw [List.drop_succ_cons, List.drop_drop]
      exact getD_drop_zeros _ _ 0

/-- **A block in time**: the string found in `packet` is written and acknowledged. -/
theorem Ready.deliver (h : Ready c k) (src : Addr) (ht : t < 2) (hb : b.length ≤ nobytes) (j : ℕ) {s : Bytes}
    (hs : cstr (b ++ leftover t c.packet b.length) = s) :
    ∃ c', deliver src (dataPack j b) t c = c' ∧ c'.written = c.written ++ s ∧
      c'.hist = .send src (ackPack (k + 1)) :: .recv src (dataPack j b) :: c.hist ∧ c'.created = c.created ∧
      (eofChar ∈ s → c'.status = .closed) ∧
      (eofChar ∉ s → Ready c' (k + 1) ∧ c'.packet = zeros maxChar) := by
  obtain ⟨htak, hidle, hpack⟩ := h.pause_lt ht
  have hleft : (pause t c).packet.drop (header + b.length) = leftover t c.packet b.length := by
    rw [← List.drop_drop, hpack, leftover]
    split
    · rw [List.drop_drop]
    · rfl
  obtain ⟨c', hc', hw, hhist, hcr, hclosed, hrun⟩ := htak.data src (opcode_recvInto_dataPack _ j b)
    ((congrArg cstr (drop_recvInto_dataPack _ j hb)).trans (hleft ▸ hs))
  refine ⟨c', hc', by rw [hw, hidle.written], by rw [hhist, hidle.hist], hcr.trans hidle.created, hclosed,
    fun he => ?_⟩
  obtain ⟨h1, h2, h3⟩ := hrun he
  exact ⟨⟨h1, h3⟩, h2⟩

theorem Ready.deliver_late (h : Ready c k) (src : Addr) (d : Bytes) (ht : 2 ≤ t) :
    (Tftp.deliver src d t c).status = .closed ∧ Idle c (Tftp.deliver src d t c) := by
  obtain ⟨hclosed, hidle⟩ := h.pause_ge ht
  rw [Tftp.deliver, step_of_ne_running (by simp [hclosed])]
  exact ⟨hclosed, hidle⟩

end Steps

/-! ### Whole uploads -/

/-- The blocks of an upload, the first of which is block `k + 1`: each entry has the pauses before the
transmissions of its block. -/
def upload (src : Addr) : ℕ → List (List ℕ × Bytes) → Child → Child
  | _, [], c => c
  | k, (ts, b) :: es, c => upload src (k + 1) es (ts.foldl (fun c t => deliver src (dataPack (k + 1) b) t c) c)

def once (e : ℕ × Bytes) : List ℕ × Bytes := ([e.1], e.2)

/-- A history, and after it the DATA packets of the blocks from `k + 1` on, each with its ACK. -/
def answered (src : Addr) : ℕ → List Bytes → List Io → List Io
  | _, [], hist => hist
  | k, b :: bs, hist =>
    answered src (k + 1) bs (.send src (ackPack (k + 1)) :: .recv src (dataPack (k + 1) b) :: hist)

theorem length_answered (src : Addr) (k : ℕ) (bs : List Bytes) (hist : List Io) :
    (answered src k bs hist).length = hist.length + 2 * bs.length := by
  induction bs generalizing k hist with
  | nil => rfl
  | cons b bs ih =>
    rw [answered, ih, List.length_cons, List.length_cons, List.length_cons]
    omega

theorem eq_answered_self_iff {src : Addr} {k : ℕ} {bs : List Bytes} {hist : List Io} :
    hist = answered src k bs hist ↔ bs = [] := by
  constructor
  · intro h
    have := congrArg List.length h
    rw [length_answered] at this
    apply List.length_eq_zero_iff.1
    omega
  · rintro rfl
    rfl

section Uploads

variable {c c' : Child} {k t : ℕ} {src : Addr}

theorem foldl_deliver_of_ne_running (h : c.status ≠ .running) (d : Bytes) (ts : List ℕ) :
    ts.foldl (fun c t => deliver src d t c) c = c := by
  induction ts with
  | nil => rfl
  | cons t ts ih => rw [List.foldl_cons, deliver_of_ne_running h, ih]

theorem upload_of_ne_running (h : c.status ≠ .running) (k : ℕ) (es : List (List ℕ × Bytes)) :
    upload src k es c = c := by
  induction es generalizing k with
  | nil => rfl
  | cons e es ih => rw [upload, foldl_deliver_of_ne_running h, ih]

/-- A write session that waits or is over. -/
def Session (c : Child) : Prop := (∃ k, Ready c k) ∨ c.status = .closed

/-- What every upload keeps: the file, the history so far, and that no NUL is ever written. -/
structure Follows (c c' : Child) : Prop where
  session : Session c'
  created : c'.created = c.created
  written : ∃ w, c'.written = c.written ++ w ∧ 0 ∉ w
  hist : c.hist <:+ c'.hist

theorem Follows.refl (h : Session c) : Follows c c := ⟨h, rfl, ⟨[], by simp⟩, List.suffix_rfl⟩

theorem Follows.trans {c'' : Child} (h : Follows c c') (h' : Follows c' c'') : Follows c c'' := by
  obtain ⟨w, hw, h0⟩ := h.written
  obtain ⟨w', hw', h0'⟩ := h'.written
  refine ⟨h'.session, h'.created.trans h.created, ⟨w ++ w', ?_, ?_⟩, h.hist.trans h'.hist⟩
  · rw [hw', hw, List.append_assoc]
  · simp [h0, h0']

theorem Idle.follows (h : Idle c c') (hclosed : c'.status = .closed) : Follows c c' :=
  ⟨Or.inr hclosed, h.created, ⟨[], by simp [h.written]⟩, h.hist ▸ List.suffix_rfl⟩

theorem follows_deliver (src : Addr) (h : Session c) {b : Bytes} (hb : b.length ≤ nobytes) (j t : ℕ) :
    Follows c (deliver src (dataPack j b) t c) := by
  rcases h with ⟨k, hk⟩ | hclosed
  · by_cases ht : t < 2
    · obtain ⟨c', hc', hw, hhist, hcr, hclosed, hrun⟩ := hk.deliver src ht hb j rfl
      rw [hc']
      refine ⟨?_, hcr, ⟨_, hw, zero_notMem_cstr _⟩, ?_⟩
      · by_cases he : eofChar ∈ cstr (b ++ leftover t c.packet b.length)
        · exact Or.inr (hclosed he)
        · exact Or.inl ⟨_, (hrun he).1⟩
      · rw [hhist]
        exact (List.suffix_cons _ _).trans (List.suffix_cons _ _)
    · obtain ⟨hclosed, hidle⟩ := hk.deliver_late src (dataPack j b) (by omega : 2 ≤ t)
      exact hidle.follows hclosed
  · rw [deliver_of_ne_running (by simp [hclosed])]
    exact Follows.refl (Or.inr hclosed)

theorem follows_foldl_deliver (src : Addr) {b : Bytes} (hb : b.length ≤ nobytes) (j : ℕ) (ts : List ℕ)
    (h : Session c) :
    Follows c (ts.foldl (fun c t => deliver src (dataPack j b) t c) c) := by
  induction ts generalizing c with
  | nil => exact Follows.refl h
  | cons t ts ih =>
    have h1 := follows_deliver src h hb j t
    exact h1.trans (ih h1.session)

theorem follows_upload (src : Addr) (k : ℕ) (es : List (List ℕ × Bytes)) (hes : ∀ e ∈ es, e.2.length ≤ nobytes)
    (h : Session c) :
    Follows c (upload src k es c) := by
  induction es generalizing c k with
  | nil => exact Follows.refl h
  | cons e es ih =>
    have h1 := follows_foldl_deliver src (hes e List.mem_cons_self) (k + 1) e.1 h
    exact h1.trans (ih (k + 1) (fun e' he' => hes e' (List.mem_cons_of_mem _ he')) h1.session)

theorem Session.silence (h : Session c) : (pause 2 c).status = .closed ∧ Idle c (pause 2 c) := by
  rcases h with ⟨k, hk⟩ | hclosed
  · exact hk.pause_ge (Nat.le_refl 2)
  · rw [pause_of_ne_running (by simp [hclosed])]
    exact ⟨hclosed, rfl, rfl, rfl⟩

/-- A string that ends where the payload ends. -/
theorem cstr_append_leftover {b rest : Bytes} (h0 : 0 ∉ b) (hrest : rest.getD 0 0 = 0) : cstr (b ++ rest) = b := by
  rw [cstr_append h0, cstr_eq_nil_iff.2 hrest, List.append_nil]

/-- The client keeps the pace, and no block but the last holds `0xFF`. -/
structure Steady (es : List (ℕ × Bytes)) : Prop where
  pace : ∀ e ∈ es, e.1 < 2
  noEof : ∀ b ∈ (es.map Prod.snd).dropLast, eofChar ∉ b

theorem steady_cons {b : Bytes} {es : List (ℕ × Bytes)} :
    Steady ((t, b) :: es) ↔ t < 2 ∧ (es ≠ [] → eofChar ∉ b) ∧ Steady es := by
  by_cases hnil : es = []
  · subst hnil
    exact ⟨fun h => ⟨h.pace _ List.mem_cons_self, fun h' => absurd rfl h', by simp, by simp⟩,
      fun h => ⟨by simpa using h.1, by simp⟩⟩
  · have hne : es.map Prod.snd ≠ [] := fun h => hnil (List.map_eq_nil_iff.1 h)
    constructor
    · rintro ⟨hp, hff⟩
      rw [List.map_cons, List.dropLast_cons_of_ne_nil hne] at hff
      exact ⟨hp _ List.mem_cons_self, fun _ => hff b List.mem_cons_self,
        fun e he => hp e (List.mem_cons_of_mem _ he), fun b' hb' => hff b' (List.mem_cons_of_mem _ hb')⟩
    · rintro ⟨ht, hb, hp, hff⟩
      refine ⟨fun e he => ?_, fun b' hb' => ?_⟩
      · rcases List.mem_cons.1 he with rfl | he
        · exact ht
        · exact hp e he
      · rw [List.map_cons, List.dropLast_cons_of_ne_nil hne] at hb'
        rcases List.mem_cons.1 hb' with rfl | hb'
        · exact hb hnil
        · exact hff b' hb'

theorem upload_once_cons (src : Addr) (k : ℕ) (b : Bytes) (es : List (ℕ × Bytes)) :
    upload src k (((t, b) :: es).map once) c =
      upload src (k + 1) (es.map once) (deliver src (dataPack (k + 1) b) t c) := rfl

theorem answered_cons (src : Addr) (k : ℕ) (b : Bytes) (es : List (ℕ × Bytes)) (hist : List Io) :
    answered src k (((t, b) :: es).map Prod.snd) hist = answered src (k + 1) (es.map Prod.snd)
      (.send src (ackPack (k + 1)) :: .recv src (dataPack (k + 1) b) :: hist) := rfl

theorem Ready.late_ne_answered (src : Addr) (h : Ready c k) (ht : 2 ≤ t) (b : Bytes) (es : List (ℕ × Bytes)) :
    (upload src k (((t, b) :: es).map once) c).hist ≠ answered src k (((t, b) :: es).map Prod.snd) c.hist := by
  obtain ⟨hclosed, hidle⟩ := h.deliver_late src (dataPack (k + 1) b) ht
  rw [upload_once_cons, upload_of_ne_running (by simp [hclosed]), hidle.hist, answered_cons]
  intro heq
  have := congrArg List.length heq
  rw [length_answered, List.length_cons, List.length_cons] at this
  omega

/-- **With nothing left over in `packet`**, blocks without NUL are all answered exactly when the upload is
steady; and then they are stored as they are. -/
theorem upload_clean (src : Addr) : ∀ (es : List (ℕ × Bytes)) {c : Child} {k : ℕ}, Ready c k →
    c.packet = zeros maxChar → (∀ e ∈ es, e.2.length ≤ nobytes) → 0 ∉ (es.map Prod.snd).flatten →
    ((upload src k (es.map once) c).hist = answered src k (es.map Prod.snd) c.hist ↔ Steady es) ∧
    (Steady es → (upload src k (es.map once) c).written = c.written ++ (es.map Prod.snd).flatten) := by
  intro es
  induction es with
  | nil =>
    intro c k _ _ _ _
    exact ⟨iff_of_true rfl ⟨by simp, by simp⟩, fun _ => (List.append_nil _).symm⟩
  | cons e es ih =>
    obtain ⟨t, b⟩ := e
    intro c k h hpack hes h0
    by_cases ht : 2 ≤ t
    · have hns : ¬ Steady ((t, b) :: es) := fun hst => (steady_cons.1 hst).1.not_ge ht
      exact ⟨iff_of_false (h.late_ne_answered src ht b es) hns, fun hst => absurd hst hns⟩
    rw [Nat.not_le] at ht
    rw [List.map_cons, List.flatten_cons, List.mem_append, not_or] at h0
    have hs : cstr (b ++ leftover t c.packet b.length) = b :=
      cstr_append_leftover h0.1 (hpack ▸ leftover_zeros t b.length)
    obtain ⟨c', hc', hw, hhist, -, hclosed, hrun⟩ := h.deliver src ht (hes _ List.mem_cons_self) (k + 1) hs
    rw [upload_once_cons, answered_cons, hc', ← hhist, steady_cons, List.map_cons, List.flatten_cons]
    by_cases he : eofChar ∈ b
    · -- the session is over with this block
      rw [upload_of_ne_running (by simp [hclosed he]), eq_answered_self_iff, List.map_eq_nil_iff]
      refine ⟨⟨?_, fun hst => ?_⟩, fun hst => ?_⟩
      · rintro rfl
        exact ⟨ht, fun h => absurd rfl h, by simp, by simp⟩
      · by_contra hne
        exact hst.2.1 hne he
      · obtain rfl : es = [] := by
          by_contra hne
          exact hst.2.1 hne he
        simpa using hw
    · obtain ⟨hr, hz⟩ := hrun he
      obtain ⟨i1, i2⟩ := ih hr hz (fun e' he' => hes e' (List.mem_cons_of_mem _ he')) h0.2
      rw [i1]
      refine ⟨⟨fun hst => ⟨ht, fun _ => he, hst⟩, fun hst => hst.2.2⟩, fun hst => ?_⟩
      rw [i2 hst.2.2, hw, List.append_assoc]

end Uploads

/-! ### The exact condition -/

/-- **What an upload is for**: after the blocks of `content` and then silence the session is over, the file
holds `content`, and each block was answered by the ACK with its number. -/
structure Stored (src : Addr) (filename content : Bytes) (c₀ c : Child) : Prop where
  ended : c.status = .closed
  created : c.created = some filename
  written : c.written = content
  answers : c.hist = answered src 0 (chunks nobytes (by decide) content) c₀.hist

/-- When `packet` holds these bytes at the first block: the content has no NUL, the upload is steady, and the
byte behind the first block is a NUL. -/
structure Harmless (packet : Bytes) (es : List (ℕ × Bytes)) (content : Bytes) : Prop where
  noNul : 0 ∉ content
  steady : Steady es
  behind : ∀ e ∈ es.head?, (leftover e.1 packet e.2.length).getD 0 0 = 0

section Exact

variable {c : Child} {src : Addr} {es : List (ℕ × Bytes)} {content : Bytes}

theorem upload_iff (src : Addr) {t : ℕ} {b : Bytes} (h : Ready c 0) (hw₀ : c.written = [])
    (h0 : 0 ∉ b ++ (es.map Prod.snd).flatten) (hb : b.length ≤ nobytes) (hes : ∀ e ∈ es, e.2.length ≤ nobytes) :
    ((upload src 0 (((t, b) :: es).map once) c).hist = answered src 0 (((t, b) :: es).map Prod.snd) c.hist ∧
      (upload src 0 (((t, b) :: es).map once) c).written = b ++ (es.map Prod.snd).flatten) ↔
      Steady ((t, b) :: es) ∧ (leftover t c.packet b.length).getD 0 0 = 0 := by
  by_cases ht : 2 ≤ t
  · exact iff_of_false (fun hh => h.late_ne_answered src ht b es hh.1)
      fun hh => (steady_cons.1 hh.1).1.not_ge ht
  rw [Nat.not_le] at ht
  rw [List.mem_append, not_or] at h0
  obtain ⟨c', hc', hw, hhist, -, hclosed, hrun⟩ := h.deliver src ht hb 1 (cstr_append h0.1)
  rw [hw₀, List.nil_append] at hw
  rw [upload_once_cons, answered_cons, hc', ← hhist, ← cstr_eq_nil_iff, steady_cons]
  -- what `strlen` counts behind the block is the start of an older datagram
  generalize cstr (leftover t c.packet b.length) = stale at *
  by_cases he : eofChar ∈ b ++ stale
  · -- a byte 0xFF ends the session after this block
    rw [upload_of_ne_running (by simp [hclosed he]), eq_answered_self_iff, List.map_eq_nil_iff, hw]
    constructor
    · rintro ⟨rfl, hst⟩
      have hnil : stale = [] := by simpa using hst
      exact ⟨⟨ht, fun h => absurd rfl h, by simp, by simp⟩, hnil⟩
    · rintro ⟨⟨-, hne, -⟩, rfl⟩
      rw [List.append_nil] at he
      obtain rfl : es = [] := by
        by_contra hes
        exact hne hes he
      exact ⟨rfl, by simp⟩
  · -- the session goes on
    obtain ⟨hr, hz⟩ := hrun he
    obtain ⟨i1, i2⟩ := upload_clean src es hr hz hes h0.2
    rw [i1]
    constructor
    · rintro ⟨hst, hcontent⟩
      rw [i2 hst, hw] at hcontent
      have hnil : stale = [] := by simpa using hcontent
      exact ⟨⟨ht, fun _ hb' => he (List.mem_append_left _ hb'), hst⟩, hnil⟩
    · rintro ⟨⟨-, -, hst⟩, rfl⟩
      rw [i2 hst, hw, List.append_nil]
      exact ⟨hst, rfl⟩

/-- **An upload is stored, exactly when it is harmless.** -/
theorem stored_iff {filename : Bytes} (h : Ready c 0) (hw₀ : c.written = []) (hcr : c.created = some filename)
    (hes : es.map Prod.snd = chunks nobytes (by decide) content) :
    Stored src filename content c (pause 2 (upload src 0 (es.map once) c)) ↔ Harmless c.packet es content := by
  have hlen : ∀ e ∈ es, e.2.length ≤ nobytes := fun e he =>
    length_of_mem_chunks content e.2 (hes ▸ List.mem_map_of_mem he)
  have hfol : Follows c (upload src 0 (es.map once) c) := by
    refine follows_upload src 0 _ (fun e he => ?_) (Or.inl ⟨0, h⟩)
    obtain ⟨e', he', rfl⟩ := List.mem_map.1 he
    exact hlen e' he'
  obtain ⟨hover, hidle⟩ := hfol.session.silence
  -- a session with no event left is over after two more timeouts, and these write nothing
  have hstored : Stored src filename content c (pause 2 (upload src 0 (es.map once) c)) ↔
      (upload src 0 (es.map once) c).hist = answered src 0 (es.map Prod.snd) c.hist ∧
        (upload src 0 (es.map once) c).written = content := by
    constructor
    · rintro ⟨-, -, h3, h4⟩
      exact ⟨by rw [← hidle.hist, h4, hes], by rw [← hidle.written, h3]⟩
    · rintro ⟨h3, h4⟩
      exact ⟨hover, hidle.created.trans (hfol.created.trans hcr), hidle.written.trans h4,
        by rw [hidle.hist, h3, hes]⟩
  rw [hstored]
  by_cases h0 : 0 ∈ content
  · -- a NUL is never written
    refine iff_of_false (fun hh => ?_) fun hh => hh.noNul h0
    obtain ⟨w, hw, hw0⟩ := hfol.written
    rw [hh.2, hw₀, List.nil_append] at hw
    exact hw0 (hw ▸ h0)
  have hflat : (es.map Prod.snd).flatten = content := by rw [hes, chunks_flatten]
  cases es with
  | nil => exact absurd hes.symm (chunks_ne_nil content)
  | cons e es =>
    obtain ⟨t, b⟩ := e
    have hcat : b ++ (es.map Prod.snd).flatten = content := hflat
    have key := upload_iff src (t := t) h hw₀ (hcat.symm ▸ h0) (hlen _ List.mem_cons_self)
      fun e he => hlen e (List.mem_cons_of_mem _ he)
    rw [hcat] at key
    rw [key]
    constructor
    · rintro ⟨hst, hb⟩
      exact ⟨h0, hst, by simpa using hb⟩
    · rintro ⟨-, hst, hb⟩
      exact ⟨hst, hb (t, b) rfl⟩

end Exact

section Start

variable {mem : Mem} {fs : FileSys} {req filename mode : Bytes}

theorem ready_start (src : Addr) (hop : opcode (recvInto mem.packet req) = 2)
    (hreq : parseReq (recvInto mem.packet req) = some (filename, mode)) (hfile : fs.fopenWx filename = true) :
    ∃ c, Child.start mem fs src req = c ∧ Ready c 0 ∧ c.packet = recvInto mem.packet req ∧ c.written = [] ∧
      c.created = some filename ∧ c.hist = [.send src (ackPack 0), .recv src req] := by
  refine ⟨_, (start_wrq hop src).trans (wrq_created (c := Child.forked mem src req) hreq hfile), ?_, rfl, rfl,
    rfl, hist_transmit _ _⟩
  exact ⟨⟨rfl, rfl, rfl, show (-1 : ℤ) ≠ 1 by decide, rfl, rfl, rfl⟩, rfl⟩

/-- **Uploads**: for every content and all pauses of the client, the server stores what was sent if and only
if the upload is harmless. -/
theorem upload_stored_iff_harmless (src : Addr) (hop : opcode (recvInto mem.packet req) = 2)
    (hreq : parseReq (recvInto mem.packet req) = some (filename, mode)) (hfile : fs.fopenWx filename = true)
    (content : Bytes) (es : List (ℕ × Bytes)) (hes : es.map Prod.snd = chunks nobytes (by decide) content) :
    Stored src filename content (Child.start mem fs src req)
        (pause 2 (upload src 0 (es.map once) (Child.start mem fs src req))) ↔
      Harmless (recvInto mem.packet req) es content := by
  obtain ⟨c, hc, hready, hpack, hw, hcr, -⟩ := ready_start src hop hreq hfile
  rw [hc, ← hpack]
  exact stored_iff hready hw hcr hes

def FileSys.empty : FileSys := { file := fun _ => none, creatable := fun _ => true }

theorem parseReq_request_write :
    parseReq (recvInto Mem.clear.packet (request 2 "octet")) = some (ascii "f", ascii "octet") := by
  decide

theorem upload_stored_text :
    Stored 0 (ascii "f") (ascii "hello, world") (Child.start Mem.clear FileSys.empty 0 (request 2 "octet"))
      (pause 2 (upload 0 0 ([(1, ascii "hello, world")].map once)
        (Child.start Mem.clear FileSys.empty 0 (request 2 "octet")))) :=
  (upload_stored_iff_harmless 0 (by decide) parseReq_request_write (by decide) (ascii "hello, world")
    [(1, ascii "hello, world")] (chunks_of_lt (by decide)).symm).2
    ⟨by decide, ⟨by decide, by decide⟩, by decide⟩

theorem ready_request_write :
    ∃ c, Child.start Mem.clear FileSys.empty 0 (request 2 "octet") = c ∧ Ready c 0 ∧
      c.packet = recvInto Mem.clear.packet (request 2 "octet") ∧ c.written = [] ∧ c.created = some (ascii "f") ∧
      c.hist = [.send 0 (ackPack 0), .recv 0 (request 2 "octet")] :=
  ready_start 0 (by decide) parseReq_request_write (by decide)

/-- Of a file that is one NUL, nothing is stored. -/
theorem not_upload_stored_nul :
    ¬ Stored 0 (ascii "f") [0] (Child.start Mem.clear FileSys.empty 0 (request 2 "octet"))
      (pause 2 (upload 0 0 ([(0, [0])].map once) (Child.start Mem.clear FileSys.empty 0 (request 2 "octet")))) := by
  obtain ⟨c, hc, hready, -, hw, hcr, -⟩ := ready_request_write
  have hes : [((0 : ℕ), ([0] : Bytes))].map Prod.snd = chunks nobytes (by decide) [0] :=
    (chunks_of_lt (by decide)).symm
  rw [hc, stored_iff hready hw hcr hes]
  exact fun h => h.noNul List.mem_cons_self

end Start

end TamuProofs.Tftp
