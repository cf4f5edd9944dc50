import TamuProofs.Tftp.Upload

/-!
# Uploads with retransmissions

A client may send a block again before it moves on to the next one.  The DATA branch does not look at the
number of the block: it writes whatever comes, and answers with its own count.  So a retransmission that
finds the session open is written a second time, and is answered with the number of the next block.

* `calm_iff` — for blocks of text in full packets, each block is written once and all ACKs match exactly when
  no retransmission finds the session open and every block comes in time;
* `grown_upload` — otherwise-clean sessions grow by whole blocks, so that a first block with something left
  over behind it shows in the length of the file (`written_ne_of_not_behind`);
* `writesOnce_iff_undisturbed` — the exact condition for a whole session.
-/

namespace TamuProofs.Tftp

open TamuProofs.Lib

/-! ### The property -/

/-- A block as the client sends it: the pause before its first transmission, the pauses before the
retransmissions, and the payload. -/
structure Entry where
  pause : ℕ
  again : List ℕ
  block : Bytes

def Entry.sends (e : Entry) : List ℕ × Bytes := (e.pause :: e.again, e.block)

/-- A full block of seven-bit text without NUL. -/
structure IsText (b : Bytes) : Prop where
  full : b.length = nobytes
  noNul : 0 ∉ b
  ascii : ∀ x ∈ b, x < 128

theorem IsText.noEof {b : Bytes} (h : IsText b) : eofChar ∉ b := fun he => absurd (h.ascii _ he) (by decide)

/-- Every ACK sent in answer to a DATA packet carries that packet's number. -/
def AcksMatch (hist : List Io) : Prop :=
  ∀ newer dst a src d older, hist = newer ++ .send dst a :: .recv src d :: older →
    a.take 2 = [0, 4] → d.take 2 = [0, 3] → blockNo a = blockNo d

/-- **Each block once, each ACK its own**: the property of a session. -/
structure WritesOnce (es : List Entry) (c : Child) : Prop where
  written : c.written = (es.map Entry.block).flatten
  acks : AcksMatch c.hist

theorem AcksMatch.suffix {hist hist' : List Io} (h : AcksMatch hist') (hs : hist <:+ hist') : AcksMatch hist := by
  obtain ⟨pre, rfl⟩ := hs
  intro newer dst a src d older hh
  exact h (pre ++ newer) dst a src d older (by rw [hh, List.append_assoc])

theorem acksMatch_answer {hist : List Io} (h : AcksMatch hist) (src : Addr) (j k : ℕ) (b : Bytes) :
    AcksMatch (.send src (ackPack k) :: .recv src (dataPack j b) :: hist) ↔ k % 65536 = j % 65536 := by
  constructor
  · intro hh
    have := hh [] src (ackPack k) src (dataPack j b) hist rfl rfl rfl
    rwa [blockNo_ackPack, blockNo_dataPack] at this
  · intro hkj newer dst a src' d older heq ha hd
    match newer, heq with
    | [], heq =>
      cases heq
      rw [blockNo_ackPack, blockNo_dataPack, hkj]
    | [_], heq =>
      simp only [List.cons_append, List.nil_append, List.cons.injEq] at heq
      cases heq.2.1
    | _ :: _ :: newer, heq =>
      simp only [List.cons_append, List.cons.injEq] at heq
      exact h newer dst a src' d older heq.2.2 ha hd

/-! ### The condition -/

/-- Every block comes in time, and no retransmission finds the session open: there is none but, for the last
block, some that come after two timeouts. -/
structure Calm (es : List Entry) : Prop where
  pace : ∀ e ∈ es, e.pause < 2
  once : ∀ e ∈ es.dropLast, e.again = []
  last : ∀ e ∈ es.getLast?, ∀ t ∈ e.again.head?, 2 ≤ t

theorem calm_nil : Calm [] := ⟨by simp, by simp, by simp⟩

theorem calm_cons {e : Entry} {es : List Entry} :
    Calm (e :: es) ↔
      e.pause < 2 ∧ (es ≠ [] → e.again = []) ∧ (es = [] → ∀ t ∈ e.again.head?, 2 ≤ t) ∧ Calm es := by
  cases es with
  | nil =>
    constructor
    · rintro ⟨h1, -, h3⟩
      exact ⟨h1 e List.mem_cons_self, fun h => absurd rfl h, fun _ => h3 e rfl, calm_nil⟩
    · rintro ⟨h1, -, h3, -⟩
      exact ⟨by simpa using h1, by simp, by simpa using h3 rfl⟩
  | cons e' es =>
    constructor
    · rintro ⟨h1, h2, h3⟩
      exact ⟨h1 e List.mem_cons_self, fun _ => h2 e List.mem_cons_self, fun h => absurd h (List.cons_ne_nil _ _),
        fun x hx => h1 x (List.mem_cons_of_mem _ hx), fun x hx => h2 x (List.mem_cons_of_mem _ hx), h3⟩
    · rintro ⟨h1, h2, -, h4⟩
      refine ⟨fun x hx => ?_, fun x hx => ?_, h4.last⟩
      · rcases List.mem_cons.1 hx with rfl | hx
        · exact h1
        · exact h4.pace x hx
      · rcases List.mem_cons.1 hx with rfl | hx
        · exact h2 (List.cons_ne_nil _ _)
        · exact h4.once x hx

/-! ### Blocks of text -/

section Text

variable {c : Child} {k t : ℕ} {b : Bytes}

/-- Behind a full block, a pause changes nothing. -/
theorem leftover_full (t : ℕ) (packet : Bytes) : leftover t packet nobytes = packet.drop (header + nobytes) := by
  unfold leftover
  split
  · rfl
  · show List.drop 511 (packet.drop (header + 1)) = _
    rw [List.drop_drop]
    rfl

theorem cstr_text (h : IsText b) (t : ℕ) (packet : Bytes) :
    cstr (b ++ leftover t packet b.length) = b ++ cstr (packet.drop (header + nobytes)) := by
  rw [cstr_append h.noNul, h.full, leftover_full]

/-- The byte behind a full block is a NUL. -/
def Behind (c : Child) : Prop := c.packet.getD (header + nobytes) 0 = 0

theorem behind_zeros (h : c.packet = zeros maxChar) : Behind c := by
  rw [Behind, h]
  exact getD_zeros _ _

theorem behind_iff : Behind c ↔ cstr (c.packet.drop (header + nobytes)) = [] := by
  rw [cstr_eq_nil_iff, Behind, List.getD_eq_getElem?_getD, List.getD_eq_getElem?_getD, List.getElem?_drop,
    Nat.add_zero]

theorem deliver_text (h : Ready c k) (hbehind : Behind c) (src : Addr) (ht : t < 2) (hb : IsText b) (j : ℕ) :
    ∃ c', deliver src (dataPack j b) t c = c' ∧ c'.written = c.written ++ b ∧
      c'.hist = .send src (ackPack (k + 1)) :: .recv src (dataPack j b) :: c.hist ∧ Ready c' (k + 1) ∧
      Behind c' := by
  have hs : cstr (b ++ leftover t c.packet b.length) = b := by
    rw [cstr_text hb, behind_iff.1 hbehind, List.append_nil]
  obtain ⟨c', hc', hw, hhist, -, -, hrun⟩ := h.deliver src ht hb.full.le j hs
  obtain ⟨hr, hz⟩ := hrun hb.noEof
  exact ⟨c', hc', hw, hhist, hr, behind_zeros hz⟩

theorem upload_sends_cons (src : Addr) (k : ℕ) (e : Entry) (es : List Entry) (c : Child) :
    upload src k ((e :: es).map Entry.sends) c =
      upload src (k + 1) (es.map Entry.sends) (e.again.foldl
        (fun c t => deliver src (dataPack (k + 1) e.block) t c)
        (deliver src (dataPack (k + 1) e.block) e.pause c)) := rfl

theorem upload_late (src : Addr) (h : Ready c k) (d : Bytes) (ht : 2 ≤ t) (ts : List ℕ) (j : ℕ)
    (es : List (List ℕ × Bytes)) :
    (upload src j es (ts.foldl (fun c t => deliver src d t c) (deliver src d t c))).written = c.written ∧
      (upload src j es (ts.foldl (fun c t => deliver src d t c) (deliver src d t c))).hist = c.hist := by
  obtain ⟨hclosed, hidle⟩ := h.deliver_late src d ht
  have hne : (deliver src d t c).status ≠ .running := by simp [hclosed]
  rw [foldl_deliver_of_ne_running hne, upload_of_ne_running hne]
  exact ⟨hidle.written, hidle.hist⟩

theorem session_of_ready (h : Ready c k) : Session c := Or.inl ⟨k, h⟩

theorem length_sends {es : List Entry} (hes : ∀ e ∈ es, IsText e.block) :
    ∀ e ∈ es.map Entry.sends, e.2.length ≤ nobytes := by
  intro e he
  obtain ⟨e', he', rfl⟩ := List.mem_map.1 he
  exact (hes e' he').full.le

theorem flatten_eq_nil_iff {es : List Entry} (hes : ∀ e ∈ es, IsText e.block) :
    (es.map Entry.block).flatten = [] ↔ es = [] := by
  cases es with
  | nil => simp
  | cons e es =>
    have hne : e.block ≠ [] := fun h => by
      have := (hes e List.mem_cons_self).full
      rw [h] at this
      cases this
    simp [hne]

/-- A retransmission does no harm only when the session is over before it and no block follows. -/
theorem again_iff (src : Addr) {es : List Entry} (h : Ready c (k + 1)) (hbehind : Behind c) (hb : IsText b)
    (hes : ∀ e ∈ es, IsText e.block) (hm : AcksMatch c.hist) (a : ℕ) (as : List ℕ) :
    ((upload src (k + 1) (es.map Entry.sends)
          ((a :: as).foldl (fun c t => deliver src (dataPack (k + 1) b) t c) c)).written =
        c.written ++ (es.map Entry.block).flatten ∧
      AcksMatch (upload src (k + 1) (es.map Entry.sends)
        ((a :: as).foldl (fun c t => deliver src (dataPack (k + 1) b) t c) c)).hist) ↔ es = [] ∧ 2 ≤ a := by
  rw [List.foldl_cons]
  by_cases ha : 2 ≤ a
  · rw [(upload_late src h _ ha _ _ _).1, (upload_late src h _ ha _ _ _).2]
    constructor
    · rintro ⟨hw, -⟩
      have hnil : (es.map Entry.block).flatten = [] := by simpa using hw
      exact ⟨(flatten_eq_nil_iff hes).1 hnil, ha⟩
    · rintro ⟨rfl, -⟩
      exact ⟨(List.append_nil _).symm, hm⟩
  · -- it gets the number of the next block
    obtain ⟨c', hc', -, hhist, hr, -⟩ := deliver_text h hbehind src (by omega : a < 2) hb (k + 1)
    have hfold := follows_foldl_deliver src hb.full.le (k + 1) as (session_of_ready hr)
    have hup := follows_upload src (k + 1) (es.map Entry.sends) (length_sends hes) hfold.session
    rw [hc']
    refine iff_of_false (fun hh => ?_) fun hh => ha hh.2
    have := hh.2.suffix (hfold.trans hup).hist
    rw [hhist, acksMatch_answer hm] at this
    omega

/-- **Blocks of text with nothing left over behind them** are written once and answered with their numbers
exactly when the session is calm. -/
theorem calm_iff (src : Addr) : ∀ (es : List Entry) {c : Child} {k : ℕ}, Ready c k → Behind c →
    (∀ e ∈ es, IsText e.block) → AcksMatch c.hist →
    ((upload src k (es.map Entry.sends) c).written = c.written ++ (es.map Entry.block).flatten ∧
      AcksMatch (upload src k (es.map Entry.sends) c).hist ↔ Calm es) := by
  intro es
  induction es with
  | nil =>
    intro c k _ _ _ hm
    exact iff_of_true ⟨(List.append_nil _).symm, hm⟩ calm_nil
  | cons e es ih =>
    intro c k h hbehind hes hm
    have he : IsText e.block := hes e List.mem_cons_self
    have hes' : ∀ e' ∈ es, IsText e'.block := fun e' he' => hes e' (List.mem_cons_of_mem _ he')
    rw [upload_sends_cons, calm_cons]
    by_cases ht : 2 ≤ e.pause
    · -- the block is lost
      rw [(upload_late src h _ ht _ _ _).1]
      refine iff_of_false (fun hh => ?_) fun hh => hh.1.not_ge ht
      have hnil : ((e :: es).map Entry.block).flatten = [] := by simpa using hh.1
      exact absurd ((flatten_eq_nil_iff hes).1 hnil) (List.cons_ne_nil _ _)
    rw [Nat.not_le] at ht
    obtain ⟨c₁, hc₁, hw₁, hhist₁, hr₁, hb₁⟩ := deliver_text h hbehind src ht he (k + 1)
    have hm₁ : AcksMatch c₁.hist := by
      rw [hhist₁, acksMatch_answer hm]
    rw [hc₁, List.map_cons, List.flatten_cons, ← List.append_assoc, ← hw₁]
    cases hagain : e.again with
    | nil => -- the block comes once
      rw [List.foldl_nil, ih hr₁ hb₁ hes' hm₁]
      simp [ht]
    | cons a as => -- a retransmission is written a second time, unless it comes after the end
      rw [again_iff src hr₁ hb₁ he hes' hm₁]
      constructor
      · rintro ⟨rfl, ha⟩
        exact ⟨ht, fun hh => absurd rfl hh, fun _ => by simpa using ha, calm_nil⟩
      · -- only the last block may come again
        rintro ⟨-, hmid, hlast, -⟩
        obtain rfl : es = [] := by
          by_contra hne
          exact List.cons_ne_nil _ _ (hmid hne)
        exact ⟨rfl, hlast rfl a rfl⟩

/-! ### Growing by whole blocks -/

/-- A session that is over, or waits with nothing left over in `packet`. -/
def Whole (c : Child) : Prop := (∃ k, Ready c k ∧ Behind c) ∨ c.status = .closed

/-- The file has grown by whole blocks. -/
def Grown (c c' : Child) : Prop := ∃ m, c'.written.length = c.written.length + nobytes * m

theorem Grown.trans {c' c'' : Child} (h : Grown c c') (h' : Grown c' c'') : Grown c c'' := by
  obtain ⟨m, hm⟩ := h
  obtain ⟨m', hm'⟩ := h'
  exact ⟨m + m', by rw [hm', hm, Nat.mul_add, Nat.add_assoc]⟩

theorem grown_of_eq {c' : Child} (h : c'.written = c.written) : Grown c c' := ⟨0, by rw [h]; rfl⟩

theorem whole_deliver (src : Addr) (h : Whole c) (hb : IsText b) (j t : ℕ) :
    Whole (deliver src (dataPack j b) t c) ∧ Grown c (deliver src (dataPack j b) t c) := by
  rcases h with ⟨k, hr, hbehind⟩ | hclosed
  · by_cases ht : t < 2
    · obtain ⟨c', hc', hw, -, hr', hb'⟩ := deliver_text hr hbehind src ht hb j
      rw [hc']
      exact ⟨Or.inl ⟨_, hr', hb'⟩, 1, by rw [hw, List.length_append, hb.full, Nat.mul_one]⟩
    · obtain ⟨hclosed, hidle⟩ := hr.deliver_late src (dataPack j b) (by omega : 2 ≤ t)
      exact ⟨Or.inr hclosed, grown_of_eq hidle.written⟩
  · rw [deliver_of_ne_running (by simp [hclosed])]
    exact ⟨Or.inr hclosed, grown_of_eq rfl⟩

theorem whole_foldl_deliver (src : Addr) (hb : IsText b) (j : ℕ) (ts : List ℕ) (h : Whole c) :
    Whole (ts.foldl (fun c t => deliver src (dataPack j b) t c) c) ∧
      Grown c (ts.foldl (fun c t => deliver src (dataPack j b) t c) c) := by
  induction ts generalizing c with
  | nil => exact ⟨h, grown_of_eq rfl⟩
  | cons t ts ih =>
    obtain ⟨h1, g1⟩ := whole_deliver src h hb j t
    obtain ⟨h2, g2⟩ := ih h1
    exact ⟨h2, g1.trans g2⟩

theorem grown_upload (src : Addr) (k : ℕ) {es : List Entry} (hes : ∀ e ∈ es, IsText e.block) (h : Whole c) :
    Grown c (upload src k (es.map Entry.sends) c) := by
  induction es generalizing c k with
  | nil => exact grown_of_eq rfl
  | cons e es ih =>
    obtain ⟨h1, g1⟩ := whole_foldl_deliver src (hes e List.mem_cons_self) (k + 1) (e.pause :: e.again) h
    exact g1.trans (ih (k + 1) (fun e' he' => hes e' (List.mem_cons_of_mem _ he')) h1)

theorem length_flatten_text {es : List Entry} (hes : ∀ e ∈ es, IsText e.block) :
    (es.map Entry.block).flatten.length = nobytes * es.length := by
  induction es with
  | nil => rfl
  | cons e es ih =>
    rw [List.map_cons, List.flatten_cons, List.length_append, (hes e List.mem_cons_self).full,
      ih fun e' he' => hes e' (List.mem_cons_of_mem _ he'), List.length_cons, Nat.mul_succ, Nat.add_comm]

/-- **Something left over behind the first block** shows in the length of the file. -/
theorem written_ne_of_not_behind (src : Addr) {e : Entry} {es : List Entry} (h : Ready c k) (hbehind : ¬ Behind c)
    (hlen : c.packet.length = maxChar) (hw₀ : c.written = []) (hes : ∀ e' ∈ e :: es, IsText e'.block) :
    (upload src k ((e :: es).map Entry.sends) c).written ≠ ((e :: es).map Entry.block).flatten := by
  have he : IsText e.block := hes e List.mem_cons_self
  intro heq
  have hcat := congrArg List.length heq
  rw [length_flatten_text hes, List.length_cons] at hcat
  by_cases ht : 2 ≤ e.pause
  · rw [upload_sends_cons, (upload_late src h _ ht _ _ _).1, hw₀, List.length_nil] at hcat
    exact absurd hcat.symm (Nat.mul_ne_zero (by decide) (Nat.succ_ne_zero _))
  rw [Nat.not_le] at ht
  obtain ⟨stale, hstale⟩ : ∃ s, s = cstr (c.packet.drop (header + nobytes)) := ⟨_, rfl⟩
  obtain ⟨c', hc', hw, -, -, hclosed, hrun⟩ := h.deliver src ht he.full.le (k + 1)
    ((cstr_text he _ _).trans (by rw [← hstale]))
  rw [hw₀, List.nil_append] at hw
  -- the session goes on without anything left over, or it is over
  have hwhole : Whole c' := by
    by_cases hff : eofChar ∈ e.block ++ stale
    · exact Or.inr (hclosed hff)
    · exact Or.inl ⟨_, (hrun hff).1, behind_zeros (hrun hff).2⟩
  obtain ⟨h2, g2⟩ := whole_foldl_deliver src he (k + 1) e.again hwhole
  obtain ⟨m, hm⟩ := g2.trans
    (grown_upload src (k + 1) (fun e' he' => hes e' (List.mem_cons_of_mem _ he')) h2)
  rw [upload_sends_cons, hc', hm, hw, List.length_append, he.full] at hcat
  have hpos : stale ≠ [] := fun hnil => hbehind (behind_iff.2 (hstale.symm.trans hnil))
  have hpos' := List.length_pos_iff.2 hpos
  have hlt : stale.length < nobytes := by
    have := length_cstr_le (c.packet.drop (header + nobytes))
    rw [← hstale, List.length_drop, hlen] at this
    exact this.trans_lt (by decide)
  -- so the length is not a multiple of the length of a block
  have hmod : stale.length % nobytes = 0 := by
    have := congrArg (· % nobytes) hcat
    simpa [Nat.add_mod] using this
  rw [Nat.mod_eq_of_lt hlt] at hmod
  omega

end Text

/-! ### The exact condition -/

/-- The session is calm and, if there is a block, the byte behind the first one is a NUL. -/
structure Undisturbed (packet : Bytes) (es : List Entry) : Prop where
  calm : Calm es
  behind : es ≠ [] → packet.getD (header + nobytes) 0 = 0

theorem writesOnce_iff {c : Child} (src : Addr) {es : List Entry} (h : Ready c 0) (hw : c.written = [])
    (hlen : c.packet.length = maxChar) (hm : AcksMatch c.hist) (hes : ∀ e ∈ es, IsText e.block) :
    WritesOnce es (pause 2 (upload src 0 (es.map Entry.sends) c)) ↔ Undisturbed c.packet es := by
  have hfol := follows_upload src 0 (es.map Entry.sends) (length_sends hes) (session_of_ready h)
  obtain ⟨-, hidle⟩ := hfol.session.silence
  have honce : WritesOnce es (pause 2 (upload src 0 (es.map Entry.sends) c)) ↔
      (upload src 0 (es.map Entry.sends) c).written = (es.map Entry.block).flatten ∧
        AcksMatch (upload src 0 (es.map Entry.sends) c).hist := by
    rw [← hidle.written, ← hidle.hist]
    exact ⟨fun h => ⟨h.written, h.acks⟩, fun h => ⟨h.1, h.2⟩⟩
  rw [honce]
  by_cases hbehind : Behind c
  · have key := calm_iff src es h hbehind hes hm
    rw [hw, List.nil_append] at key
    rw [key]
    exact ⟨fun hc => ⟨hc, fun _ => hbehind⟩, fun hc => hc.calm⟩
  · cases es with
    | nil => exact iff_of_true ⟨hw, hm⟩ ⟨calm_nil, fun h => absurd rfl h⟩
    | cons e es =>
      refine iff_of_false (fun hh => ?_) fun hh => hbehind (hh.behind (List.cons_ne_nil _ _))
      exact written_ne_of_not_behind src h hbehind hlen hw hes hh.1

/-- The ACK of the request answers no DATA packet. -/
theorem acksMatch_request {packet req : Bytes} (src : Addr) (hop : opcode (recvInto packet req) = 2) :
    AcksMatch [.send src (ackPack 0), .recv src req] := by
  intro newer dst a src' d older heq _ hd
  obtain rfl : d = req := by
    match newer, heq with
    | [], heq => cases heq; rfl
    | [_], heq => simp at heq
    | _ :: _ :: newer, heq => simp at heq
  match d, hd with
  | x :: y :: rest, hd =>
    obtain ⟨rfl, rfl⟩ : x = 0 ∧ y = 3 := by simpa using hd
    exact absurd (show (3 : UInt8) = 2 from hop) (by decide)

theorem length_recvInto {packet : Bytes} (h : packet.length = maxChar) (d : Bytes) :
    (recvInto packet d).length = maxChar := by
  rw [recvInto, length_blit, h]
  rw [Nat.zero_add, h]
  exact List.length_take_le _ _

section Start

variable {mem : Mem} {fs : FileSys} {req filename mode : Bytes}

/-- **Retransmissions**: for every upload of text in full blocks with any retransmissions, each block is
written once and every ACK carries the number of the packet it answers if and only if the session is
undisturbed. -/
theorem writesOnce_iff_undisturbed (src : Addr) (hop : opcode (recvInto mem.packet req) = 2)
    (hreq : parseReq (recvInto mem.packet req) = some (filename, mode)) (hfile : fs.fopenWx filename = true)
    (es : List Entry) (hes : ∀ e ∈ es, IsText e.block) :
    WritesOnce es (pause 2 (upload src 0 (es.map Entry.sends) (Child.start mem fs src req))) ↔
      Undisturbed (recvInto mem.packet req) es := by
  obtain ⟨c, hc, hready, hpack, hw, -, hhist⟩ := ready_start src hop hreq hfile
  have hlen : c.packet.length = maxChar := hpack ▸ length_recvInto mem.packet_length req
  rw [hc, ← hpack]
  exact writesOnce_iff src hready hw hlen (hhist ▸ acksMatch_request src hop) hes

def letters : Bytes := List.replicate nobytes 97

theorem isText_letters : IsText letters := by
  refine ⟨List.length_replicate, fun h => ?_, fun x hx => ?_⟩
  · exact absurd (List.eq_of_mem_replicate h) (by decide)
  · rw [List.eq_of_mem_replicate hx]
    decide

theorem opcode_request_write : opcode (recvInto Mem.clear.packet (request 2 "octet")) = 2 := by decide

theorem getD_recvInto_clear {d : Bytes} {i : ℕ} (hd : d.length ≤ maxChar) (hi : d.length ≤ i) :
    (recvInto Mem.clear.packet d).getD i 0 = 0 := by
  rw [recvInto, List.take_of_length_le hd, blit_zero, List.getD_eq_getElem?_getD, List.getElem?_append_right hi,
    List.getElem?_drop, ← List.getD_eq_getElem?_getD]
  exact getD_zeros _ _

theorem writesOnce_letters :
    WritesOnce [⟨1, [], letters⟩] (pause 2 (upload 0 0 ([⟨1, [], letters⟩].map Entry.sends)
      (Child.start Mem.clear FileSys.empty 0 (request 2 "octet")))) :=
  (writesOnce_iff_undisturbed 0 (by decide) parseReq_request_write (by decide) [⟨1, [], letters⟩]
    (by simpa using isText_letters)).2
    ⟨⟨by simp, by simp, by simp⟩, fun _ => getD_recvInto_clear (by decide) (by decide)⟩

/-- A block that is sent twice is written twice. -/
theorem not_writesOnce_retransmitted :
    ¬ WritesOnce [⟨0, [0], letters⟩] (pause 2 (upload 0 0 ([⟨0, [0], letters⟩].map Entry.sends)
      (Child.start Mem.clear FileSys.empty 0 (request 2 "octet")))) := by
  obtain ⟨c, hc, hready, hpack, hw, -, hhist⟩ := ready_request_write
  have hm : AcksMatch c.hist := hhist ▸ acksMatch_request 0 opcode_request_write
  have hlen : c.packet.length = maxChar := hpack ▸ length_recvInto Mem.clear.packet_length _
  rw [hc, writesOnce_iff 0 hready hw hlen hm (by simpa using isText_letters)]
  intro h
  exact absurd (h.calm.last _ rfl 0 rfl) (by decide)

end Start

end TamuProofs.Tftp
