import TamuProofs.Echo.SocketIo
import TamuProofs.Lib.Text

/-!
# The echo server (`Server::echo`)

The child reads up to 255 bytes into a cleared buffer, leaves its loop if the string there is `quit\n`, and writes
the string back otherwise.  It looks neither at how many bytes `read` returned nor at the lines they are cut into, and
when the client has closed the connection it goes on reading nothing.

* `Session` — the stream of a client as the calls of `read` deliver it, and what the calls of `write` return;
* `run_cases` — what the child has sent after any number of turns;
* **`echoes_iff_atQuit`** — the child does what an echo server should exactly when a call of `read` begins at the
  quit line and returns nothing else, and nothing before gets in the way.
-/

namespace TamuProofs.Echo

open TamuProofs.Lib

/-- Where the child is: in its loop, out of it by `return 2`, or gone by `exit(1)`. -/
inductive ChildStatus where
  | looping | left | exited
  deriving DecidableEq

structure Child where
  errno : ℕ
  sent : Bytes
  status : ChildStatus

/-- What the system calls of one turn return: `none` is -1. -/
structure Turn where
  read : Option Bytes
  writes : List WriteRet

def quitLine : Bytes := ascii "quit\n"

/-- `buffer` after `bzero` and `read`. -/
def readBuffer (bytes : Bytes) : Bytes := blit (zeros 256) 0 bytes

/-- One turn of the loop. There is no result if `writen` does not return. -/
def Child.turn (c : Child) (t : Turn) : Option Child :=
  if c.status = .looping then
    match t.read with
    | none => some { c with status := .exited }
    | some bytes =>
      let text := cstr (readBuffer bytes)
      if text = quitLine then some { c with status := .left }
      else
        match t.writes.foldlM Writen.step (Writen.start (readBuffer bytes) text.length c.errno) with
        | none => none
        | some w =>
          match w.returned with
          | none => none
          | some v =>
            some { errno := w.errno, sent := c.sent ++ w.sent, status := if v = -1 then .exited else .looping }
  else some c

/-- A client that sends a stream and closes the connection: the pieces in which `read` returns the stream, and for
every turn what `write` returns. -/
structure Session where
  pieces : List Bytes
  ne_nil : ∀ p ∈ pieces, p ≠ []
  le : ∀ p ∈ pieces, p.length ≤ 255
  writes : ℕ → List WriteRet
  errno : ℕ

def Session.piece (s : Session) (n : ℕ) : Bytes := s.pieces.getD n []

def Session.run (s : Session) : ℕ → Option Child
  | 0 => some { errno := s.errno, sent := [], status := .looping }
  | n + 1 => (s.run n).bind fun c => c.turn { read := some (s.piece n), writes := s.writes n }

def Session.WritesAll (s : Session) : Prop := ∀ n, ∃ c, s.run n = some c ∧ c.status ≠ .exited

/-- The part of a text before its first line `quit`. -/
def beforeQuit (text : Bytes) : Bytes := ((lines text).takeWhile (· ≠ quitLine)).flatten

/-- **What an echo server does**: it sends back the stream up to the first line `quit`, and leaves its loop. -/
def Session.Echoes (s : Session) : Prop :=
  ∃ n c, s.run n = some c ∧ c.status = .left ∧ c.sent = beforeQuit s.pieces.flatten

/-- The stream has a line `quit` and no NUL before it, a call of `read` begins there and returns the line, alone or
with a NUL behind it, and no call before returns the same. -/
def Session.AtQuit (s : Session) : Prop :=
  ∃ before p after, s.pieces = before ++ p :: after ∧ quitLine ∈ lines s.pieces.flatten ∧
    before.flatten = beforeQuit s.pieces.flatten ∧ 0 ∉ before.flatten ∧ quitLine ∉ before ∧ cstr p = quitLine

/-! ### One turn -/

section Turn

theorem cstr_readBuffer (bytes : Bytes) : cstr (readBuffer bytes) = cstr bytes := by
  rw [readBuffer, blit_zero, zeros, List.drop_replicate]
  exact cstr_append_zeros _ _

variable {c c' : Child} {p : Bytes} {writes : List WriteRet}

theorem turn_spec (hc : c.status = .looping) (ht : c.turn { read := some p, writes := writes } = some c')
    (hw : c'.status ≠ .exited) :
    cstr p = quitLine ∧ c' = { c with status := .left } ∨
      cstr p ≠ quitLine ∧ c'.status = .looping ∧ c'.sent = c.sent ++ cstr p := by
  unfold Child.turn at ht
  rw [if_pos hc] at ht
  dsimp only at ht
  split at ht
  · rename_i hquit
    cases ht
    exact Or.inl ⟨(cstr_readBuffer p).symm.trans hquit, rfl⟩
  rename_i hquit
  split at ht
  · cases ht
  rename_i w hrun
  split at ht
  · cases ht
  rename_i v hret
  cases ht
  have hinv := writenInv_of_run hrun
  rcases hinv.returned v hret with ⟨rfl, hall⟩ | ⟨rfl, -⟩
  · -- `writen` has sent the whole line
    refine Or.inr ⟨fun h => hquit ((cstr_readBuffer p).trans h), ?_, ?_⟩
    · dsimp only
      rw [if_neg (by omega)]
    · show c.sent ++ w.sent = c.sent ++ cstr p
      rw [hinv.sent, hall, ← List.prefix_iff_eq_take.1 (cstr_prefix_self _), cstr_readBuffer]
  · -- `writen` has failed, and the child has ended
    exact absurd rfl hw

end Turn

/-! ### All turns -/

section Run

variable {s : Session}

theorem flatten_map_cstr_take_succ (s : Session) (n : ℕ) : ((s.pieces.take (n + 1)).map cstr).flatten =
    ((s.pieces.take n).map cstr).flatten ++ cstr (s.piece n) := by
  rw [List.take_add_one, List.map_append, List.flatten_append, Session.piece, List.getD_eq_getElem?_getD]
  cases s.pieces[n]? <;> simp

/-- **After `n` turns** the child has sent the strings of the pieces, unless one of them was `quit\n`. -/
theorem run_cases_echo (hw : s.WritesAll) (n : ℕ) :
    ∃ c, s.run n = some c ∧
      (c.status = .looping ∧ c.sent = ((s.pieces.take n).map cstr).flatten ∧ (∀ i < n, cstr (s.piece i) ≠ quitLine) ∨
        ∃ k < n, c.status = .left ∧ c.sent = ((s.pieces.take k).map cstr).flatten ∧
          (∀ i < k, cstr (s.piece i) ≠ quitLine) ∧ cstr (s.piece k) = quitLine) := by
  induction n with
  | zero => exact ⟨_, rfl, Or.inl ⟨rfl, rfl, fun i hi => absurd hi (by omega)⟩⟩
  | succ n ih =>
    obtain ⟨c, hc, hcases⟩ := ih
    obtain ⟨c', hc', hexit⟩ := hw (n + 1)
    have hturn : c.turn { read := some (s.piece n), writes := s.writes n } = some c' := by
      rw [← hc', Session.run, hc]
      rfl
    refine ⟨c', hc', ?_⟩
    rcases hcases with ⟨hloop, hsent, hno⟩ | ⟨k, hk, hleft, hrest⟩
    · rcases turn_spec hloop hturn hexit with ⟨hquit, rfl⟩ | ⟨hquit, hloop', hsent'⟩
      · exact Or.inr ⟨n, by omega, rfl, hsent, hno, hquit⟩
      · refine Or.inl ⟨hloop', ?_, fun i hi => ?_⟩
        · rw [hsent', hsent, flatten_map_cstr_take_succ]
        · rcases Nat.lt_succ_iff_lt_or_eq.1 hi with hi | rfl
          · exact hno i hi
          · exact hquit
    · have hsame : c = c' := by
        rw [Child.turn, if_neg (by simp [hleft])] at hturn
        exact Option.some.inj hturn
      exact Or.inr ⟨k, by omega, hsame ▸ ⟨hleft, hrest⟩⟩

end Run

/-! ### The quit line -/

/-- Behind `beforeQuit` there is nothing, or the quit line. -/
theorem beforeQuit_append (text : Bytes) :
    ∃ rest, beforeQuit text ++ rest = text ∧
      (rest = [] ∨ quitLine ∈ lines text ∧ ∃ tail, rest = quitLine ++ tail) := by
  refine ⟨((lines text).dropWhile (· ≠ quitLine)).flatten, ?_, ?_⟩
  · rw [beforeQuit, ← List.flatten_append, List.takeWhile_append_dropWhile, lines_flatten]
  · cases hd : (lines text).dropWhile (· ≠ quitLine) with
    | nil => exact Or.inl rfl
    | cons line ls =>
      have hline : line = quitLine := by
        have hhead := List.head?_dropWhile_not (fun l => decide (l ≠ quitLine)) (lines text)
        rw [hd] at hhead
        simpa using hhead
      have hmem : line ∈ (lines text).dropWhile (· ≠ quitLine) := hd ▸ List.mem_cons_self
      exact Or.inr ⟨hline ▸ (List.dropWhile_sublist _).subset hmem, ls.flatten, by rw [List.flatten_cons, hline]⟩

theorem flatten_map_cstr {ps : List Bytes} (h : 0 ∉ ps.flatten) : (ps.map cstr).flatten = ps.flatten := by
  have hself : ∀ p ∈ ps, cstr p = p := fun p hp =>
    cstr_eq_self_iff.2 fun h0 => h (List.mem_flatten.2 ⟨p, hp, h0⟩)
  rw [List.map_congr_left hself, List.map_id']

/-- What the child sends holds no NUL, so it is a part of the stream only if it leaves none out. -/
theorem notMem_of_echoed {ps : List Bytes} {rest tail : Bytes}
    (h : (ps.map cstr).flatten ++ rest = ps.flatten ++ tail) (hrest : ∀ b ∈ rest.head?, b ≠ 0) :
    0 ∉ ps.flatten := by
  induction ps with
  | nil => simp
  | cons p ps ih =>
    rw [List.map_cons, List.flatten_cons, List.flatten_cons, List.append_assoc, List.append_assoc] at h
    by_cases h0 : 0 ∈ p
    · -- the string of `p` stops at its first NUL, and the next byte sent is not that NUL
      obtain ⟨l, r, rfl, hl⟩ := List.eq_append_cons_of_mem h0
      rw [cstr_append_nul hl, List.append_assoc, List.append_cancel_left_eq] at h
      cases hsent : (ps.map cstr).flatten with
      | nil =>
        rw [hsent, List.nil_append] at h
        exact absurd rfl (hrest 0 (by rw [h]; rfl))
      | cons b bs =>
        have hb : b ∈ (ps.map cstr).flatten := hsent ▸ List.mem_cons_self
        obtain ⟨q, hq, hbq⟩ := List.mem_flatten.1 hb
        obtain ⟨q', -, rfl⟩ := List.mem_map.1 hq
        rw [hsent, List.cons_append, List.cons_append] at h
        rw [(List.cons.inj h).1] at hbq
        exact absurd hbq (zero_notMem_cstr q')
    · rw [cstr_eq_self_iff.2 h0, List.append_cancel_left_eq] at h
      rw [List.flatten_cons, List.mem_append, not_or]
      exact ⟨h0, ih h⟩

theorem Session.pieces_eq (s : Session) {k : ℕ} (hk : cstr (s.piece k) ≠ []) :
    s.pieces = s.pieces.take k ++ s.piece k :: s.pieces.drop (k + 1) := by
  have hlt : k < s.pieces.length := by
    by_contra hge
    rw [Session.piece, List.getD_eq_getElem?_getD, List.getElem?_eq_none (by omega)] at hk
    exact hk rfl
  rw [Session.piece, List.getD_eq_getElem?_getD, List.getElem?_eq_getElem hlt, Option.getD_some,
    List.getElem_cons_drop, List.take_append_drop]

theorem Session.piece_append (s : Session) {before after : List Bytes} (h : s.pieces = before ++ after) {i : ℕ}
    (hi : i < before.length) : s.piece i ∈ before := by
  rw [Session.piece, List.getD_eq_getElem?_getD, h, List.getElem?_append_left hi, List.getElem?_eq_getElem hi]
  exact List.getElem_mem hi

theorem Session.exists_piece_of_mem_take (s : Session) {k : ℕ} {p : Bytes} (hp : p ∈ s.pieces.take k) :
    ∃ i < k, s.piece i = p := by
  obtain ⟨i, hi, rfl⟩ := List.mem_take_iff_getElem.1 hp
  refine ⟨i, by omega, ?_⟩
  rw [Session.piece, List.getD_eq_getElem?_getD, List.getElem?_eq_getElem (by omega), Option.getD_some]

/-- The child leaves at the right time only if a call of `read` begins at the quit line. -/
theorem atQuit_of_echoes {s : Session} (hw : s.WritesAll) (h : s.Echoes) : s.AtQuit := by
  obtain ⟨n, c, hrun, hleft, hsent⟩ := h
  obtain ⟨c', hrun', hcases⟩ := run_cases_echo hw n
  cases hrun.symm.trans hrun'
  rcases hcases with ⟨hloop, -⟩ | ⟨k, -, -, hsent', hno, hquit⟩
  · cases hleft.symm.trans hloop
  have hpieces := s.pieces_eq (k := k) (by rw [hquit]; decide)
  have hflat : s.pieces.flatten = (s.pieces.take k).flatten ++ (s.piece k ++ (s.pieces.drop (k + 1)).flatten) := by
    conv_lhs => rw [hpieces]
    rw [List.flatten_append, List.flatten_cons]
  obtain ⟨rest, hrest, hend⟩ := beforeQuit_append s.pieces.flatten
  -- a NUL in front of the quit line would be missing in what was sent
  have hnul : 0 ∉ (s.pieces.take k).flatten := by
    have hcut : ((s.pieces.take k).map cstr).flatten ++ rest = (s.pieces.take k).flatten ++
        (s.piece k ++ (s.pieces.drop (k + 1)).flatten) := by
      rw [← hsent', hsent, hrest, hflat]
    refine notMem_of_echoed hcut fun b hb => ?_
    rcases hend with rfl | ⟨-, tail, rfl⟩
    · cases hb
    · cases hb
      decide
  have hbefore : (s.pieces.take k).flatten = beforeQuit s.pieces.flatten := by
    rw [← hsent, hsent', flatten_map_cstr hnul]
  refine ⟨_, _, _, hpieces, ?_, hbefore, hnul, fun hmem => ?_, hquit⟩
  · rcases hend with rfl | ⟨hmem, -⟩
    · -- all of the stream was sent, but not the piece that was taken for a quit line
      rw [List.append_nil, ← hbefore, hflat, List.self_eq_append_right, List.append_eq_nil_iff] at hrest
      rw [hrest.1] at hquit
      cases hquit
    · exact hmem
  · obtain ⟨i, hi, hp⟩ := s.exists_piece_of_mem_take hmem
    exact hno i hi (by rw [hp]; decide)

theorem echoes_of_atQuit {s : Session} (hw : s.WritesAll) (h : s.AtQuit) : s.Echoes := by
  obtain ⟨before, p, after, hpieces, -, hbefore, hnul, hno, hquit⟩ := h
  have hpiece : s.piece before.length = p := by
    rw [Session.piece, List.getD_eq_getElem?_getD, hpieces]
    simp
  obtain ⟨c, hrun, ⟨-, -, hnone⟩ | ⟨k, hk, hleft, hsent, -, hquit'⟩⟩ := run_cases_echo hw (before.length + 1)
  · exact absurd (hpiece.symm ▸ hquit) (hnone before.length (by omega))
  have hkeq : k = before.length := by
    by_contra hne
    have hmem := s.piece_append hpieces (by omega : k < before.length)
    have hself : cstr (s.piece k) = s.piece k :=
      cstr_eq_self_iff.2 fun h0 => hnul (List.mem_flatten.2 ⟨_, hmem, h0⟩)
    rw [hself] at hquit'
    exact hno (hquit' ▸ hmem)
  refine ⟨_, c, hrun, hleft, ?_⟩
  rw [hsent, hkeq, ← hbefore, hpieces, List.take_left, flatten_map_cstr hnul]

/-! ### Sessions without trouble -/

def fullWrite (text : Bytes) : List WriteRet := if text = [] then [] else [.count text.length]

def Session.direct (pieces : List Bytes) (ne_nil : ∀ p ∈ pieces, p ≠ []) (le : ∀ p ∈ pieces, p.length ≤ 255) :
    Session where
  pieces := pieces
  ne_nil := ne_nil
  le := le
  writes := fun n => fullWrite (cstr (pieces.getD n []))
  errno := 0

theorem writen_fullWrite (buffer text : Bytes) (errno : ℕ) :
    ∃ w, (fullWrite text).foldlM Writen.step (Writen.start buffer text.length errno) = some w ∧
      w.returned = some (text.length : ℤ) := by
  by_cases htext : text = []
  · subst htext
    exact ⟨_, rfl, rfl⟩
  · have hpos : 0 < text.length := List.length_pos_iff.2 htext
    simp [fullWrite, htext, Writen.start, Writen.head, Writen.step, hpos]

theorem writesAll_direct (pieces : List Bytes) (ne_nil : ∀ p ∈ pieces, p ≠ []) (le : ∀ p ∈ pieces, p.length ≤ 255) :
    (Session.direct pieces ne_nil le).WritesAll := by
  intro n
  induction n with
  | zero => exact ⟨_, rfl, by simp⟩
  | succ n ih =>
    obtain ⟨c, hc, hexit⟩ := ih
    rw [Session.run, hc, Option.bind_some]
    unfold Child.turn
    split
    · dsimp only
      split
      · exact ⟨_, rfl, by simp⟩
      · have htext : cstr (readBuffer ((Session.direct pieces ne_nil le).piece n)) = cstr (pieces.getD n []) :=
          cstr_readBuffer _
        obtain ⟨w, hw, hret⟩ := writen_fullWrite (readBuffer ((Session.direct pieces ne_nil le).piece n))
          (cstr (pieces.getD n [])) c.errno
        rw [htext, show (Session.direct pieces ne_nil le).writes n = fullWrite (cstr (pieces.getD n [])) from rfl, hw]
        dsimp only
        rw [hret]
        refine ⟨_, rfl, ?_⟩
        dsimp only
        rw [if_neg (by omega)]
        decide
    · exact ⟨c, rfl, hexit⟩

/-- **When the echo server echoes**: it sends back the stream up to the quit line and leaves its loop if and only if
a call of `read` returns that line and nothing else, with no NUL and no other `quit\n` read before. -/
theorem echoes_iff_atQuit (s : Session) (hw : s.WritesAll) : s.Echoes ↔ s.AtQuit :=
  ⟨atQuit_of_echoes hw, echoes_of_atQuit hw⟩

/-- A line, and the quit line in a call of its own. -/
theorem echoes_hi_quit : (Session.direct [ascii "hi\n", quitLine] (by decide) (by decide)).Echoes :=
  (echoes_iff_atQuit _ (writesAll_direct _ _ _)).2
    ⟨[ascii "hi\n"], quitLine, [], rfl, by decide, by decide, by decide, by decide, by decide⟩

/-- A client that closes the connection without the quit line: the child never leaves its loop. -/
theorem not_echoes_hi :
    (Session.direct [ascii "hi\n"] (by decide) (by decide)).WritesAll ∧
      ¬ (Session.direct [ascii "hi\n"] (by decide) (by decide)).Echoes := by
  refine ⟨writesAll_direct _ _ _, fun h => ?_⟩
  obtain ⟨before, p, after, hpieces, -, -, -, -, hquit⟩ := atQuit_of_echoes (writesAll_direct _ _ _) h
  have hp : p = ascii "hi\n" := by
    have hmem : p ∈ [ascii "hi\n"] := by
      rw [show [ascii "hi\n"] = before ++ p :: after from hpieces]
      simp
    exact List.mem_singleton.1 hmem
  rw [hp] at hquit
  exact absurd hquit (by decide)

end TamuProofs.Echo
