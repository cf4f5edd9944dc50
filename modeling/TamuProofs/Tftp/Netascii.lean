import TamuProofs.Tftp.Packets

/-!
# Netascii, and the two loops that produce it

`netascii` is the encoding as a function on whole files.  The server produces it block by block, with the
second byte of a pair in `nextch` when the block ends between the two; `pendingOf nextch fp` is what is
still to come.  `char` is signed, and the byte `0xFF` reads like the end of the file: the loops take the next
bytes off the encoding of what stands before the first one (`fills_ackLoop`, `rrqLoop_eq_ackLoop`), which for
seven-bit characters is all of the file (`ackLoop_spec`).
-/

namespace TamuProofs.Tftp

open TamuProofs.Lib

/-- LF becomes CR LF, CR becomes CR NUL. -/
def netascii (l : Bytes) : Bytes := l.flatMap fun b => if b = 10 then [13, 10] else if b = 13 then [13, 0] else [b]

/-- What the loops have still to put out: the second half of a pair, then the encoding of the rest. -/
def pendingOf (nextch : UInt8) (fp : Bytes) : Bytes :=
  (if nextch < 128 then [nextch] else []) ++ netascii fp

@[simp] theorem pendingOf_eof (fp : Bytes) : pendingOf eofChar fp = netascii fp := by
  simp [pendingOf, eofChar]

theorem pendingOf_of_lt {nextch : UInt8} (h : nextch < 128) (fp : Bytes) :
    pendingOf nextch fp = nextch :: netascii fp := by
  simp [pendingOf, h]

theorem pendingOf_of_not_lt {nextch : UInt8} (h : ¬ nextch < 128) (fp : Bytes) :
    pendingOf nextch fp = netascii fp := by
  simp [pendingOf, h]

/-- The byte a character turns into, and the rest of its pair, are its encoding. -/
theorem translate_spec (ch : UInt8) (fp : Bytes) :
    netascii (ch :: fp) = (translate ch).1 :: pendingOf (translate ch).2 fp := by
  unfold translate
  by_cases h10 : ch = 10
  · subst h10
    rw [if_pos rfl, pendingOf_of_lt (by decide)]
    simp [netascii]
  · by_cases h13 : ch = 13
    · subst h13
      rw [if_neg h10, if_pos rfl, pendingOf_of_lt (by decide)]
      simp [netascii]
    · rw [if_neg h10, if_neg h13]
      simp [netascii, h10, h13]

/-! ### One turn of the loop -/

theorem ackLoop_nextch {f : Fill} (n : ℕ) (h : f.nextch < 128) :
    ackLoop (n + 1) f = ackLoop n { f with data := f.data ++ [f.nextch], nextch := eofChar } := by
  rw [ackLoop, if_pos ((charVal_nonneg_iff _).2 h)]

theorem ackLoop_nil {f : Fill} (n : ℕ) (h : ¬ f.nextch < 128) (hfp : f.fp = []) :
    ackLoop (n + 1) f = { f with fp := [], stopFlag := true } := by
  rw [ackLoop, if_neg fun h' => h ((charVal_nonneg_iff _).1 h'), hfp]
  rfl

theorem ackLoop_eof {f : Fill} (n : ℕ) (h : ¬ f.nextch < 128) {fp : Bytes} (hfp : f.fp = eofChar :: fp) :
    ackLoop (n + 1) f = { f with fp := fp, stopFlag := true } := by
  rw [ackLoop, if_neg fun h' => h ((charVal_nonneg_iff _).1 h'), hfp]
  exact if_pos ((charVal_eq_neg_one_iff _).2 rfl)

theorem ackLoop_cons {f : Fill} (n : ℕ) (h : ¬ f.nextch < 128) {ch : UInt8} {fp : Bytes}
    (hfp : f.fp = ch :: fp) (hch : ch ≠ eofChar) :
    ackLoop (n + 1) f =
      ackLoop n { f with data := f.data ++ [(translate ch).1], nextch := (translate ch).2, fp := fp } := by
  rw [ackLoop, if_neg fun h' => h ((charVal_nonneg_iff _).1 h'), hfp]
  exact if_neg fun hch' => hch ((charVal_eq_neg_one_iff _).1 hch')

/-! ### What the loop takes -/

/-- What the loops get to see of a file: the bytes before the first `0xFF`. -/
def text (fp : Bytes) : Bytes := fp.takeWhile (· ≠ eofChar)

/-- The rest of the file, which starts with a byte `0xFF` if there is one. -/
def pastText (fp : Bytes) : Bytes := fp.dropWhile (· ≠ eofChar)

theorem text_cons {ch : UInt8} (h : ch ≠ eofChar) (fp : Bytes) : text (ch :: fp) = ch :: text fp := by
  simp [text, h]

theorem pastText_cons {ch : UInt8} (h : ch ≠ eofChar) (fp : Bytes) : pastText (ch :: fp) = pastText fp := by
  simp [pastText, h]

theorem text_eof (fp : Bytes) : text (eofChar :: fp) = [] := by simp [text]

theorem pastText_eof (fp : Bytes) : pastText (eofChar :: fp) = eofChar :: fp := by simp [pastText]

theorem text_eq_self {fp : Bytes} (h : eofChar ∉ fp) : text fp = fp := by
  refine List.takeWhile_eq_self_iff.2 fun b hb => ?_
  have hne : b ≠ eofChar := fun he => h (he ▸ hb)
  simpa using hne

theorem pastText_eq_nil {fp : Bytes} (h : eofChar ∉ fp) : pastText fp = [] := by
  refine List.dropWhile_eq_nil_iff.2 fun b hb => ?_
  have hne : b ≠ eofChar := fun he => h (he ▸ hb)
  simpa using hne

/-- What one turn or several of them do: `data` grows by the first of the bytes that are pending, and the
loop stops at the end of the text if it gets there. -/
structure Fills (n : ℕ) (f f' : Fill) : Prop where
  data : f'.data = f.data ++ (pendingOf f.nextch (text f.fp)).take n
  stop : f'.stopFlag = (f.stopFlag || decide ((pendingOf f.nextch (text f.fp)).length < n))
  suffix : f'.fp <:+ f.fp
  going : n ≤ (pendingOf f.nextch (text f.fp)).length →
    pendingOf f'.nextch (text f'.fp) = (pendingOf f.nextch (text f.fp)).drop n ∧ pastText f'.fp = pastText f.fp
  ended : (pendingOf f.nextch (text f.fp)).length < n → ¬ f'.nextch < 128 ∧ f'.fp = (pastText f.fp).tail

theorem Fills.cons {n : ℕ} {f g f' : Fill} {b : UInt8} (h : Fills n g f') (hdata : g.data = f.data ++ [b])
    (hstop : g.stopFlag = f.stopFlag) (hsuf : g.fp <:+ f.fp) (hpast : pastText g.fp = pastText f.fp)
    (hpend : pendingOf f.nextch (text f.fp) = b :: pendingOf g.nextch (text g.fp)) : Fills (n + 1) f f' := by
  obtain ⟨h1, h2, h3, h4, h5⟩ := h
  refine ⟨?_, ?_, h3.trans hsuf, fun hn => ?_, fun hn => ?_⟩
  · rw [h1, hdata, hpend, List.append_assoc, List.take_succ_cons, List.singleton_append]
  · rw [h2, hstop, hpend, List.length_cons]
    simp
  · rw [hpend, List.length_cons] at hn
    obtain ⟨hp, hr⟩ := h4 (Nat.le_of_succ_le_succ hn)
    rw [hp, hr, hpend, hpast, List.drop_succ_cons]
    exact ⟨rfl, rfl⟩
  · rw [hpend, List.length_cons] at hn
    obtain ⟨hp, hr⟩ := h5 (Nat.lt_of_succ_lt_succ hn)
    exact ⟨hp, hr.trans (congrArg List.tail hpast)⟩

theorem Fills.stopped {f : Fill} {fp : Bytes} (n : ℕ) (hn : ¬ f.nextch < 128) (htext : text f.fp = [])
    (hfp : fp = (pastText f.fp).tail) (hsuf : fp <:+ f.fp) :
    Fills (n + 1) f { f with fp := fp, stopFlag := true } := by
  have hpend : pendingOf f.nextch (text f.fp) = [] := by
    rw [htext, pendingOf_of_not_lt hn]
    rfl
  refine ⟨?_, ?_, hsuf, fun h => ?_, fun _ => ⟨hn, hfp⟩⟩
  · simp [hpend]
  · simp [hpend]
  · rw [hpend] at h
    exact absurd h (Nat.not_succ_le_zero n)

/-- **The loop of the ACK branch** takes the next `n` bytes of what is pending up to the first `0xFF`, and
stops the transfer exactly when there are fewer. -/
theorem fills_ackLoop (n : ℕ) (f : Fill) : Fills n f (ackLoop n f) := by
  induction n generalizing f with
  | zero =>
    exact ⟨by simp [ackLoop], by simp [ackLoop], List.suffix_rfl, fun _ => ⟨rfl, rfl⟩,
      fun h => absurd h (Nat.not_lt_zero _)⟩
  | succ n ih =>
    by_cases hn : f.nextch < 128
    · -- the second byte of a pair left over from the turn before
      rw [ackLoop_nextch n hn]
      refine (ih _).cons rfl rfl List.suffix_rfl rfl ?_
      rw [pendingOf_of_lt hn, pendingOf_eof]
    · cases hfp : f.fp with
      | nil =>
        rw [ackLoop_nil n hn hfp]
        exact Fills.stopped n hn (by rw [hfp]; rfl) (by rw [hfp]; rfl) List.nil_suffix
      | cons ch fp =>
        by_cases hch : ch = eofChar
        · subst hch
          rw [ackLoop_eof n hn hfp]
          refine Fills.stopped n hn ?_ ?_ ?_
          · rw [hfp, text_eof]
          · rw [hfp, pastText_eof, List.tail_cons]
          · rw [hfp]
            exact List.suffix_cons _ _
        · rw [ackLoop_cons n hn hfp hch]
          refine (ih _).cons rfl rfl ?_ ?_ ?_
          · rw [hfp]
            exact List.suffix_cons _ _
          · rw [hfp, pastText_cons hch]
          · rw [hfp, pendingOf_of_not_lt hn, text_cons hch, translate_spec]

/-- For a file of seven-bit characters, what is pending is the encoding of all that is left. -/
theorem ackLoop_spec (n : ℕ) (f : Fill) (hf : ∀ b ∈ f.fp, b < 128) :
    (ackLoop n f).data = f.data ++ (pendingOf f.nextch f.fp).take n ∧
    pendingOf (ackLoop n f).nextch (ackLoop n f).fp = (pendingOf f.nextch f.fp).drop n ∧
    (ackLoop n f).stopFlag = (f.stopFlag || decide ((pendingOf f.nextch f.fp).length < n)) ∧
    ∀ b ∈ (ackLoop n f).fp, b < 128 := by
  have hno : ∀ {fp : Bytes}, (∀ b ∈ fp, b < 128) → eofChar ∉ fp := fun h he => absurd (h _ he) (by decide)
  obtain ⟨h1, h2, h3, h4, h5⟩ := fills_ackLoop n f
  have hf' : ∀ b ∈ (ackLoop n f).fp, b < 128 := fun b hb => hf b (h3.subset hb)
  rw [text_eq_self (hno hf)] at h1 h2 h4 h5
  refine ⟨h1, ?_, h2, hf'⟩
  by_cases hlt : (pendingOf f.nextch f.fp).length < n
  · obtain ⟨hnext, hfp⟩ := h5 hlt
    rw [pastText_eq_nil (hno hf)] at hfp
    rw [pendingOf_of_not_lt hnext, hfp, List.drop_of_length_le hlt.le]
    rfl
  · rw [text_eq_self (hno hf')] at h4
    exact (h4 (Nat.le_of_not_lt hlt)).1

theorem length_ackLoop_le (n : ℕ) (f : Fill) : (ackLoop n f).data.length ≤ f.data.length + n := by
  induction n generalizing f with
  | zero => exact le_rfl
  | succ n ih =>
    unfold ackLoop
    split
    · have := ih { f with data := f.data ++ [f.nextch], nextch := eofChar }
      simp only [List.length_append, List.length_singleton] at this
      omega
    · dsimp only
      split
      · exact Nat.le_add_right _ _
      · refine (ih _).trans ?_
        simp only [List.length_append, List.length_singleton]
        omega

/-- The loop of the RRQ branch does what the loop of the ACK branch does. -/
theorem rrqLoop_eq_ackLoop : ∀ (n : ℕ) (f : Fill), f.stopFlag = false → rrqLoop 1 n f = ackLoop n f := by
  intro n
  induction n with
  | zero => intro f _; rfl
  | succ n ih =>
    intro f hf
    unfold rrqLoop ackLoop
    split
    · exact ih _ hf
    · simp only [if_true, hf, Bool.false_eq_true, if_false]
      split
      · rfl
      · exact ih _ rfl

end TamuProofs.Tftp
