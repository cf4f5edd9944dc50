import Mathlib.Data.Int.Basic
import Mathlib.Data.List.TakeWhile

/-!
Byte buffers as C programs use them: copying into a buffer (`blit`), the string at the start of a buffer
(`cstr`), the value of a byte read as a signed character (`charVal`), cutting a byte string into
blocks of which only the last is short (`chunks`), and into pieces that are blocks or shorter.
-/

namespace TamuProofs.Lib

abbrev Bytes := List UInt8

/-! ### Copying -/

/-- `memcpy(buf + off, bs, sizeof bs)`: the bytes from `off` on are replaced, the others stay. -/
def blit (buf : Bytes) (off : ℕ) (bs : Bytes) : Bytes :=
  buf.take off ++ bs ++ buf.drop (off + bs.length)

theorem blit_zero (buf bs : Bytes) : blit buf 0 bs = bs ++ buf.drop bs.length := by simp [blit]

@[simp] theorem take_blit_zero (buf bs : Bytes) : (blit buf 0 bs).take bs.length = bs := by
  simp [blit_zero]

theorem length_blit {buf bs : Bytes} {off : ℕ} (h : off + bs.length ≤ buf.length) :
    (blit buf off bs).length = buf.length := by
  simp only [blit, List.length_append, List.length_take, List.length_drop]
  omega

/-- A cleared buffer: `memset(buf, 0, n)`. -/
def zeros (n : ℕ) : Bytes := List.replicate n 0

theorem length_zeros (n : ℕ) : (zeros n).length = n := List.length_replicate

theorem getD_zeros (n i : ℕ) : (zeros n).getD i 0 = 0 := by
  by_cases h : i < n <;> simp [zeros, List.getD_eq_getElem?_getD, h]

theorem getD_drop_zeros (n k m : ℕ) : ((zeros n).drop k).getD m 0 = 0 := by
  rw [List.getD_eq_getElem?_getD, List.getElem?_drop, ← List.getD_eq_getElem?_getD]
  exact getD_zeros _ _

/-! ### Strings -/

/-- The C string at the start of a buffer: the bytes before the first NUL. -/
def cstr (buf : Bytes) : Bytes := buf.takeWhile (· ≠ 0)

@[simp] theorem cstr_nil : cstr [] = [] := rfl

theorem cstr_cons (b : UInt8) (bs : Bytes) : cstr (b :: bs) = if b = 0 then [] else b :: cstr bs := by
  by_cases h : b = 0 <;> simp [cstr, h]

theorem zero_notMem_cstr (buf : Bytes) : 0 ∉ cstr buf := by
  intro h
  have := List.mem_takeWhile_imp h
  simp at this

theorem cstr_append {bs rest : Bytes} (h : 0 ∉ bs) : cstr (bs ++ rest) = bs ++ cstr rest := by
  induction bs with
  | nil => rfl
  | cons b bs ih =>
    rw [List.mem_cons, not_or] at h
    rw [List.cons_append, cstr_cons, if_neg (Ne.symm h.1), ih h.2, List.cons_append]

theorem cstr_eq_self_iff {s : Bytes} : cstr s = s ↔ 0 ∉ s := by
  refine ⟨fun h => h ▸ zero_notMem_cstr s, fun h => ?_⟩
  have happ : cstr (s ++ []) = s ++ cstr [] := cstr_append h
  simpa using happ

theorem cstr_append_nul {s : Bytes} (h : 0 ∉ s) (rest : Bytes) : cstr (s ++ 0 :: rest) = s := by
  rw [cstr_append h, cstr_cons, if_pos rfl, List.append_nil]

theorem cstr_append_of_mem {bs : Bytes} (h : 0 ∈ bs) (rest : Bytes) : cstr (bs ++ rest) = cstr bs := by
  induction bs with
  | nil => exact absurd h List.not_mem_nil
  | cons b bs ih =>
    rw [List.cons_append, cstr_cons, cstr_cons]
    by_cases hb : b = 0
    · rw [if_pos hb, if_pos hb]
    · have hbs : 0 ∈ bs := (List.mem_cons.1 h).resolve_left (Ne.symm hb)
      rw [if_neg hb, if_neg hb, ih hbs]

theorem cstr_prefix_self (buf : Bytes) : cstr buf <+: buf := List.takeWhile_prefix _

theorem cstr_eq_nil_iff {buf : Bytes} : cstr buf = [] ↔ buf.getD 0 0 = 0 := by
  cases buf with
  | nil => simp
  | cons b bs => by_cases h : b = 0 <;> simp [cstr_cons, h]

/-- Cleared memory behind a string ends it. -/
theorem cstr_append_zeros (bs : Bytes) (n : ℕ) : cstr (bs ++ zeros n) = cstr bs := by
  by_cases h0 : 0 ∈ bs
  · exact cstr_append_of_mem h0 _
  · have hnil : cstr (zeros n) = [] := cstr_eq_nil_iff.2 (getD_zeros n 0)
    rw [cstr_append h0, hnil, List.append_nil, cstr_eq_self_iff.2 h0]

theorem length_cstr_le (buf : Bytes) : (cstr buf).length ≤ buf.length :=
  (List.takeWhile_sublist _).length_le

def ascii (s : String) : Bytes := s.toList.map fun c => UInt8.ofNat c.toNat

/-! ### Characters -/

/-- The value of a byte as a `char`, which is signed. -/
def charVal (b : UInt8) : ℤ := if b < 128 then (b.toNat : ℤ) else (b.toNat : ℤ) - 256

/-- The end-of-file marker of `getc`, and the same value stored in a `char`. -/
def eofChar : UInt8 := 0xFF

theorem charVal_nonneg_iff (b : UInt8) : 0 ≤ charVal b ↔ b < 128 := by
  unfold charVal
  have hb := b.toNat_lt
  split
  · rename_i h; simp [h]
  · rename_i h
    simp only [h, iff_false]
    omega

theorem charVal_eq_neg_one_iff (b : UInt8) : charVal b = -1 ↔ b = eofChar := by
  unfold charVal eofChar
  have hb := b.toNat_lt
  rw [← UInt8.toNat_inj]
  split
  · rename_i h
    rw [UInt8.lt_iff_toNat_lt] at h
    simp at h ⊢
    omega
  · simp
    omega

/-! ### Blocks -/

/-- Cutting a byte string into blocks of `n` bytes with a shorter, possibly empty, last one. -/
def chunks (n : ℕ) (hn : 0 < n) (l : Bytes) : List Bytes :=
  if l.length < n then [l] else l.take n :: chunks n hn (l.drop n)
termination_by l.length
decreasing_by simp only [List.length_drop]; omega

variable {n : ℕ} {hn : 0 < n}

theorem chunks_of_lt {l : Bytes} (h : l.length < n) : chunks n hn l = [l] := by
  rw [chunks, if_pos h]

theorem chunks_of_le {l : Bytes} (h : n ≤ l.length) :
    chunks n hn l = l.take n :: chunks n hn (l.drop n) := by
  rw [chunks, if_neg (by omega)]

theorem chunks_ne_nil (l : Bytes) : chunks n hn l ≠ [] := by
  rw [chunks]
  split <;> simp

@[simp] theorem chunks_flatten : ∀ l : Bytes, (chunks n hn l).flatten = l := by
  intro l
  induction l using chunks.induct (n := n) hn with
  | case1 l h => simp [chunks_of_lt h]
  | case2 l h ih => rw [chunks_of_le (by omega), List.flatten_cons, ih, List.take_append_drop]

theorem length_of_mem_dropLast_chunks : ∀ l : Bytes, ∀ b ∈ (chunks n hn l).dropLast, b.length = n := by
  intro l
  induction l using chunks.induct (n := n) hn with
  | case1 l h => simp [chunks_of_lt h]
  | case2 l h ih =>
    intro b hb
    rw [chunks_of_le (by omega), List.dropLast_cons_of_ne_nil (chunks_ne_nil _)] at hb
    rcases List.mem_cons.1 hb with rfl | hb
    · simp; omega
    · exact ih b hb

theorem length_getLast_chunks : ∀ l : Bytes, ∀ b ∈ (chunks n hn l).getLast?, b.length < n := by
  intro l
  induction l using chunks.induct (n := n) hn with
  | case1 l h => simpa [chunks_of_lt h] using h
  | case2 l h ih =>
    intro b hb
    have hne : chunks n hn (l.drop n) ≠ [] := chunks_ne_nil _
    obtain ⟨c, cs, hc⟩ := List.exists_cons_of_ne_nil hne
    rw [chunks_of_le (by omega), hc, List.getLast?_cons_cons, ← hc] at hb
    exact ih b hb

theorem length_of_mem_chunks : ∀ l : Bytes, ∀ b ∈ chunks n hn l, b.length ≤ n := by
  intro l
  induction l using chunks.induct (n := n) hn with
  | case1 l h => simpa [chunks_of_lt h] using h.le
  | case2 l h ih =>
    intro b hb
    rw [chunks_of_le (by omega)] at hb
    rcases List.mem_cons.1 hb with rfl | hb
    · exact List.length_take_le n l
    · exact ih b hb

/-! ### Pieces -/

theorem length_flatten_le {pieces : List Bytes} (h : ∀ c ∈ pieces, c.length ≤ n) :
    pieces.flatten.length ≤ n * pieces.length := by
  induction pieces with
  | nil => simp
  | cons c cs ih =>
    have hc := h c List.mem_cons_self
    have hcs := ih fun c hc => h c (List.mem_cons_of_mem _ hc)
    rw [List.flatten_cons, List.length_append, List.length_cons, Nat.mul_succ]
    omega

theorem length_flatten_eq {blocks : List Bytes} (h : ∀ m ∈ blocks, m.length = n) :
    blocks.flatten.length = n * blocks.length := by
  induction blocks with
  | nil => simp
  | cons m ms ih =>
    have hm := h m List.mem_cons_self
    have hms := ih fun m hm => h m (List.mem_cons_of_mem _ hm)
    rw [List.flatten_cons, List.length_append, List.length_cons, Nat.mul_succ, hms, hm, Nat.add_comm]

/-- As many pieces as there are blocks in the same bytes: the pieces are the blocks. -/
theorem eq_of_flatten_eq {pieces blocks : List Bytes} (hp : ∀ c ∈ pieces, c.length ≤ n)
    (hb : ∀ m ∈ blocks, m.length = n) (hflat : pieces.flatten = blocks.flatten)
    (hlen : pieces.length = blocks.length) : pieces = blocks := by
  induction pieces generalizing blocks with
  | nil => exact (List.length_eq_zero_iff.1 hlen.symm).symm
  | cons c cs ih =>
    obtain _ | ⟨m, ms⟩ := blocks
    · cases hlen
    have hcs : ∀ c ∈ cs, c.length ≤ n := fun c hc => hp c (List.mem_cons_of_mem _ hc)
    have hms : ∀ m ∈ ms, m.length = n := fun m hm => hb m (List.mem_cons_of_mem _ hm)
    have hlen' : cs.length = ms.length := Nat.succ.inj hlen
    rw [List.flatten_cons, List.flatten_cons] at hflat
    -- the first piece is full, since the others cannot hold more than the other blocks
    have hfull : c.length = m.length := by
      have h1 := congrArg List.length hflat
      rw [List.length_append, List.length_append, length_flatten_eq hms, ← hlen'] at h1
      have h2 := length_flatten_le hcs
      have h3 := hp c List.mem_cons_self
      have h4 := hb m List.mem_cons_self
      omega
    obtain ⟨hcm, htail⟩ := List.append_inj hflat hfull
    rw [hcm, ih hcs hms htail hlen']

end TamuProofs.Lib
