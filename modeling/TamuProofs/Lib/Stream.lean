import Mathlib.Tactic.SplitIfs
import TamuProofs.Lib.Bytes

/-!
Files and numbers as the C++ library reads them: `std::getline`, `peek` and `read` on an `ifstream`, the
extraction of an `int` from a line of text, `std::stoi`, and the decimal text of a number.

A stream that has met its end gives no more bytes (`good`). What a call leaves unassigned is `none`.

* `getline_line` — a line that ends in a newline;
* `extractInt_decimal`, `stoi_decimal` — a number in decimal is read back.
-/

namespace TamuProofs.Lib

/-! ### Bytes -/

/-- An input stream: the bytes that are left, and whether it has met neither its end nor an error. -/
structure IStream where
  rest : Bytes
  good : Bool
  deriving DecidableEq

/-- A file that was just opened. -/
def IStream.ofFile (file : Bytes) : IStream := { rest := file, good := true }

/-- `std::getline(s, line)`: the line and the stream. If the stream is not good the line stays as it was. -/
def getline (s : IStream) (line : Bytes) : Bytes × IStream :=
  if s.good then
    (s.rest.takeWhile (· ≠ 10), { rest := (s.rest.dropWhile (· ≠ 10)).tail, good := decide (10 ∈ s.rest) })
  else (line, s)

def IStream.peek (s : IStream) : Option UInt8 × IStream :=
  if s.good then
    match s.rest with
    | [] => (none, { s with good := false })
    | b :: _ => (some b, s)
  else (none, s)

/-- `s.read(buf, n)`; a part of `buf` stays unassigned if there are fewer bytes. -/
def IStream.read (s : IStream) (n : ℕ) : Option (Bytes × IStream) :=
  if s.good ∧ n ≤ s.rest.length then some (s.rest.take n, { s with rest := s.rest.drop n }) else none

/-- A line of the file, with the newline after it. -/
def lineBytes (line : Bytes) : Bytes := line ++ [10]

section Getline

variable {line : Bytes}

theorem takeWhile_line (h : 10 ∉ line) (rest : Bytes) : (lineBytes line ++ rest).takeWhile (· ≠ 10) = line := by
  rw [lineBytes, List.append_assoc, List.takeWhile_append_of_pos]
  · simp
  · intro b hb
    have hne : b ≠ 10 := fun hb10 => h (hb10 ▸ hb)
    simp [hne]

theorem dropWhile_line (h : 10 ∉ line) (rest : Bytes) :
    (lineBytes line ++ rest).dropWhile (· ≠ 10) = 10 :: rest := by
  rw [lineBytes, List.append_assoc, List.dropWhile_append_of_pos]
  · simp
  · intro b hb
    have hne : b ≠ 10 := fun hb10 => h (hb10 ▸ hb)
    simp [hne]

theorem getline_line (h : 10 ∉ line) (rest old : Bytes) :
    getline (IStream.ofFile (lineBytes line ++ rest)) old = (line, IStream.ofFile rest) := by
  have hmem : (10 : UInt8) ∈ lineBytes line ++ rest := by simp [lineBytes]
  rw [getline, IStream.ofFile, if_pos rfl]
  dsimp only
  rw [takeWhile_line h, dropWhile_line h, decide_eq_true hmem]
  rfl

theorem length_getline_lt {s : IStream} (hgood : s.good = true) (hne : s.rest ≠ []) (old : Bytes) :
    (getline s old).2.rest.length < s.rest.length := by
  rw [getline, if_pos hgood]
  have hle := (List.dropWhile_sublist (p := fun b : UInt8 => decide (b ≠ 10)) (l := s.rest)).length_le
  have hpos := List.length_pos_iff.2 hne
  simp only [List.length_tail]
  omega

end Getline

/-! ### Numbers -/

def isSpace (b : UInt8) : Bool := (9 ≤ b && b ≤ 13) || b == 32

def isDigit (b : UInt8) : Bool := 48 ≤ b && b ≤ 57

def digitsVal (ds : Bytes) : ℕ := ds.foldl (fun n b => 10 * n + (b.toNat - 48)) 0

def takeSign : Bytes → Bool × Bytes
  | 45 :: text => (true, text)
  | 43 :: text => (false, text)
  | text => (false, text)

/-- A sign and digits at the start of the text, and what follows. -/
def scanInt (text : Bytes) : Option (ℤ × Bytes) :=
  let (neg, text) := takeSign text
  let ds := text.takeWhile isDigit
  if ds = [] then none
  else some (if neg then -(digitsVal ds : ℤ) else (digitsVal ds : ℤ), text.drop ds.length)

def intMin : ℤ := -2147483648
def intMax : ℤ := 2147483647

/-- `text >> n` for an `int`: the value, whether the stream is still fine, and what follows. Nothing is assigned if
there is only white space left. -/
def extractInt (text : Bytes) : Option (ℤ × Bool × Bytes) :=
  let text := text.dropWhile isSpace
  if text = [] then none
  else
    match scanInt text with
    | none => some (0, false, text)
    | some (n, rest) =>
      if n < intMin then some (intMin, false, rest)
      else if intMax < n then some (intMax, false, rest)
      else some (n, true, rest)

theorem extractInt_cons {b : UInt8} (h : isSpace b = true) (text : Bytes) :
    extractInt (b :: text) = extractInt text := by
  unfold extractInt
  rw [List.dropWhile_cons_of_pos h]

/-- `std::stoi(text)`, unless it throws. -/
def stoi (text : Bytes) : Option ℤ :=
  match scanInt (text.dropWhile isSpace) with
  | none => none
  | some (n, _) => if intMin ≤ n ∧ n ≤ intMax then some n else none

def decimal (n : ℕ) : Bytes := ascii (toString n)

section Decimal

theorem decimal_eq (n : ℕ) :
    decimal n = (if n < 10 then [] else decimal (n / 10)) ++ [UInt8.ofNat (48 + n % 10)] := by
  have hdec : ∀ m : ℕ, decimal m = (Nat.toDigits 10 m).map fun c => UInt8.ofNat c.toNat := fun m => by
    rw [decimal, ascii, Nat.toString_eq_repr, Nat.toList_repr]
  rw [hdec, Nat.toDigits_eq_if (by omega)]
  split
  · rename_i hn
    simp [Nat.toNat_digitChar_of_lt_ten hn, Nat.mod_eq_of_lt hn]
  · simp [hdec, Nat.toNat_digitChar_of_lt_ten (Nat.mod_lt n (by omega : 0 < 10))]

theorem toNat_digit {d : ℕ} (hd : d < 10) : (UInt8.ofNat (48 + d)).toNat = 48 + d := by
  rw [UInt8.toNat_ofNat']
  exact Nat.mod_eq_of_lt (by omega)

theorem digitsVal_decimal (n : ℕ) : digitsVal (decimal n) = n := by
  induction n using Nat.strongRecOn with
  | ind n ih =>
    rw [decimal_eq, digitsVal, List.foldl_append, List.foldl_cons, List.foldl_nil,
      toNat_digit (Nat.mod_lt n (by omega))]
    split
    · simp only [List.foldl_nil]
      omega
    · rename_i hn
      have hdiv := ih (n / 10) (by omega)
      rw [digitsVal] at hdiv
      rw [hdiv]
      omega

theorem isDigit_of_mem_decimal (n : ℕ) : ∀ b ∈ decimal n, isDigit b = true := by
  induction n using Nat.strongRecOn with
  | ind n ih =>
    intro b hb
    rw [decimal_eq] at hb
    rcases List.mem_append.1 hb with hb | hb
    · split at hb
      · cases hb
      · exact ih (n / 10) (by omega) b hb
    · rw [List.mem_singleton.1 hb]
      have hmod : n % 10 < 10 := Nat.mod_lt n (by omega)
      simp only [isDigit, UInt8.le_iff_toNat_le, toNat_digit hmod, Bool.and_eq_true, decide_eq_true_eq]
      constructor
      · exact Nat.le_add_right 48 _
      · show 48 + n % 10 ≤ 57
        omega

theorem decimal_ne_nil (n : ℕ) : decimal n ≠ [] := by
  rw [decimal_eq]
  simp

theorem isDigit_bounds {b : UInt8} (h : isDigit b = true) : 48 ≤ b.toNat ∧ b.toNat ≤ 57 := by
  simpa [isDigit, UInt8.le_iff_toNat_le] using h

theorem isSpace_of_isDigit {b : UInt8} (h : isDigit b = true) : isSpace b = false := by
  have hb := isDigit_bounds h
  have h13 : ¬ b ≤ 13 := by
    rw [UInt8.le_iff_toNat_le]
    show ¬ b.toNat ≤ 13
    omega
  have h32 : b ≠ 32 := by
    rintro rfl
    exact absurd hb.1 (by decide)
  simp [isSpace, h13, h32]

theorem takeSign_of_isDigit {b : UInt8} (h : isDigit b = true) (bs : Bytes) :
    takeSign (b :: bs) = (false, b :: bs) := by
  have h45 : b ≠ 45 := by
    rintro rfl
    exact absurd h (by decide)
  have h43 : b ≠ 43 := by
    rintro rfl
    exact absurd h (by decide)
  unfold takeSign
  split
  · rename_i heq
    cases heq
    exact absurd rfl h45
  · rename_i heq
    cases heq
    exact absurd rfl h43
  · rfl

variable {rest : Bytes}

theorem scanInt_decimal (n : ℕ) (h : rest.takeWhile isDigit = []) :
    scanInt (decimal n ++ rest) = some ((n : ℤ), rest) := by
  obtain ⟨b, bs, hb⟩ := List.exists_cons_of_ne_nil (decimal_ne_nil n)
  have hdigit : isDigit b = true := isDigit_of_mem_decimal n b (hb ▸ List.mem_cons_self)
  have hsign : takeSign (decimal n ++ rest) = (false, decimal n ++ rest) := by
    rw [hb]
    exact takeSign_of_isDigit hdigit _
  have htake : (decimal n ++ rest).takeWhile isDigit = decimal n := by
    rw [List.takeWhile_append_of_pos (isDigit_of_mem_decimal n), h, List.append_nil]
  unfold scanInt
  rw [hsign]
  dsimp only
  rw [htake, if_neg (decimal_ne_nil n), List.drop_left, digitsVal_decimal]
  rfl

theorem dropWhile_isSpace_decimal (n : ℕ) : (decimal n ++ rest).dropWhile isSpace = decimal n ++ rest := by
  obtain ⟨b, bs, hb⟩ := List.exists_cons_of_ne_nil (decimal_ne_nil n)
  have hdigit : isDigit b = true := isDigit_of_mem_decimal n b (hb ▸ List.mem_cons_self)
  rw [hb, List.cons_append, List.dropWhile_cons_of_neg]
  simp [isSpace_of_isDigit hdigit]

theorem extractInt_decimal {n : ℕ} (hn : (n : ℤ) ≤ intMax) (h : rest.takeWhile isDigit = []) :
    extractInt (decimal n ++ rest) = some ((n : ℤ), true, rest) := by
  have hne : decimal n ++ rest ≠ [] := by
    simp [decimal_ne_nil]
  unfold extractInt
  dsimp only
  rw [dropWhile_isSpace_decimal, if_neg hne, scanInt_decimal n h]
  dsimp only
  rw [if_neg (by unfold intMin; omega), if_neg (by omega)]

theorem stoi_decimal {n : ℕ} (hn : (n : ℤ) ≤ intMax) : stoi (decimal n) = some (n : ℤ) := by
  unfold stoi
  rw [← List.append_nil (decimal n), dropWhile_isSpace_decimal, scanInt_decimal n rfl]
  dsimp only
  rw [if_pos ⟨by unfold intMin; omega, hn⟩]

end Decimal

end TamuProofs.Lib
