import Mathlib.Algebra.Ring.Nat
import Mathlib.Logic.Function.Basic
import TamuProofs.Lib.Stream

/-!
# Loading a PPM file (`myppm.h`)

The header of a file is three lines, the magic number, the dimensions and the range. `clean_up` skips lines that
begin with `#`, after each of the three; after the third one it looks at the pixels already.

`ppm_init` and `ppm_init_hsv` differ in what they make of the three bytes of a pixel, which is a parameter here
(`ppmLoad`). Rows are stored from the bottom up. A file that is refused, a number that is not assigned, an
allocation that fails and a pixel that lies behind the end of the file are all `none`.

* `ppmLoad_eq_map` — which file is loaded, and where its pixels go, does not depend on the parameter;
* `readRows_pixelBytes` — the loop over the pixels;
* **`ppmInit_iff`** — an image is loaded as it is if and only if its first byte is not a `#`.
-/

namespace TamuProofs.Ppm

open TamuProofs.Lib

structure RGB where
  red : UInt8
  green : UInt8
  blue : UInt8
  deriving DecidableEq

/-! ### The loader -/

/-- The loop of `clean_up`, with `n` turns at most. -/
def cleanUpLoop : ℕ → IStream → IStream
  | 0, s => s.peek.2
  | n + 1, s =>
    match s.peek with
    | (some 35, s) => cleanUpLoop n (getline s []).2
    | (_, s) => s

/-- `clean_up`. Every turn takes a byte at least. -/
def cleanUp (s : IStream) : IStream := cleanUpLoop s.rest.length s

/-- `istringstream(current_line) >> width >> height`. -/
def dims (line : Bytes) : Option (ℤ × ℤ) :=
  match extractInt line with
  | some (width, true, rest) => (extractInt rest).map fun r => (width, r.1)
  | _ => none

/-- `ppm_init` up to the pixels: `width`, `height` and the stream. -/
def readHeader (file : Bytes) : Option (ℤ × ℤ × IStream) :=
  match getline (IStream.ofFile file) [] with
  | (magic, s) =>
    if magic = ascii "P6" then
      match getline (cleanUp s) magic with
      | (sizes, s) =>
        match dims sizes with
        | none => none
        | some (width, height) =>
          match getline (cleanUp s) sizes with
          | (range, s) =>
            match stoi range with
            | none => none
            | some _ =>
              if 0 ≤ width * height ∧ width * height ≤ intMax then some (width, height, cleanUp s) else none
    else none

section Load

variable {α : Type*} (pixel : UInt8 → UInt8 → UInt8 → α)

/-- The inner loop, over the columns from `j` on, with `base = i * width`. -/
def readRow (base : ℕ) : ℕ → ℕ → IStream → (ℕ → Option α) → Option (IStream × (ℕ → Option α))
  | 0, _, s, map => some (s, map)
  | n + 1, j, s, map =>
    match s.read 3 with
    | some ([r, g, b], s) => readRow base n (j + 1) s (Function.update map (base + j) (some (pixel r g b)))
    | _ => none

/-- The outer loop, over the rows from `i - 1` down. -/
def readRows (width : ℕ) : ℕ → IStream → (ℕ → Option α) → Option (IStream × (ℕ → Option α))
  | 0, s, map => some (s, map)
  | i + 1, s, map =>
    match readRow pixel (i * width) width 0 s map with
    | some (s, map) => readRows width i s map
    | none => none

/-- A loaded file; what the map holds where nothing was stored is not known. -/
structure Loaded (α : Type*) where
  width : ℤ
  height : ℤ
  map : ℕ → Option α

def ppmLoad (file : Bytes) : Option (Loaded α) :=
  match readHeader file with
  | none => none
  | some (width, height, s) =>
    (readRows pixel width.toNat height.toNat s fun _ => none).map fun r =>
      { width := width, height := height, map := r.2 }

end Load

def ppmInit (file : Bytes) : Option (Loaded RGB) := ppmLoad RGB.mk file

/-! ### Which pixel goes where -/

section Natural

variable {α β : Type*} (f : α → β) (pixel : UInt8 → UInt8 → UInt8 → α)

theorem readRow_eq_map (base n j : ℕ) (s : IStream) (map : ℕ → Option α) :
    readRow (fun r g b => f (pixel r g b)) base n j s (fun k => (map k).map f) =
      (readRow pixel base n j s map).map fun r => (r.1, fun k => (r.2 k).map f) := by
  induction n generalizing j s map with
  | zero => rfl
  | succ n ih =>
    rw [readRow, readRow]
    split
    · rename_i r g b s' _
      rw [← ih]
      congr 1
      funext k
      by_cases hk : k = base + j
      · rw [hk, Function.update_self, Function.update_self]
        rfl
      · rw [Function.update_of_ne hk, Function.update_of_ne hk]
    · rfl

theorem readRows_eq_map (width i : ℕ) (s : IStream) (map : ℕ → Option α) :
    readRows (fun r g b => f (pixel r g b)) width i s (fun k => (map k).map f) =
      (readRows pixel width i s map).map fun r => (r.1, fun k => (r.2 k).map f) := by
  induction i generalizing s map with
  | zero => rfl
  | succ i ih =>
    rw [readRows, readRows, readRow_eq_map]
    cases readRow pixel (i * width) width 0 s map with
    | none => rfl
    | some r => exact ih r.1 r.2

/-- **The loaders read the same file in the same way.** -/
theorem ppmLoad_eq_map (file : Bytes) : ppmLoad (fun r g b => f (pixel r g b)) file =
    (ppmLoad pixel file).map fun p => { width := p.width, height := p.height, map := fun k => (p.map k).map f } := by
  unfold ppmLoad
  cases readHeader file with
  | none => rfl
  | some header =>
    have hrows := readRows_eq_map f pixel header.1.toNat header.2.1.toNat header.2.2 fun _ => none
    simp only [Option.map_none] at hrows
    dsimp only
    rw [hrows, Option.map_map, Option.map_map]
    rfl

end Natural

/-! ### Reading the pixels -/

def RGB.bytes (p : RGB) : Bytes := [p.red, p.green, p.blue]

/-- The bytes of the columns of a row, from `j` on. -/
def rowBytes (row : ℕ → RGB) (n j : ℕ) : Bytes := (List.range n).flatMap fun c => (row (j + c)).bytes

/-- The bytes of the rows of an image, from row `r` on. -/
def pixelBytes (w : ℕ) (image : ℕ → ℕ → RGB) (n r : ℕ) : Bytes :=
  (List.range n).flatMap fun t => rowBytes (image (r + t)) w 0

section Pixels

theorem rowBytes_succ (row : ℕ → RGB) (n j : ℕ) :
    rowBytes row (n + 1) j = (row j).bytes ++ rowBytes row n (j + 1) := by
  simp [rowBytes, List.range_succ_eq_map, List.flatMap_map, Nat.add_assoc, Nat.add_comm 1]

theorem pixelBytes_succ (w : ℕ) (image : ℕ → ℕ → RGB) (n r : ℕ) :
    pixelBytes w image (n + 1) r = rowBytes (image r) w 0 ++ pixelBytes w image n (r + 1) := by
  simp [pixelBytes, List.range_succ_eq_map, List.flatMap_map, Nat.add_assoc, Nat.add_comm 1]

theorem length_rowBytes (row : ℕ → RGB) (n j : ℕ) : (rowBytes row n j).length = 3 * n := by
  induction n generalizing j with
  | zero => rfl
  | succ n ih =>
    rw [rowBytes_succ, List.length_append, ih]
    simp only [RGB.bytes, List.length_cons, List.length_nil]
    omega

theorem length_pixelBytes (w : ℕ) (image : ℕ → ℕ → RGB) (n r : ℕ) :
    (pixelBytes w image n r).length = 3 * (n * w) := by
  induction n generalizing r with
  | zero => simp [pixelBytes]
  | succ n ih =>
    rw [pixelBytes_succ, List.length_append, ih, length_rowBytes, Nat.succ_mul n w]
    omega

theorem read_bytes (p : RGB) (rest : Bytes) : (IStream.ofFile (p.bytes ++ rest)).read 3 =
    some ([p.red, p.green, p.blue], IStream.ofFile rest) := by
  simp [IStream.read, IStream.ofFile, RGB.bytes]

variable (base w : ℕ) (image : ℕ → ℕ → RGB) (rest : Bytes)

theorem readRow_rowBytes (row : ℕ → RGB) (n j : ℕ) (map : ℕ → Option RGB) :
    ∃ map', readRow RGB.mk base n j (IStream.ofFile (rowBytes row n j ++ rest)) map =
        some (IStream.ofFile rest, map') ∧
      (∀ c, j ≤ c → c < j + n → map' (base + c) = some (row c)) ∧
      ∀ k, k < base + j ∨ base + j + n ≤ k → map' k = map k := by
  induction n generalizing j map with
  | zero =>
    refine ⟨map, rfl, fun c hc hc' => ?_, fun k _ => rfl⟩
    omega
  | succ n ih =>
    rw [rowBytes_succ, List.append_assoc, readRow, read_bytes]
    obtain ⟨map', hread, hin, hout⟩ := ih (j + 1) (Function.update map (base + j) (some (row j)))
    refine ⟨map', hread, fun c hc hc' => ?_, fun k hk => ?_⟩
    · by_cases hcj : c = j
      · rw [hcj, hout _ (by omega), Function.update_self]
      · exact hin c (by omega) (by omega)
    · rw [hout k (by omega), Function.update_of_ne (by omega)]

/-- The rows of the file, from the top down, go to the rows of the map from the bottom up. -/
theorem readRows_pixelBytes (n r : ℕ) (map : ℕ → Option RGB) :
    ∃ map', readRows RGB.mk w n (IStream.ofFile (pixelBytes w image n r ++ rest)) map =
        some (IStream.ofFile rest, map') ∧
      (∀ t < n, ∀ c < w, map' ((n - 1 - t) * w + c) = some (image (r + t) c)) ∧
      ∀ k, n * w ≤ k → map' k = map k := by
  induction n generalizing r map with
  | zero =>
    refine ⟨map, rfl, fun t ht => ?_, fun k _ => rfl⟩
    omega
  | succ n ih =>
    obtain ⟨map₁, hrow, hin, hout⟩ :=
      readRow_rowBytes (n * w) (pixelBytes w image n (r + 1) ++ rest) (image r) w 0 map
    obtain ⟨map', hrows, hrest, hkeep⟩ := ih (r + 1) map₁
    rw [pixelBytes_succ, List.append_assoc, readRows, hrow]
    refine ⟨map', hrows, fun t ht c hc => ?_, fun k hk => ?_⟩
    · cases t with
      | zero =>
        have hlast : (n + 1 - 1 - 0) * w + c = n * w + c := by simp
        rw [hlast, hkeep _ (Nat.le_add_right _ _), hin c (Nat.zero_le _) (by omega)]
        rfl
      | succ t =>
        have hidx : n + 1 - 1 - (t + 1) = n - 1 - t := by omega
        rw [hidx, hrest t (by omega) c hc, Nat.add_assoc, Nat.add_comm 1]
    · rw [Nat.succ_mul n w] at hk
      rw [hkeep k (by omega), hout k (by omega)]

end Pixels

/-! ### Too few bytes -/

section Short

variable {α : Type*} {pixel : UInt8 → UInt8 → UInt8 → α} {s s' : IStream} {map map' : ℕ → Option α}

theorem readRow_length {base n j : ℕ} (h : readRow pixel base n j s map = some (s', map')) :
    s'.rest.length + 3 * n ≤ s.rest.length := by
  induction n generalizing j s map with
  | zero =>
    cases h
    omega
  | succ n ih =>
    rw [readRow] at h
    split at h
    · rename_i r g b t hread
      have hlt := ih h
      rw [IStream.read] at hread
      split at hread
      · rename_i hlen
        have ht : t = { s with rest := s.rest.drop 3 } := (congrArg Prod.snd (Option.some.inj hread)).symm
        rw [ht] at hlt
        simp only [List.length_drop] at hlt
        omega
      · cases hread
    · cases h

theorem readRows_length {width n : ℕ} (h : readRows pixel width n s map = some (s', map')) :
    s'.rest.length + 3 * (n * width) ≤ s.rest.length := by
  induction n generalizing s map with
  | zero =>
    cases h
    omega
  | succ n ih =>
    rw [readRows] at h
    split at h
    · rename_i t map₁ hrow
      have h1 := readRow_length hrow
      have h2 := ih h
      rw [Nat.succ_mul n width]
      omega
    · cases h

end Short

/-! ### The header -/

def commentBytes (comments : List Bytes) : Bytes := comments.flatMap fun c => lineBytes (35 :: c)

section Header

theorem cleanUpLoop_comments {comments : List Bytes} (hc : ∀ c ∈ comments, 10 ∉ c) {b : UInt8} (hb : b ≠ 35)
    (rest : Bytes) {n : ℕ} (hn : comments.length ≤ n) :
    cleanUpLoop n (IStream.ofFile (commentBytes comments ++ b :: rest)) = IStream.ofFile (b :: rest) := by
  induction comments generalizing n with
  | nil =>
    cases n with
    | zero => rfl
    | succ n =>
      rw [cleanUpLoop]
      split
      · rename_i heq
        cases heq
        exact absurd rfl hb
      · rename_i heq
        cases heq
        rfl
  | cons c cs ih =>
    cases n with
    | zero => cases hn
    | succ n =>
      have hline : 10 ∉ (35 : UInt8) :: c := by
        simpa using hc c List.mem_cons_self
      have hsplit : commentBytes (c :: cs) ++ b :: rest = lineBytes (35 :: c) ++ (commentBytes cs ++ b :: rest) := by
        simp [commentBytes]
      -- the next line is a comment, and `getline` takes it off
      have hpeek : (IStream.ofFile (lineBytes (35 :: c) ++ (commentBytes cs ++ b :: rest))).peek =
          (some 35, IStream.ofFile (lineBytes (35 :: c) ++ (commentBytes cs ++ b :: rest))) := rfl
      rw [hsplit, cleanUpLoop, hpeek]
      show cleanUpLoop n (getline (IStream.ofFile (lineBytes (35 :: c) ++ _)) []).2 = _
      rw [getline_line hline]
      exact ih (fun c' hc' => hc c' (List.mem_cons_of_mem _ hc')) (Nat.le_of_succ_le_succ hn)

/-- `clean_up` skips the comment lines, if what follows them does not begin with `#`. -/
theorem cleanUp_comments {comments : List Bytes} (hc : ∀ c ∈ comments, 10 ∉ c) {b : UInt8} (hb : b ≠ 35)
    (rest : Bytes) :
    cleanUp (IStream.ofFile (commentBytes comments ++ b :: rest)) = IStream.ofFile (b :: rest) := by
  refine cleanUpLoop_comments hc hb rest ?_
  have hlen : comments.length ≤ (commentBytes comments).length := by
    clear hc
    induction comments with
    | nil => exact Nat.zero_le _
    | cons c cs ih =>
      simp only [commentBytes, List.flatMap_cons, List.length_append, lineBytes, List.length_cons] at ih ⊢
      omega
  show comments.length ≤ (commentBytes comments ++ b :: rest).length
  rw [List.length_append]
  omega

theorem length_cleanUpLoop_le (n : ℕ) (s : IStream) : (cleanUpLoop n s).rest.length ≤ s.rest.length := by
  have hpeek : ∀ s : IStream, s.peek.2.rest = s.rest := by
    intro s
    unfold IStream.peek
    split
    · split <;> simp_all
    · rfl
  induction n generalizing s with
  | zero => exact (congrArg List.length (hpeek s)).le
  | succ n ih =>
    rw [cleanUpLoop]
    split
    · rename_i t ht
      have hrest : t.rest = s.rest := by rw [← hpeek s, ht]
      refine (ih _).trans ?_
      rw [← hrest, getline]
      split
      · have hle := (List.dropWhile_sublist (p := fun b : UInt8 => decide (b ≠ 10)) (l := t.rest)).length_le
        simp only [List.length_tail]
        omega
      · exact le_rfl
    · rename_i t _ ht
      have hrest : t.rest = s.rest := by rw [← hpeek s, ht]
      rw [hrest]

/-- If the pixels begin with `#`, some of them are skipped. -/
theorem length_cleanUp_lt (bs : Bytes) : (cleanUp (IStream.ofFile (35 :: bs))).rest.length < bs.length + 1 :=
  calc (cleanUp (IStream.ofFile (35 :: bs))).rest.length
      ≤ (getline (IStream.ofFile (35 :: bs)) []).2.rest.length := length_cleanUpLoop_le bs.length _
    _ < (35 :: bs).length := length_getline_lt rfl (List.cons_ne_nil _ _) []

theorem newline_notMem_decimal (n : ℕ) : 10 ∉ decimal n := by
  intro h
  exact absurd (isDigit_of_mem_decimal n 10 h) (by decide)

theorem exists_decimal_cons (n : ℕ) : ∃ b bs, decimal n = b :: bs ∧ b ≠ 35 := by
  obtain ⟨b, bs, hb⟩ := List.exists_cons_of_ne_nil (decimal_ne_nil n)
  refine ⟨b, bs, hb, ?_⟩
  rintro rfl
  exact absurd (isDigit_of_mem_decimal n 35 (hb ▸ List.mem_cons_self)) (by decide)

theorem dims_decimal {w h : ℕ} (hw : (w : ℤ) ≤ intMax) (hh : (h : ℤ) ≤ intMax) :
    dims (decimal w ++ 32 :: decimal h) = some ((w : ℤ), (h : ℤ)) := by
  have hheight : extractInt (decimal h) = some ((h : ℤ), true, []) := by
    rw [← List.append_nil (decimal h)]
    exact extractInt_decimal hh rfl
  unfold dims
  rw [extractInt_decimal hw (by rfl)]
  dsimp only
  rw [extractInt_cons (by decide), hheight]
  rfl

end Header

/-! ### Images -/

/-- The file of an image, with comment lines after the first and after the second line. -/
def ppmFile (w h : ℕ) (comments₁ comments₂ : List Bytes) (image : ℕ → ℕ → RGB) : Bytes :=
  lineBytes (ascii "P6") ++ (commentBytes comments₁ ++ (lineBytes (decimal w ++ 32 :: decimal h) ++
    (commentBytes comments₂ ++ (lineBytes (ascii "255") ++ pixelBytes w image h 0))))

section Image

variable {w h : ℕ} {comments₁ comments₂ : List Bytes} {image : ℕ → ℕ → RGB}

theorem readHeader_ppmFile (image : ℕ → ℕ → RGB) (hw : (w : ℤ) ≤ intMax) (hh : (h : ℤ) ≤ intMax)
    (hsize : w * h < 2 ^ 31) (hc₁ : ∀ c ∈ comments₁, 10 ∉ c) (hc₂ : ∀ c ∈ comments₂, 10 ∉ c) :
    readHeader (ppmFile w h comments₁ comments₂ image) =
      some ((w : ℤ), (h : ℤ), cleanUp (IStream.ofFile (pixelBytes w image h 0))) := by
  obtain ⟨b, bs, hb, hb35⟩ := exists_decimal_cons w
  have hnum : 10 ∉ decimal w ++ 32 :: decimal h := by
    simp [newline_notMem_decimal]
  -- no number begins with a comment mark, so `cleanUp` stops in front of it
  have hclean₁ : ∀ rest, cleanUp (IStream.ofFile (commentBytes comments₁ ++
      (lineBytes (decimal w ++ 32 :: decimal h) ++ rest))) =
      IStream.ofFile (lineBytes (decimal w ++ 32 :: decimal h) ++ rest) := by
    intro rest
    rw [hb]
    exact cleanUp_comments hc₁ hb35 _
  have hclean₂ : ∀ rest, cleanUp (IStream.ofFile (commentBytes comments₂ ++ (lineBytes (ascii "255") ++ rest))) =
      IStream.ofFile (lineBytes (ascii "255") ++ rest) := by
    intro rest
    exact cleanUp_comments hc₂ (by decide) _
  have hrange : stoi (ascii "255") = some 255 := stoi_decimal (n := 255) (by decide)
  have hmul : 0 ≤ (w : ℤ) * h ∧ (w : ℤ) * h ≤ intMax := by
    have hsize' : ((w * h : ℕ) : ℤ) ≤ intMax := by
      unfold intMax
      omega
    rw [Int.natCast_mul] at hsize'
    exact ⟨Int.mul_nonneg (Int.natCast_nonneg _) (Int.natCast_nonneg _), hsize'⟩
  unfold readHeader ppmFile
  rw [getline_line (by decide)]
  dsimp only
  rw [if_pos rfl, hclean₁, getline_line hnum]
  dsimp only
  rw [dims_decimal hw hh]
  dsimp only
  rw [hclean₂, getline_line (by decide)]
  dsimp only
  rw [hrange]
  dsimp only
  rw [if_pos hmul]

end Image

def Reproduces (w h : ℕ) (image : ℕ → ℕ → RGB) (loaded : Option (Loaded RGB)) : Prop :=
  ∃ p, loaded = some p ∧ p.width = w ∧ p.height = h ∧
    ∀ r < h, ∀ c < w, p.map ((h - 1 - r) * w + c) = some (image r c)

/-- **Loading reproduces the image**, if and only if the first byte of its first pixel is not a `#`. -/
theorem ppmInit_iff (w h : ℕ) (hw : 1 ≤ w) (hh : 1 ≤ h) (hsize : w * h < 2 ^ 31) (comments₁ comments₂ : List Bytes)
    (hc₁ : ∀ c ∈ comments₁, 10 ∉ c) (hc₂ : ∀ c ∈ comments₂, 10 ∉ c) (image : ℕ → ℕ → RGB) :
    Reproduces w h image (ppmInit (ppmFile w h comments₁ comments₂ image)) ↔ (image 0 0).red ≠ 35 := by
  have hwmax : (w : ℤ) ≤ intMax := by
    have := Nat.le_mul_of_pos_right w hh
    unfold intMax
    omega
  have hhmax : (h : ℤ) ≤ intMax := by
    have := Nat.le_mul_of_pos_left h hw
    unfold intMax
    omega
  -- the first byte behind the header is the red value of the first pixel
  have hfirst : ∃ bs, pixelBytes w image h 0 = (image 0 0).red :: bs := by
    obtain ⟨w', rfl⟩ := Nat.exists_eq_add_of_le' hw
    obtain ⟨h', rfl⟩ := Nat.exists_eq_add_of_le' hh
    rw [pixelBytes_succ, rowBytes_succ]
    exact ⟨_, rfl⟩
  obtain ⟨bs, hbs⟩ := hfirst
  have hlen : bs.length + 1 = 3 * (h * w) := by
    rw [← length_pixelBytes w image h 0, hbs]
    rfl
  have hheader := readHeader_ppmFile image hwmax hhmax hsize hc₁ hc₂
  rw [ppmInit, ppmLoad, hheader]
  simp only [Int.toNat_natCast]
  by_cases hred : (image 0 0).red = 35
  · -- a line of the pixels is taken for a comment, and there are not enough bytes left
    refine iff_of_false ?_ (not_not.2 hred)
    rintro ⟨p, hp, -⟩
    obtain ⟨⟨s', map'⟩, hrows, -⟩ := Option.map_eq_some_iff.1 hp
    have hrest := readRows_length hrows
    have hlt := length_cleanUp_lt bs
    rw [hbs, hred] at hrest
    omega
  · refine iff_of_true ?_ hred
    -- the third call of `cleanUp` finds no comment, and the rows are read as they were written
    have hclean : cleanUp (IStream.ofFile (pixelBytes w image h 0)) = IStream.ofFile (pixelBytes w image h 0) := by
      rw [hbs]
      have hnone : ∀ c ∈ ([] : List Bytes), 10 ∉ c := fun c hc => by cases hc
      exact cleanUp_comments hnone hred bs
    obtain ⟨map', hrows, hpix, -⟩ := readRows_pixelBytes w image [] h 0 fun _ => none
    rw [List.append_nil] at hrows
    refine ⟨{ width := w, height := h, map := map' }, ?_, rfl, rfl, fun r hr c hc => ?_⟩
    · rw [hclean, hrows]
      rfl
    · simpa using hpix r hr c hc

/-- Two rows of two pixels, all different; the second one begins with a `#`. -/
def fourPixels (r c : ℕ) : RGB := ⟨if c = 0 then 1 else 35, if r = 0 then 10 else 20, 30⟩

/-- An image with one comment after the first line, and two after the dimensions. -/
theorem ppmInit_fourPixels :
    Reproduces 2 2 fourPixels (ppmInit (ppmFile 2 2 [ascii " four"] [ascii " pixels", ascii ""] fourPixels)) :=
  (ppmInit_iff 2 2 (by decide) (by decide) (by decide) [ascii " four"] [ascii " pixels", ascii ""] (by decide)
    (by decide) fourPixels).2 (by decide)

/-- An image of one pixel, whose red is 35: nothing is left to read. -/
theorem not_reproduces_hash :
    ¬ Reproduces 1 1 (fun _ _ => RGB.mk 35 0 0) (ppmInit (ppmFile 1 1 [] [] fun _ _ => RGB.mk 35 0 0)) := by
  rintro ⟨p, hp, -⟩
  have hnone : ppmInit (ppmFile 1 1 [] [] fun _ _ => RGB.mk 35 0 0) = none := by decide
  cases hnone.symm.trans hp

end TamuProofs.Ppm
