import TamuProofs.Lib.Bytes

/-!
Texts cut in two ways: into the tokens that `strtok` finds (`tokens`), and into lines with their newlines (`lines`).

* `tokens_append_cons` — a delimiter ends the token before it;
* `infix_of_mem_tokens` — a token is a part of the text;
* `lines_flatten` — the lines of a text are the text.
-/

namespace TamuProofs.Lib

/-! ### Tokens -/

section Tokens

variable {isDelim : UInt8 → Bool} {text rest tok : Bytes} {sep : UInt8}

/-- The tokens that repeated calls of `strtok` find: the longest parts without a delimiter, but for the empty ones. -/
def tokens (isDelim : UInt8 → Bool) (text : Bytes) : List Bytes :=
  (text.splitOnP isDelim).filter fun tok => !tok.isEmpty

@[simp] theorem tokens_nil : tokens isDelim [] = [] := rfl

theorem tokens_append_cons (text : Bytes) (hsep : isDelim sep = true) (rest : Bytes) :
    tokens isDelim (text ++ sep :: rest) = tokens isDelim text ++ tokens isDelim rest := by
  simp [tokens, List.splitOnP_append_cons _ _ hsep]

theorem tokens_cons (hsep : isDelim sep = true) : tokens isDelim (sep :: rest) = tokens isDelim rest :=
  tokens_append_cons [] hsep rest

theorem noDelim_of_any (h : text.any isDelim = false) : ∀ b ∈ text, isDelim b = false := by
  simpa using h

theorem tokens_of_forall (hne : text ≠ []) (h : ∀ b ∈ text, isDelim b = false) : tokens isDelim text = [text] := by
  simp [tokens, List.splitOnP_eq_singleton h, hne]

theorem tokens_append_of_forall (hne : text ≠ []) (h : ∀ b ∈ text, isDelim b = false) (hsep : isDelim sep = true) :
    tokens isDelim (text ++ sep :: rest) = text :: tokens isDelim rest := by
  rw [tokens_append_cons text hsep, tokens_of_forall hne h, List.singleton_append]

/-- A text that begins without a delimiter: what it begins with is the beginning of its first token. -/
theorem exists_tokens_append (hne : text ≠ []) (h : ∀ b ∈ text, isDelim b = false) (rest : Bytes) :
    ∃ more tail, rest = more ++ tail ∧ tokens isDelim (text ++ rest) = (text ++ more) :: tokens isDelim tail := by
  have hrest : rest.takeWhile (fun b => !isDelim b) ++ rest.dropWhile (fun b => !isDelim b) = rest :=
    List.takeWhile_append_dropWhile
  have hclean : ∀ b ∈ text ++ rest.takeWhile (fun b => !isDelim b), isDelim b = false := by
    intro b hb
    rcases List.mem_append.1 hb with hb | hb
    · exact h b hb
    · simpa using List.mem_takeWhile_imp hb
  refine ⟨rest.takeWhile fun b => !isDelim b, rest.dropWhile fun b => !isDelim b, hrest.symm, ?_⟩
  conv_lhs => rw [← hrest, ← List.append_assoc]
  cases hd : rest.dropWhile fun b => !isDelim b with
  | nil =>
    rw [List.append_nil]
    exact tokens_of_forall (by simp [hne]) hclean
  | cons sep tail =>
    have hsep : isDelim sep = true := by
      have hhead := List.head?_dropWhile_not (fun b => !isDelim b) rest
      rw [hd] at hhead
      simpa using hhead
    rw [tokens_append_of_forall (by simp [hne]) hclean hsep, tokens_cons hsep]

theorem infix_of_mem_tokens (htok : tok ∈ tokens isDelim text) : tok <:+: text := by
  induction hn : text.length using Nat.strongRecOn generalizing text with
  | ind n ih =>
    cases text with
    | nil => cases htok
    | cons b text =>
      rw [List.length_cons] at hn
      cases hb : isDelim b with
      | true =>
        rw [tokens_cons hb] at htok
        exact (ih text.length (by omega) htok rfl).trans (List.suffix_cons b text).isInfix
      | false =>
        obtain ⟨more, tail, rfl, htokens⟩ := exists_tokens_append (List.cons_ne_nil b [])
          (fun c hc => List.mem_singleton.1 hc ▸ hb) text
        rw [← List.singleton_append, htokens, List.mem_cons] at htok
        rw [List.length_append] at hn
        rcases htok with rfl | htok
        · exact (List.prefix_append (b :: more) tail).isInfix
        · exact (ih tail.length (by omega) htok rfl).trans (List.suffix_append (b :: more) tail).isInfix

end Tokens

/-! ### Lines -/

/-- The lines of a text, each with its newline; the last one may lack it. -/
def lines : Bytes → List Bytes
  | [] => []
  | b :: text =>
    if b = 10 then [b] :: lines text
    else
      match lines text with
      | [] => [[b]]
      | line :: rest => (b :: line) :: rest

@[simp] theorem lines_flatten (text : Bytes) : (lines text).flatten = text := by
  induction text with
  | nil => rfl
  | cons b text ih =>
    unfold lines
    split
    · simp [ih]
    · cases hl : lines text with
      | nil => simpa [hl] using ih
      | cons line rest => simpa [hl] using ih

end TamuProofs.Lib
