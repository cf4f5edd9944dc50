import TamuProofs.Lib.Text
import TamuProofs.Proxy.Files

/-!
# The requests that the proxy takes apart (`parse_req` of `proxy.cpp`)

`recv_from_clnt` checks that a request begins with `GET` and hands the buffer to `parse_req`, which goes through its
lines: what stands between `GET ` and the last eight bytes of a line is the resource, what follows `Host: ` is the
address.  Nothing looks at the lengths of the lines or at whether both were found, and the buffer ends where there
happens to be a NUL.

* `parseReq` has no result (`none`) where the code leaves the buffer or the token it looks at, or uses a pointer that
  was never assigned;
* **`parseReq_safe_iff`** — the requests on which it does neither;
* **`not_independent`** — what it finds always depends on what the buffer holds behind the request.

`expires` and `accessed` are set and not used.
-/

namespace TamuProofs.Proxy

open TamuProofs.Lib

def bufferSize : ℕ := 2048000

/-- The pointers of `clnt_req`, `none` until they are assigned. -/
structure ClntReq where
  address : Option Bytes
  resource : Option Bytes
  deriving DecidableEq

/-- `strncmp(line, "GET", 3) == 0`. -/
def isGet (line : Bytes) : Bool := (ascii "GET").isPrefixOf line

/-- `strncmp(line, "Host: ", 5) == 0`. -/
def isHost (line : Bytes) : Bool := (ascii "Host:").isPrefixOf line

/-- One token. `getline` has to point into it, and the place of the NUL has to be behind `getline`. -/
def ClntReq.line (r : ClntReq) (line : Bytes) : Option ClntReq :=
  if isGet line then
    let getline := line.drop 4
    if 4 ≤ line.length ∧ 8 ≤ getline.length then
      some { r with resource := some (getline.take (getline.length - 8)) }
    else none
  else if isHost line then
    if 6 ≤ line.length then some { r with address := some (line.drop 6) } else none
  else some r

/-- `parse_req` on a string: the address and the resource. -/
def parseText (text : Bytes) : Option (Bytes × Bytes) :=
  match (tokens isCrLf text).foldlM ClntReq.line { address := none, resource := none } with
  | none => none
  | some r =>
    match r.resource, r.address with
    | some resource, some address => some (rmSpace address, rmSpace resource)
    | _, _ => none

/-- `proxy::parse_req`. Without a NUL in the buffer `strdup` reads on behind it. -/
def parseReq (buffer : Bytes) : Option (Bytes × Bytes) := if 0 ∈ buffer then parseText (cstr buffer) else none

/-! ### All lines -/

/-- The line is as long as its use takes for granted. -/
def LongEnough (line : Bytes) : Prop :=
  (isGet line = true → 12 ≤ line.length) ∧ (isHost line = true → 6 ≤ line.length)

instance (line : Bytes) : Decidable (LongEnough line) := inferInstanceAs (Decidable (_ ∧ _))

/-- What a line that is long enough does. -/
def ClntReq.take (r : ClntReq) (line : Bytes) : ClntReq :=
  if isGet line then { r with resource := some ((line.drop 4).take (line.length - 12)) }
  else if isHost line then { r with address := some (line.drop 6) }
  else r

section Lines

variable {r : ClntReq} {line text : Bytes} {toks : List Bytes}

theorem isHost_of_isGet (h : isGet line = true) : isHost line = false := by
  cases line with
  | nil => rfl
  | cons b bs =>
    have hb : ((71 : UInt8) == b && [69, 84].isPrefixOf bs) = true := h
    rw [Bool.and_eq_true, beq_iff_eq] at hb
    rw [← hb.1]
    rfl

theorem line_eq (r : ClntReq) (line : Bytes) : r.line line = if LongEnough line then some (r.take line) else none := by
  unfold ClntReq.line ClntReq.take LongEnough
  dsimp only
  by_cases hget : isGet line = true
  · have hlen : (line.drop 4).length = line.length - 4 := List.length_drop
    simp only [hget, isHost_of_isGet hget, if_true, hlen, true_implies, Bool.false_eq_true, false_implies, and_true]
    by_cases h12 : 12 ≤ line.length
    · rw [if_pos h12, if_pos ⟨by omega, by omega⟩, show line.length - 4 - 8 = line.length - 12 by omega]
    · rw [if_neg h12, if_neg (by omega)]
  · by_cases hhost : isHost line = true
    · simp [hget, hhost]
    · simp [hget, hhost]

theorem foldlM_line (toks : List Bytes) (r : ClntReq) : toks.foldlM ClntReq.line r =
    if ∀ line ∈ toks, LongEnough line then some (toks.foldl ClntReq.take r) else none := by
  induction toks generalizing r with
  | nil => simp
  | cons line toks ih =>
    rw [List.foldlM_cons, line_eq]
    by_cases hline : LongEnough line
    · simp [hline, ih]
    · simp [hline]

theorem isSome_address_foldl (toks : List Bytes) (r : ClntReq) :
    (toks.foldl ClntReq.take r).address.isSome = true ↔
      r.address.isSome = true ∨ ∃ line ∈ toks, isHost line = true := by
  induction toks generalizing r with
  | nil => simp
  | cons line toks ih =>
    rw [List.foldl_cons, ih]
    have hstep : (r.take line).address.isSome = true ↔ r.address.isSome = true ∨ isHost line = true := by
      unfold ClntReq.take
      by_cases hget : isGet line = true
      · simp [hget, isHost_of_isGet hget]
      · by_cases hhost : isHost line = true <;> simp [hget, hhost]
    rw [hstep, List.exists_mem_cons_iff, or_assoc]

theorem isSome_resource_foldl (toks : List Bytes) (r : ClntReq) :
    (toks.foldl ClntReq.take r).resource.isSome = true ↔
      r.resource.isSome = true ∨ ∃ line ∈ toks, isGet line = true := by
  induction toks generalizing r with
  | nil => simp
  | cons line toks ih =>
    rw [List.foldl_cons, ih]
    have hstep : (r.take line).resource.isSome = true ↔ r.resource.isSome = true ∨ isGet line = true := by
      unfold ClntReq.take
      by_cases hget : isGet line = true
      · simp [hget]
      · by_cases hhost : isHost line = true <;> simp [hget, hhost]
    rw [hstep, List.exists_mem_cons_iff, or_assoc]

theorem isSome_parseText_iff (text : Bytes) : (parseText text).isSome = true ↔
    (∀ line ∈ tokens isCrLf text, LongEnough line) ∧ (∃ line ∈ tokens isCrLf text, isGet line = true) ∧
      ∃ line ∈ tokens isCrLf text, isHost line = true := by
  unfold parseText
  rw [foldlM_line]
  by_cases hall : ∀ line ∈ tokens isCrLf text, LongEnough line
  · have hres := isSome_resource_foldl (tokens isCrLf text) { address := none, resource := none }
    have haddr := isSome_address_foldl (tokens isCrLf text) { address := none, resource := none }
    simp only [Option.isSome_none, Bool.false_eq_true, false_or] at hres haddr
    rw [if_pos hall, ← hres, ← haddr, and_iff_right hall]
    dsimp only
    cases ((tokens isCrLf text).foldl ClntReq.take { address := none, resource := none }).resource <;>
      cases ((tokens isCrLf text).foldl ClntReq.take { address := none, resource := none }).address <;> simp
  · rw [if_neg hall]
    simp [hall]

end Lines

/-! ### Requests that begin with `GET` -/

/-- **On which requests `parse_req` is safe**: every GET line has 12 bytes, every Host line has 6, and there is a
Host line. -/
theorem parseReq_safe_iff (buffer : Bytes) (hnul : 0 ∈ buffer) (hget : ascii "GET" <+: buffer) :
    (parseReq buffer).isSome = true ↔
      (∀ line ∈ tokens isCrLf (cstr buffer), LongEnough line) ∧
        ∃ line ∈ tokens isCrLf (cstr buffer), isHost line = true := by
  obtain ⟨rest, rfl⟩ := hget
  have hfirst : ∃ line ∈ tokens isCrLf (cstr (ascii "GET" ++ rest)), isGet line = true := by
    rw [cstr_append (by decide)]
    obtain ⟨more, tail, -, htoks⟩ : ∃ more tail, cstr rest = more ++ tail ∧
        tokens isCrLf (ascii "GET" ++ cstr rest) = (ascii "GET" ++ more) :: tokens isCrLf tail :=
      exists_tokens_append (by decide) (noDelim_of_any (by decide)) _
    refine ⟨ascii "GET" ++ more, htoks ▸ List.mem_cons_self, ?_⟩
    exact List.isPrefixOf_iff_prefix.2 (List.prefix_append _ _)
  rw [parseReq, if_pos hnul, isSome_parseText_iff, and_iff_right hfirst]

theorem parseReq_safe_page : (parseReq (ascii "GET /x HTTP/1.0\r\nHost: a\r\n\r\n" ++ [0])).isSome = true :=
  (parseReq_safe_iff _ (by decide) (by decide)).2 (by decide)

/-- The index of the NUL is negative, and there is no address. -/
theorem not_parseReq_safe_bare :
    ¬ (parseReq (ascii "GET /x\r\n\r\n" ++ [0])).isSome = true := by
  decide

/-! ### What is behind the request -/

/-- A part of a line: no NUL, no CR and no LF. -/
def InLine (text : Bytes) : Prop := ∀ b ∈ text, b ≠ 0 ∧ isCrLf b = false

instance (text : Bytes) : Decidable (InLine text) := List.decidableBAll _ text

/-- A request: the GET line, a Host line among others, and an empty line. -/
def requestText (target host : Bytes) (before after : List Bytes) : Bytes :=
  ((ascii "GET " ++ target ++ ascii " HTTP/1.0") :: (before ++ (ascii "Host: " ++ host) :: after)).flatMap
    (· ++ [13, 10]) ++ [13, 10]

/-- The bytes are a well-formed request. -/
def WellFormedRequest (req : Bytes) : Prop :=
  ∃ target host before after, req = requestText target host before after ∧ InLine target ∧ InLine host ∧
    ∀ line ∈ before ++ after, line ≠ [] ∧ InLine line

/-- **The request alone decides**: with whatever of the kind `among` behind it in the buffer, `parse_req` returns, and
it returns the same. -/
def Independent (among : Bytes → Prop) (req : Bytes) : Prop :=
  ∀ r₁ r₂, among r₁ → among r₂ → req.length + r₁.length = bufferSize → req.length + r₂.length = bufferSize →
    ∃ page, parseReq (req ++ r₁) = some page ∧ parseReq (req ++ r₂) = some page

section Residue

variable {req : Bytes}

theorem WellFormedRequest.zero_notMem (h : WellFormedRequest req) : 0 ∉ req := by
  obtain ⟨target, host, before, after, rfl, htarget, hhost, hlines⟩ := h
  have hpart : ∀ {text}, InLine text → 0 ∉ text := fun htext h0 => (htext 0 h0).1 rfl
  have hall : ∀ line ∈ (ascii "GET " ++ target ++ ascii " HTTP/1.0") ::
      (before ++ (ascii "Host: " ++ host) :: after), 0 ∉ line := by
    intro line hline
    rcases List.mem_cons.1 hline with rfl | hline
    · simp only [List.mem_append, not_or]
      exact ⟨⟨by decide, hpart htarget⟩, by decide⟩
    rcases List.mem_append.1 hline with hline | hline
    · exact hpart (hlines line (List.mem_append_left _ hline)).2
    rcases List.mem_cons.1 hline with rfl | hline
    · rw [List.mem_append, not_or]
      exact ⟨by decide, hpart hhost⟩
    · exact hpart (hlines line (List.mem_append_right _ hline)).2
  intro h0
  rcases List.mem_append.1 h0 with h0 | h0
  · obtain ⟨line, hline, hmem⟩ := List.mem_flatMap.1 h0
    rcases List.mem_append.1 hmem with hmem | hmem
    · exact hall line hline hmem
    · exact absurd hmem (by decide)
  · exact absurd h0 (by decide)

theorem WellFormedRequest.exists_newline (h : WellFormedRequest req) : ∃ text, req = text ++ [10] := by
  obtain ⟨target, host, before, after, rfl, -⟩ := h
  exact ⟨_, by rw [requestText, show ([13, 10] : Bytes) = [13] ++ [10] from rfl, ← List.append_assoc]⟩

theorem parseReq_append_nul {text : Bytes} (h : 0 ∉ text) (rest : Bytes) :
    parseReq (text ++ 0 :: rest) = parseText text := by
  rw [parseReq, if_pos (by simp), cstr_append_nul h]

/-- A Host line behind the others decides the address. -/
theorem parseText_host_last {text host : Bytes} {page : Bytes × Bytes} (hhost : ∀ b ∈ host, isCrLf b = false)
    (h : parseText (text ++ 10 :: (ascii "Host: " ++ host)) = some page) : page.1 = rmSpace host := by
  have hline : ∀ b ∈ ascii "Host: " ++ host, isCrLf b = false := by
    intro b hb
    rcases List.mem_append.1 hb with hb | hb
    · exact noDelim_of_any (show (ascii "Host: ").any isCrLf = false by decide) b hb
    · exact hhost b hb
  -- the `Host:` line is the last token, so its address is the one that stays
  have htoks : tokens isCrLf (text ++ 10 :: (ascii "Host: " ++ host)) =
      tokens isCrLf text ++ [ascii "Host: " ++ host] := by
    rw [tokens_append_cons _ (by decide), tokens_of_forall (by simp [ascii]) hline]
  have htake : ∀ r : ClntReq, (r.take (ascii "Host: " ++ host)).address = some host := fun r => rfl
  unfold parseText at h
  rw [htoks, foldlM_line] at h
  split at h
  · cases h
  rename_i r hr
  split at hr
  · cases hr
    rw [List.foldl_append, List.foldl_cons, List.foldl_nil] at h
    split at h
    · rename_i address _ haddr
      cases h
      rw [htake] at haddr
      cases haddr
      rfl
    · cases h
  · cases hr

/-- A Host line, a NUL, and zeros. -/
def hostResidue (host : Bytes) (n : ℕ) : Bytes := ascii "Host: " ++ host ++ 0 :: zeros n

theorem parseReq_hostResidue (hwf : WellFormedRequest req) {host : Bytes} (hhost : InLine host) {n : ℕ}
    {page : Bytes × Bytes} (h : parseReq (req ++ hostResidue host n) = some page) : page.1 = rmSpace host := by
  have hzero : 0 ∉ req ++ (ascii "Host: " ++ host) := by
    simp only [List.mem_append, not_or]
    exact ⟨hwf.zero_notMem, by decide, fun h0 => (hhost 0 h0).1 rfl⟩
  rw [hostResidue, ← List.append_assoc, parseReq_append_nul hzero] at h
  obtain ⟨text, rfl⟩ := hwf.exists_newline
  rw [List.append_assoc] at h
  exact parseText_host_last (fun b hb => (hhost b hb).2) h

end Residue

/-- **What `parse_req` finds never depends on the request alone**: not even among the contents with a NUL in them,
where at least eight bytes are left behind the request. -/
theorem not_independent (req : Bytes) (hwf : WellFormedRequest req) (hlen : req.length ≤ bufferSize) :
    ¬ Independent (fun _ => True) req ∧ (req.length + 8 ≤ bufferSize → ¬ Independent (0 ∈ ·) req) := by
  constructor
  · intro h
    have hsize : req.length + (List.replicate (bufferSize - req.length) (65 : UInt8)).length = bufferSize := by
      rw [List.length_replicate]
      omega
    obtain ⟨page, hpage, -⟩ := h _ _ trivial trivial hsize hsize
    have hnul : 0 ∉ req ++ List.replicate (bufferSize - req.length) (65 : UInt8) := by
      rw [List.mem_append, not_or]
      exact ⟨hwf.zero_notMem, fun h0 => absurd (List.eq_of_mem_replicate h0) (by decide)⟩
    rw [parseReq, if_neg hnul] at hpage
    cases hpage
  · intro hroom h
    have hsize : ∀ b : UInt8, req.length + (hostResidue [b] (bufferSize - req.length - 8)).length = bufferSize := by
      intro b
      have hh : (ascii "Host: ").length = 6 := rfl
      simp only [hostResidue, List.length_append, List.length_cons, List.length_nil, length_zeros, hh]
      omega
    have hmem : ∀ b : UInt8, 0 ∈ hostResidue [b] (bufferSize - req.length - 8) := fun b => by simp [hostResidue]
    obtain ⟨page, h97, h98⟩ := h _ _ (hmem 97) (hmem 98) (hsize 97) (hsize 98)
    have ha := parseReq_hostResidue hwf (by decide : InLine [97]) h97
    have hb := parseReq_hostResidue hwf (by decide : InLine [98]) h98
    exact absurd (ha.symm.trans hb) (by decide)

def askA : Bytes := requestText (ascii "/x") (ascii "a") [] []

theorem askA_fits : askA.length + 8 ≤ bufferSize := by
  rw [show askA.length = 28 from rfl, bufferSize]
  omega

theorem not_independent_askA : ¬ Independent (0 ∈ ·) askA :=
  (not_independent askA ⟨_, _, _, _, rfl, by decide, by decide, by simp⟩ (by have := askA_fits; omega)).2 askA_fits

/-- The same request is for the host `a` in a cleared buffer, and for `b` where an earlier request left the line
`Host: b` behind it. -/
theorem not_independent_earlier_host :
    (∀ n, parseReq (askA ++ 0 :: zeros n) = some (ascii "a", ascii "/x")) ∧
      (∀ n, parseReq (askA ++ hostResidue (ascii "b") n) = some (ascii "b", ascii "/x")) ∧
      ¬ Independent (fun _ => True) askA := by
  have ha : ∀ n, parseReq (askA ++ 0 :: zeros n) = some (ascii "a", ascii "/x") := by
    intro n
    rw [parseReq_append_nul (by decide)]
    decide
  have hb : ∀ n, parseReq (askA ++ hostResidue (ascii "b") n) = some (ascii "b", ascii "/x") := by
    intro n
    rw [hostResidue, ← List.append_assoc, parseReq_append_nul (by decide)]
    decide
  refine ⟨ha, hb, fun h => ?_⟩
  have hlen : askA.length = 28 := rfl
  have hfits := askA_fits
  have hsize : ∀ n, (hostResidue (ascii "b") n).length = 8 + n := by
    intro n
    rw [hostResidue, List.length_append, List.length_cons, length_zeros]
    show 7 + (n + 1) = 8 + n
    omega
  obtain ⟨page, hpage, hpage'⟩ := h (0 :: zeros (bufferSize - 29)) (hostResidue (ascii "b") (bufferSize - 36)) trivial
    trivial (by rw [List.length_cons, length_zeros]; omega) (by rw [hsize]; omega)
  rw [ha] at hpage
  rw [hb] at hpage'
  exact absurd (hpage.trans hpage'.symm) (by decide)

end TamuProofs.Proxy
