import Mathlib.Data.List.Infix
import TamuProofs.Proxy.ParseReq

/-!
# How a response arrives (the receive loop of `recv_from_srvr`)

TCP may cut a response anywhere, and `recv` returns the pieces.  The loop writes each one to the temporary file and
looks for the status code in the first of them and for a line `Expires: ` in each until it has found one: always in
that piece alone, up to its first NUL.  Nothing tells the header from the body.

* `recvLoop` — the loop, with no result (`none`) where the code leaves a copy of a piece or uses a null pointer;
  `recvLoop_eq` says what it finds, and `recvFromSrvr_recvLoop` that this is the response of `recvFromSrvr`;
* `SameMetadata` — over some ways to deliver a response, the loop always finds the same, and the header's line;
* **`not_sameMetadata`** — over all ways this is true of no response, and over those whose first piece has the status
  code exactly of the responses that do not contain `Expires: `.
-/

namespace TamuProofs.Proxy

open TamuProofs.Lib

/-- What the second loop over the tokens looks for. -/
def expiresTag : Bytes := ascii "Expires: "

/-- The value of the first line that begins with `Expires: `. -/
def expiresIn (text : Bytes) : Option Bytes :=
  ((tokens isCrLf text).find? expiresTag.isPrefixOf).map (·.drop 9)

/-- `webcode` and `expires`, null pointers at first, and what was written to the temporary file. -/
structure Received where
  code : Option Bytes
  expires : Option Bytes
  file : Bytes
  deriving DecidableEq

def Received.start : Received := { code := none, expires := none, file := [] }

/-- `strdup(content)`. `content` was cleared, so that a NUL follows a piece that does not fill it; else `strdup` reads
on behind it. -/
def strdup (piece : Bytes) : Option Bytes :=
  if piece.length < bufferSize ∨ 0 ∈ piece then some (cstr piece) else none

def Received.recv (r : Received) (piece : Bytes) : Option Received :=
  match if r.code.isSome then r.code else (strdup piece).bind webcode,
    if r.expires.isSome then some r.expires else (strdup piece).map expiresIn with
  | some code, some expires => some { code := some code, expires := expires, file := r.file ++ piece }
  | _, _ => none

/-- The loop, where `recv` returns these pieces. The code is compared with 304 in the end, even if there is none. -/
def recvLoop (pieces : List Bytes) : Option Received :=
  (pieces.foldlM Received.recv Received.start).filter fun r => r.code.isSome

/-! ### What the loop finds -/

section Loop

variable {pieces : List Bytes} {piece code file : Bytes} {expires : Option Bytes}

theorem webcode_cstr (piece : Bytes) : webcode (cstr piece) = webcode piece := by
  unfold webcode
  rw [cstr_eq_self_iff.2 (zero_notMem_cstr piece)]

theorem recv_of_some (h : piece.length < bufferSize) :
    Received.recv { code := some code, expires := expires, file := file } piece =
      some { code := some code, expires := expires.or (expiresIn (cstr piece)), file := file ++ piece } := by
  cases expires with
  | none => simp [Received.recv, strdup, h]
  | some e => simp [Received.recv]

theorem recv_start (h : piece.length < bufferSize) : Received.start.recv piece =
    (webcode piece).map fun code => { code := some code, expires := expiresIn (cstr piece), file := piece } := by
  cases hcode : webcode piece with
  | none => simp [Received.recv, Received.start, strdup, h, webcode_cstr, hcode]
  | some code => simp [Received.recv, Received.start, strdup, h, webcode_cstr, hcode]

theorem foldlM_recv (h : ∀ p ∈ pieces, p.length < bufferSize) (expires : Option Bytes) (file : Bytes) :
    pieces.foldlM Received.recv { code := some code, expires := expires, file := file } =
      some { code := some code, expires := expires.or (pieces.findSome? fun p => expiresIn (cstr p)),
             file := file ++ pieces.flatten } := by
  induction pieces generalizing expires file with
  | nil => simp
  | cons p ps ih =>
    rw [List.foldlM_cons, recv_of_some (h p List.mem_cons_self), Option.bind_eq_bind, Option.bind_some,
      ih fun q hq => h q (List.mem_cons_of_mem p hq), List.findSome?_cons]
    cases expires with
    | some e => simp
    | none =>
      cases expiresIn (cstr p) with
      | none => simp
      | some e => simp

/-- **What the loop finds.** The code is that of the first piece, the date that of the first piece with a line for it,
and the file has all bytes. -/
theorem recvLoop_eq (h : ∀ p ∈ pieces, p.length < bufferSize) : recvLoop pieces =
    (pieces.head?.bind webcode).map fun code =>
      { code := some code, expires := pieces.findSome? fun p => expiresIn (cstr p), file := pieces.flatten } := by
  unfold recvLoop
  cases pieces with
  | nil => rfl
  | cons p ps =>
    rw [List.foldlM_cons, recv_start (h p List.mem_cons_self), List.head?_cons, Option.bind_some]
    cases webcode p with
    | none => rfl
    | some code =>
      rw [Option.map_some, Option.bind_eq_bind, Option.bind_some,
        foldlM_recv fun q hq => h q (List.mem_cons_of_mem p hq), List.findSome?_cons]
      cases expiresIn (cstr p) with
      | none => simp
      | some e => simp

/-- The response of `recvFromSrvr` is what the loop finds. -/
theorem recvFromSrvr_recvLoop {s : State} {g : Get} {flag : ℕ} {v : Served}
    (h : ∀ p ∈ pieces, p.length < bufferSize) (hv : s.recvFromSrvr g flag pieces = some v) :
    ∃ r response, recvLoop pieces = some r ∧ v.response = some response ∧
      r.code = some response.code ∧ r.file = response.bytes := by
  obtain ⟨code, hcode, hresponse, -⟩ := recvFromSrvr_cases hv
  have hloop := recvLoop_eq h
  rw [hcode, Option.map_some] at hloop
  exact ⟨_, _, hloop, hresponse, rfl, rfl⟩

end Loop

/-! ### The header -/

/-- What stands before the first empty line, or everything. -/
def headerSection : Bytes → Bytes
  | [] => []
  | b :: bs => if emptyLine.isPrefixOf (b :: bs) then [] else b :: headerSection bs

/-- The value of the header's line `Expires: `, if it has one. -/
def headerExpires (response : Bytes) : Option Bytes := expiresIn (headerSection response)

section Header

variable {text line rest : Bytes}

theorem headerSection_prefix_self (bytes : Bytes) : headerSection bytes <+: bytes := by
  induction bytes with
  | nil => exact List.nil_prefix
  | cons b bs ih =>
    unfold headerSection
    split
    · exact List.nil_prefix
    · exact (List.prefix_cons_inj b).2 ih

theorem headerSection_append (h : ∀ b ∈ line, isCrLf b = false) (rest : Bytes) :
    headerSection (line ++ rest) = line ++ headerSection rest := by
  induction line with
  | nil => rfl
  | cons b line ih =>
    have hb : b ≠ 13 := by
      rintro rfl
      exact absurd (h 13 List.mem_cons_self) (by decide)
    have hno : emptyLine.isPrefixOf (b :: (line ++ rest)) = false := by
      change ((13 : UInt8) == b && [10, 13, 10].isPrefixOf (line ++ rest)) = false
      rw [beq_eq_false_iff_ne.2 hb.symm, Bool.false_and]
    rw [List.cons_append, headerSection, hno, if_neg Bool.false_ne_true,
      ih fun c hc => h c (List.mem_cons_of_mem b hc), List.cons_append]

theorem expiresIn_eq_none (h : ¬ expiresTag <:+: text) : expiresIn text = none := by
  unfold expiresIn
  rw [Option.map_eq_none_iff, List.find?_eq_none]
  intro tok htok htag
  exact h ((List.isPrefixOf_iff_prefix.1 htag).isInfix.trans (infix_of_mem_tokens htok))

/-- The first 12 bytes of a response: the version, a blank and the code. -/
structure StatusLine (line : Bytes) : Prop where
  length_eq : line.length = 12
  clean : InLine line
  http : ascii "HTTP/" <+: line

theorem StatusLine.ne_nil (hline : StatusLine line) : line ≠ [] :=
  List.ne_nil_of_length_pos (by rw [hline.length_eq]; decide)

theorem StatusLine.zero_notMem (hline : StatusLine line) : 0 ∉ line := fun h => (hline.clean 0 h).1 rfl

/-- The status line is not the line that the loop looks for. -/
theorem StatusLine.expiresIn_append (hline : StatusLine line) (h : ¬ expiresTag <:+: rest) :
    expiresIn (line ++ rest) = none := by
  obtain ⟨more, tail, rfl, htokens⟩ := exists_tokens_append hline.ne_nil (fun b hb => (hline.clean b hb).2) rest
  have htail := expiresIn_eq_none fun htag => h (htag.trans (List.suffix_append more tail).isInfix)
  have hfirst : expiresTag.isPrefixOf (line ++ more) = false := by
    obtain ⟨version, rfl⟩ := hline.http
    rfl
  unfold expiresIn at htail ⊢
  rw [htokens, List.find?_cons, hfirst]
  exact htail

theorem StatusLine.headerExpires_append (hline : StatusLine line) (h : ¬ expiresTag <:+: rest) :
    headerExpires (line ++ rest) = none := by
  unfold headerExpires
  rw [headerSection_append (fun b hb => (hline.clean b hb).2) rest]
  exact hline.expiresIn_append fun htag => h (htag.trans (headerSection_prefix_self rest).isInfix)

end Header

/-! ### Pieces -/

/-- `recv` can return these pieces of the response, one after another. -/
structure Delivers (response : Bytes) (pieces : List Bytes) : Prop where
  flatten_eq : pieces.flatten = response
  sizes : ∀ p ∈ pieces, 0 < p.length ∧ p.length ≤ bufferSize

/-- The first piece has the status code, and none fills the buffer. -/
structure CodeFirst (response : Bytes) (pieces : List Bytes) : Prop extends Delivers response pieces where
  code : ∃ p ∈ pieces.head?, 12 ≤ p.length
  fits : ∀ p ∈ pieces, p.length < bufferSize

/-- **The metadata do not depend on the delivery**: whichever of these ways the response comes in, the loop gets to
its end with the same code, the same date, which is that of the header, and the bytes of the response. -/
def SameMetadata (ways : List Bytes → Prop) (response : Bytes) : Prop :=
  ∀ ps qs, ways ps → ways qs → ∃ r, recvLoop ps = some r ∧ recvLoop qs = some r ∧
    r.file = response ∧ r.expires = headerExpires response

def bytewise (bytes : Bytes) : List Bytes := bytes.map fun b => [b]

section Bytewise

variable {bytes p : Bytes}

@[simp] theorem bytewise_flatten (bytes : Bytes) : (bytewise bytes).flatten = bytes := by
  induction bytes with
  | nil => rfl
  | cons b bs ih => exact congrArg (b :: ·) ih

theorem length_of_mem_bytewise (h : p ∈ bytewise bytes) : p.length = 1 := by
  obtain ⟨b, -, rfl⟩ := List.mem_map.1 h
  rfl

theorem expiresIn_of_mem_bytewise (h : p ∈ bytewise bytes) : expiresIn (cstr p) = none := by
  apply expiresIn_eq_none
  intro htag
  have h9 : expiresTag.length ≤ (cstr p).length := htag.length_le
  have h1 := length_cstr_le p
  rw [length_of_mem_bytewise h] at h1
  exact absurd (h9.trans h1) (by decide)

theorem findSome?_bytewise (bytes : Bytes) : (bytewise bytes).findSome? (fun p => expiresIn (cstr p)) = none :=
  List.findSome?_eq_none_iff.2 fun _ hp => expiresIn_of_mem_bytewise hp

theorem delivers_bytewise (bytes : Bytes) : Delivers bytes (bytewise bytes) where
  flatten_eq := bytewise_flatten bytes
  sizes p hp := by
    rw [length_of_mem_bytewise hp, bufferSize]
    omega

/-- Nothing of a status code is in one byte. -/
theorem recvLoop_bytewise (bytes : Bytes) : recvLoop (bytewise bytes) = none := by
  have hfits : ∀ p ∈ bytewise bytes, p.length < bufferSize := by
    intro p hp
    rw [length_of_mem_bytewise hp, bufferSize]
    omega
  rw [recvLoop_eq hfits]
  cases bytes with
  | nil => rfl
  | cons b bs =>
    change (webcode [b]).map _ = none
    rw [webcode_short (by rw [List.length_singleton]; omega), Option.map_none]

end Bytewise

section StatusLine

variable {line rest : Bytes} {pieces : List Bytes}

theorem CodeFirst.exists_cons (hline : StatusLine line) (h : CodeFirst (line ++ rest) pieces) :
    ∃ more ps, pieces = (line ++ more) :: ps ∧ rest = more ++ ps.flatten := by
  obtain ⟨p, hp, h12⟩ := h.code
  obtain ⟨ps, rfl⟩ := List.head?_eq_some_iff.1 hp
  have hflat : line ++ rest = p ++ ps.flatten := h.flatten_eq.symm
  obtain ⟨more, rfl⟩ : line <+: p :=
    List.prefix_of_prefix_length_le ⟨rest, rfl⟩ ⟨ps.flatten, hflat.symm⟩ (by rw [hline.length_eq]; exact h12)
  rw [List.append_assoc] at hflat
  exact ⟨more, ps, rfl, List.append_cancel_left hflat⟩

theorem CodeFirst.recvLoop_of_not_infix (hline : StatusLine line) (htag : ¬ expiresTag <:+: rest)
    (h : CodeFirst (line ++ rest) pieces) :
    recvLoop pieces = some { code := some (line.drop 9), expires := none, file := line ++ rest } := by
  rw [recvLoop_eq h.fits, h.flatten_eq]
  obtain ⟨more, ps, rfl, rfl⟩ := h.exists_cons hline
  have hfirst : expiresIn (cstr (line ++ more)) = none := by
    rw [cstr_append hline.zero_notMem]
    apply hline.expiresIn_append
    intro hmore
    exact htag (hmore.trans ((cstr_prefix_self more).trans (List.prefix_append more ps.flatten)).isInfix)
  have hnext : ∀ p ∈ ps, expiresIn (cstr p) = none := by
    intro p hp
    apply expiresIn_eq_none
    intro hpiece
    have hps : p <:+: ps.flatten := List.infix_of_mem_flatten hp
    exact htag (((hpiece.trans (cstr_prefix_self p).isInfix).trans hps).trans
      (List.suffix_append more ps.flatten).isInfix)
  rw [List.head?_cons, Option.bind_some, webcode_append hline.length_eq hline.clean, List.findSome?_cons, hfirst,
    List.findSome?_eq_none_iff.2 hnext]
  rfl

theorem codeFirst_cons (hline : StatusLine line) (hflat : pieces.flatten = rest)
    (hsizes : ∀ p ∈ pieces, 0 < p.length ∧ p.length ≤ 9) : CodeFirst (line ++ rest) (line :: pieces) where
  flatten_eq := by rw [List.flatten_cons, hflat]
  sizes := by
    rw [List.forall_mem_cons, hline.length_eq, bufferSize]
    exact ⟨by omega, fun p hp => ⟨(hsizes p hp).1, by have := (hsizes p hp).2; omega⟩⟩
  code := ⟨line, rfl, hline.length_eq.ge⟩
  fits := by
    rw [List.forall_mem_cons, hline.length_eq, bufferSize]
    exact ⟨by omega, fun p hp => by have := (hsizes p hp).2; omega⟩

theorem recvLoop_statusLine_cons (hline : StatusLine line) (h : CodeFirst (line ++ rest) (line :: pieces)) :
    recvLoop (line :: pieces) =
      some { code := some (line.drop 9), expires := pieces.findSome? fun p => expiresIn (cstr p),
             file := line ++ rest } := by
  have hfirst : expiresIn (cstr line) = none := by
    have hnil := hline.expiresIn_append (show ¬ expiresTag <:+: [] by decide)
    rwa [List.append_nil, ← cstr_eq_self_iff.2 hline.zero_notMem] at hnil
  have hcode : webcode (line ++ []) = some (line.drop 9) := webcode_append hline.length_eq hline.clean
  rw [List.append_nil] at hcode
  rw [recvLoop_eq h.fits, h.flatten_eq, List.head?_cons, Option.bind_some, hcode, List.findSome?_cons, hfirst]
  rfl

end StatusLine

/-- **What the loop finds depends on the delivery**, for every response: one that comes byte by byte has no code. Where
the first piece has the code, the date that is found is always the header's exactly if `Expires: ` does not occur
behind the code at all: else it is lost when every byte comes alone, and found when a piece begins there. -/
theorem not_sameMetadata (response : Bytes) : ¬ SameMetadata (Delivers response) response ∧
    ∀ line rest, StatusLine line → response = line ++ rest →
      (SameMetadata (CodeFirst response) response ↔ ¬ expiresTag <:+: rest) := by
  refine ⟨fun h => ?_, ?_⟩
  · obtain ⟨r, hr, -⟩ := h _ _ (delivers_bytewise response) (delivers_bytewise response)
    rw [recvLoop_bytewise] at hr
    cases hr
  · rintro line rest hline rfl
    refine ⟨fun h htag => ?_, fun htag ps qs hps hqs => ?_⟩
    · -- two deliveries that differ: `Expires: ` is a piece of its own, or every byte is
      obtain ⟨front, back, rfl⟩ := htag
      have hwhole : (bytewise front ++ expiresTag :: bytewise back).flatten = front ++ expiresTag ++ back := by
        simp
      have hone : ∀ bytes : Bytes, ∀ p ∈ bytewise bytes, 0 < p.length ∧ p.length ≤ 9 := by
        intro bytes p hp
        rw [length_of_mem_bytewise hp]
        omega
      have hcut := codeFirst_cons hline hwhole (by
        rw [List.forall_mem_append, List.forall_mem_cons]
        exact ⟨hone front, by decide, hone back⟩)
      have hbytes := codeFirst_cons hline (bytewise_flatten (front ++ expiresTag ++ back)) (hone _)
      obtain ⟨r, hr1, hr2, -⟩ := h _ _ hcut hbytes
      rw [recvLoop_statusLine_cons hline hcut, List.findSome?_append, findSome?_bytewise, Option.none_or,
        List.findSome?_cons, show expiresIn (cstr expiresTag) = some [] by decide] at hr1
      rw [recvLoop_statusLine_cons hline hbytes, findSome?_bytewise] at hr2
      cases hr1.trans hr2.symm
    · exact ⟨_, hps.recvLoop_of_not_infix hline htag, hqs.recvLoop_of_not_infix hline htag, rfl,
        (hline.headerExpires_append htag).symm⟩

/-- Of a page that does not say when it expires. -/
theorem sameMetadata_undated : SameMetadata (CodeFirst (ascii "HTTP/1.0 200 OK\r\n\r\nhi"))
    (ascii "HTTP/1.0 200 OK\r\n\r\nhi") := by
  have hline : StatusLine (ascii "HTTP/1.0 200") := ⟨rfl, by decide, ⟨ascii "1.0 200", rfl⟩⟩
  exact ((not_sameMetadata _).2 _ (ascii " OK\r\n\r\nhi") hline rfl).2 (by decide)

/-- The header says that the page has expired. The page comes whole, or is cut before the value. -/
theorem not_sameMetadata_cut :
    (∃ r, recvLoop [ascii "HTTP/1.0 200 OK\r\nExpires: -1\r\n\r\n"] = some r ∧ r.expires = some (ascii "-1")) ∧
      (∃ r, recvLoop [ascii "HTTP/1.0 200 OK\r\nExpires: ", ascii "-1\r\n\r\n"] = some r ∧ r.expires = some []) ∧
      ¬ SameMetadata (Delivers (ascii "HTTP/1.0 200 OK\r\nExpires: -1\r\n\r\n"))
        (ascii "HTTP/1.0 200 OK\r\nExpires: -1\r\n\r\n") := by
  have hwhole : ∀ p ∈ [ascii "HTTP/1.0 200 OK\r\nExpires: -1\r\n\r\n"], 0 < p.length ∧ p.length < bufferSize := by
    intro p hp
    rw [List.mem_singleton.1 hp, show (ascii "HTTP/1.0 200 OK\r\nExpires: -1\r\n\r\n").length = 32 from rfl, bufferSize]
    omega
  have hcut : ∀ p ∈ [ascii "HTTP/1.0 200 OK\r\nExpires: ", ascii "-1\r\n\r\n"],
      0 < p.length ∧ p.length < bufferSize := by
    rw [List.forall_mem_cons, List.forall_mem_singleton,
      show (ascii "HTTP/1.0 200 OK\r\nExpires: ").length = 26 from rfl,
      show (ascii "-1\r\n\r\n").length = 6 from rfl, bufferSize]
    omega
  have h1 : ∃ r, recvLoop [ascii "HTTP/1.0 200 OK\r\nExpires: -1\r\n\r\n"] = some r ∧ r.expires = some (ascii "-1") :=
    ⟨_, recvLoop_eq fun p hp => (hwhole p hp).2, by decide⟩
  have h2 : ∃ r, recvLoop [ascii "HTTP/1.0 200 OK\r\nExpires: ", ascii "-1\r\n\r\n"] = some r ∧ r.expires = some [] :=
    ⟨_, recvLoop_eq fun p hp => (hcut p hp).2, by decide⟩
  refine ⟨h1, h2, fun h => ?_⟩
  obtain ⟨r, hr1, hr2, -⟩ := h _ _ ⟨rfl, fun p hp => (hwhole p hp).imp_right le_of_lt⟩
    ⟨rfl, fun p hp => (hcut p hp).imp_right le_of_lt⟩
  obtain ⟨r1, hloop1, hexpires1⟩ := h1
  obtain ⟨r2, hloop2, hexpires2⟩ := h2
  cases hloop1.symm.trans (hr1.trans (hr2.symm.trans hloop2))
  cases hexpires1.symm.trans hexpires2

end TamuProofs.Proxy
