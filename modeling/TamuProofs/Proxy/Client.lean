import TamuProofs.Proxy.ParseReq

/-!
# The client of the proxy (`client.c`)

The client cuts a URL at its first slash and puts the two parts into a request.  `getReq` is the request it builds,
and **`parseReq_getReq`** says that `parse_req` finds the two parts there again.
-/

namespace TamuProofs.Proxy

open TamuProofs.Lib

/-- The size of `URL_Addr`, `Host_name` and `Get_Req`. -/
def clientBuffer : ℕ := 1000

/-- `Host_name` and `Page`, where `page` is what `Page` holds at first. Without a slash `strrchr` gives a null
pointer, and there is no room for a longer URL. -/
def splitUrl (page url : Bytes) : Option (Bytes × Bytes) :=
  let i := url.findIdx (· == 47)
  if i < url.length ∧ url.length < clientBuffer then
    some (url.take i, if i + 1 < url.length then page ++ url.drop (i + 1) else page)
  else none

/-- What `sprintf` puts into `Get_Req`. -/
def getText (page hostName : Bytes) : Bytes :=
  ascii "GET " ++ page ++ ascii " HTTP/1.0\r\nHost: " ++ hostName ++ ascii "\r\nUser-Agent: HTMLGET 1.0\r\n\r\n"

/-- The request, if it fits. -/
def getReq (page url : Bytes) : Option Bytes :=
  match splitUrl page url with
  | none => none
  | some (hostName, page) =>
    if (getText page hostName).length < clientBuffer then some (getText page hostName) else none

/-- A part of a URL: no space, CR, LF or NUL. -/
def InUrl (text : Bytes) : Prop := ∀ b ∈ text, b ≠ 32 ∧ b ≠ 0 ∧ isCrLf b = false

instance (text : Bytes) : Decidable (InUrl text) := List.decidableBAll _ text

section Url

variable {h p : Bytes}

theorem splitUrl_append (hslash : 47 ∉ h) (hlen : (h ++ 47 :: p).length < clientBuffer) :
    splitUrl [] (h ++ 47 :: p) = some (h, p) := by
  have hidx : (h ++ 47 :: p).findIdx (· == 47) = h.length := by
    rw [List.findIdx_append, if_neg]
    · simp [List.findIdx_cons]
    · rw [List.findIdx_lt_length]
      rintro ⟨b, hb, hb47⟩
      exact hslash (beq_iff_eq.1 hb47 ▸ hb)
  have hlt : h.length < (h ++ 47 :: p).length := by simp
  unfold splitUrl
  dsimp only
  rw [hidx, if_pos ⟨hlt, hlen⟩, List.take_left]
  cases p with
  | nil => simp
  | cons b p =>
    rw [if_pos (by simp), List.drop_append, List.drop_of_length_le (by omega)]
    simp

theorem rmSpace_of_inUrl (hp : InUrl p) : rmSpace p = p := by
  unfold rmSpace
  rw [List.filter_eq_self]
  intro b hb
  simpa using (hp b hb).1

theorem InUrl.isCrLf (hp : InUrl p) : ∀ b ∈ p, isCrLf b = false := fun b hb => (hp b hb).2.2

theorem InUrl.zero_notMem (hp : InUrl p) : 0 ∉ p := fun h0 => (hp 0 h0).2.1 rfl

theorem tokens_getText (hh : InUrl h) (hp : InUrl p) : tokens isCrLf (getText p h) =
    [ascii "GET " ++ p ++ ascii " HTTP/1.0", ascii "Host: " ++ h, ascii "User-Agent: HTMLGET 1.0"] := by
  have hget : ∀ b ∈ ascii "GET " ++ p ++ ascii " HTTP/1.0", isCrLf b = false := by
    simp only [List.forall_mem_append]
    exact ⟨⟨noDelim_of_any (by decide), hp.isCrLf⟩, noDelim_of_any (by decide)⟩
  have hhost : ∀ b ∈ ascii "Host: " ++ h, isCrLf b = false := by
    simp only [List.forall_mem_append]
    exact ⟨noDelim_of_any (by decide), hh.isCrLf⟩
  have htext : getText p h = (ascii "GET " ++ p ++ ascii " HTTP/1.0") ++ 13 :: 10 ::
      ((ascii "Host: " ++ h) ++ 13 :: 10 :: (ascii "User-Agent: HTMLGET 1.0" ++ 13 :: [10, 13, 10])) := by
    simp only [getText, ascii]
    simp
  rw [htext, tokens_append_of_forall (by simp [ascii]) hget (by decide), tokens_cons (by decide),
    tokens_append_of_forall (by simp [ascii]) hhost (by decide), tokens_cons (by decide)]
  congr 2

theorem parseText_getText (hh : InUrl h) (hp : InUrl p) : parseText (getText p h) = some (h, p) := by
  have hgetline : (ascii "GET " ++ p ++ ascii " HTTP/1.0").drop 4 = p ++ ascii " HTTP/1.0" := rfl
  have hlen : (ascii "GET " ++ p ++ ascii " HTTP/1.0").length = p.length + 13 := by
    rw [List.length_append, List.length_append]
    show 4 + p.length + 9 = p.length + 13
    omega
  have hlong : ∀ line ∈ [ascii "GET " ++ p ++ ascii " HTTP/1.0", ascii "Host: " ++ h, ascii "User-Agent: HTMLGET 1.0"],
      LongEnough line := by
    simp only [List.forall_mem_cons]
    refine ⟨⟨fun _ => by omega, fun hhost => by cases hhost⟩, ⟨(fun hget => by cases hget), fun _ => ?_⟩, by decide,
      by simp⟩
    rw [List.length_append]
    exact Nat.le_add_right 6 _
  have hresource : rmSpace ((p ++ ascii " HTTP/1.0").take (p.length + 13 - 12)) = p := by
    rw [show p.length + 13 - 12 = p.length + 1 by omega, List.take_length_add_append, rmSpace, List.filter_append]
    show p.filter _ ++ [] = p
    rw [List.append_nil]
    exact rmSpace_of_inUrl hp
  unfold parseText
  rw [tokens_getText hh hp, foldlM_line, if_pos hlong]
  show some (rmSpace h, rmSpace (((ascii "GET " ++ p ++ ascii " HTTP/1.0").drop 4).take _)) = _
  rw [hgetline, hlen, hresource, rmSpace_of_inUrl hh]

end Url

/-- **The proxy finds what the client put into its request**: for a URL `h/p` whose request fits, the address is `h`
and the resource is `p`. -/
theorem parseReq_getReq (h p : Bytes) (hslash : 47 ∉ h) (hh : InUrl h) (hp : InUrl p)
    (hfits : (getText p h).length < clientBuffer) :
    ∃ req, getReq [] (h ++ 47 :: p) = some req ∧ ∀ rest, parseReq (req ++ 0 :: rest) = some (h, p) := by
  have hurl : (h ++ 47 :: p).length < clientBuffer := by
    have hget : (ascii "GET ").length = 4 := rfl
    simp only [getText, List.length_append, hget] at hfits
    rw [List.length_append, List.length_cons]
    omega
  refine ⟨getText p h, ?_, fun rest => ?_⟩
  · rw [getReq, splitUrl_append hslash hurl]
    exact if_pos hfits
  · have hzero : 0 ∉ getText p h := by
      simp only [getText, List.mem_append, not_or]
      exact ⟨⟨⟨⟨by decide, hp.zero_notMem⟩, by decide⟩, hh.zero_notMem⟩, by decide⟩
    rw [parseReq_append_nul hzero, parseText_getText hh hp]

theorem parseReq_getReq_index :
    ∃ req, getReq [] (ascii "a.com/b/c.html") = some req ∧
      ∀ rest, parseReq (req ++ 0 :: rest) = some (ascii "a.com", ascii "b/c.html") :=
  parseReq_getReq (ascii "a.com") (ascii "b/c.html") (by decide) (by decide) (by decide) (by decide)

end TamuProofs.Proxy
