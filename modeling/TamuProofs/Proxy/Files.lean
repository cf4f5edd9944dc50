import Mathlib.Tactic.SplitIfs
import TamuProofs.Lib.Dir
import TamuProofs.Proxy.CacheRuns

/-!
# The files of the proxy (`proxy.cpp`)

A response goes into a temporary file, named after the client's descriptor. Unless it says that the page has not
changed, the file then gets the name of the page, which is made of the address and the resource. What the client
is sent is always read from the file of the page.

* `fileName`, `tempName` — the names; `takesName` tells which names the directory takes;
* `webcode` — the status code, as it is cut out of what the first `recv` returned;
* `sendToClnt` — the loop that leaves out the header, `sendToClnt_eq` says which part that is;
* `State.request` — one GET request, with the page cache and the files; `request_cases` are its outcomes.

What the origin server answers is part of the request (`Get.answer`): it may depend on the date in the request.
A request has no outcome if `printf` meets a conversion in the resource, or if the name of the temporary file runs over
`tempstr`. The array `resource` is too short for the NUL at the end of its string, in every request; the byte behind it
is taken to be unused. `send` is taken to succeed, a piece of a response not to fill the buffer, and the working
directory to have no directories in it.
-/

namespace TamuProofs.Proxy

open TamuProofs.Lib

/-! ### Names -/

def rmSpace (text : Bytes) : Bytes := text.filter (· ≠ 32)

/-- `file_name`, as `send_to_clnt` and `recv_from_srvr` build it. -/
def fileName (page : Bytes × Bytes) : Bytes :=
  rmSpace (page.1 ++ page.2.map fun b => if b = 47 then 95 else b)

/-- What `sprintf` puts into `tempstr`. -/
def tempName (clientFd : ℕ) : Bytes := ascii "tempfile" ++ ascii (toString clientFd)

/-- The size of `tempstr`. -/
def tempstrSize : ℕ := 10

/-- The text can be the only argument of `printf`: it has no conversion but `%%`. -/
def isPlainFormat : Bytes → Bool
  | [] => true
  | [b] => b != 37
  | b :: c :: text => if b = 37 then c == 37 && isPlainFormat text else isPlainFormat (c :: text)

/-- The names that a file in the working directory can have. -/
def takesName (name : Bytes) : Bool :=
  decide (name ≠ [] ∧ 47 ∉ name ∧ name ≠ ascii "." ∧ name ≠ ascii ".." ∧ name.length ≤ 255)

/-! ### Responses -/

/-- A delimiter of `strtok`. -/
def isCrLf (b : UInt8) : Bool := b == 13 || b == 10

/-- `webcode`. `strtok` ends the first line of `content` with a NUL, another one is put 12 bytes after its start,
and the code begins 9 bytes after it. There is none if the copy of `content` ends before. -/
def webcode (content : Bytes) : Option Bytes :=
  let tk1 := (cstr content).dropWhile isCrLf
  let line := tk1.takeWhile fun b => !isCrLf b
  if tk1.length < 12 then none else some (cstr (((line ++ 0 :: tk1.drop (line.length + 1)).take 12).drop 9))

/-- The loop of `send_to_clnt` over the file, with `ready_to_send` and the last four characters. -/
def sendLoop : Bool → UInt8 → UInt8 → UInt8 → UInt8 → Bytes → Bytes
  | _, _, _, _, _, [] => []
  | ready, last4, last3, last2, last, b :: bs =>
    let ready := ready || (last4 == 13 && last3 == 10 && last2 == 13 && last == 10)
    (if ready then [b] else []) ++ sendLoop ready last3 last2 last b bs

/-- `proxy::send_to_clnt` from `fopen` on: what is sent of the file. -/
def sendToClnt (file : Option Bytes) : Bytes :=
  match file with
  | none => []
  | some bytes => sendLoop false 32 32 32 32 bytes

/-! ### Requests -/

/-- The variables of the class `proxy` that outlive a request, and the working directory. -/
structure State where
  cache : QueryCache
  files : Dir Bytes Bytes

/-- The proxy at the start, in an empty directory. -/
def State.new : State := { cache := QueryCache.new, files := Dir.empty }

/-- A GET request, and what it meets: also the client's descriptor, the clock when a date is put in a conditional
GET, and what `recv` returns of the answer of the origin server to a GET with this date or none. -/
structure Get extends Request where
  clientFd : ℕ
  dated : ℤ
  answer : Option ℤ → List Bytes

/-- What comes from the origin server: the status code and the bytes. -/
structure Response where
  code : Bytes
  bytes : Bytes

/-- The response says that the page has not changed. -/
def Response.NotModified (r : Response) : Prop := r.code = ascii "304"

instance (r : Response) : Decidable r.NotModified := inferInstanceAs (Decidable (_ = _))

/-- What a request leads to: the state after it, the response if one was fetched, and what the client is sent. -/
structure Served where
  state : State
  response : Option Response
  sent : Bytes

/-- The temporary file takes the place of the file of the page. -/
def saveAs {α : Type*} (files : Dir Bytes α) (temp name : Bytes) : Dir Bytes α :=
  Dir.rename (if (files name).isSome then files.remove name else files) (takesName name) temp name

/-- The files after a response, of which `keep` tells whether it is saved. -/
def receive {α : Type*} (files : Dir Bytes α) (temp name : Bytes) (contents : α) (keep : Bool) : Dir Bytes α :=
  if keep then saveAs (files.write temp contents) temp name else files.write temp contents

/-- `proxy::send_to_clnt`, whose `printf(resource)` takes the resource for a format. -/
def Get.sendPage (g : Get) (files : Dir Bytes Bytes) : Option Bytes :=
  if isPlainFormat g.resource then some (sendToClnt (files (fileName g.page))) else none

/-- `proxy::recv_from_srvr`, where `recv` returns these pieces. Without a first piece there is no code, and
`strcmp` is called on a null pointer. -/
def State.recvFromSrvr (s : State) (g : Get) (conditionFlag : ℕ) (pieces : List Bytes) : Option Served :=
  if (tempName g.clientFd).length < tempstrSize then
    match pieces.head?.bind webcode with
    | none => none
    | some code =>
      let response : Response := { code := code, bytes := pieces.flatten }
      let files := receive s.files (tempName g.clientFd) (fileName g.page) response.bytes (¬ response.NotModified)
      match s.cache.recvFromSrvr g.toRequest conditionFlag with
      | none => none
      | some cache => (g.sendPage files).map fun sent =>
        { state := { cache := cache, files := files }, response := some response, sent := sent }
  else none

def State.getRequestPage (s : State) (g : Get) (conditionFlag : ℕ) : Option Served :=
  if conditionFlag = 0 then
    match s.cache.isCacheExist g.address g.resource with
    | none => none
    | some true => (g.sendPage s.files).map fun sent => { state := s, response := none, sent := sent }
    | some false => s.recvFromSrvr g conditionFlag (g.answer (some g.dated))
  else if conditionFlag = 2 then s.recvFromSrvr g conditionFlag (g.answer none)
  else s.recvFromSrvr g conditionFlag (g.answer (some g.dated))

/-- The part of `proxy::recv_from_clnt` that handles a GET request. -/
def State.request (s : State) (g : Get) : Option Served :=
  match s.cache.checkCache g.address g.resource g.present g.marked with
  | none => none
  | some (conditionFlag, cache) => State.getRequestPage { s with cache := cache } g conditionFlag

/-! ### The file of a page -/

section Receive

variable {α β : Type*} {files : Dir Bytes α} {temp name k : Bytes} {x : α} {keep : Bool}

theorem saveAs_of_ne (h1 : k ≠ temp) (h2 : k ≠ name) : saveAs files temp name k = files k := by
  have hcleared : (if (files name).isSome then files.remove name else files) k = files k := by
    split
    · exact Dir.remove_ne h2
    · rfl
  unfold saveAs
  generalize (if (files name).isSome then files.remove name else files) = d at hcleared ⊢
  cases htemp : d temp with
  | none => rw [Dir.rename_none htemp, hcleared]
  | some y =>
    cases takesName name with
    | false => rw [Dir.rename_false, hcleared]
    | true => rw [Dir.rename_true htemp, Dir.write_ne h2, Dir.remove_ne h1, hcleared]

/-- A response changes the temporary file and the file of the page. -/
theorem receive_of_ne (h1 : k ≠ temp) (h2 : k ≠ name) : receive files temp name x keep k = files k := by
  unfold receive
  split
  · rw [saveAs_of_ne h1 h2, Dir.write_ne h1]
  · exact Dir.write_ne h1

theorem saveAs_self (h : files temp = some x) : saveAs files temp name name =
    if name ≠ temp ∧ takesName name = true then some x else none := by
  have hcleared : (if (files name).isSome then files.remove name else files) name = none := by
    split
    · exact Dir.remove_self
    · rename_i hnone
      simpa using hnone
  have hother : name ≠ temp → (if (files name).isSome then files.remove name else files) temp = some x := by
    intro hne
    split
    · rw [Dir.remove_ne hne.symm, h]
    · exact h
  unfold saveAs
  generalize (if (files name).isSome then files.remove name else files) = d at hcleared hother ⊢
  by_cases hne : name = temp
  · -- the file was removed, and there is nothing to rename
    rw [if_neg fun h => h.1 hne, Dir.rename_none (hne ▸ hcleared), hcleared]
  · cases htakes : takesName name with
    | false => simp [Dir.rename_false, hcleared]
    | true => rw [Dir.rename_true (hother hne), Dir.write_self, if_pos ⟨hne, rfl⟩]

/-- **The file of the page after a response.** -/
theorem receive_self : receive files temp name x keep name =
    if keep then (if name ≠ temp ∧ takesName name = true then some x else none)
    else if name = temp then some x else files name := by
  unfold receive
  cases keep with
  | true => exact saveAs_self Dir.write_self
  | false =>
    by_cases hne : name = temp
    · simp [hne]
    · simp [hne, Dir.write_ne hne]

theorem map_receive (f : α → β) : (receive files temp name x keep).map f =
    receive (files.map f) temp name (f x) keep := by
  have hsave : ∀ d : Dir Bytes α, (saveAs d temp name).map f = saveAs (d.map f) temp name := fun d => by
    unfold saveAs
    rw [Dir.map_rename]
    by_cases hname : (d name).isSome
    · rw [if_pos hname, if_pos (by simpa using hname), Dir.map_remove]
    · rw [if_neg hname, if_neg (by simpa using hname)]
  unfold receive
  split
  · rw [hsave, Dir.map_write]
  · exact Dir.map_write f

end Receive

/-! ### Status codes -/

theorem webcode_append {line rest : Bytes} (hlen : line.length = 12) (hline : ∀ b ∈ line, b ≠ 0 ∧ isCrLf b = false) :
    webcode (line ++ rest) = some (line.drop 9) := by
  have hzero : (0 : UInt8) ∉ line := fun h => (hline 0 h).1 rfl
  have hdrop : (line ++ cstr rest).dropWhile isCrLf = line ++ cstr rest := by
    obtain ⟨b, bs, rfl⟩ := List.exists_cons_of_length_pos (by omega : 0 < line.length)
    simp [(hline b List.mem_cons_self).2]
  have htake : (line ++ cstr rest).takeWhile (fun b => !isCrLf b) =
      line ++ (cstr rest).takeWhile fun b => !isCrLf b := by
    rw [List.takeWhile_append_of_pos]
    intro b hb
    simp [(hline b hb).2]
  have hcode : cstr (line.drop 9) = line.drop 9 := cstr_eq_self_iff.2 fun h => hzero (List.mem_of_mem_drop h)
  unfold webcode
  dsimp only
  rw [cstr_append hzero, hdrop, htake, if_neg (by rw [List.length_append]; omega), List.append_assoc,
    List.take_append_of_le_length hlen.ge, List.take_of_length_le hlen.le, hcode]

theorem webcode_short {content : Bytes} (h : content.length < 12) : webcode content = none := by
  have h1 := length_cstr_le content
  have h2 := (List.dropWhile_sublist isCrLf (l := cstr content)).length_le
  exact if_pos (by omega)

/-- The code does not depend on the pieces, if there is one. -/
theorem code_of_pieces {pieces : List Bytes} {line rest code : Bytes} (hlen : line.length = 12)
    (hline : ∀ b ∈ line, b ≠ 0 ∧ isCrLf b = false) (hflat : pieces.flatten = line ++ rest)
    (hcode : pieces.head?.bind webcode = some code) : code = line.drop 9 := by
  cases pieces with
  | nil => cases hcode
  | cons c cs =>
    change webcode c = some code at hcode
    by_cases hc : c.length < 12
    · rw [webcode_short hc] at hcode
      cases hcode
    · have hsplit : c = line ++ c.drop 12 := by
        have htake : c.take 12 = line := by
          have h := congrArg (List.take 12) hflat
          rw [List.flatten_cons, List.take_append_of_le_length (by omega),
            List.take_append_of_le_length hlen.ge, List.take_of_length_le hlen.le] at h
          exact h
        rw [← htake, List.take_append_drop]
      rw [hsplit, webcode_append hlen hline] at hcode
      cases hcode
      rfl

/-! ### The header -/

/-- What follows the first empty line. -/
def afterHeader : Bytes → Bytes
  | a :: b :: c :: d :: rest =>
    if a = 13 ∧ b = 10 ∧ c = 13 ∧ d = 10 then rest else afterHeader (b :: c :: d :: rest)
  | _ => []

theorem sendLoop_ready (a b c d : UInt8) (bs : Bytes) : sendLoop true a b c d bs = bs := by
  induction bs generalizing a b c d with
  | nil => rfl
  | cons x xs ih => simp [sendLoop, ih]

theorem sendLoop_eq (a b c d : UInt8) (bs : Bytes) :
    sendLoop false a b c d bs = afterHeader (a :: b :: c :: d :: bs) := by
  induction bs generalizing a b c d with
  | nil => simp [sendLoop, afterHeader]
  | cons x xs ih =>
    rw [sendLoop, afterHeader]
    by_cases h : a = 13 ∧ b = 10 ∧ c = 13 ∧ d = 10
    · obtain ⟨rfl, rfl, rfl, rfl⟩ := h
      simp [sendLoop_ready]
    · have hno : (a == 13 && b == 10 && c == 13 && d == 10) = false := by
        simpa [and_assoc] using h
      simp [hno, ih, h]

/-- `send_to_clnt` sends what follows the first empty line of the file. -/
theorem sendToClnt_eq (file : Option Bytes) : sendToClnt file = (file.map afterHeader).getD [] := by
  cases file with
  | none => rfl
  | some bytes =>
    have hspace : ∀ bs : Bytes, afterHeader (32 :: bs) = afterHeader bs := fun bs => by
      match bs with
      | [] | [_] | [_, _] => rfl
      | _ :: _ :: _ :: _ => simp [afterHeader]
    simp [sendToClnt, sendLoop_eq, hspace]

def emptyLine : Bytes := [13, 10, 13, 10]

/-- The first empty line of the bytes stands between these two parts. -/
structure FirstEmptyLine (bytes front rest : Bytes) : Prop where
  eq : bytes = front ++ emptyLine ++ rest
  first : ∀ front' rest', bytes = front' ++ emptyLine ++ rest' → front.length ≤ front'.length

theorem afterHeader_cases (bytes : Bytes) :
    (∃ front rest, FirstEmptyLine bytes front rest ∧ afterHeader bytes = rest) ∨
      (∀ front rest, bytes ≠ front ++ emptyLine ++ rest) ∧ afterHeader bytes = [] := by
  induction bytes using afterHeader.induct with
  | case1 a b c d rest heq =>
    obtain ⟨rfl, rfl, rfl, rfl⟩ := heq
    refine Or.inl ⟨[], rest, ⟨rfl, fun _ _ _ => Nat.zero_le _⟩, ?_⟩
    simp [afterHeader]
  | case2 a b c d rest hne ih =>
    rw [afterHeader, if_neg hne]
    -- an empty line does not begin at `a`
    have hfront : ∀ front' rest', a :: b :: c :: d :: rest = front' ++ emptyLine ++ rest' →
        ∃ front'', front' = a :: front'' ∧ b :: c :: d :: rest = front'' ++ emptyLine ++ rest' := by
      intro front' rest' heq
      cases front' with
      | nil =>
        cases heq
        exact absurd ⟨rfl, rfl, rfl, rfl⟩ hne
      | cons x front'' =>
        rw [List.cons_append, List.cons_append, List.cons.injEq] at heq
        exact ⟨front'', by rw [heq.1], heq.2⟩
    rcases ih with ⟨front, tail, hfirst, hafter⟩ | ⟨hnone, hafter⟩
    · refine Or.inl ⟨a :: front, tail, ⟨congrArg (a :: ·) hfirst.eq, fun front' rest' heq => ?_⟩, hafter⟩
      obtain ⟨front'', rfl, heq'⟩ := hfront front' rest' heq
      exact Nat.succ_le_succ (hfirst.first front'' rest' heq')
    · refine Or.inr ⟨fun front' rest' heq => ?_, hafter⟩
      obtain ⟨front'', -, heq'⟩ := hfront front' rest' heq
      exact hnone front'' rest' heq'
  | case3 bytes hshort =>
    have hafter : afterHeader bytes = [] := by
      unfold afterHeader
      split
      · exact absurd rfl (hshort _ _ _ _ _)
      · rfl
    refine Or.inr ⟨fun front rest heq => ?_, hafter⟩
    match front, heq with
    | [], heq => exact hshort _ _ _ _ _ heq
    | [_], heq => exact hshort _ _ _ _ _ heq
    | [_, _], heq => exact hshort _ _ _ _ _ heq
    | [_, _, _], heq => exact hshort _ _ _ _ _ heq
    | _ :: _ :: _ :: _ :: _, heq => exact hshort _ _ _ _ _ heq

/-- **`send_to_clnt` leaves out exactly the header**: of every file it sends what follows the first empty line, and of
a file without one nothing. -/
theorem sendToClnt_strips_header (file : Bytes) :
    (∃ front rest, FirstEmptyLine file front rest ∧ sendToClnt (some file) = rest) ∨
      (∀ front rest, file ≠ front ++ emptyLine ++ rest) ∧ sendToClnt (some file) = [] := by
  rw [sendToClnt_eq, Option.map_some, Option.getD_some]
  exact afterHeader_cases file

/-! ### One request at a time -/

theorem length_tempName_lt {fd : ℕ} : (tempName fd).length < tempstrSize ↔ fd < 10 := by
  have hdigits : (ascii (toString fd)).length ≤ 1 ↔ fd < 10 ^ 1 := by
    rw [ascii, List.length_map, String.length_toList]
    exact Nat.length_repr_le_iff (by decide)
  have hprefix : (ascii "tempfile").length = 8 := rfl
  rw [tempName, List.length_append, hprefix, tempstrSize]
  omega

section Cases

variable {s : State} {g : Get} {v : Served}

theorem sendPage_of_plain (h : isPlainFormat g.resource = true) (files : Dir Bytes Bytes) :
    g.sendPage files = some (sendToClnt (files (fileName g.page))) := if_pos h

theorem sendPage_eq_some {files : Dir Bytes Bytes} {sent : Bytes} (h : g.sendPage files = some sent) :
    isPlainFormat g.resource = true ∧ sent = sendToClnt (files (fileName g.page)) := by
  rw [Get.sendPage, Option.ite_none_right_eq_some] at h
  exact ⟨h.1, (Option.some.inj h.2).symm⟩

/-- What was received fitted `tempstr`, and the resource was no format. -/
theorem recvFromSrvr_fits {flag : ℕ} {pieces : List Bytes} (h : s.recvFromSrvr g flag pieces = some v) :
    g.clientFd < 10 ∧ isPlainFormat g.resource = true := by
  unfold State.recvFromSrvr at h
  rw [Option.ite_none_right_eq_some] at h
  obtain ⟨hfits, h⟩ := h
  refine ⟨length_tempName_lt.1 hfits, ?_⟩
  split at h
  · cases h
  · dsimp only at h
    split at h
    · cases h
    · obtain ⟨sent, hsent, -⟩ := Option.map_eq_some_iff.1 h
      exact (sendPage_eq_some hsent).1

theorem recvFromSrvr_cases {flag : ℕ} {pieces : List Bytes} (h : s.recvFromSrvr g flag pieces = some v) :
    ∃ code, pieces.head?.bind webcode = some code ∧ v.response = some { code := code, bytes := pieces.flatten } ∧
      s.cache.recvFromSrvr g.toRequest flag = some v.state.cache ∧
      v.state.files = receive s.files (tempName g.clientFd) (fileName g.page) pieces.flatten
        (¬ code = ascii "304") ∧
      v.sent = sendToClnt (v.state.files (fileName g.page)) := by
  unfold State.recvFromSrvr at h
  rw [Option.ite_none_right_eq_some] at h
  obtain ⟨-, h⟩ := h
  cases hcode : pieces.head?.bind webcode with
  | none =>
    rw [hcode] at h
    cases h
  | some code =>
    rw [hcode] at h
    dsimp only at h
    cases hcache : s.cache.recvFromSrvr g.toRequest flag with
    | none =>
      rw [hcache] at h
      cases h
    | some cache =>
      rw [hcache] at h
      obtain ⟨sent, hsent, rfl⟩ := Option.map_eq_some_iff.1 h
      exact ⟨code, rfl, rfl, rfl, rfl, (sendPage_eq_some hsent).2⟩

theorem recvFromSrvr_eq_some {flag : ℕ} {pieces : List Bytes} {code : Bytes} {cache : QueryCache}
    (hfd : g.clientFd < 10) (hplain : isPlainFormat g.resource = true) (hcode : pieces.head?.bind webcode = some code)
    (hcache : s.cache.recvFromSrvr g.toRequest flag = some cache) :
    ∃ v, s.recvFromSrvr g flag pieces = some v ∧ v.state.cache = cache := by
  unfold State.recvFromSrvr
  rw [if_pos (length_tempName_lt.2 hfd), hcode]
  dsimp only
  rw [hcache]
  dsimp only
  rw [sendPage_of_plain hplain]
  exact ⟨_, rfl, rfl⟩

/-- The date in the request to the origin server. -/
def Get.date (g : Get) (flag : ℕ) : Option ℤ := if flag = 2 then none else some g.dated

theorem getRequestPage_cases {flag : ℕ} (h : s.getRequestPage g flag = some v) :
    (flag = 0 ∧ v = { state := s, response := none, sent := sendToClnt (s.files (fileName g.page)) }) ∨
      s.recvFromSrvr g flag (g.answer (g.date flag)) = some v := by
  unfold State.getRequestPage at h
  unfold Get.date
  split at h
  · rename_i hflag
    split at h
    · cases h
    · obtain ⟨sent, hsent, rfl⟩ := Option.map_eq_some_iff.1 h
      obtain ⟨-, rfl⟩ := sendPage_eq_some hsent
      exact .inl ⟨hflag, rfl⟩
    · rw [if_neg (by omega)]
      exact .inr h
  · split at h
    · rw [if_pos ‹_›]
      exact .inr h
    · rw [if_neg ‹_›]
      exact .inr h

/-- **What a request leads to**: the page is in the cache and not expired, or it is fetched. -/
theorem request_cases (h : s.request g = some v) :
    ∃ flag cache, s.cache.checkCache g.address g.resource g.present g.marked = some (flag, cache) ∧
      v.sent = sendToClnt (v.state.files (fileName g.page)) ∧
      ((flag = 0 ∧ v.response = none ∧ v.state.files = s.files) ∨
        ∃ code, (g.answer (g.date flag)).head?.bind webcode = some code ∧
          v.response = some { code := code, bytes := (g.answer (g.date flag)).flatten } ∧
          v.state.files = receive s.files (tempName g.clientFd) (fileName g.page)
            (g.answer (g.date flag)).flatten (¬ code = ascii "304")) := by
  unfold State.request at h
  cases hcheck : s.cache.checkCache g.address g.resource g.present g.marked with
  | none =>
    rw [hcheck] at h
    cases h
  | some r =>
    obtain ⟨flag, cache⟩ := r
    rw [hcheck] at h
    refine ⟨flag, cache, rfl, ?_⟩
    rcases getRequestPage_cases h with ⟨hflag, rfl⟩ | h
    · exact ⟨rfl, .inl ⟨hflag, rfl, rfl⟩⟩
    · obtain ⟨code, hcode, hresp, -, hfiles, hsent⟩ := recvFromSrvr_cases h
      exact ⟨hsent, .inr ⟨code, hcode, hresp, hfiles⟩⟩

theorem plain_of_request (h : s.request g = some v) : isPlainFormat g.resource = true := by
  unfold State.request at h
  cases hcheck : s.cache.checkCache g.address g.resource g.present g.marked with
  | none =>
    rw [hcheck] at h
    cases h
  | some r =>
    rw [hcheck] at h
    dsimp only at h
    unfold State.getRequestPage at h
    split at h
    · split at h
      · cases h
      · obtain ⟨sent, hsent, -⟩ := Option.map_eq_some_iff.1 h
        exact (sendPage_eq_some hsent).1
      · exact (recvFromSrvr_fits h).2
    · split at h
      · exact (recvFromSrvr_fits h).2
      · exact (recvFromSrvr_fits h).2

theorem fd_lt_of_response (h : s.request g = some v) (hresp : v.response ≠ none) : g.clientFd < 10 := by
  unfold State.request at h
  cases hcheck : s.cache.checkCache g.address g.resource g.present g.marked with
  | none =>
    rw [hcheck] at h
    cases h
  | some r =>
    rw [hcheck] at h
    rcases getRequestPage_cases h with ⟨-, rfl⟩ | hrecv
    · exact absurd rfl hresp
    · exact (recvFromSrvr_fits hrecv).1

variable {items : List (ℕ × RequestInfo)}

theorem Linked.request_fetch {flag : ℕ} {code : Bytes} (h : Linked s.cache items) (hfd : g.clientFd < 10)
    (hplain : isPlainFormat g.resource = true)
    (hroom : (dropPage g.address g.resource items).length < cachesize)
    (hflag : checkFlag g.present (items.find? (ofPage g.address g.resource)) = flag) (hne : flag ≠ 0)
    (hcode : (g.answer (g.date flag)).head?.bind webcode = some code) :
    ∃ v a, s.request g = some v ∧
      Linked v.state.cache ((a, entry g.address g.resource g.expires g.stored) ::
        dropPage g.address g.resource items) ∧
      v.response = some { code := code, bytes := (g.answer (g.date flag)).flatten } ∧
      v.state.files = receive s.files (tempName g.clientFd) (fileName g.page)
        (g.answer (g.date flag)).flatten (¬ code = ascii "304") := by
  obtain ⟨flag', cache, hcheck, hf, -⟩ := h.checkCache g.address g.resource g.present g.marked
  obtain rfl : flag = flag' := hflag.symm.trans hf.symm
  obtain ⟨c₀, h₀, hrefresh⟩ := h.refresh g.toRequest
  obtain ⟨c₁, a, henq, h₁⟩ := h₀.enqueue hroom g.address g.resource g.expires g.stored g.node
  have hcache : cache.recvFromSrvr g.toRequest flag = some c₁ := by
    rw [henq, QueryCache.refresh, hcheck] at hrefresh
    exact hrefresh
  -- expired or not in the cache: both fetch the page, with a date or without
  have hpage : State.getRequestPage { s with cache := cache } g flag =
      State.recvFromSrvr { s with cache := cache } g flag (g.answer (g.date flag)) := by
    unfold State.getRequestPage Get.date
    rw [if_neg hne]
    split <;> rfl
  obtain ⟨v, hv, -⟩ := recvFromSrvr_eq_some (s := { s with cache := cache }) hfd hplain hcode hcache
  obtain ⟨code', hcode', hresp, hcache', hfiles, -⟩ := recvFromSrvr_cases hv
  cases hcode.symm.trans hcode'
  cases hcache.symm.trans hcache'
  refine ⟨v, a, ?_, h₁, hresp, hfiles⟩
  unfold State.request
  rw [hcheck]
  exact hpage.trans hv

end Cases

end TamuProofs.Proxy
