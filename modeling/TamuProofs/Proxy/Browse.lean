import TamuProofs.Proxy.Client
import TamuProofs.Proxy.Separation

/-!
# Clients, the proxy and the origin server

`Web` is the proxy with its clients and what is on its way between them: a client writes the request for its URL, the
proxy takes it into its buffer and answers it from the cache or from what the origin server sends, and the client puts
what arrives into a file.  Clients start, the proxy takes requests and clients read in any order, and the pieces may
be of any size.

`spare` is the number of descriptors that the proxy can still open.  An answer never gives one back: the client's is
closed, but the file of the page stays open, and so does the connection to the origin server if the page comes from
the cache.

`answered` is no variable of any program: for each client, the response that had been fetched last for the page of its
URL when the proxy answered.

* `Harmless` — what an earlier request has left in the buffer has no line that `parse_req` looks at;
* `Visit.Stage` — a client waits, or what it has saved and what is on its way make up the page;
* **`saved_run`** — the second holds in every state of a sound run;
* **`transparent_run`** — if the pages do not change, a client gets what the origin server would have sent it.

Each client writes to a directory of its own, and the origin server of a page can always be connected to.
-/

namespace TamuProofs.Proxy

open TamuProofs.Lib

/-! ### The clients and the proxy -/

/-- The page that a URL names: what is before its first slash, and what is behind it. -/
def urlPage (url : Bytes) : Bytes × Bytes := (url.takeWhile (· != 47), (url.dropWhile (· != 47)).drop 1)

/-- `file_name` of the client: what follows the last slash. -/
def saveName (url : Bytes) : Bytes := (url.reverse.takeWhile (· != 47)).reverse

/-- A client: its URL, its descriptor at the proxy, what the proxy has not read of its request, what is on its way back
and whether the proxy has closed the connection, what is in its file, and whether it has come to the end. -/
structure Visit where
  url : Bytes
  fd : ℕ
  unread : Bytes
  arriving : Bytes
  closed : Bool
  file : Bytes
  finished : Bool

/-- The client up to `write`, where `page` is what `Page` holds at first.  A file that cannot be opened is written to
through a null pointer. -/
def Visit.start (fd : ℕ) (page url : Bytes) : Option Visit :=
  match getReq page url with
  | none => none
  | some req =>
    if takesName (saveName url) then
      some { url := url, fd := fd, unread := req, arriving := [], closed := false, file := [], finished := false }
    else none

/-- One turn of the loop of the client, where `read` returns at most `n + 1` bytes. -/
def Visit.read (v : Visit) (n : ℕ) : Visit :=
  if v.finished then v
  else if v.arriving = [] then
    if v.closed then { v with finished := true } else v
  else
    let len := min (n + 1) 65536
    { v with file := v.file ++ v.arriving.take len, arriving := v.arriving.drop len }

/-- What a request meets: the clock at several times, the Expires time of the response, the address of the new node,
and what `recv` returns of the answer of the origin server to a GET for a page, with a date or none. -/
structure Meets where
  present : ℤ
  marked : ℤ
  stored : ℤ
  dated : ℤ
  expires : ℤ
  node : ℕ
  answer : Bytes × Bytes → Option ℤ → List Bytes

def Meets.get (m : Meets) (page : Bytes × Bytes) (clientFd : ℕ) : Get where
  address := page.1
  resource := page.2
  present := m.present
  marked := m.marked
  stored := m.stored
  expires := m.expires
  node := m.node
  clientFd := clientFd
  dated := m.dated
  answer := m.answer page

/-- The proxy, with `buffer` of `recv_from_clnt` and the descriptors it has left, and its clients. -/
structure Web where
  history : History
  buffer : Bytes
  spare : ℕ
  visits : ℕ → Option Visit
  answered : ℕ → Option Bytes

/-- What can happen: a client starts, the proxy reads from a client, and a client reads from the proxy. -/
inductive Move
  | visit (i fd : ℕ) (page url : Bytes)
  | serve (i n : ℕ) (m : Meets)
  | read (i n : ℕ)

namespace Web

def start (buffer : Bytes) (spare : ℕ) : Web where
  history := History.new
  buffer := buffer
  spare := spare
  visits := fun _ => none
  answered := fun _ => none

/-- The proxy has answered the client `i` with this. The file takes the place of the client's descriptor; a page from
the cache takes another one, of a connection that is not used. -/
def answer (w : Web) (i : ℕ) (v : Visit) (g : Get) (served : Served) : Web where
  history := { state := served.state, fetched := w.history.fetchedAfter g served.response }
  buffer := w.buffer
  spare := if served.response.isNone then w.spare - 1 else w.spare
  visits := Function.update w.visits i (some { v with arriving := v.arriving ++ served.sent, closed := true })
  answered := Function.update w.answered i (w.history.fetchedAfter g served.response (urlPage v.url))

/-- The branch of `recv_from_clnt` for a client, where `recv` returns at most `n` bytes. The connection to the origin
server and a file are open at the same time: with fewer descriptors there is no outcome. -/
def serve (w : Web) (i n : ℕ) (m : Meets) : Option Web :=
  match w.visits i with
  | none => some w
  | some v =>
    let len := min n bufferSize
    if v.closed = true ∨ v.unread.take len = [] then some w
    else
      let buffer := blit w.buffer 0 (v.unread.take len)
      let v := { v with unread := v.unread.drop len }
      let w := { w with buffer := buffer, visits := Function.update w.visits i (some v) }
      if isGet buffer then
        match parseReq buffer with
        | none => none
        | some page =>
          let g := m.get page v.fd
          if w.spare < 2 then none
          else (w.history.state.request g).map fun served => w.answer i v g served
      else some w

/-- One move; what cannot happen changes nothing. -/
def step (w : Web) : Move → Option Web
  | .visit i fd page url =>
    if (w.visits i).isSome then some w
    else if w.spare = 0 then none
    else (Visit.start fd page url).map fun v =>
      { w with
        spare := w.spare - 1
        visits := Function.update w.visits i (some v)
        answered := Function.update w.answered i none }
  | .serve i n m => w.serve i n m
  | .read i n => some { w with visits := Function.update w.visits i ((w.visits i).map (·.read n)) }

end Web

/-! ### Sound runs -/

/-- Memory with a string in it that has no line that `parse_req` looks at. -/
def Harmless (rest : Bytes) : Prop :=
  0 ∈ rest ∧ ∀ line ∈ tokens isCrLf (cstr rest), isGet line = false ∧ isHost line = false

/-- A URL of one of these pages, with a request that fits, a resource without a conversion and a name for the file. -/
structure GoodUrl (K : List (Bytes × Bytes)) (url : Bytes) : Prop where
  slash : 47 ∈ url
  host : InUrl (urlPage url).1
  path : InUrl (urlPage url).2
  plain : isPlainFormat (urlPage url).2 = true
  mem : urlPage url ∈ K
  fits : (getText (urlPage url).2 (urlPage url).1).length < clientBuffer
  name : takesName (saveName url) = true

instance (K : List (Bytes × Bytes)) (url : Bytes) : Decidable (GoodUrl K url) :=
  decidable_of_iff (47 ∈ url ∧ InUrl (urlPage url).1 ∧ InUrl (urlPage url).2 ∧
    isPlainFormat (urlPage url).2 = true ∧ urlPage url ∈ K ∧
    (getText (urlPage url).2 (urlPage url).1).length < clientBuffer ∧ takesName (saveName url) = true)
    ⟨fun ⟨h1, h2, h3, h4, h5, h6, h7⟩ => ⟨h1, h2, h3, h4, h5, h6, h7⟩,
      fun h => ⟨h.slash, h.host, h.path, h.plain, h.mem, h.fits, h.name⟩⟩

/-- The origin server answers with a status code in the first piece, does not say that a page has not changed unless
asked with a date, and else sends a response that is one of the page. -/
structure Meets.Answers (m : Meets) (Q : Bytes × Bytes → Bytes → Prop) : Prop where
  code : ∀ page date, ∃ code, (m.answer page date).head?.bind webcode = some code
  modified : ∀ page, (m.answer page none).head?.bind webcode ≠ some (ascii "304")
  page : ∀ page date, (m.answer page date).head?.bind webcode ≠ some (ascii "304") →
    Q page (m.answer page date).flatten

/-- The moves that the programs are made for: a client gets a descriptor that `tempstr` has room for, the proxy has
descriptors left and reads a request at once, and nothing that is left from others spoils it. -/
def Web.Sound (K : List (Bytes × Bytes)) (Q : Bytes × Bytes → Bytes → Prop) (w : Web) : Move → Prop
  | .visit _ fd page url => fd < 10 ∧ 0 < w.spare ∧ page = [] ∧ GoodUrl K url
  | .serve i n m => m.Answers Q ∧ 2 ≤ w.spare ∧ ∀ v, w.visits i = some v → v.unread ≠ [] →
    v.unread.length ≤ n ∧ Harmless (w.buffer.drop v.unread.length)
  | .read _ _ => True

/-- **How far a client is.**  It has saved nothing and waits, or what it has saved and what is on its way are the
response without its header. -/
def Visit.Stage (Q : Bytes × Bytes → Bytes → Prop) (v : Visit) : Option Bytes → Prop
  | none => v.unread = getText (urlPage v.url).2 (urlPage v.url).1 ∧ v.arriving = [] ∧ v.closed = false ∧
    v.file = [] ∧ v.finished = false
  | some response => v.unread = [] ∧ v.closed = true ∧ Q (urlPage v.url) response ∧
    v.file ++ v.arriving = afterHeader response ∧ (v.finished = true → v.arriving = [])

/-! ### The request -/

section Parse

variable {h p rest : Bytes}

theorem foldlM_harmless {toks : List Bytes} (hall : ∀ line ∈ toks, isGet line = false ∧ isHost line = false)
    (r : ClntReq) : toks.foldlM ClntReq.line r = some r := by
  induction toks with
  | nil => rfl
  | cons line toks ih =>
    obtain ⟨hget, hhost⟩ := hall line List.mem_cons_self
    have hline : r.line line = some r := by
      unfold ClntReq.line
      rw [hget, hhost]
      rfl
    rw [List.foldlM_cons, hline]
    exact ih fun line' hline' => hall line' (List.mem_cons_of_mem _ hline')

/-- Lines that `parse_req` does not look at change nothing. -/
theorem parseText_append_harmless (text : Bytes)
    (hall : ∀ line ∈ tokens isCrLf rest, isGet line = false ∧ isHost line = false) :
    parseText (text ++ 10 :: rest) = parseText (text ++ [10]) := by
  have htoks : tokens isCrLf (text ++ [10]) = tokens isCrLf text := by
    rw [tokens_append_cons text (by decide), tokens_nil, List.append_nil]
  unfold parseText
  rw [htoks, tokens_append_cons text (by decide), List.foldlM_append]
  cases (tokens isCrLf text).foldlM ClntReq.line { address := none, resource := none } with
  | none => rfl
  | some r => rw [Option.bind_eq_bind, Option.bind_some, foldlM_harmless hall]

theorem zero_notMem_getText (hh : InUrl h) (hp : InUrl p) : 0 ∉ getText p h := by
  simp only [getText, List.mem_append, not_or]
  exact ⟨⟨⟨⟨by decide, hp.zero_notMem⟩, by decide⟩, hh.zero_notMem⟩, by decide⟩

/-- **The proxy finds the page of the URL**, whatever harmless bytes follow the request in its buffer. -/
theorem parseReq_getText (hh : InUrl h) (hp : InUrl p) (hrest : Harmless rest) :
    parseReq (getText p h ++ rest) = some (h, p) := by
  obtain ⟨text, htext⟩ : ∃ text, getText p h = text ++ [10] :=
    ⟨ascii "GET " ++ p ++ ascii " HTTP/1.0\r\nHost: " ++ h ++ ascii "\r\nUser-Agent: HTMLGET 1.0\r\n\r", by
      simp [getText, ascii]⟩
  rw [parseReq, if_pos (List.mem_append_right _ hrest.1), cstr_append (zero_notMem_getText hh hp)]
  have hparse := parseText_getText hh hp
  rw [htext] at hparse ⊢
  rw [List.append_assoc, List.singleton_append, parseText_append_harmless text hrest.2, hparse]

theorem isGet_getText (p h rest : Bytes) : isGet (getText p h ++ rest) = true := by
  rw [isGet, List.isPrefixOf_iff_prefix]
  exact ⟨ascii " " ++ p ++ ascii " HTTP/1.0\r\nHost: " ++ h ++ ascii "\r\nUser-Agent: HTMLGET 1.0\r\n\r\n" ++ rest,
    by simp [getText, ascii]⟩

end Parse

section Url

variable {K : List (Bytes × Bytes)} {url : Bytes}

theorem url_eq (hslash : 47 ∈ url) : 47 ∉ (urlPage url).1 ∧ url = (urlPage url).1 ++ 47 :: (urlPage url).2 := by
  have hsplit : url.takeWhile (· != 47) ++ url.dropWhile (· != 47) = url := List.takeWhile_append_dropWhile
  refine ⟨fun hmem => ?_, ?_⟩
  · have hne := List.mem_takeWhile_imp hmem
    exact absurd hne (by decide)
  · cases hd : url.dropWhile (· != 47) with
    | nil =>
      rw [hd, List.append_nil] at hsplit
      rw [← hsplit] at hslash
      exact absurd (List.mem_takeWhile_imp hslash) (by decide)
    | cons b rest =>
      have hb : b = 47 := by
        have hhead := List.head?_dropWhile_not (· != 47) url
        rw [hd] at hhead
        simpa using hhead
      conv_lhs => rw [← hsplit, hd, hb]
      rw [urlPage, hd]
      rfl

theorem GoodUrl.start (hurl : GoodUrl K url) (fd : ℕ) : ∃ v, Visit.start fd [] url = some v ∧ v.url = url ∧ v.fd = fd ∧
    ∀ Q, v.Stage Q none := by
  obtain ⟨hslash, heq⟩ := url_eq hurl.slash
  have hfits := hurl.fits
  have hlen : ((urlPage url).1 ++ 47 :: (urlPage url).2).length < clientBuffer := by
    have hget : (ascii "GET ").length = 4 := rfl
    simp only [getText, List.length_append, hget] at hfits
    rw [List.length_append, List.length_cons]
    omega
  have hsplit := splitUrl_append hslash hlen
  rw [← heq] at hsplit
  have hreq : getReq [] url = some (getText (urlPage url).2 (urlPage url).1) := by
    rw [getReq, hsplit]
    exact if_pos hfits
  rw [Visit.start, hreq]
  exact ⟨_, if_pos hurl.name, rfl, rfl, fun Q => ⟨rfl, rfl, rfl, rfl, rfl⟩⟩

end Url

/-! ### The proxy answers -/

section Request

variable {s : State} {g : Get}

/-- **A request is answered** if the cache does not fail, `tempstr` has room and `printf` meets no conversion. -/
theorem request_of_cache {c' : QueryCache} (hfd : g.clientFd < 10) (hplain : isPlainFormat g.resource = true)
    (hcache : s.cache.request g.toRequest = some c')
    (hcode : ∀ date, ∃ code, (g.answer date).head?.bind webcode = some code) :
    ∃ v, s.request g = some v ∧ v.state.cache = c' := by
  unfold QueryCache.request at hcache
  unfold State.request
  cases hcheck : s.cache.checkCache g.address g.resource g.present g.marked with
  | none =>
    rw [hcheck] at hcache
    cases hcache
  | some r =>
    obtain ⟨flag, cache⟩ := r
    rw [hcheck] at hcache
    have hcache : cache.getRequestPage g.toRequest flag = some c' := hcache
    show ∃ v, State.getRequestPage { s with cache := cache } g flag = some v ∧ v.state.cache = c'
    unfold QueryCache.getRequestPage at hcache
    unfold State.getRequestPage
    obtain ⟨code, hdated⟩ := hcode (some g.dated)
    by_cases h0 : flag = 0
    · -- a node in time is looked up once more, and its file sent
      rw [if_pos h0] at hcache ⊢
      dsimp only
      cases hexist : cache.isCacheExist g.address g.resource with
      | none =>
        rw [hexist] at hcache
        cases hcache
      | some found =>
        rw [hexist] at hcache
        cases found with
        | true =>
          cases hcache
          rw [sendPage_of_plain hplain]
          exact ⟨_, rfl, rfl⟩
        | false => exact recvFromSrvr_eq_some hfd hplain hdated hcache
    · -- all else goes to the origin server
      rw [if_neg h0] at hcache ⊢
      split
      · obtain ⟨code', hundated⟩ := hcode none
        exact recvFromSrvr_eq_some hfd hplain hundated hcache
      · exact recvFromSrvr_eq_some hfd hplain hdated hcache

/-- The pages in the cache are among those of `K`, and have files. -/
def Stocked (K : List (Bytes × Bytes)) (h : History) : Prop :=
  ∃ L, L ⊆ K ∧ PagesIn L h.state.cache ∧ ∀ p ∈ L, (h.state.files (fileName p)).isSome

theorem stocked_new (K : List (Bytes × Bytes)) : Stocked K History.new :=
  ⟨[], List.nil_subset _, ⟨[], linked_new, List.nodup_nil, List.nil_subset _⟩, by simp⟩

/-- The names of the files tell these pages apart, and the directory takes them. -/
structure Distinct (K : List (Bytes × Bytes)) : Prop where
  separated : Separated {p | p ∈ K}
  takes : ∀ p ∈ K, takesName (fileName p) = true
  few : K.dedup.length ≤ cachesize

/-- What the proxy does for a page: it holds the pages it has fetched last, and sends the one it is asked for. -/
structure Served.Right (K : List (Bytes × Bytes)) (Q : Bytes × Bytes → Bytes → Prop) (h : History) (g : Get)
    (v : Served) : Prop where
  request : h.state.request g = some v
  owned : Owned {p | p ∈ K} { state := v.state, fetched := h.fetchedAfter g v.response }
  stocked : Stocked K { state := v.state, fetched := h.fetchedAfter g v.response }
  page : ∀ p bytes, h.fetchedAfter g v.response p = some bytes → Q p bytes
  sent : ∃ bytes, h.fetchedAfter g v.response g.page = some bytes ∧ v.sent = afterHeader bytes

variable {K : List (Bytes × Bytes)} {Q : Bytes × Bytes → Bytes → Prop} {h : History} {m : Meets}
  {page : Bytes × Bytes} {fd : ℕ}

/-- **The page that was fetched last is sent**, for every page of `K`. -/
theorem Distinct.served (hK : Distinct K) (ho : Owned {p | p ∈ K} h) (hs : Stocked K h)
    (hq : ∀ p bytes, h.fetched p = some bytes → Q p bytes) (hm : m.Answers Q) (hpage : page ∈ K)
    (hplain : isPlainFormat page.2 = true) (hfd : fd < 10) : ∃ v : Served, v.Right K Q h (m.get page fd) := by
  obtain ⟨L, hLK, hcache, hfiles⟩ := hs
  have hsub : page :: L ⊆ K := List.cons_subset.2 ⟨hpage, hLK⟩
  have hlen : (page :: L).dedup.length ≤ cachesize :=
    ((List.nodup_dedup _).subperm fun p hp => List.mem_dedup.2 (hsub (List.mem_dedup.1 hp))).length_le.trans hK.few
  have hin : PagesIn (page :: L) h.state.cache := by
    obtain ⟨items, hl, hn, hitems⟩ := hcache
    exact ⟨items, hl, hn, List.subset_cons_of_subset _ hitems⟩
  obtain ⟨c', hrequest, hin'⟩ := hin.request hlen (r := (m.get page fd).toRequest) List.mem_cons_self
  obtain ⟨v, hv, hvcache⟩ := request_of_cache (g := m.get page fd) hfd hplain hrequest fun date => hm.code page date
  have hstep : h.step (m.get page fd) =
      some { state := v.state, fetched := h.fetchedAfter (m.get page fd) v.response } := by
    rw [History.step, hv]
    rfl
  have howned := ho.step hK.separated (g := m.get page fd) hpage hstep
  obtain ⟨flag, cache, hcheck, hsent, hcases⟩ := request_cases hv
  -- a page with a node in the cache has a file
  have hheld : flag ≠ 2 → (h.state.files (fileName page)).isSome := by
    intro hflag
    obtain ⟨items, hl, -, hitems⟩ := hcache
    obtain ⟨flag', c, hcheck', hflag', -⟩ := hl.checkCache page.1 page.2 m.present m.marked
    cases hcheck'.symm.trans hcheck
    refine hfiles page (hitems ?_)
    rw [show page = (page.1, page.2) from rfl, mem_pages_iff, ← List.find?_isSome]
    cases hfind : items.find? (ofPage page.1 page.2) with
    | none =>
      rw [hfind] at hflag'
      exact absurd hflag' hflag
    | some x => rfl
  -- with this page every page of the list has its file after the request
  have hafter : ∀ p ∈ page :: L, (v.state.files (fileName p)).isSome := by
    have hbefore : ∀ p ∈ L, (h.state.files (fileName p)).isSome := hfiles
    rcases hcases with ⟨hflag, -, hsame⟩ | ⟨code, hcode, -, hreceive⟩
    · rw [hsame, List.forall_mem_cons]
      exact ⟨hheld (by omega), hbefore⟩
    · intro p hp
      rw [hreceive, hK.separated.receive_eq hfd (show p ∈ K from hsub hp), hK.takes p (hsub hp)]
      split
      · rfl
      · rename_i hother
        rcases List.mem_cons.1 hp with rfl | hp
        · -- nothing was saved, so the request had a date
          have hmodified : code = ascii "304" := by
            by_contra hne
            exact hother ⟨by simpa using hne, rfl⟩
          refine hheld fun hflag => ?_
          rw [Get.date, if_pos hflag, hmodified] at hcode
          exact hm.modified p hcode
        · exact hbefore p hp
  obtain ⟨content, hcontent⟩ := Option.isSome_iff_exists.1 (hafter page List.mem_cons_self)
  refine ⟨v, hv, howned, ⟨page :: L, hsub, hvcache ▸ hin', hafter⟩, fun p bytes hp => ?_,
    content, howned.own page hpage content hcontent, ?_⟩
  · rcases hcases with ⟨-, hresp, -⟩ | ⟨code, hcode, hresp, -⟩
    · -- nothing is fetched
      rw [hresp] at hp
      exact hq p bytes hp
    · -- only this response is new, and it is a page unless its code is `304`
      rw [hresp, fetchedAfter_some] at hp
      split at hp
      · exact hq p bytes hp
      · rename_i hne
        by_cases hpp : p = page
        · subst hpp
          have hup : some ((m.get p fd).answer ((m.get p fd).date flag)).flatten = some bytes := by
            rw [← hp]
            show _ = Function.update h.fetched p _ p
            rw [Function.update_self]
          cases hup
          refine hm.page p _ fun h304 => hne ?_
          exact Option.some.inj (hcode.symm.trans h304)
        · have hold : h.fetched p = some bytes := by
            rw [← hp]
            show _ = Function.update h.fetched page _ p
            rw [Function.update_of_ne hpp]
          exact hq p bytes hold
  · rw [hsent]
    show sendToClnt (v.state.files (fileName page)) = _
    rw [hcontent, sendToClnt_eq]
    rfl

end Request

/-! ### The invariant -/

namespace Web

/-- **The invariant**: the files of the proxy hold what was fetched last, and every client is at some stage. -/
structure Inv (K : List (Bytes × Bytes)) (Q : Bytes × Bytes → Bytes → Prop) (w : Web) : Prop where
  owned : Owned {p | p ∈ K} w.history
  stocked : Stocked K w.history
  page : ∀ p bytes, w.history.fetched p = some bytes → Q p bytes
  visit : ∀ i v, w.visits i = some v → v.fd < 10 ∧ GoodUrl K v.url ∧ v.Stage Q (w.answered i)

section Steps

variable {K : List (Bytes × Bytes)} {Q : Bytes × Bytes → Bytes → Prop} {w : Web} {i fd n : ℕ} {page url : Bytes}
  {m : Meets}

theorem inv_start (buffer : Bytes) (spare : ℕ) : (start buffer spare).Inv K Q :=
  ⟨owned_new, stocked_new K, (fun p bytes h => by cases h), (fun i v h => by cases h)⟩

/-- What happens to one client leaves the others where they are. -/
theorem Inv.update (h : w.Inv K Q) {v : Visit} {response : Option Bytes} (hfd : v.fd < 10)
    (hurl : GoodUrl K v.url) (hstage : v.Stage Q response) {j : ℕ} {v' : Visit}
    (hv' : Function.update w.visits i (some v) j = some v') :
    v'.fd < 10 ∧ GoodUrl K v'.url ∧ v'.Stage Q (Function.update w.answered i response j) := by
  by_cases hj : j = i
  · subst hj
    rw [Function.update_self] at hv' ⊢
    cases hv'
    exact ⟨hfd, hurl, hstage⟩
  · rw [Function.update_of_ne hj] at hv' ⊢
    exact h.visit j v' hv'

theorem Inv.visit_step (h : w.Inv K Q) (hs : w.Sound K Q (.visit i fd page url)) :
    ∃ w', w.step (.visit i fd page url) = some w' ∧ w'.Inv K Q := by
  obtain ⟨hfd, hspare, rfl, hurl⟩ := hs
  by_cases htaken : (w.visits i).isSome = true
  · exact ⟨w, if_pos htaken, h⟩
  · obtain ⟨v, hv, rfl, rfl, hstage⟩ := hurl.start fd
    have hstep : w.step (.visit i v.fd [] v.url) = some { w with
        spare := w.spare - 1
        visits := Function.update w.visits i (some v)
        answered := Function.update w.answered i none } := by
      rw [Web.step, if_neg htaken, if_neg hspare.ne', hv]
      rfl
    exact ⟨_, hstep, h.owned, h.stocked, h.page, fun j v' hv' => h.update hfd hurl (hstage Q) hv'⟩

theorem Inv.read_step (h : w.Inv K Q) : ∃ w', w.step (.read i n) = some w' ∧ w'.Inv K Q := by
  refine ⟨_, rfl, h.owned, h.stocked, h.page, fun j v hv => ?_⟩
  by_cases hj : j = i
  · subst hj
    dsimp only at hv ⊢
    rw [Function.update_self] at hv
    obtain ⟨v₀, hv₀, rfl⟩ := Option.map_eq_some_iff.1 hv
    obtain ⟨hfd, hurl, hstage⟩ := h.visit j v₀ hv₀
    unfold Visit.read
    split
    · exact ⟨hfd, hurl, hstage⟩
    rename_i hrun
    split
    · rename_i hnone
      split
      · rename_i hclosed
        refine ⟨hfd, hurl, ?_⟩
        cases hans : w.answered j with
        | none => -- a connection is closed only after a response
          rw [hans] at hstage
          exact absurd (hstage.2.2.1.symm.trans hclosed) (by decide)
        | some response =>
          rw [hans] at hstage
          obtain ⟨hunread, -, hq, hfile, -⟩ := hstage
          exact ⟨hunread, hclosed, hq, hfile, fun _ => hnone⟩
      · exact ⟨hfd, hurl, hstage⟩
    · rename_i hsome
      refine ⟨hfd, hurl, ?_⟩
      cases hans : w.answered j with
      | none =>
        rw [hans] at hstage
        exact absurd hstage.2.1 hsome
      | some response =>
        rw [hans] at hstage
        obtain ⟨hunread, hclosed, hq, hfile, hfin⟩ := hstage
        refine ⟨hunread, hclosed, hq, ?_, fun hfinished => absurd hfinished hrun⟩
        -- what was read goes from one to the other
        rw [List.append_assoc, List.take_append_drop]
        exact hfile
  · dsimp only at hv ⊢
    rw [Function.update_of_ne hj] at hv
    exact h.visit j v hv

theorem Inv.serve_step (hK : Distinct K) (h : w.Inv K Q) (hs : w.Sound K Q (.serve i n m)) :
    ∃ w', w.step (.serve i n m) = some w' ∧ w'.Inv K Q := by
  obtain ⟨hm, hspare, hread⟩ := hs
  show ∃ w', w.serve i n m = some w' ∧ _
  unfold Web.serve
  cases hv : w.visits i with
  | none => exact ⟨w, rfl, h⟩
  | some v =>
    obtain ⟨hfd, hurl, hstage⟩ := h.visit i v hv
    dsimp only
    cases hans : w.answered i with
    | some response =>
      rw [hans] at hstage
      exact ⟨w, if_pos (.inl hstage.2.1), h⟩
    | none =>
      rw [hans] at hstage
      obtain ⟨hunread, harriving, hclosed, hfile, hfin⟩ := hstage
      have hne : v.unread ≠ [] := by
        rw [hunread]
        exact List.ne_nil_of_length_pos (by simp [getText, ascii])
      obtain ⟨hlen, hrest⟩ := hread v hv hne
      -- one `recv` takes all of the request
      have hshort : v.unread.length ≤ min n bufferSize := by
        have hfits := hurl.fits
        rw [← hunread] at hfits
        have hbig : clientBuffer ≤ bufferSize := by decide
        omega
      rw [List.take_of_length_le hshort, List.drop_of_length_le hshort, if_neg (by simp [hclosed, hne])]
      have hbuffer : blit w.buffer 0 v.unread =
          getText (urlPage v.url).2 (urlPage v.url).1 ++ w.buffer.drop v.unread.length := by
        rw [blit_zero, hunread]
      obtain ⟨served, hserved⟩ := hK.served h.owned h.stocked h.page hm hurl.mem hurl.plain hfd
      obtain ⟨bytes, hbytes, hsent⟩ := hserved.sent
      have hpage : parseReq (blit w.buffer 0 v.unread) = some (urlPage v.url) := by
        rw [hbuffer]
        exact parseReq_getText hurl.host hurl.path hrest
      rw [if_pos (by rw [hbuffer]; exact isGet_getText _ _ _), hpage]
      dsimp only
      rw [if_neg (by omega), hserved.request]
      refine ⟨_, rfl, hserved.owned, hserved.stocked, hserved.page, fun j v' hv' => ?_⟩
      have hupdate : Function.update (Function.update w.visits i (some { v with unread := [] })) i
          (some { v with unread := [], arriving := v.arriving ++ served.sent, closed := true }) j = some v' := hv'
      rw [Function.update_idem] at hupdate
      have hresponse : w.history.fetchedAfter (m.get (urlPage v.url) v.fd) served.response (urlPage v.url) =
          some bytes := hbytes
      show v'.fd < 10 ∧ GoodUrl K v'.url ∧ v'.Stage Q (Function.update w.answered i _ j)
      rw [hresponse]
      -- the request is read, the response on its way and the connection closed
      have hstage' : Visit.Stage Q { v with unread := [], arriving := v.arriving ++ served.sent, closed := true }
          (some bytes) := by
        refine ⟨rfl, rfl, hserved.page _ _ hresponse, ?_, fun hfinished => ?_⟩
        · show v.file ++ (v.arriving ++ served.sent) = _
          rw [hfile, harriving, hsent]
          rfl
        · exact absurd (hfin.symm.trans hfinished) (by decide)
      refine h.update ?_ ?_ hstage' hupdate
      · exact hfd
      · exact hurl

/-- **One move.** -/
theorem Inv.step (hK : Distinct K) (h : w.Inv K Q) {move : Move} (hs : w.Sound K Q move) :
    ∃ w', w.step move = some w' ∧ w'.Inv K Q := by
  cases move with
  | visit i fd page url => exact h.visit_step hs
  | serve i n m => exact h.serve_step hK hs
  | read i n => exact h.read_step

end Steps

/-! ### Runs -/

section Runs

variable {K : List (Bytes × Bytes)} {Q : Bytes × Bytes → Bytes → Prop}

/-- What is sound in every state when all requests have the length `N`: each one is replaced in the buffer by the
next. -/
def Alike (K : List (Bytes × Bytes)) (Q : Bytes × Bytes → Bytes → Prop) (N : ℕ) : Move → Prop
  | .visit _ fd page url => fd < 10 ∧ page = [] ∧ GoodUrl K url ∧
    (getText (urlPage url).2 (urlPage url).1).length = N
  | .serve _ n m => m.Answers Q ∧ N ≤ n
  | .read _ _ => True

/-- No request is on its way that is longer or shorter, and what is in the buffer behind one is harmless. -/
structure Level (N : ℕ) (w : Web) : Prop where
  unread : ∀ i v, w.visits i = some v → v.unread = [] ∨ v.unread.length = N
  rest : Harmless (w.buffer.drop N)

variable {w w' : Web} {N : ℕ}

theorem serve_cases {i n : ℕ} {m : Meets} (h : w.serve i n m = some w') : w' = w ∨
    ∃ v v', w.visits i = some v ∧ w'.visits = Function.update w.visits i (some v') ∧
      v'.unread = v.unread.drop (min n bufferSize) ∧
      w'.buffer = blit w.buffer 0 (v.unread.take (min n bufferSize)) ∧ w.spare ≤ w'.spare + 1 := by
  unfold Web.serve at h
  cases hv : w.visits i with
  | none =>
    rw [hv] at h
    cases h
    exact .inl rfl
  | some v =>
    rw [hv] at h
    dsimp only at h
    split at h
    · cases h
      exact .inl rfl
    · -- there is something to read: a request that is answered, or one that is not
      refine .inr ⟨v, ?_⟩
      split at h
      · split at h
        · cases h
        · split at h
          · cases h
          · obtain ⟨served, -, rfl⟩ := Option.map_eq_some_iff.1 h
            refine ⟨_, rfl, Function.update_idem _ _ _, rfl, rfl, ?_⟩
            show w.spare ≤ (if served.response.isNone then w.spare - 1 else w.spare) + 1
            split <;> omega
      · cases h
        exact ⟨_, rfl, rfl, rfl, rfl, Nat.le_succ _⟩

/-- A move takes one descriptor at most. -/
theorem spare_step {move : Move} (h : w.step move = some w') : w.spare ≤ w'.spare + 1 := by
  cases move with
  | visit i fd page url =>
    rw [Web.step] at h
    split_ifs at h
    · cases h
      exact Nat.le_succ _
    · obtain ⟨v, -, rfl⟩ := Option.map_eq_some_iff.1 h
      show w.spare ≤ w.spare - 1 + 1
      omega
  | serve i n m =>
    rcases serve_cases h with rfl | ⟨v, v', -, -, -, -, hspare⟩
    · exact Nat.le_succ _
    · exact hspare
  | read i n =>
    cases h
    exact Nat.le_succ _

theorem Level.step (h : w.Level N) (hN : N < clientBuffer) {move : Move} (he : Alike K Q N move)
    (hs : w.step move = some w') : w'.Level N := by
  cases move with
  | visit i fd page url =>
    obtain ⟨-, rfl, hurl, hlen⟩ := he
    obtain ⟨v, hv, rfl, -, hstage⟩ := hurl.start fd
    by_cases htaken : (w.visits i).isSome = true
    · cases (if_pos htaken).symm.trans hs
      exact h
    · rw [Web.step, if_neg htaken, hv] at hs
      split at hs
      · cases hs
      cases hs
      refine ⟨fun j v' hv' => ?_, h.rest⟩
      dsimp only at hv'
      by_cases hj : j = i
      · rw [hj, Function.update_self] at hv'
        cases hv'
        exact .inr (by rw [(hstage Q).1, hlen])
      · rw [Function.update_of_ne hj] at hv'
        exact h.unread j v' hv'
  | serve i n m =>
    rcases serve_cases hs with rfl | ⟨v, v', hv, hvisits, hunread, hbuffer, -⟩
    · exact h
    have hfit : v.unread.length ≤ N := by
      rcases h.unread i v hv with hnil | hlen
      · rw [hnil]
        exact Nat.zero_le _
      · exact hlen.le
    -- the request is read as a whole, and covers what an earlier one left in the buffer
    have hmin : N ≤ min n bufferSize := le_min he.2 (hN.le.trans (by decide))
    refine ⟨fun j v'' hv'' => ?_, ?_⟩
    · rw [hvisits] at hv''
      by_cases hj : j = i
      · rw [hj, Function.update_self] at hv''
        cases hv''
        exact .inl (hunread.trans (List.drop_of_length_le (hfit.trans hmin)))
      · rw [Function.update_of_ne hj] at hv''
        exact h.unread j v'' hv''
    · rw [hbuffer, List.take_of_length_le (hfit.trans hmin), blit_zero, List.drop_append, List.drop_drop,
        List.drop_of_length_le hfit, List.nil_append, Nat.add_sub_cancel' hfit]
      exact h.rest
  | read i n =>
    cases hs
    refine ⟨fun j v' hv' => ?_, h.rest⟩
    dsimp only at hv'
    by_cases hj : j = i
    · rw [hj, Function.update_self] at hv'
      obtain ⟨v, hv, rfl⟩ := Option.map_eq_some_iff.1 hv'
      have hsame : (v.read n).unread = v.unread := by
        unfold Visit.read
        split_ifs <;> rfl
      rw [hsame]
      exact h.unread i v hv
    · rw [Function.update_of_ne hj] at hv'
      exact h.unread j v' hv'

/-- **Clients with requests of one length do not spoil each other's**, as long as there are descriptors. -/
theorem sound_of_alike (hK : Distinct K) (hN : N < clientBuffer) {moves : List Move}
    (hmoves : ∀ move ∈ moves, Alike K Q N move) (hinv : Inv K Q w) (hl : Level N w) (hspare : moves.length < w.spare) :
    AllSteps step (Sound K Q) w moves := by
  induction moves generalizing w with
  | nil => trivial
  | cons move moves ih =>
    rw [List.length_cons] at hspare
    have he : Alike K Q N move := hmoves move List.mem_cons_self
    -- one descriptor is left for this move, and the buffer holds no longer request
    have hsound : w.Sound K Q move := by
      cases move with
      | visit i fd page url => exact ⟨he.1, by omega, he.2.1, he.2.2.1⟩
      | serve i n m =>
        refine ⟨he.1, by omega, fun v hv hne => ?_⟩
        rw [(hl.unread i v hv).resolve_left hne]
        exact ⟨he.2, hl.rest⟩
      | read i n => trivial
    refine ⟨hsound, fun w' hs => ?_⟩
    obtain ⟨w'', hs', hinv'⟩ := hinv.step hK hsound
    cases hs.symm.trans hs'
    have htaken := spare_step hs
    exact ih (fun move' hmove' => hmoves move' (List.mem_cons_of_mem _ hmove')) hinv' (hl.step hN he hs) (by omega)

/-! #### Three clients -/

def twoPages : List (Bytes × Bytes) := [(ascii "a.com", ascii "x"), (ascii "a.com", ascii "y")]

theorem distinct_twoPages : Distinct twoPages := by
  refine ⟨⟨?_, ?_⟩, by decide, by decide⟩
  · have hinj : ∀ p ∈ twoPages, ∀ q ∈ twoPages, takesName (fileName p) = true → fileName p = fileName q → p = q := by
      decide
    exact hinj
  · have hname : ∀ p ∈ twoPages, (fileName p).head? = some 97 := by decide
    intro p hp fd _ heq
    have hhead := hname p hp
    rw [heq] at hhead
    cases hhead

def sendsPage : Meets where
  present := 0
  marked := 0
  stored := 0
  dated := 0
  expires := 1
  node := 0
  answer := fun _ _ => [response "200 OK" "page"]

theorem sendsPage_answers : sendsPage.Answers fun _ bytes => afterHeader bytes = ascii "page" := by
  have hcode : (List.head? [response "200 OK" "page"]).bind webcode = some (ascii "200") := webcode_ok "page"
  have hpage : afterHeader [response "200 OK" "page"].flatten = ascii "page" := by decide
  refine ⟨fun _ _ => ⟨_, hcode⟩, fun _ h => ?_, fun _ _ _ => hpage⟩
  exact absurd (hcode.symm.trans h) (by decide)

/-- Two clients ask for one page, and a third one for another; the second one gets it from the cache. -/
def threeVisits : List Move :=
  [.visit 0 4 [] (ascii "a.com/x"), .visit 1 5 [] (ascii "a.com/x"), .serve 0 4096 sendsPage,
    .visit 2 6 [] (ascii "a.com/y"), .serve 1 4096 sendsPage, .read 0 2, .serve 2 4096 sendsPage, .read 1 9, .read 0 9,
    .read 0 0]

theorem alike_threeVisits :
    ∀ move ∈ threeVisits, Alike twoPages (fun _ bytes => afterHeader bytes = ascii "page") 56 move := by
  have hserve : sendsPage.Answers (fun _ bytes => afterHeader bytes = ascii "page") ∧ 56 ≤ 4096 :=
    ⟨sendsPage_answers, by decide⟩
  have hx : GoodUrl twoPages (ascii "a.com/x") := by decide
  have hy : GoodUrl twoPages (ascii "a.com/y") := by decide
  simp only [threeVisits, List.forall_mem_cons]
  exact ⟨⟨by decide, rfl, hx, by decide⟩, ⟨by decide, rfl, hx, by decide⟩, hserve, ⟨by decide, rfl, hy, by decide⟩,
    hserve, trivial, hserve, trivial, trivial, trivial, by simp⟩

theorem harmless_zeros {n N : ℕ} (h : N < n) : Harmless ((zeros n).drop N) := by
  obtain ⟨k, hk⟩ := Nat.exists_eq_succ_of_ne_zero (Nat.sub_ne_zero_of_lt h)
  have hzeros : (zeros n).drop N = 0 :: zeros k := by
    rw [zeros, List.drop_replicate, hk, List.replicate_succ, zeros]
  rw [hzeros]
  exact ⟨List.mem_cons_self, fun line hline => by cases hline⟩

theorem sound_threeVisits : AllSteps step (Sound twoPages fun _ bytes => afterHeader bytes = ascii "page")
    (start (zeros bufferSize) 11) threeVisits :=
  sound_of_alike distinct_twoPages (by decide) alike_threeVisits (inv_start _ _)
    ⟨(fun i v hv => by cases hv), harmless_zeros (by decide)⟩ (by decide)

end Runs

end Web

end TamuProofs.Proxy
