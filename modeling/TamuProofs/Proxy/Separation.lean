import Mathlib.Data.Set.Basic
import TamuProofs.Proxy.Files

/-!
# Whose content is in a file

The cache tells pages apart by their address and resource, the directory by the name made of both. `History` adds
to the state the response that was last fetched for each page, and `OwnContent` says that a request is answered
with that response.

* `Separated K` — no two of the pages in `K` share a file, and none of them has the name of a temporary file;
* `answerable K` — the pages in `K` that can be sent without a conversion in `printf`;
* **`ownContent_iff_separated`** — if these are separated every run is answered with the pages' own content, and
  if they are not, some run is not.
-/

namespace TamuProofs.Proxy

open TamuProofs.Lib

/-- Descriptors are below this, for `FD_SET`. -/
def fdSetSize : ℕ := 1024

/-- The state, and the response last fetched for each page. A response that says that the page has not changed is
not one of the page. -/
structure History where
  state : State
  fetched : Bytes × Bytes → Option Bytes

def History.new : History := { state := State.new, fetched := fun _ => none }

/-- What is fetched after a request. -/
def History.fetchedAfter (h : History) (g : Get) : Option Response → Bytes × Bytes → Option Bytes
  | none => h.fetched
  | some r => if r.NotModified then h.fetched else Function.update h.fetched g.page (some r.bytes)

def History.step (h : History) (g : Get) : Option History :=
  (h.state.request g).map fun v => { state := v.state, fetched := h.fetchedAfter g v.response }

theorem fetchedAfter_some (h : History) (g : Get) (code bytes : Bytes) :
    h.fetchedAfter g (some { code := code, bytes := bytes }) =
      if code = ascii "304" then h.fetched else Function.update h.fetched g.page (some bytes) := rfl

/-- **The page's own content**: if there is a file to answer the request from, it holds the response last fetched for
the page. -/
def OwnContent (h : History) (g : Get) : Prop :=
  ∀ h', h.step g = some h' → ∀ content, h'.state.files (fileName g.page) = some content →
    h'.fetched g.page = some content

/-- The names of the files tell the pages apart, and the pages from the temporary files whose names fit `tempstr`. -/
structure Separated (K : Set (Bytes × Bytes)) : Prop where
  inj : ∀ p ∈ K, ∀ q ∈ K, takesName (fileName p) = true → fileName p = fileName q → p = q
  temp : ∀ p ∈ K, ∀ fd < 10, fileName p ≠ tempName fd

/-- The pages whose resource `printf` can take for a format. -/
def answerable (K : Set (Bytes × Bytes)) : Set (Bytes × Bytes) := {p | p ∈ K ∧ isPlainFormat p.2 = true}

/-- A request for a page of `K` on a descriptor that a client can have. -/
def Asks (K : Set (Bytes × Bytes)) (g : Get) : Prop := g.page ∈ K ∧ g.clientFd < fdSetSize

/-! ### Separated pages -/

/-- Every file of a page holds the response last fetched for it. -/
structure Owned (K : Set (Bytes × Bytes)) (h : History) : Prop where
  untaken : ∀ p ∈ K, takesName (fileName p) = false → h.state.files (fileName p) = none
  own : ∀ p ∈ K, ∀ content, h.state.files (fileName p) = some content → h.fetched p = some content

section Separated

variable {K : Set (Bytes × Bytes)} {h h' : History} {g : Get}

theorem owned_new : Owned K History.new := by
  refine ⟨fun _ _ _ => rfl, fun p _ content hfile => ?_⟩
  cases hfile

/-- A response for one page changes the file of another only if they share it. -/
theorem Separated.receive_eq (hK : Separated K) (hfd : g.clientFd < 10) {p : Bytes × Bytes} (hp : p ∈ K)
    (files : Dir Bytes Bytes) (bytes : Bytes) (keep : Bool) :
    receive files (tempName g.clientFd) (fileName g.page) bytes keep (fileName p) =
      if keep = true ∧ fileName p = fileName g.page then
        (if takesName (fileName p) = true then some bytes else none)
      else files (fileName p) := by
  have htemp : fileName p ≠ tempName g.clientFd := hK.temp p hp _ hfd
  by_cases hname : fileName p = fileName g.page
  · rw [← hname, receive_self, if_neg htemp]
    cases keep <;> simp [htemp]
  · rw [receive_of_ne htemp hname, if_neg fun h => hname h.2]

theorem Owned.step (hK : Separated K) (ho : Owned K h) (hg : g.page ∈ K) (hs : h.step g = some h') : Owned K h' := by
  obtain ⟨v, hv, rfl⟩ := Option.map_eq_some_iff.1 hs
  obtain ⟨flag, cache, -, -, hcases⟩ := request_cases hv
  rcases hcases with ⟨-, hresp, hfiles⟩ | ⟨code, -, hresp, hfiles⟩
  · -- a hit leaves the files
    rw [hresp]
    refine ⟨fun p hp htakes => ?_, fun p hp content hfile => ?_⟩
    · exact (congrFun hfiles _).trans (ho.untaken p hp htakes)
    · exact ho.own p hp content ((congrFun hfiles _).symm.trans hfile)
  · -- a response goes into `tempfile`, and then to the file of its page
    have hfd : g.clientFd < 10 := fd_lt_of_response hv (by simp [hresp])
    generalize (g.answer (g.date flag)).flatten = bytes at hresp hfiles
    have hfile : ∀ p ∈ K, v.state.files (fileName p) = _ := fun p hp =>
      (congrFun hfiles _).trans (hK.receive_eq hfd hp h.state.files bytes _)
    rw [hresp, fetchedAfter_some]
    refine ⟨fun p hp htakes => ?_, fun p hp content hcontent => ?_⟩
    · refine (hfile p hp).trans ?_
      split
      · rw [htakes]
        rfl
      · exact ho.untaken p hp htakes
    · have hcontent := (hfile p hp).symm.trans hcontent
      dsimp only
      split at hcontent
      · -- the response was saved, and the file is of the page it was fetched for
        rename_i hsaved
        obtain ⟨hkeep, hname⟩ := hsaved
        split at hcontent
        · rename_i htakes
          rw [if_neg (by simpa using hkeep), hK.inj p hp _ hg htakes hname, Function.update_self]
          exact hcontent
        · cases hcontent
      · rename_i hother
        split
        · exact ho.own p hp content hcontent
        · rename_i hcode
          have hpage : p ≠ g.page := fun heq => hother ⟨by simpa using hcode, congrArg fileName heq⟩
          rw [Function.update_of_ne hpage]
          exact ho.own p hp content hcontent

theorem mem_answerable (hg : Asks K g) (hs : h.step g = some h') : g.page ∈ answerable K := by
  obtain ⟨v, hv, -⟩ := Option.map_eq_some_iff.1 hs
  exact ⟨hg.1, plain_of_request hv⟩

end Separated

/-! ### Pages that are not -/

/-- A request for a page, at this time; the origin server answers with these bytes, whatever the date. -/
def getAt (page : Bytes × Bytes) (clientFd : ℕ) (time : ℤ) (response : Bytes) : Get where
  address := page.1
  resource := page.2
  present := time
  marked := time
  stored := time
  expires := 0
  node := 0
  clientFd := clientFd
  dated := time
  answer := fun _ => [response]

def response (status body : String) : Bytes := ascii "HTTP/1.0 " ++ ascii status ++ [13, 10, 13, 10] ++ ascii body

theorem webcode_ok (body : String) : webcode (response "200 OK" body) = some (ascii "200") := by
  have hline : ∀ b ∈ ascii "HTTP/1.0 200", b ≠ 0 ∧ isCrLf b = false := by simp [ascii, isCrLf]
  have hsplit : response "200 OK" body = ascii "HTTP/1.0 200" ++ (ascii " OK" ++ [13, 10, 13, 10] ++ ascii body) := by
    simp [response, ascii]
  rw [hsplit, webcode_append rfl hline]
  rfl

theorem webcode_notModified : webcode (response "304 Not Modified" "") = some (ascii "304") := by decide

section Shared

variable {h : History} {items : List (ℕ × RequestInfo)} {bytes : Bytes}

theorem step_eq {g : Get} {v : Served} (hv : h.state.request g = some v) :
    h.step g = some { state := v.state, fetched := h.fetchedAfter g v.response } := by
  rw [History.step, hv, Option.map_some]

theorem step_new {page : Bytes × Bytes} {fd : ℕ} (hplain : isPlainFormat page.2 = true) (hfd : fd < 10) (time : ℤ)
    (hl : Linked h.state.cache items) (hroom : items.length < cachesize)
    (hnew : items.find? (ofPage page.1 page.2) = none) (hcode : webcode bytes = some (ascii "200")) :
    ∃ h' a, h.step (getAt page fd time bytes) = some h' ∧
      Linked h'.state.cache ((a, entry page.1 page.2 0 time) :: items) ∧
      h'.state.files = receive h.state.files (tempName fd) (fileName page) bytes true ∧
      h'.fetched = Function.update h.fetched page (some bytes) := by
  have hdrop : dropPage page.1 page.2 items = items := List.eraseP_of_forall_not (List.find?_eq_none.1 hnew)
  have hflag : checkFlag time (items.find? (ofPage page.1 page.2)) = 2 := checkFlag_eq_two.2 hnew
  obtain ⟨v, a, hv, hlinked, hresp, hfiles⟩ := hl.request_fetch (g := getAt page fd time bytes) hfd hplain
    ((length_dropPage_le _ _ _).trans_lt hroom) hflag (by omega) hcode
  have hbytes : ((getAt page fd time bytes).answer ((getAt page fd time bytes).date 2)).flatten = bytes :=
    List.append_nil bytes
  rw [hbytes] at hresp hfiles
  refine ⟨_, a, step_eq hv, hdrop ▸ hlinked, hfiles, ?_⟩
  dsimp only
  rw [hresp, fetchedAfter_some, if_neg (by decide)]
  rfl

theorem step_expired {page : Bytes × Bytes} {fd : ℕ} (hplain : isPlainFormat page.2 = true) (hfd : fd < 10) (time : ℤ)
    (hl : Linked h.state.cache items) (hroom : items.length < cachesize)
    (hflag : checkFlag time (items.find? (ofPage page.1 page.2)) = 1)
    (hcode : webcode bytes = some (ascii "304")) :
    ∃ h', h.step (getAt page fd time bytes) = some h' ∧
      h'.state.files = receive h.state.files (tempName fd) (fileName page) bytes false ∧ h'.fetched = h.fetched := by
  obtain ⟨v, a, hv, -, hresp, hfiles⟩ := hl.request_fetch (g := getAt page fd time bytes) hfd hplain
    ((length_dropPage_le _ _ _).trans_lt hroom) hflag (by omega) hcode
  have hbytes : ((getAt page fd time bytes).answer ((getAt page fd time bytes).date 1)).flatten = bytes :=
    List.append_nil bytes
  rw [hbytes] at hresp hfiles
  refine ⟨_, step_eq hv, hfiles, ?_⟩
  dsimp only
  rw [hresp, fetchedAfter_some, if_pos rfl]

theorem ofPage_entry (a : ℕ) (page q : Bytes × Bytes) (expires now : ℤ) :
    ofPage q.1 q.2 (a, entry page.1 page.2 expires now) = true ↔ page = q := by
  rw [ofPage_iff]
  rfl

/-- Two pages share a file: the second one is fetched, the first has not changed, and is answered with the second. -/
theorem not_ownContent_of_shared {p q : Bytes × Bytes} {fd : ℕ} (hp : isPlainFormat p.2 = true)
    (hq : isPlainFormat q.2 = true) (hfd : fd < 10) (hpq : p ≠ q) (hname : fileName p = fileName q)
    (htakes : takesName (fileName p) = true) (htemp : fileName p ≠ tempName fd) :
    ¬ AllSteps History.step OwnContent History.new [getAt p fd 1 (response "200 OK" "one"),
      getAt q fd 2 (response "200 OK" "two"), getAt p fd 3 (response "304 Not Modified" "")] := by
  intro hall
  obtain ⟨h₁, a, hs₁, hl₁, -, he₁⟩ := step_new (h := History.new) hp hfd 1 linked_new (by simp [cachesize]) rfl
    (webcode_ok "one")
  obtain ⟨h₂, b, hs₂, hl₂, hf₂, he₂⟩ := step_new (h := h₁) hq hfd 2 hl₁ (by simp [cachesize])
    (List.find?_cons_of_neg ((ofPage_entry a p q 0 1).not.2 hpq))
    (webcode_ok "two")
  have hflag : checkFlag 3 (List.find? (ofPage p.1 p.2) [(b, entry q.1 q.2 0 2), (a, entry p.1 p.2 0 1)]) = 1 := by
    rw [List.find?_cons_of_neg ((ofPage_entry b q p 0 2).not.2 hpq.symm),
      List.find?_cons_of_pos ((ofPage_entry a p p 0 1).2 rfl)]
    rfl
  obtain ⟨h₃, hs₃, hf₃, he₃⟩ := step_expired hp hfd 3 hl₂ (by simp [cachesize]) hflag
    webcode_notModified
  have hfile : h₃.state.files (fileName p) = some (response "200 OK" "two") := by
    rw [hf₃, receive_self, if_neg (by decide), if_neg htemp, hf₂, ← hname, receive_self, if_pos rfl,
      if_pos ⟨htemp, htakes⟩]
  have hfetched : h₃.fetched p = some (response "200 OK" "one") := by
    rw [he₃, he₂, Function.update_of_ne hpq, he₁, Function.update_self]
  have hown := ((hall.2 h₁ hs₁).2 h₂ hs₂).1 h₃ hs₃ _ hfile
  have hne : response "200 OK" "one" ≠ response "200 OK" "two" := by decide
  exact hne (Option.some.inj (hfetched.symm.trans hown))

/-- The file of a page is a temporary file: the page is fetched, and then answered with the response that says that
it has not changed. -/
theorem not_ownContent_of_temp {p : Bytes × Bytes} {fd : ℕ} (hp : isPlainFormat p.2 = true) (hfd : fd < 10)
    (htemp : fileName p = tempName fd) :
    ¬ AllSteps History.step OwnContent History.new [getAt p fd 1 (response "200 OK" "one"),
      getAt p fd 2 (response "304 Not Modified" "")] := by
  intro hall
  obtain ⟨h₁, a, hs₁, hl₁, -, he₁⟩ := step_new (h := History.new) hp hfd 1 linked_new (by simp [cachesize]) rfl
    (webcode_ok "one")
  have hflag : checkFlag 2 (List.find? (ofPage p.1 p.2) [(a, entry p.1 p.2 0 1)]) = 1 := by
    rw [List.find?_cons_of_pos ((ofPage_entry a p p 0 1).2 rfl)]
    rfl
  obtain ⟨h₂, hs₂, hf₂, he₂⟩ := step_expired hp hfd 2 hl₁ (by simp [cachesize]) hflag
    webcode_notModified
  have hfile : h₂.state.files (fileName p) = some (response "304 Not Modified" "") := by
    rw [hf₂, receive_self, if_neg (by decide), if_pos htemp]
  have hfetched : h₂.fetched p = some (response "200 OK" "one") := by
    rw [he₂, he₁, Function.update_self]
  have hown := (hall.2 h₁ hs₁).1 h₂ hs₂ _ hfile
  have hne : response "200 OK" "one" ≠ response "304 Not Modified" "" := by decide
  exact hne (Option.some.inj (hfetched.symm.trans hown))

end Shared

/-! ### The sets of pages that are safe -/

/-- **When no page is answered with the content of another.**  A request for a page that is not answerable, or one that
overruns `tempstr`, is the end of a run. -/
theorem ownContent_iff_separated (K : Set (Bytes × Bytes)) :
    (∀ gs : List Get, (∀ g ∈ gs, Asks K g) → AllSteps History.step OwnContent History.new gs) ↔
      Separated (answerable K) := by
  constructor
  · intro hruns
    have hbelow : ∀ fd < 10, fd < fdSetSize := by
      intro fd hfd
      rw [fdSetSize]
      omega
    -- a `304` for the client with this descriptor is written over the file of the page
    have htemp : ∀ p ∈ answerable K, ∀ fd < 10, fileName p ≠ tempName fd := by
      intro p hp fd hfd heq
      refine not_ownContent_of_temp hp.2 hfd heq (hruns _ fun g hg => ?_)
      simp only [List.mem_cons, List.not_mem_nil, or_false] at hg
      rcases hg with rfl | rfl <;> exact ⟨hp.1, hbelow fd hfd⟩
    refine ⟨fun p hp q hq htakes hname => ?_, htemp⟩
    by_contra hpq
    have hfour : 4 < 10 := by decide
    refine not_ownContent_of_shared hp.2 hq.2 hfour hpq hname htakes (htemp p hp 4 hfour) (hruns _ fun g hg => ?_)
    simp only [List.mem_cons, List.not_mem_nil, or_false] at hg
    rcases hg with rfl | rfl | rfl
    · exact ⟨hp.1, hbelow 4 hfour⟩
    · exact ⟨hq.1, hbelow 4 hfour⟩
    · exact ⟨hp.1, hbelow 4 hfour⟩
  · intro hK gs hgs
    refine allSteps_of_inv (I := Owned (answerable K)) (D := Asks K) (fun h g ho hg h' hs content hfile => ?_)
      (fun h g h' ho hg hs => ho.step hK (mem_answerable hg hs) hs) owned_new hgs
    have hpage := mem_answerable hg hs
    exact (ho.step hK hpage hs).own g.page hpage content hfile

/-- `/b/c` and `/b_c` of one host. -/
theorem not_ownContent_slash :
    ¬ AllSteps History.step OwnContent History.new
      [getAt (ascii "a.com", ascii "/b/c") 4 1 (response "200 OK" "one"),
        getAt (ascii "a.com", ascii "/b_c") 4 2 (response "200 OK" "two"),
        getAt (ascii "a.com", ascii "/b/c") 4 3 (response "304 Not Modified" "")] :=
  not_ownContent_of_shared (by decide) (by decide) (by decide) (by decide) (by decide) (by decide) (by decide)

end TamuProofs.Proxy
