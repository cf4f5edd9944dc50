import TamuProofs.Proxy.Files

/-!
# Revalidation

`World` is the proxy together with the origin server: a clock, and the body of each page with the time of its last
change. The origin server answers as it should (`Origin.answer`): to a GET with a date it says that the page has
not changed exactly if it was not modified after that date.

The date in the proxy's conditional GET is the time of the request, not of the copy, so the answer is 304 for
every page that is not modified while the request is under way, and the client is sent the copy.

* `kept_eq` — what the files hold is, for each name, the body of the response last kept under it;
* **`fresh_iff_current`** — a run of requests, modifications and clock advances sends the current body at every
  revalidation exactly as long as the copies are `Current` when they are revalidated.
-/

namespace TamuProofs.Proxy

open TamuProofs.Lib

/-! ### The origin server -/

/-- The response begins with a status line that has this code. -/
def HasCode (code response : Bytes) : Prop :=
  ∃ line rest, response = line ++ rest ∧ line.length = 12 ∧ (∀ b ∈ line, b ≠ 0 ∧ isCrLf b = false) ∧
    line.drop 9 = code

/-- The two responses of an origin server, for a page and a time: a page with its body, and that the page has not
changed. -/
structure Origin where
  ok : Bytes × Bytes → ℤ → Bytes → Bytes
  notModified : Bytes × Bytes → ℤ → Bytes
  ok_code : ∀ page time body, HasCode (ascii "200") (ok page time body)
  ok_body : ∀ page time body, afterHeader (ok page time body) = body
  notModified_code : ∀ page time, HasCode (ascii "304") (notModified page time)
  notModified_body : ∀ page time, afterHeader (notModified page time) = []

/-- The proxy and the origin server. `kept` is not part of either: the bodies that the responses in the proxy's files
had when they were fetched. -/
structure World where
  state : State
  now : ℤ
  body : Bytes × Bytes → Bytes
  modified : Bytes × Bytes → ℤ
  kept : Dir Bytes Bytes

def World.start (now : ℤ) (body : Bytes × Bytes → Bytes) (modified : Bytes × Bytes → ℤ) : World :=
  { state := State.new, now := now, body := body, modified := modified, kept := Dir.empty }

inductive Change where
  | tick (seconds : ℕ)
  | modify (page : Bytes × Bytes) (body : Bytes)

def World.change (w : World) : Change → World
  | .tick seconds => { w with now := w.now + seconds }
  | .modify page body =>
    { w with body := Function.update w.body page body, modified := Function.update w.modified page w.now }

/-- The answer to a GET with this date, or with none. -/
def Origin.answer (o : Origin) (w : World) (page : Bytes × Bytes) (date : Option ℤ) : Bytes :=
  match date with
  | none => o.ok page w.now (w.body page)
  | some date =>
    if w.modified page ≤ date then o.notModified page w.now else o.ok page w.now (w.body page)

/-! ### Runs -/

/-- A request, with the changes between the date in the proxy's GET and the answer, and the pieces in which the answer
arrives. -/
structure Asked extends Request where
  clientFd : ℕ
  during : List Change
  pieces : Bytes → List Bytes
  pieces_flatten : ∀ bytes, (pieces bytes).flatten = bytes

inductive Event where
  | change (c : Change)
  | request (r : Asked)

/-- The world when the origin server answers. -/
def World.answering (w : World) (r : Asked) : World := r.during.foldl World.change w

def World.get (o : Origin) (w : World) (r : Asked) : Get :=
  { r.toRequest with
    clientFd := r.clientFd
    dated := w.now
    answer := fun date => r.pieces (o.answer (w.answering r) r.page date) }

/-- The bodies kept after a request. -/
def World.keptAfter (w : World) (r : Asked) : Option Response → Dir Bytes Bytes
  | none => w.kept
  | some response =>
    receive w.kept (tempName r.clientFd) (fileName r.page)
      (if response.NotModified then [] else (w.answering r).body r.page) (¬ response.NotModified)

def World.step (o : Origin) (w : World) : Event → Option World
  | .change c => some (w.change c)
  | .request r => (w.state.request (w.get o r)).map fun v =>
    { w.answering r with state := v.state, kept := w.keptAfter r v.response }

/-- The page is in the cache, and expired. -/
def World.Revalidates (w : World) (r : Asked) : Prop :=
  ∃ cache, w.state.cache.checkCache r.address r.resource r.present r.marked = some (1, cache)

/-- **The body that the client is sent is the current one**, at every revalidation. -/
def Fresh (o : Origin) (w : World) : Event → Prop
  | .change _ => True
  | .request r => w.Revalidates r → ∀ v, w.state.request (w.get o r) = some v →
    v.sent = (w.answering r).body r.page

/-- The page is modified after the date that the proxy puts in its GET, and its file can be saved; or the body in its
file is the one it still has. (Nothing is sent if there is no file, which is right for an empty page.) -/
def World.Current (w : World) (r : Asked) : Prop :=
  let body := (w.answering r).body r.page
  if w.now < (w.answering r).modified r.page then
    (fileName r.page ≠ tempName r.clientFd ∧ takesName (fileName r.page) = true) ∨ body = []
  else if fileName r.page = tempName r.clientFd then body = []
  else (w.kept (fileName r.page)).getD [] = body

/-- **What it takes**: at every revalidation that comes to an end, the copy is current. -/
def CurrentAt (o : Origin) (w : World) : Event → Prop
  | .change _ => True
  | .request r => w.Revalidates r → (w.state.request (w.get o r)).isSome → w.Current r

/-! ### What an answer says -/

section Answer

variable {o : Origin} {w : World} {r : Asked} {page : Bytes × Bytes} {date : Option ℤ} {code : Bytes}
  {pieces : List Bytes}

theorem HasCode.webcode_eq {response c : Bytes} (h : HasCode c response) (hflat : pieces.flatten = response)
    (hcode : pieces.head?.bind webcode = some code) : code = c := by
  obtain ⟨line, rest, rfl, hlen, hline, rfl⟩ := h
  exact code_of_pieces hlen hline hflat hcode

/-- The page has not been modified after the date. -/
def World.Unmodified (w : World) (page : Bytes × Bytes) : Option ℤ → Prop
  | none => False
  | some date => w.modified page ≤ date

/-- **The code is 304 exactly for a page that is not modified**, and then there is no body. -/
theorem answer_spec (hflat : pieces.flatten = o.answer w page date)
    (hcode : pieces.head?.bind webcode = some code) :
    (code = ascii "304" ↔ w.Unmodified page date) ∧
      afterHeader pieces.flatten = if code = ascii "304" then [] else w.body page := by
  have hok : pieces.flatten = o.ok page w.now (w.body page) →
      code ≠ ascii "304" ∧ afterHeader pieces.flatten = w.body page := fun h => by
    rw [(o.ok_code page w.now (w.body page)).webcode_eq h hcode, h, o.ok_body]
    exact ⟨by decide, rfl⟩
  cases date with
  | none =>
    obtain ⟨hne, hbody⟩ := hok hflat
    rw [if_neg hne]
    exact ⟨iff_of_false hne id, hbody⟩
  | some date =>
    by_cases hdate : w.modified page ≤ date
    · have h304 : pieces.flatten = o.notModified page w.now := hflat.trans (if_pos hdate)
      obtain rfl := (o.notModified_code page w.now).webcode_eq h304 hcode
      rw [if_pos rfl, h304, o.notModified_body]
      exact ⟨iff_of_true rfl hdate, rfl⟩
    · obtain ⟨hne, hbody⟩ := hok (hflat.trans (if_neg hdate))
      rw [if_neg hne]
      exact ⟨iff_of_false hne hdate, hbody⟩

theorem change_state (c : Change) : (w.change c).state = w.state ∧ (w.change c).kept = w.kept := by
  cases c <;> exact ⟨rfl, rfl⟩

end Answer

/-! ### What the files hold -/

/-- The files hold the bodies that were kept. -/
def KeptInFiles (w : World) : Prop := w.state.files.map afterHeader = w.kept

section Kept

variable {o : Origin} {w w' : World} {r : Asked} {v : Served}

/-- The files and the bodies kept change in the same way. -/
theorem KeptInFiles.request (h : KeptInFiles w) (hv : w.state.request (w.get o r) = some v) :
    v.state.files.map afterHeader = w.keptAfter r v.response := by
  obtain ⟨flag, cache, -, -, hcases⟩ := request_cases hv
  rcases hcases with ⟨-, hresp, hfiles⟩ | ⟨code, hcode, hresp, hfiles⟩
  · rw [hfiles, hresp]
    exact h
  · have hbody : afterHeader ((w.get o r).answer ((w.get o r).date flag)).flatten = _ :=
      (answer_spec (r.pieces_flatten _) hcode).2
    rw [hfiles, hresp, map_receive, h, hbody]
    rfl

/-- **What the client is sent** is the body kept under the name of the page. -/
theorem KeptInFiles.sent (h : KeptInFiles w) (hv : w.state.request (w.get o r) = some v) :
    v.sent = (w.keptAfter r v.response (fileName r.page)).getD [] := by
  obtain ⟨-, -, -, hsent, -⟩ := request_cases hv
  rw [hsent, sendToClnt_eq, ← h.request hv]
  rfl

/-- A revalidation puts the time of the request in the GET. -/
theorem response_of_revalidates (hr : w.Revalidates r) (hv : w.state.request (w.get o r) = some v) :
    ∃ response, v.response = some response ∧
      (response.NotModified ↔ (w.answering r).modified r.page ≤ w.now) := by
  obtain ⟨cache, hcheck⟩ := hr
  obtain ⟨flag, cache', hcheck', -, hcases⟩ := request_cases hv
  cases hcheck.symm.trans hcheck'
  rcases hcases with ⟨hflag, -⟩ | ⟨code, hcode, hresp, -⟩
  · cases hflag
  · exact ⟨_, hresp, (answer_spec (r.pieces_flatten _) hcode).1⟩

theorem KeptInFiles.fresh_iff {e : Event} (h : KeptInFiles w) : Fresh o w e ↔ CurrentAt o w e := by
  cases e with
  | change c => exact Iff.rfl
  | request r =>
    refine forall_congr' fun hr => ?_
    cases hv : w.state.request (w.get o r) with
    | none => simp
    | some v =>
      obtain ⟨response, hresp, hcode⟩ := response_of_revalidates hr hv
      have hsent := h.sent hv
      rw [hresp, World.keptAfter, receive_self] at hsent
      simp only [Option.some.injEq, forall_eq', Option.isSome_some, forall_true_left]
      rw [hsent, World.Current]
      by_cases hmod : w.now < (w.answering r).modified r.page
      · -- a page that was modified comes anew
        have hnew : ¬ response.NotModified := fun hn => absurd (hcode.1 hn) (Int.not_le.2 hmod)
        rw [if_pos hmod, if_pos (decide_eq_true hnew), if_neg hnew]
        by_cases hsave : fileName r.page ≠ tempName r.clientFd ∧ takesName (fileName r.page) = true
        · rw [if_pos hsave]
          exact iff_of_true rfl (.inl hsave)
        · rw [if_neg hsave]
          exact ⟨fun hnil => .inr hnil.symm, fun hcur => (hcur.resolve_left hsave).symm⟩
      · -- the file that was kept is sent
        have hold : response.NotModified := hcode.2 (Int.not_lt.1 hmod)
        rw [if_neg hmod, if_neg (by simpa using hold), if_pos hold]
        by_cases htemp : fileName r.page = tempName r.clientFd
        · rw [if_pos htemp, if_pos htemp]
          exact eq_comm
        · rw [if_neg htemp, if_neg htemp]

theorem kept_eq {e : Event} (h : KeptInFiles w) (hs : w.step o e = some w') : KeptInFiles w' := by
  cases e with
  | change c =>
    cases hs
    obtain ⟨hstate, hkept⟩ := change_state (w := w) c
    unfold KeptInFiles
    rw [hstate, hkept]
    exact h
  | request r =>
    obtain ⟨v, hv, rfl⟩ := Option.map_eq_some_iff.1 hs
    exact h.request hv

end Kept

/-- **When revalidation never serves stale content.** Along every run of requests, clock advances and modifications
at the origin server, the body sent at each revalidation is the page's body when the origin server answers, if and
only if every copy that is revalidated is current. -/
theorem fresh_iff_current (o : Origin) (now : ℤ) (body : Bytes × Bytes → Bytes) (modified : Bytes × Bytes → ℤ)
    (es : List Event) :
    AllSteps (World.step o) (Fresh o) (World.start now body modified) es ↔
      AllSteps (World.step o) (CurrentAt o) (World.start now body modified) es :=
  allSteps_congr (I := KeptInFiles) (fun _ _ h => h.fresh_iff) (fun _ _ _ h hs => kept_eq h hs) rfl

/-! ### A page that changes -/

/-- An origin server that sends no header but the status line. -/
def Origin.plain : Origin where
  ok _ _ body := ascii "HTTP/1.0 200 OK\r\n\r\n" ++ body
  notModified _ _ := ascii "HTTP/1.0 304 Not Modified\r\n\r\n"
  ok_code _ _ _ := ⟨ascii "HTTP/1.0 200", _, List.append_assoc (ascii "HTTP/1.0 200") (ascii " OK\r\n\r\n") _,
    rfl, by simp [ascii, isCrLf], rfl⟩
  ok_body _ _ body := by simp [ascii, afterHeader]
  notModified_code _ _ := ⟨ascii "HTTP/1.0 304", ascii " Not Modified\r\n\r\n", rfl, rfl,
    by simp [ascii, isCrLf], rfl⟩
  notModified_body _ _ := by simp [ascii, afterHeader]

def askAt (page : Bytes × Bytes) (time : ℤ) : Asked where
  address := page.1
  resource := page.2
  present := time
  marked := time
  stored := time
  expires := 0
  node := 0
  clientFd := 4
  during := []
  pieces := fun bytes => [bytes]
  pieces_flatten := fun bytes => List.append_nil bytes

/-- The page `/x` of `a.com`, in a world where it was not modified since long ago. -/
def pageX : Bytes × Bytes := (ascii "a.com", ascii "/x")

def World.old : World := World.start 100 (fun _ => ascii "old") fun _ => 0

/-- The page is fetched, changes, and a second passes. -/
def changed : List Event :=
  [.request (askAt pageX 100), .change (.modify pageX (ascii "new")), .change (.tick 1)]

theorem served_changed :
    ((changed.foldlM (World.step .plain) World.old).bind fun w =>
      (w.state.cache.checkCache pageX.1 pageX.2 101 101).bind fun checked =>
      (w.state.request (w.get .plain (askAt pageX 101))).map fun v =>
        (checked.1, v.sent, (w.answering (askAt pageX 101)).body pageX)) =
      some (1, ascii "old", ascii "new") := by decide

theorem not_fresh_changed :
    ¬ AllSteps (World.step .plain) (Fresh .plain) World.old (changed ++ [.request (askAt pageX 101)]) := by
  intro hall
  obtain ⟨w, hw, hbind⟩ := Option.bind_eq_some_iff.1 served_changed
  obtain ⟨⟨flag, cache⟩, hcheck, hmap⟩ := Option.bind_eq_some_iff.1 hbind
  obtain ⟨v, hv, heq⟩ := Option.map_eq_some_iff.1 hmap
  simp only [Prod.mk.injEq] at heq
  obtain ⟨rfl, hsent, hbody⟩ := heq
  have hfresh := hall.last_step hw ⟨cache, hcheck⟩ v hv
  rw [hsent] at hfresh
  cases hfresh.trans hbody

end TamuProofs.Proxy
