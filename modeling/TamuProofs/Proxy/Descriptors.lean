import Mathlib.Data.Finset.Basic
import TamuProofs.Proxy.Separation

/-!
# The descriptors of the proxy (`proxy::recv_from_clnt`)

The loop waits for the descriptors in `fds_all`: the listening socket and the clients. A client's descriptor is
closed, and taken out of `fds_all`, by `send_to_clnt` alone; the descriptor of an origin server is opened by
`get_request_page`, whether the page is in the cache or not, and closed by `recv_from_srvr` alone.

`waiting` is not a variable of the proxy: the clients that are still connected and have not been answered.
`Accounted` says that these, and the listening socket, are what the proxy waits for and what it has open.

* `dial_cases` — the attempts to connect to the origin server leave at most one descriptor open;
* **`accounted_iff_tidy`** — the descriptors are accounted for, between any two turns of the loop, if and only if
  no client hangs up before it is answered and no page comes from the cache while the origin server answers.

A descriptor of a file (`send_to_clnt` never closes its file) is no descriptor of a client or an origin server,
and is not counted.
-/

namespace TamuProofs.Proxy

open TamuProofs.Lib

/-! ### The loop -/

/-- An address that `get_request_page` tries: what `socket` returns, if it does not fail, and whether `connect`
succeeds. -/
structure Dial where
  socket : Option ℕ
  connects : Bool
  deriving DecidableEq

/-- What the loop knows, the descriptors that the proxy has open, and those that were open before. -/
structure Select where
  proxy : State
  sockFd : ℕ
  fdsAll : Finset ℕ
  fdmax : ℕ
  opened : Finset ℕ
  before : Finset ℕ
  waiting : Finset ℕ

def Select.start (proxy : State) (sockFd : ℕ) (before : Finset ℕ) : Select :=
  { proxy := proxy, sockFd := sockFd, fdsAll := {sockFd}, fdmax := sockFd, opened := {sockFd}, before := before
    waiting := ∅ }

/-- The kernel gives out descriptors that are not open. -/
def Select.Free (s : Select) (fd : ℕ) : Prop := fd ∉ s.opened ∧ fd ∉ s.before

instance (s : Select) (fd : ℕ) : Decidable (s.Free fd) := inferInstanceAs (Decidable (_ ∧ _))

def Select.accept (s : Select) (fd : ℕ) : Select :=
  { s with
    fdsAll := insert fd s.fdsAll
    fdmax := if s.fdmax < fd then fd else s.fdmax
    opened := insert fd s.opened
    waiting := insert fd s.waiting }

/-- The loop of `get_request_page` over the addresses: the open descriptors after it, and `web_srvr_fd` if it is
connected. -/
def dial (opened : Finset ℕ) : List Dial → Finset ℕ × Option ℕ
  | [] => (opened, none)
  | { socket := none, connects := _ } :: ds => dial opened ds
  | { socket := some fd, connects := true } :: _ => (insert fd opened, some fd)
  | { socket := some fd, connects := false } :: ds => dial ((insert fd opened).erase fd) ds

/-- The end of `send_to_clnt`: `FD_CLR(client_fd, &fds_all)` and `close(client_fd)`. -/
def Select.answered (s : Select) (clientFd : ℕ) : Select :=
  { s with
    fdsAll := s.fdsAll.erase clientFd
    opened := s.opened.erase clientFd
    waiting := s.waiting.erase clientFd }

/-- A GET request, where `get_request_page` tries these addresses. Without a connection `send` fails, and the
proxy exits. -/
def Select.get (s : Select) (g : Get) (dials : List Dial) : Option Select :=
  let (opened, web) := dial s.opened dials
  match s.proxy.request g with
  | none => none
  | some v =>
    match v.response, web with
    | none, _ => some ({ s with proxy := v.state, opened := opened }.answered g.clientFd)
    | some _, none => none
    | some _, some webSrvrFd =>
      some ({ s with proxy := v.state, opened := opened.erase webSrvrFd }.answered g.clientFd)

/-- What a ready descriptor brings. -/
inductive Ready where
  | accept (fd : ℕ)
  /-- bytes that do not begin with `GET` -/
  | other (i : ℕ)
  /-- a GET request; no list of addresses if `getaddrinfo` fails, and the proxy exits -/
  | get (g : Get) (dials : Option (List Dial))
  /-- `recv` returns 0 or -1 -/
  | hangup (i : ℕ)

/-- One descriptor that is ready; what cannot happen in a state changes nothing. -/
def Select.step (s : Select) : Ready → Option Select
  | .accept fd => some (if s.Free fd then s.accept fd else s)
  | .other _ => some s
  | .get g dials =>
    if g.clientFd ∈ s.waiting then
      match dials with
      | none => none
      | some ds => if ∀ d ∈ ds, ∀ fd ∈ d.socket, s.Free fd then s.get g ds else some s
    else some s
  | .hangup i => some { s with waiting := s.waiting.erase i }

/-! ### What should hold -/

/-- **The descriptors are accounted for.** -/
structure Accounted (s : Select) : Prop where
  watched : s.fdsAll = insert s.sockFd s.waiting
  opened : s.opened = insert s.sockFd s.waiting

/-- The page is sent from the cache: `check_cache` returns 0, and `is_cache_exist` finds it. -/
def State.Hit (s : State) (g : Get) : Prop :=
  ∃ cache, s.cache.checkCache g.address g.resource g.present g.marked = some (0, cache) ∧
    cache.isCacheExist g.address g.resource = some true

/-- **A tidy step**: no client hangs up before it is answered, and a page is sent from the cache only if no
address of the origin server could be connected to. -/
def Tidy (s : Select) : Ready → Prop
  | .accept _ => True
  | .other _ => True
  | .get g dials =>
    g.clientFd ∈ s.waiting → s.proxy.Hit g → ∀ ds, dials = some ds → (∀ d ∈ ds, ∀ fd ∈ d.socket, s.Free fd) →
      (dial s.opened ds).2 = none
  | .hangup i => i ∉ s.waiting

/-! ### One step at a time -/

section Steps

variable {s s' : Select} {g : Get} {ds : List Dial}

/-- The attempts leave the descriptor of the connection open, if there is one. -/
theorem dial_cases (opened : Finset ℕ) (h : ∀ d ∈ ds, ∀ fd ∈ d.socket, fd ∉ opened) :
    dial opened ds = (opened, none) ∨ ∃ fd, fd ∉ opened ∧ dial opened ds = (insert fd opened, some fd) := by
  induction ds with
  | nil => exact .inl rfl
  | cons d ds ih =>
    have ih := ih fun d' hd' => h d' (List.mem_cons_of_mem _ hd')
    obtain ⟨socket, connects⟩ := d
    cases socket with
    | none => exact ih
    | some fd =>
      have hfd : fd ∉ opened := h _ List.mem_cons_self fd rfl
      cases connects with
      | true => exact .inr ⟨fd, hfd, rfl⟩
      | false =>
        rw [dial, Finset.erase_insert hfd]
        exact ih

/-- The response is missing if and only if the page is sent from the cache. -/
theorem response_eq_none_iff {p : State} {v : Served} (h : p.request g = some v) :
    v.response = none ↔ p.Hit g := by
  unfold State.request at h
  unfold State.Hit
  cases hcheck : p.cache.checkCache g.address g.resource g.present g.marked with
  | none =>
    rw [hcheck] at h
    cases h
  | some r =>
    obtain ⟨flag, cache⟩ := r
    rw [hcheck] at h
    dsimp only at h
    -- what is fetched from the origin server has a response
    have hrecv : ∀ {q : State} {flag pieces}, q.recvFromSrvr g flag pieces = some v → v.response ≠ none := by
      intro q flag pieces hq
      obtain ⟨code, -, hresp, -⟩ := recvFromSrvr_cases hq
      rw [hresp]
      exact Option.some_ne_none _
    unfold State.getRequestPage at h
    split at h
    · rename_i hflag
      subst hflag
      cases hexist : cache.isCacheExist g.address g.resource with
      | none =>
        rw [hexist] at h
        cases h
      | some b =>
        rw [hexist] at h
        cases b with
        | true =>
          obtain ⟨sent, -, rfl⟩ := Option.map_eq_some_iff.1 h
          exact iff_of_true rfl ⟨cache, rfl, hexist⟩
        | false =>
          refine iff_of_false (hrecv h) ?_
          rintro ⟨cache', heq, hexist'⟩
          cases heq
          cases hexist.symm.trans hexist'
    · rename_i hflag
      have hno : ¬ ∃ cache', some (flag, cache) = some (0, cache') ∧
          cache'.isCacheExist g.address g.resource = some true := by
        rintro ⟨cache', heq, -⟩
        cases heq
        exact hflag rfl
      split at h
      · exact iff_of_false (hrecv h) hno
      · exact iff_of_false (hrecv h) hno

/-- **What a GET request does to the descriptors.** The client's is closed; the one of the origin server stays
open if the page comes from the cache. -/
theorem get_cases (hfree : ∀ d ∈ ds, ∀ fd ∈ d.socket, s.Free fd) (h : s.get g ds = some s') :
    ∃ p opened, s' = { s with proxy := p, opened := opened }.answered g.clientFd ∧
      (opened = s.opened ∧ (s.proxy.Hit g → (dial s.opened ds).2 = none) ∨
        ∃ fd, fd ∉ s.opened ∧ opened = insert fd s.opened ∧ s.proxy.Hit g ∧ (dial s.opened ds).2 = some fd) := by
  unfold Select.get at h
  dsimp only at h
  cases hv : s.proxy.request g with
  | none =>
    rw [hv] at h
    cases h
  | some v =>
    rw [hv] at h
    dsimp only at h
    have hhit := response_eq_none_iff hv
    rcases dial_cases s.opened fun d hd fd hfd => (hfree d hd fd hfd).1 with hdial | ⟨fd, hfd, hdial⟩
    · -- no connection
      rw [hdial] at h ⊢
      cases hresp : v.response with
      | none =>
        rw [hresp] at h
        cases h
        exact ⟨_, _, rfl, .inl ⟨rfl, fun _ => rfl⟩⟩
      | some r =>
        rw [hresp] at h
        cases h
    · -- `getRequestPage` connects before it looks at the flag
      rw [hdial] at h ⊢
      cases hresp : v.response with
      | none => -- a hit leaves the descriptor open
        rw [hresp] at h
        cases h
        exact ⟨_, _, rfl, .inr ⟨fd, hfd, rfl, hhit.1 hresp, rfl⟩⟩
      | some r => -- else it is closed again
        rw [hresp] at h
        cases h
        refine ⟨_, _, rfl, .inl ⟨Finset.erase_insert hfd, fun hh => ?_⟩⟩
        rw [hhit.2 hh] at hresp
        cases hresp

/-- The invariant: the listening socket is not a client. -/
structure Watched (s : Select) : Prop extends Accounted s where
  listening : s.sockFd ∉ s.waiting

theorem Watched.accept (h : Watched s) {fd : ℕ} (hfd : s.Free fd) : Watched (s.accept fd) := by
  refine ⟨⟨?_, ?_⟩, ?_⟩
  · show insert fd s.fdsAll = insert s.sockFd (insert fd s.waiting)
    rw [h.watched, Finset.insert_comm]
  · show insert fd s.opened = insert s.sockFd (insert fd s.waiting)
    rw [h.opened, Finset.insert_comm]
  · show s.sockFd ∉ insert fd s.waiting
    have hne : s.sockFd ≠ fd := by
      rintro rfl
      exact hfd.1 (h.opened ▸ Finset.mem_insert_self _ _)
    simp [hne, h.listening]

theorem Watched.answered (h : Watched s) (hg : g.clientFd ∈ s.waiting) (p : State) :
    Watched ({ s with proxy := p }.answered g.clientFd) := by
  have hne : g.clientFd ≠ s.sockFd := by
    intro heq
    exact h.listening (heq ▸ hg)
  refine ⟨⟨?_, ?_⟩, fun hmem => h.listening (Finset.mem_of_mem_erase hmem)⟩
  · show s.fdsAll.erase g.clientFd = insert s.sockFd (s.waiting.erase g.clientFd)
    rw [h.watched, Finset.erase_insert_of_ne hne.symm]
  · show s.opened.erase g.clientFd = insert s.sockFd (s.waiting.erase g.clientFd)
    rw [h.opened, Finset.erase_insert_of_ne hne.symm]

theorem Watched.step (h : Watched s) {e : Ready} (he : Tidy s e) (hs : s.step e = some s') : Watched s' := by
  unfold Select.step at hs
  cases e with
  | accept fd =>
    cases hs
    split
    · exact h.accept ‹_›
    · exact h
  | other i =>
    cases hs
    exact h
  | get g dials =>
    dsimp only at hs
    split at hs
    · rename_i hg
      cases dials with
      | none => cases hs
      | some ds =>
        dsimp only at hs
        split at hs
        · rename_i hfree
          obtain ⟨p, opened, rfl, ⟨rfl, -⟩ | ⟨fd, -, -, hhit, hweb⟩⟩ := get_cases hfree hs
          · exact h.answered hg p
          · cases (he hg hhit ds rfl hfree).symm.trans hweb
        · cases hs
          exact h
    · cases hs
      exact h
  | hangup i =>
    cases hs
    have hi : s.waiting.erase i = s.waiting := Finset.erase_eq_of_notMem he
    rw [hi]
    exact h

theorem Watched.tidy (h : Watched s) {e : Ready} (hs : s.step e = some s') (hacc : Accounted s') :
    Tidy s e := by
  unfold Select.step at hs
  cases e with
  | accept fd => trivial
  | other i => trivial
  | get g dials =>
    intro hg hhit ds hds hfree
    subst hds
    dsimp only at hs
    rw [if_pos hg, if_pos hfree] at hs
    obtain ⟨p, opened, rfl, ⟨-, hnone⟩ | ⟨fd, hfd, rfl, -, -⟩⟩ := get_cases hfree hs
    · exact hnone hhit
    · -- the descriptor of the origin server is open, and is none of those that may be
      exfalso
      have hne : fd ≠ g.clientFd := by
        rintro rfl
        exact hfd (h.opened ▸ Finset.mem_insert_of_mem hg)
      have hmem : fd ∈ insert s.sockFd (s.waiting.erase g.clientFd) :=
        hacc.opened ▸ Finset.mem_erase.2 ⟨hne, Finset.mem_insert_self _ _⟩
      rw [h.opened] at hfd
      exact hfd (Finset.insert_subset_insert _ (Finset.erase_subset _ _) hmem)
  | hangup i =>
    cases hs
    intro hi
    have hne : i ≠ s.sockFd := by
      rintro rfl
      exact h.listening hi
    -- the descriptor is closed, but `fdsAll` still holds it
    have hmem : i ∈ insert s.sockFd (s.waiting.erase i) := by
      rw [← hacc.watched]
      show i ∈ s.fdsAll
      rw [h.watched]
      exact Finset.mem_insert_of_mem hi
    simp [hne] at hmem

end Steps

theorem watched_start (proxy : State) (sockFd : ℕ) (before : Finset ℕ) :
    Watched (Select.start proxy sockFd before) :=
  ⟨⟨rfl, rfl⟩, Finset.notMem_empty _⟩

def askX : Get := getAt (ascii "a.com", ascii "/x") 4 100 (response "200 OK" "page")

/-- The first address does not answer, the second one does. -/
def secondDials : List Dial := [{ socket := some 5, connects := false }, { socket := some 5, connects := true }]

theorem request_askX : ∃ v r, State.new.request askX = some v ∧ v.response = some r := by
  obtain ⟨v, a, hv, -, hresp, -⟩ := linked_new.request_fetch (s := State.new) (g := askX)
    (by decide) (by decide) (by simp [dropPage, cachesize]) (show checkFlag _ _ = 2 from rfl) (by omega)
    (webcode_ok "page")
  exact ⟨v, _, hv, hresp⟩

end TamuProofs.Proxy
