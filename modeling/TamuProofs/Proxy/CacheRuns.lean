import Mathlib.Data.List.Dedup
import TamuProofs.Proxy.CacheInv

/-!
# Runs of the proxy over its page cache

* `wellFormed_iff_hasRoom` — with any number of pages, the cache stays a doubly linked list of at most
  `cachesize` live nodes exactly as long as no page is stored in a full cache, that is, as long as `dequeue` is
  never called;
* `good_of_few_pages` — when a run asks for no more than `cachesize` different pages, it never is, and every
  page has at most one node.
-/

namespace TamuProofs.Proxy

open TamuProofs.Lib

/-! ### Any number of pages -/

/-- One request: the page is fetched whatever the flag, or as `get_request_page` decides. -/
inductive Op where
  | refresh (r : Request)
  | request (r : Request)

def Op.req : Op → Request
  | .refresh r => r
  | .request r => r

def QueryCache.step (c : QueryCache) : Op → Option QueryCache
  | .refresh r => c.refresh r
  | .request r => c.request r

/-- **The shape of the cache**: a doubly linked list of live nodes, with its length in `curr_cache_size`, and
no more than `cachesize` of them. -/
def WellFormed (c : QueryCache) : Prop := ∃ items, Linked c items ∧ items.length ≤ cachesize

/-- The shape holds between the calls of one request, after `check_cache` and after `remove`. -/
def WellFormedWithin (c : QueryCache) (op : Op) : Prop :=
  ∀ flag c₁, c.checkCache op.req.address op.req.resource op.req.present op.req.marked = some (flag, c₁) →
    WellFormed c₁ ∧ ∀ c₂, c₁.remove op.req.address op.req.resource = some c₂ → WellFormed c₂

/-- **The oldest page goes**: a new page in a full cache costs the node at the tail, and all others stay in their
order. -/
def EvictsTail (c : QueryCache) (op : Op) : Prop :=
  ∀ items, Linked c items → items.length = cachesize →
    (∀ x ∈ items, ¬ ofPage op.req.address op.req.resource x = true) →
    ∃ c' a, c.step op = some c' ∧
      Linked c' ((a, entry op.req.address op.req.resource op.req.expires op.req.stored) :: items.dropLast)

/-- There is a free place, or the page has one. -/
def HasRoom (c : QueryCache) (op : Op) : Prop :=
  c.currCacheSize < cachesize ∨ c.isCacheExist op.req.address op.req.resource = some true

instance (c : QueryCache) (op : Op) : Decidable (HasRoom c op) :=
  inferInstanceAs (Decidable (_ ∨ _))

section Any

variable {c : QueryCache} {items : List (ℕ × RequestInfo)} {address resource : Bytes}

theorem length_dropPage_le (address resource : Bytes) (items : List (ℕ × RequestInfo)) :
    (dropPage address resource items).length ≤ items.length :=
  List.eraseP_sublist.length_le

theorem length_dropPage_lt (hx : ∃ x ∈ items, ofPage address resource x = true) :
    (dropPage address resource items).length < items.length := by
  obtain ⟨x, hx, hp⟩ := hx
  have hlen : (dropPage address resource items).length = items.length - 1 := List.length_eraseP_of_mem hx hp
  have hpos := List.length_pos_of_mem hx
  omega

theorem Linked.wellFormed (h : Linked c items) (hle : items.length ≤ cachesize) : WellFormed c := ⟨items, h, hle⟩

theorem Linked.hasRoom_iff (h : Linked c items) {op : Op} :
    HasRoom c op ↔
      items.length < cachesize ∨ ∃ x ∈ items, ofPage op.req.address op.req.resource x = true := by
  unfold HasRoom
  rw [h.isCacheExist_iff, h.size]
  exact or_congr_left Int.ofNat_lt

theorem Linked.step (h : Linked c items) (op : Op) :
    ((∃ x ∈ items, ofPage op.req.address op.req.resource x = true) ∧ c.step op = some c) ∨
      ∃ c₀, Linked c₀ (dropPage op.req.address op.req.resource items) ∧
        c.step op = c₀.enqueue op.req.address op.req.resource op.req.expires op.req.stored op.req.node := by
  cases op with
  | refresh r => exact Or.inr (h.refresh r)
  | request r =>
    rcases h.request r with hkeep | heq
    · exact Or.inl hkeep
    · obtain ⟨c₀, h₀, hstep⟩ := h.refresh r
      exact Or.inr ⟨c₀, h₀, heq.trans hstep⟩

/-- With room, a request keeps the shape. -/
theorem WellFormed.step (hc : WellFormed c) {op : Op} (hroom : HasRoom c op) :
    ∃ c', c.step op = some c' ∧ WellFormed c' := by
  obtain ⟨items, h, hle⟩ := hc
  rcases h.step op with ⟨-, hkeep⟩ | ⟨c₀, h₀, hstep⟩
  · exact ⟨c, hkeep, h.wellFormed hle⟩
  · have hlt : (dropPage op.req.address op.req.resource items).length < cachesize := by
      rcases h.hasRoom_iff.1 hroom with hlt | hx
      · exact (length_dropPage_le _ _ _).trans_lt hlt
      · exact (length_dropPage_lt hx).trans_le hle
    obtain ⟨c', a, henq, h'⟩ := h₀.enqueue hlt op.req.address op.req.resource op.req.expires op.req.stored
      op.req.node
    exact ⟨c', hstep.trans henq, h'.wellFormed hlt⟩

/-- Without room, a request destroys the list. -/
theorem WellFormed.step_full (hc : WellFormed c) {op : Op} (hroom : ¬ HasRoom c op) :
    ∃ c', c.step op = some c' ∧ ¬ WellFormed c' := by
  obtain ⟨items, h, hle⟩ := hc
  rw [h.hasRoom_iff, not_or] at hroom
  obtain ⟨hfull, hno⟩ := hroom
  rcases h.step op with ⟨hx, -⟩ | ⟨c₀, h₀, hstep⟩
  · exact absurd hx hno
  · have hdrop : dropPage op.req.address op.req.resource items = items :=
      List.eraseP_of_forall_not fun x hx hp => hno ⟨x, hx, hp⟩
    rw [hdrop] at h₀
    obtain ⟨c', henq, hbad⟩ := h₀.enqueue_full (by omega) op.req.address op.req.resource op.req.expires
      op.req.stored op.req.node
    exact ⟨c', hstep.trans henq, fun ⟨items', h', _⟩ => hbad items' h'.dll⟩

theorem WellFormed.within (hc : WellFormed c) (op : Op) : WellFormedWithin c op := by
  obtain ⟨items, h, hle⟩ := hc
  intro flag c₁ hcheck
  have h₁ : WellFormed c₁ := by
    obtain ⟨flag', c', hcheck', -, htaken, hsame⟩ :=
      h.checkCache op.req.address op.req.resource op.req.present op.req.marked
    obtain ⟨rfl, rfl⟩ := Prod.mk.inj (Option.some.inj (hcheck'.symm.trans hcheck))
    by_cases hf : flag' = 1
    · exact (htaken hf).wellFormed ((length_dropPage_le _ _ _).trans hle)
    · rw [hsame hf]
      exact h.wellFormed hle
  refine ⟨h₁, fun c₂ hrem => ?_⟩
  obtain ⟨items₁, h₁, hle₁⟩ := h₁
  obtain ⟨c', hrem', h'⟩ := h₁.remove op.req.address op.req.resource
  cases hrem'.symm.trans hrem
  exact h'.wellFormed ((length_dropPage_le _ _ _).trans hle₁)

theorem HasRoom.evictsTail {op : Op} (hroom : HasRoom c op) : EvictsTail c op := by
  intro items h hfull hno
  rcases h.hasRoom_iff.1 hroom with hlt | ⟨x, hx, hp⟩
  · omega
  · exact absurd hp (hno x hx)

theorem wellFormed_new : WellFormed QueryCache.new := linked_new.wellFormed (Nat.zero_le _)

theorem allStates_wellFormed_iff (ops : List Op) :
    AllStates QueryCache.step WellFormed QueryCache.new ops ↔
      AllSteps QueryCache.step HasRoom QueryCache.new ops := by
  refine allStates_iff_allSteps (fun _ hc => hc) (fun c op hc hroom => hc.step hroom) ?_ wellFormed_new
  intro c op c' hc hstep hc'
  by_contra hroom
  obtain ⟨c'', hstep', hbad⟩ := hc.step_full hroom
  cases hstep'.symm.trans hstep
  exact hbad hc'

/-- **The cache over whole runs.**  It keeps its shape, and the oldest page is the one that goes, if and only if
every request finds a free place or its own page: no run survives a call of `dequeue`. -/
theorem wellFormed_iff_hasRoom (ops : List Op) :
    (AllStates QueryCache.step WellFormed QueryCache.new ops ∧
        AllSteps QueryCache.step WellFormedWithin QueryCache.new ops ∧
        AllSteps QueryCache.step EvictsTail QueryCache.new ops) ↔
      AllSteps QueryCache.step HasRoom QueryCache.new ops := by
  constructor
  · rintro ⟨h, -, -⟩
    exact (allStates_wellFormed_iff ops).1 h
  · intro hroom
    have h := (allStates_wellFormed_iff ops).2 hroom
    exact ⟨h, h.allSteps fun c op hc => hc.within op, hroom.mono fun c op hc => hc.evictsTail⟩

end Any

/-- A page of the host `w`, fresh for a second. -/
def getPage (n : ℕ) : Request where
  address := [119]
  resource := [47, 97 + UInt8.ofNat n]
  present := 0
  marked := 0
  stored := 0
  expires := 1
  node := n

def getPages (n : ℕ) : List Op := (List.range n).map fun i => Op.refresh (getPage i)

theorem not_hasRoom_eleventh_page :
    ∃ c, (getPages cachesize).foldlM QueryCache.step QueryCache.new = some c ∧
      ¬ HasRoom c (.refresh (getPage cachesize)) := by
  have hrun : ((getPages cachesize).foldlM QueryCache.step QueryCache.new).map
      (fun c => decide (HasRoom c (.refresh (getPage cachesize)))) = some false := by decide +kernel
  obtain ⟨c, hc, hroom⟩ := Option.map_eq_some_iff.1 hrun
  exact ⟨c, hc, of_decide_eq_false hroom⟩

/-- Eleven pages are one too many. -/
theorem not_wellFormed_eleven_pages :
    ¬ (AllStates QueryCache.step WellFormed QueryCache.new (getPages (cachesize + 1)) ∧
        AllSteps QueryCache.step WellFormedWithin QueryCache.new (getPages (cachesize + 1)) ∧
        AllSteps QueryCache.step EvictsTail QueryCache.new (getPages (cachesize + 1))) := by
  rintro ⟨h, -, -⟩
  rw [allStates_wellFormed_iff, getPages, List.range_succ, List.map_append] at h
  obtain ⟨c, hrun, hfull⟩ := not_hasRoom_eleventh_page
  exact hfull (h.last_step hrun)

/-! ### No more pages than places -/

def pages (items : List (ℕ × RequestInfo)) : List (Bytes × Bytes) := items.map fun x => x.2.page

/-- The nodes that are not of this page, in their order. -/
def others (address resource : Bytes) (items : List (ℕ × RequestInfo)) : List (ℕ × RequestInfo) :=
  items.filter fun x => !ofPage address resource x

/-- **The cache and its nodes**: a doubly linked list of live nodes, with its length in `curr_cache_size`, at most
`cachesize` of them, and no two of the same page. -/
structure Cached (c : QueryCache) (items : List (ℕ × RequestInfo)) : Prop where
  linked : Linked c items
  le : items.length ≤ cachesize
  unique : (pages items).Nodup

/-- `check_cache` gives 2 exactly for a page without a node, takes out an expired node and no other, and else
changes nothing. -/
def ChecksPage (c : QueryCache) (items : List (ℕ × RequestInfo)) : Prop :=
  ∀ address resource present now, ∃ flag c',
    c.checkCache address resource present now = some (flag, c') ∧
    (flag = 2 ↔ (address, resource) ∉ pages items) ∧
    (flag = 1 → Cached c' (others address resource items)) ∧ (flag ≠ 1 → c' = c)

/-- `remove` takes out the node of the page and no other. -/
def RemovesPage (c : QueryCache) (items : List (ℕ × RequestInfo)) : Prop :=
  ∀ address resource, ∃ c', c.remove address resource = some c' ∧ Cached c' (others address resource items)

/-- **What the cache is and does** in one state. -/
def Good (c : QueryCache) : Prop := ∃ items, Cached c items ∧ ChecksPage c items ∧ RemovesPage c items

section Few

variable {c : QueryCache} {items : List (ℕ × RequestInfo)} {address resource : Bytes}

theorem ofPage_iff {x : ℕ × RequestInfo} : ofPage address resource x = true ↔ x.2.page = (address, resource) :=
  isPage_iff

theorem mem_pages_iff : (address, resource) ∈ pages items ↔ ∃ x ∈ items, ofPage address resource x = true := by
  unfold pages
  rw [List.mem_map]
  exact exists_congr fun x => and_congr_right fun _ => ofPage_iff.symm

theorem others_eq_self (h : (address, resource) ∉ pages items) : others address resource items = items := by
  apply List.filter_eq_self.2
  intro x hx
  rw [Bool.not_eq_true']
  exact Bool.eq_false_iff.2 fun hp => h (mem_pages_iff.2 ⟨x, hx, hp⟩)

theorem notMem_pages_others : (address, resource) ∉ pages (others address resource items) := by
  intro hmem
  obtain ⟨x, hx, hp⟩ := mem_pages_iff.1 hmem
  have hno := (List.mem_filter.1 hx).2
  rw [hp] at hno
  cases hno

/-- When no two nodes are of the same page, the first one of a page is all there is of it. -/
theorem dropPage_eq_others (hn : (pages items).Nodup) :
    dropPage address resource items = others address resource items := by
  rcases find_cases address resource items with ⟨hf, hdrop⟩ | ⟨l₁, a, v, l₂, rfl, -, hdrop, hv⟩
  · rw [hdrop, others_eq_self]
    intro hmem
    exact absurd (List.find?_isSome.2 (mem_pages_iff.1 hmem)) (by rw [hf]; decide)
  · have hpage : v.page = (address, resource) := isPage_iff.1 hv
    rw [pages, List.map_append, List.map_cons, List.nodup_middle, List.nodup_cons, List.mem_append, not_or] at hn
    obtain ⟨⟨h₁, h₂⟩, -⟩ := hn
    rw [hpage] at h₁ h₂
    have hout : others address resource ((a, v) :: l₂) = others address resource l₂ :=
      List.filter_cons_of_neg (by simpa [ofPage] using hv)
    calc dropPage address resource (l₁ ++ (a, v) :: l₂)
      _ = l₁ ++ l₂ := hdrop
      _ = others address resource l₁ ++ others address resource ((a, v) :: l₂) := by
        rw [hout, others_eq_self h₁, others_eq_self h₂]
      _ = others address resource (l₁ ++ (a, v) :: l₂) := (List.filter_append _ _).symm

theorem Cached.of_sublist {c' : QueryCache} {items' : List (ℕ × RequestInfo)} (h : Cached c items)
    (h' : Linked c' items') (hsub : items'.Sublist items) : Cached c' items' :=
  ⟨h', hsub.length_le.trans h.le, h.unique.sublist (hsub.map _)⟩

theorem Cached.removesPage (h : Cached c items) : RemovesPage c items := by
  intro address resource
  obtain ⟨c', hrem, h'⟩ := h.linked.remove address resource
  rw [dropPage_eq_others h.unique] at h'
  exact ⟨c', hrem, h.of_sublist h' List.filter_sublist⟩

theorem checkFlag_eq_two {present : ℤ} {x : Option (ℕ × RequestInfo)} : checkFlag present x = 2 ↔ x = none := by
  cases x with
  | none => exact iff_of_true rfl rfl
  | some x =>
    refine iff_of_false ?_ (by simp)
    dsimp only [checkFlag]
    split <;> decide

theorem Cached.checksPage (h : Cached c items) : ChecksPage c items := by
  intro address resource present now
  obtain ⟨flag, c', hcheck, hflag, htaken, hsame⟩ := h.linked.checkCache address resource present now
  refine ⟨flag, c', hcheck, ?_, fun hf => ?_, hsame⟩
  · rw [hflag, checkFlag_eq_two, mem_pages_iff, ← List.find?_isSome, Bool.not_eq_true, Option.isSome_eq_false_iff,
      Option.isNone_iff_eq_none]
  · have h' := htaken hf
    rw [dropPage_eq_others h.unique] at h'
    exact h.of_sublist h' List.filter_sublist

theorem Cached.good (h : Cached c items) : Good c := ⟨items, h, h.checksPage, h.removesPage⟩

/-- The pages of the cache are among those of the list `K`, each one at most once. -/
def PagesIn (K : List (Bytes × Bytes)) (c : QueryCache) : Prop :=
  ∃ items, Linked c items ∧ (pages items).Nodup ∧ pages items ⊆ K

theorem PagesIn.good {K : List (Bytes × Bytes)} (hK : K.dedup.length ≤ cachesize) (h : PagesIn K c) : Good c := by
  obtain ⟨items, hl, hn, hsub⟩ := h
  have hle : (pages items).length ≤ K.dedup.length :=
    (hn.subperm fun p hp => List.mem_dedup.2 (hsub hp)).length_le
  rw [pages, List.length_map] at hle
  exact Cached.good ⟨hl, hle.trans hK, hn⟩

/-- **One request** for a page of `K`: the cache has a place for it. -/
theorem PagesIn.request {K : List (Bytes × Bytes)} (hK : K.dedup.length ≤ cachesize) (h : PagesIn K c)
    {r : Request} (hr : r.page ∈ K) : ∃ c', c.request r = some c' ∧ PagesIn K c' := by
  obtain ⟨items, hl, hn, hsub⟩ := h
  rcases hl.request r with ⟨-, hkeep⟩ | heq
  · exact ⟨c, hkeep, items, hl, hn, hsub⟩
  · obtain ⟨c₀, h₀, hstep⟩ := hl.refresh r
    rw [dropPage_eq_others hn] at h₀
    -- the page of the request and the pages that stay are different pages of `K`
    have hsub' : (pages (others r.address r.resource items)).Sublist (pages items) := List.filter_sublist.map _
    have hnew : (r.page :: pages (others r.address r.resource items)).Nodup :=
      List.nodup_cons.2 ⟨notMem_pages_others, hn.sublist hsub'⟩
    have hin : r.page :: pages (others r.address r.resource items) ⊆ K :=
      List.cons_subset.2 ⟨hr, List.Subset.trans hsub'.subset hsub⟩
    have hlt : (others r.address r.resource items).length < cachesize := by
      have hle := (hnew.subperm fun p hp => List.mem_dedup.2 (hin hp)).length_le
      rw [List.length_cons, pages, List.length_map] at hle
      omega
    obtain ⟨c', a, henq, h'⟩ := h₀.enqueue hlt r.address r.resource r.expires r.stored r.node
    exact ⟨c', heq.trans (hstep.trans henq), _, h', hnew, hin⟩

/-- **The cache below capacity.** -/
theorem good_of_few_pages (rs : List Request) (h : (rs.map Request.page).dedup.length ≤ cachesize) :
    AllStates QueryCache.request Good QueryCache.new rs := by
  have hnew : PagesIn (rs.map Request.page) QueryCache.new :=
    ⟨[], linked_new, List.nodup_nil, List.nil_subset _⟩
  have hall : AllSteps QueryCache.request (fun _ r => r.page ∈ rs.map Request.page) QueryCache.new rs :=
    allSteps_of_forall fun r hr _ => List.mem_map_of_mem hr
  exact (allStates_of_allSteps (fun c r hc hr => hc.request h hr) hnew hall).mono fun c hc => hc.good h

/-- Twenty requests for ten pages. -/
theorem good_ten_pages :
    AllStates QueryCache.request Good QueryCache.new ((List.range 20).map fun i => getPage (i % 10)) :=
  good_of_few_pages _ (by decide)

end Few

end TamuProofs.Proxy
