import TamuProofs.Proxy.CacheRuns

/-!
# The order of the page cache

`dequeue` takes the last node for the page that was used least recently.  A page that is fetched, new or again, gets
a new node at the head of the list.  A page that is found in the cache and not expired is sent to the client, and its
node stays where it is.

`Uses` adds to the cache the pages that were asked for, the latest one first.

* `InUseOrder` — the nodes are in the order in which their pages were asked for last;
* **`inUseOrder_iff_onlyLast`** — with at most `cachesize` different pages, this is so throughout a run if and only
  if the page that was asked for last is the only one that is ever found fresh in the cache.
-/

namespace TamuProofs.Proxy

open TamuProofs.Lib

/-- The cache, and the pages asked for so far, the latest first. -/
structure Uses where
  cache : QueryCache
  asked : List (Bytes × Bytes)

def Uses.start : Uses := { cache := QueryCache.new, asked := [] }

def Uses.step (u : Uses) (r : Request) : Option Uses :=
  (u.cache.request r).map fun c => { cache := c, asked := r.page :: u.asked }

/-- **The order of use**: from the head on, the pages as they were asked for last, each one once. -/
def InUseOrder (u : Uses) : Prop := ∃ items, Linked u.cache items ∧ pages items = u.asked.eraseDups

/-- The cache holds the page, and it is not expired. -/
def HoldsFresh (c : QueryCache) (r : Request) : Prop :=
  ∃ n ∈ (c.lookup r.address r.resource).join.bind c.heap.cell, r.present ≤ n.val.expires

instance (c : QueryCache) (r : Request) : Decidable (HoldsFresh c r) :=
  inferInstanceAs (Decidable (∃ n ∈ (_ : Option (Cell RequestInfo)), _))

/-- A page that is found fresh in the cache is the one asked for last. -/
def OnlyLast (u : Uses) (r : Request) : Prop := HoldsFresh u.cache r → u.asked.head? = some r.page

instance (u : Uses) (r : Request) : Decidable (OnlyLast u r) := inferInstanceAs (Decidable (_ → _))

/-! ### Orders of use -/

section EraseDups

variable {α : Type*} [BEq α]

theorem head?_eraseDups (l : List α) : l.eraseDups.head? = l.head? := by
  cases l with
  | nil => rfl
  | cons a l => rw [List.eraseDups_cons, List.head?_cons, List.head?_cons]

variable [LawfulBEq α]

theorem filter_eraseDups (p : α → Bool) (l : List α) : l.eraseDups.filter p = (l.filter p).eraseDups := by
  induction hn : l.length using Nat.strongRecOn generalizing l with
  | ind n ih =>
    cases l with
    | nil => rfl
    | cons a l =>
      have hlt : (l.filter fun b => !b == a).length < n := by
        rw [← hn, List.length_cons]
        exact Nat.lt_succ_of_le (List.length_filter_le _ _)
      rw [List.eraseDups_cons, List.filter_cons, List.filter_cons, ih _ hlt _ rfl, List.filter_filter]
      cases hp : p a with
      | true =>
        rw [if_pos rfl, if_pos rfl, List.eraseDups_cons, List.filter_filter]
        simp only [Bool.and_comm]
      | false =>
        rw [if_neg (by simp), if_neg (by simp)]
        congr 1
        apply List.filter_congr
        intro b _
        by_cases hb : b = a
        · simp [hb, hp]
        · simp [hb]

theorem nodup_eraseDups (l : List α) : l.eraseDups.Nodup := by
  induction hn : l.length using Nat.strongRecOn generalizing l with
  | ind n ih =>
    cases l with
    | nil => exact List.nodup_nil
    | cons a l =>
      have hlt : (l.filter fun b => !b == a).length < n := by
        rw [← hn, List.length_cons]
        exact Nat.lt_succ_of_le (List.length_filter_le _ _)
      rw [List.eraseDups_cons, List.nodup_cons]
      refine ⟨fun hmem => ?_, ih _ hlt _ rfl⟩
      rw [List.mem_eraseDups, List.mem_filter] at hmem
      simp at hmem

end EraseDups

/-! ### One request -/

section Step

variable {c : QueryCache} {items : List (ℕ × RequestInfo)} {u u' : Uses} {r : Request}

theorem Linked.holdsFresh_iff (h : Linked c items) :
    HoldsFresh c r ↔ checkFlag r.present (items.find? (ofPage r.address r.resource)) = 0 := by
  unfold HoldsFresh
  rw [h.lookup]
  cases hf : items.find? (ofPage r.address r.resource) with
  | none => simp [checkFlag]
  | some x =>
    obtain ⟨n, hn, hval⟩ := h.dll.cell (List.mem_of_find?_eq_some hf)
    have hflag : checkFlag r.present (some x) = 0 ↔ r.present ≤ n.val.expires := by
      rw [hval, checkFlag]
      split <;> simp <;> omega
    simp [hflag, hn]

theorem pages_others (address resource : Bytes) (items : List (ℕ × RequestInfo)) :
    pages (others address resource items) = (pages items).filter fun p => !p == (address, resource) := by
  unfold pages others
  rw [List.filter_map]
  congr 1
  apply List.filter_congr
  intro x _
  cases hx : ofPage address resource x with
  | true => simp [ofPage_iff.1 hx]
  | false =>
    have hne : x.2.page ≠ (address, resource) := fun heq => by
      rw [ofPage_iff.2 heq] at hx
      cases hx
    simp [hne]

theorem step_of_fresh (h : Linked u.cache items) (hfresh : HoldsFresh u.cache r) :
    u.step r = some { u with asked := r.page :: u.asked } := by
  rw [Uses.step, h.request_eq, if_pos (h.holdsFresh_iff.1 hfresh)]
  rfl

/-- A page that is fetched goes in front of the others, and the others keep their order. -/
theorem step_of_not_fresh (h : Linked u.cache items) (hn : (pages items).Nodup)
    (hroom : (others r.address r.resource items).length < cachesize) (hfresh : ¬ HoldsFresh u.cache r) :
    ∃ u' items', u.step r = some u' ∧ u'.asked = r.page :: u.asked ∧ Linked u'.cache items' ∧
      pages items' = r.page :: (pages items).filter fun p => !p == r.page := by
  obtain ⟨c₀, h₀, hrefresh⟩ := h.refresh r
  rw [dropPage_eq_others hn] at h₀
  obtain ⟨c', a, henq, h'⟩ := h₀.enqueue hroom r.address r.resource r.expires r.stored r.node
  refine ⟨{ cache := c', asked := r.page :: u.asked }, _, ?_, rfl, h', ?_⟩
  · rw [Uses.step, h.request_eq, if_neg fun hf => hfresh (h.holdsFresh_iff.2 hf), hrefresh, henq]
    rfl
  · exact congrArg (r.page :: ·) (pages_others r.address r.resource items)

/-- The cache in the order of use, with pages of `K`. -/
structure UseInv (K : List (Bytes × Bytes)) (u : Uses) : Prop where
  order : InUseOrder u
  asked : u.asked ⊆ K

/-- With room for all pages of `K`, a request keeps the order if a fresh page was the last one. -/
theorem UseInv.step {K : List (Bytes × Bytes)} (hK : K.dedup.length ≤ cachesize) (h : UseInv K u) (hr : r.page ∈ K)
    (hlast : OnlyLast u r) : ∃ u', u.step r = some u' ∧ UseInv K u' := by
  obtain ⟨⟨items, hl, hpages⟩, hasked⟩ := h
  have hasked' : r.page :: u.asked ⊆ K := List.cons_subset.2 ⟨hr, hasked⟩
  by_cases hfresh : HoldsFresh u.cache r
  · -- the page is at the head already
    refine ⟨_, step_of_fresh hl hfresh, ⟨items, hl, ?_⟩, hasked'⟩
    obtain ⟨ps, hps⟩ := List.head?_eq_some_iff.1 (hlast hfresh)
    rw [hpages]
    show u.asked.eraseDups = (r.page :: u.asked).eraseDups
    rw [hps, List.eraseDups_cons, List.eraseDups_cons, List.filter_cons_of_neg (by simp)]
  · have hn : (pages items).Nodup := hpages ▸ nodup_eraseDups _
    have hroom : (others r.address r.resource items).length < cachesize := by
      -- with this page the cache would hold different pages of `K`, and these are few
      have hnew : (r.page :: pages (others r.address r.resource items)).Nodup := by
        rw [List.nodup_cons]
        exact ⟨notMem_pages_others, hn.sublist (List.filter_sublist.map _)⟩
      have hin : r.page :: pages (others r.address r.resource items) ⊆ K.dedup := by
        intro p hp
        rw [List.mem_dedup]
        rcases List.mem_cons.1 hp with rfl | hp
        · exact hr
        · have hmem : p ∈ pages items := (List.filter_sublist.map _).subset hp
          rw [hpages, List.mem_eraseDups] at hmem
          exact hasked hmem
      have hle := (hnew.subperm hin).length_le
      rw [List.length_cons, pages, List.length_map] at hle
      omega
    obtain ⟨u', items', hstep, hasked'', hl', hpages'⟩ := step_of_not_fresh hl hn hroom hfresh
    refine ⟨u', hstep, ⟨items', hl', ?_⟩, hasked'' ▸ hasked'⟩
    rw [hpages', hasked'', List.eraseDups_cons, hpages, filter_eraseDups]

/-- A request after which the order is right was for the page asked for last, or fetched its page. -/
theorem onlyLast_of_step (h : InUseOrder u) (hs : u.step r = some u') (h' : InUseOrder u') : OnlyLast u r := by
  intro hfresh
  obtain ⟨items, hl, hpages⟩ := h
  rw [step_of_fresh hl hfresh] at hs
  cases hs
  obtain ⟨items', hl', hpages'⟩ := h'
  rw [← hl.dll.unique hl'.dll, hpages] at hpages'
  have hhead := congrArg List.head? hpages'
  rw [head?_eraseDups, head?_eraseDups] at hhead
  exact hhead

end Step

/-- **The cache is in the order of use** throughout a run for at most `cachesize` pages if and only if no page but
the one asked for last is ever found fresh in it. -/
theorem inUseOrder_iff_onlyLast (rs : List Request) (h : (rs.map Request.page).dedup.length ≤ cachesize) :
    AllStates Uses.step InUseOrder Uses.start rs ↔ AllSteps Uses.step OnlyLast Uses.start rs := by
  have hstart : UseInv (rs.map Request.page) Uses.start :=
    ⟨⟨[], linked_new, rfl⟩, List.nil_subset _⟩
  have hpages : AllSteps Uses.step (fun _ r => r.page ∈ rs.map Request.page) Uses.start rs :=
    allSteps_of_forall fun r hr _ => List.mem_map_of_mem hr
  refine allStates_iff_allSteps_within (I := UseInv (rs.map Request.page)) (fun u hu => hu.order) ?_ ?_ hstart hpages
  · exact fun u r hu hr hlast => hu.step h hr hlast
  · exact fun u r u' hu _ hs hu' => onlyLast_of_step hu.order hs hu'

/-- Two pages, the second one twice in a row. -/
theorem inUseOrder_two_pages :
    AllStates Uses.step InUseOrder Uses.start [getPage 0, getPage 1, getPage 1] :=
  (inUseOrder_iff_onlyLast _ (by decide)).2 (by decide +kernel)

theorem not_onlyLast_first_again :
    ∃ u, [getPage 0, getPage 1].foldlM Uses.step Uses.start = some u ∧ ¬ OnlyLast u (getPage 0) := by
  have hrun : ([getPage 0, getPage 1].foldlM Uses.step Uses.start).map (fun u => decide (OnlyLast u (getPage 0))) =
      some false := by decide +kernel
  obtain ⟨u, hu, hlast⟩ := Option.map_eq_some_iff.1 hrun
  exact ⟨u, hu, of_decide_eq_false hlast⟩

/-- Two pages, and the first one again: it is found in the cache, and stays behind the second. -/
theorem not_inUseOrder_first_again :
    ¬ AllStates Uses.step InUseOrder Uses.start [getPage 0, getPage 1, getPage 0] := by
  rintro ⟨-, u₁, h₁, -, u₂, h₂, horder, u₃, h₃, horder'⟩
  obtain ⟨u, hu, hlast⟩ := not_onlyLast_first_again
  rw [List.foldlM_cons, h₁, Option.bind_eq_bind, Option.bind_some, List.foldlM_cons, h₂] at hu
  cases hu
  exact hlast (onlyLast_of_step horder h₃ horder')

end TamuProofs.Proxy
