import TamuProofs.Lib.Run
import TamuProofs.Proxy.QueryCache

/-!
# The page cache as a list of pages

`Linked c items` relates the cache to the list of its nodes, each with its address, the page used last first.
On this list every function of the cache is simple:

* `Linked.remove`, `Linked.checkCache` — the first node of the page goes, or nothing changes;
* `Linked.enqueue` — the page goes in front, while there is room;
* `Linked.enqueue_full` — when there is none, `dequeue` deletes the node before the tail, and the list then
  leads to a node that is not there any more (`Linked.dequeue`).

A whole request is then one of two things (`Linked.request`): nothing, or `enqueue` on the list without the page.
-/

namespace TamuProofs.Proxy

open TamuProofs.Lib

/-- The nodes of the cache, in their order, and their number. -/
structure Linked (c : QueryCache) (items : List (ℕ × RequestInfo)) : Prop where
  dll : IsDll c.heap c.head items
  size : c.currCacheSize = items.length

def ofPage (address resource : Bytes) (x : ℕ × RequestInfo) : Bool := isPage address resource x.2

/-- The nodes without the first one of this page. -/
def dropPage (address resource : Bytes) (items : List (ℕ × RequestInfo)) : List (ℕ × RequestInfo) :=
  items.eraseP (ofPage address resource)

theorem isPage_iff {address resource : Bytes} {r : RequestInfo} :
    isPage address resource r = true ↔ r.page = (address, resource) := by
  simp [isPage, RequestInfo.page]

section Functions

variable {c : QueryCache} {items : List (ℕ × RequestInfo)} {address resource : Bytes}

theorem linked_new : Linked QueryCache.new [] := ⟨isDll_empty, rfl⟩

theorem Linked.lookup (h : Linked c items) (address resource : Bytes) :
    c.lookup address resource = some ((items.find? (ofPage address resource)).map Prod.fst) :=
  h.dll.find _

theorem find_cases (address resource : Bytes) (items : List (ℕ × RequestInfo)) :
    (items.find? (ofPage address resource) = none ∧ dropPage address resource items = items) ∨
      ∃ l₁ a v l₂, items = l₁ ++ (a, v) :: l₂ ∧ items.find? (ofPage address resource) = some (a, v) ∧
        dropPage address resource items = l₁ ++ l₂ ∧ isPage address resource v = true := by
  cases hf : items.find? (ofPage address resource) with
  | none =>
    exact Or.inl ⟨rfl, List.eraseP_of_forall_not (List.find?_eq_none.1 hf)⟩
  | some x =>
    obtain ⟨hx, l₁, l₂, rfl, hl₁⟩ := List.find?_eq_some_iff_append.1 hf
    refine Or.inr ⟨l₁, x.1, x.2, l₂, rfl, rfl, ?_, hx⟩
    have hl₁' : ∀ y ∈ l₁, ¬ ofPage address resource y = true := fun y hy => by simpa using hl₁ y hy
    rw [dropPage, List.eraseP_append_right _ hl₁', List.eraseP_cons_of_pos hx]

theorem Linked.isCacheExist_iff (h : Linked c items) :
    c.isCacheExist address resource = some true ↔ ∃ x ∈ items, ofPage address resource x = true := by
  rw [QueryCache.isCacheExist, h.lookup, Option.map_some, Option.some_inj, Option.isSome_map,
    List.find?_isSome]

/-- **`remove`** deletes the node of the page. -/
theorem Linked.remove (h : Linked c items) (address resource : Bytes) :
    ∃ c', c.remove address resource = some c' ∧ Linked c' (dropPage address resource items) := by
  unfold QueryCache.remove
  rw [h.lookup]
  rcases find_cases address resource items with ⟨hf, hdrop⟩ | ⟨l₁, a, v, l₂, rfl, hf, hdrop, -⟩
  · rw [hf, hdrop]
    exact ⟨c, rfl, h⟩
  · rw [hf, hdrop]
    obtain ⟨heap, head, hun, hd, -⟩ := h.dll.unlink
    have hn := h.dll.nodup
    rw [List.map_append, List.map_cons, List.nodup_middle, List.nodup_cons, ← List.map_append] at hn
    dsimp only [Option.map_some]
    rw [hun]
    refine ⟨_, rfl, hd.del hn.1, ?_⟩
    have := h.size
    simp only [List.length_append, List.length_cons] at this ⊢
    omega

/-- The flag of `check_cache`, for the node of the page: there is none, it is expired, or it is not. -/
def checkFlag (present : ℤ) : Option (ℕ × RequestInfo) → ℕ
  | none => 2
  | some x => if x.2.expires < present then 1 else 0

/-- **`check_cache`** takes the node of the page out when it is expired, and changes nothing else. -/
theorem Linked.checkCache (h : Linked c items) (address resource : Bytes) (present now : ℤ) :
    ∃ flag c', c.checkCache address resource present now = some (flag, c') ∧
      flag = checkFlag present (items.find? (ofPage address resource)) ∧
      (flag = 1 → Linked c' (dropPage address resource items)) ∧ (flag ≠ 1 → c' = c) := by
  unfold QueryCache.checkCache
  rw [h.lookup]
  rcases find_cases address resource items with ⟨hf, -⟩ | ⟨l₁, a, v, l₂, rfl, hf, hdrop, -⟩
  · rw [hf]
    exact ⟨2, c, rfl, rfl, fun h2 => absurd h2 (by decide), fun _ => rfl⟩
  · obtain ⟨n, hn, rfl, hput⟩ := h.dll.put_val { v with expires := now }
    rw [hf, hdrop]
    dsimp only [Option.map_some, checkFlag]
    rw [hn]
    dsimp only
    by_cases hexp : n.val.expires < present
    · obtain ⟨heap, head, hun, hd, -⟩ := hput.unlink
      rw [if_pos hexp, if_pos hexp, hun]
      refine ⟨1, _, rfl, rfl, fun _ => ⟨hd, ?_⟩, fun hne => absurd rfl hne⟩
      have := h.size
      simp only [List.length_append, List.length_cons] at this ⊢
      omega
    · rw [if_neg hexp, if_neg hexp]
      exact ⟨0, c, rfl, rfl, fun h0 => absurd h0 (by decide), fun _ => rfl⟩

def entry (address resource : Bytes) (expires now : ℤ) : RequestInfo :=
  { address := address, resource := resource, expires := expires, accessed := now }

theorem Linked.push (h : Linked c items) (v : RequestInfo) (node : ℕ) :
    ∃ c' a, c.push v node = some c' ∧ Linked c' ((a, v) :: items) := by
  have hfree := c.heap.fresh_free node
  have hdll := h.dll
  have hsize : c.currCacheSize + 1 = (((c.heap.fresh node, v) :: items).length : ℤ) := by
    rw [List.length_cons, h.size]
    rfl
  unfold QueryCache.push
  cases hh : c.head with
  | none =>
    obtain rfl : items = [] := by
      obtain ⟨last, hs⟩ := hdll.seg
      rw [hh] at hs
      cases items with
      | nil => rfl
      | cons x items => cases hs.1
    exact ⟨_, _, rfl, isDll_push_nil _ _ _, hsize⟩
  | some b =>
    rw [hh] at hdll
    obtain ⟨n, hn, hd⟩ := hdll.push_cons (v := v) hfree
    -- the new cell was free, and the old head was not
    have hb : b ≠ c.heap.fresh node := by
      intro he
      rw [he, hfree] at hn
      cases hn
    dsimp only
    rw [Heap.modify_eq ((Heap.put_cell_ne hb).trans hn)]
    exact ⟨_, _, rfl, hd, hsize⟩

/-- **`enqueue` with room left.** -/
theorem Linked.enqueue (h : Linked c items) (hroom : items.length < cachesize) (address resource : Bytes)
    (expires now : ℤ) (node : ℕ) :
    ∃ c' a, c.enqueue address resource expires now node = some c' ∧
      Linked c' ((a, entry address resource expires now) :: items) := by
  obtain ⟨c', a, hpush, h'⟩ := h.push (entry address resource expires now) node
  have hne : ¬ c'.currCacheSize = (cachesize : ℤ) + 1 := by
    rw [h'.size, List.length_cons]
    omega
  refine ⟨c', a, ?_, h'⟩
  rw [QueryCache.enqueue, show c.push { .. } node = some c' from hpush]
  exact if_neg hne

/-- **`dequeue`** deletes the node behind the first nine, and the ninth still points to it: what is left is not a
list. -/
theorem Linked.dequeue {l₁ l₂ : List (ℕ × RequestInfo)} {x : ℕ × RequestInfo} (h : Linked c (l₁ ++ x :: l₂))
    (hl₁ : l₁.length = cachesize - 1) :
    ∃ c', c.dequeue = some c' ∧ ∀ items', ¬ IsDll c'.heap c'.head items' := by
  have hn := h.dll.nodup
  obtain ⟨last, hs⟩ := h.dll.seg
  obtain ⟨r, s, hs₁, rfl, next, hx, -⟩ := seg_append.1 hs
  -- `dequeue` walks to the tenth node, deletes it, and leaves the pointer to it in the ninth
  have hnth := hs₁.nth
  rw [hl₁] at hnth
  have hdead : ∀ y ∈ l₁, y.1 ≠ x.1 := by
    rw [List.map_append, List.map_cons, List.nodup_append] at hn
    exact fun y hy => hn.2.2 y.1 (List.mem_map_of_mem hy) x.1 List.mem_cons_self
  have hdeq : c.dequeue = some { c with
      heap := (c.heap.put x.1 ⟨x.2, none, r⟩).del x.1, currCacheSize := c.currCacheSize - 1 } := by
    unfold QueryCache.dequeue
    cases hh : c.head with
    | none =>
      rw [hh] at hnth
      cases hnth
    | some b =>
      dsimp only
      rw [← hh, hnth]
      dsimp only
      rw [Heap.modify_eq hx]
  refine ⟨_, hdeq, fun items' hd' => ?_⟩
  obtain ⟨last', hs'⟩ := hd'.seg
  refine (hs₁.congr fun y hy => ?_).not_seg_of_dead (Heap.del_cell_self _ _) _ _ hs'
  rw [Heap.del_cell_ne (hdead y hy), Heap.put_cell_ne (hdead y hy)]

/-- **`enqueue` with no room left** does not give a list. -/
theorem Linked.enqueue_full (h : Linked c items) (hfull : items.length = cachesize) (address resource : Bytes)
    (expires now : ℤ) (node : ℕ) :
    ∃ c', c.enqueue address resource expires now node = some c' ∧
      ∀ items', ¬ IsDll c'.heap c'.head items' := by
  obtain ⟨c₁, a, hpush, h₁⟩ := h.push (entry address resource expires now) node
  have heq : c₁.currCacheSize = (cachesize : ℤ) + 1 := by
    rw [h₁.size, List.length_cons, hfull]
    rfl
  have henq : c.enqueue address resource expires now node = c₁.dequeue := by
    rw [QueryCache.enqueue, show c.push { .. } node = some c₁ from hpush]
    exact if_pos heq
  have hlt : cachesize - 1 < ((a, entry address resource expires now) :: items).length := by
    rw [List.length_cons, hfull]
    decide
  have hsplit := List.take_append_drop (cachesize - 1) ((a, entry address resource expires now) :: items)
  rw [List.drop_eq_getElem_cons hlt] at hsplit
  rw [← hsplit] at h₁
  rw [henq]
  exact h₁.dequeue (List.length_take_of_le hlt.le)

/-- **A page that is fetched** is put in front of the others. -/
theorem Linked.refresh (h : Linked c items) (r : Request) :
    ∃ c₀, Linked c₀ (dropPage r.address r.resource items) ∧
      c.refresh r = c₀.enqueue r.address r.resource r.expires r.stored r.node := by
  obtain ⟨flag, c', hcheck, hflag, htaken, hsame⟩ := h.checkCache r.address r.resource r.present r.marked
  unfold QueryCache.refresh
  rw [hcheck]
  dsimp only [QueryCache.recvFromSrvr]
  by_cases hf : flag = 1
  · rw [if_neg (by omega)]
    exact ⟨c', htaken hf, rfl⟩
  · have h02 : flag = 0 ∨ flag = 2 := by
      rw [hflag] at hf ⊢
      unfold checkFlag at hf ⊢
      split <;> simp_all
    obtain rfl := hsame hf
    obtain ⟨c₀, hrem, h₀⟩ := h.remove r.address r.resource
    rw [if_pos h02, hrem]
    exact ⟨c₀, h₀, rfl⟩

/-- **A request**: the flag decides whether the page is fetched. -/
theorem Linked.request_eq (h : Linked c items) (r : Request) : c.request r =
    if checkFlag r.present (items.find? (ofPage r.address r.resource)) = 0 then some c else c.refresh r := by
  obtain ⟨flag, c', hcheck, hflag, -, hsame⟩ := h.checkCache r.address r.resource r.present r.marked
  unfold QueryCache.request QueryCache.refresh
  rw [hcheck, ← hflag]
  dsimp only [QueryCache.getRequestPage]
  by_cases hf : flag = 0
  · obtain rfl := hsame (by omega)
    have hex : ∃ x ∈ items, ofPage r.address r.resource x = true := by
      rw [← List.find?_isSome]
      rw [hf] at hflag
      cases hfind : items.find? (ofPage r.address r.resource) with
      | none =>
        rw [hfind] at hflag
        cases hflag
      | some x => rfl
    rw [if_pos hf, if_pos hf, h.isCacheExist_iff.2 hex]
  · rw [if_neg hf, if_neg hf]

/-- A request is answered from the cache, or the page is fetched. -/
theorem Linked.request (h : Linked c items) (r : Request) :
    ((∃ x ∈ items, ofPage r.address r.resource x = true) ∧ c.request r = some c) ∨ c.request r = c.refresh r := by
  rw [h.request_eq]
  by_cases hf : checkFlag r.present (items.find? (ofPage r.address r.resource)) = 0
  · refine Or.inl ⟨List.find?_isSome.1 ?_, if_pos hf⟩
    cases hfind : items.find? (ofPage r.address r.resource) with
    | none =>
      rw [hfind] at hf
      cases hf
    | some x => rfl
  · exact Or.inr (if_neg hf)

end Functions

end TamuProofs.Proxy
