import Mathlib.Data.List.Nodup
import Mathlib.Data.List.Perm.Subperm
import Mathlib.Logic.Function.Basic

/-!
Doubly linked lists in a heap of cells.

A `Heap` maps addresses to the cells that are alive; writing through a pointer to a dead cell, or through the
null pointer (`none`), has no result.  `Seg h p q l p' q'` says that from the pointer `q`, whose cell points
back to `p`, the cells of `l` follow one another, and that `p'` and `q'` are the two pointers behind the last
of them.  `IsDll h head l` is the whole list.

* `IsDll.push_cons`, `IsDll.unlink`, `IsDll.put_val` — the edits: a new first cell, one cell out, a new value;
* `IsDll.find` — a search along `next` finds the first cell that has the property, or ends;
* `Seg.nth`, `Seg.not_seg_of_dead` — following `next` a number of times, and lists that lead to a dead cell.
-/

namespace TamuProofs.Lib

structure Cell (α : Type*) where
  val : α
  next : Option ℕ
  prev : Option ℕ

/-- Cells by address; all addresses from `brk` on are free. -/
structure Heap (α : Type*) where
  cell : ℕ → Option (Cell α)
  brk : ℕ
  free : ∀ a, brk ≤ a → cell a = none

variable {α : Type*}

namespace Heap

def empty : Heap α := ⟨fun _ => none, 0, fun _ _ => rfl⟩

/-- The address of a new cell: the one asked for, if it is free. -/
def fresh (h : Heap α) (a : ℕ) : ℕ := if (h.cell a).isNone then a else h.brk

def put (h : Heap α) (a : ℕ) (c : Cell α) : Heap α where
  cell := Function.update h.cell a (some c)
  brk := max h.brk (a + 1)
  free b hb := by
    rw [Function.update_of_ne (by omega)]
    exact h.free b (by omega)

def del (h : Heap α) (a : ℕ) : Heap α where
  cell := Function.update h.cell a none
  brk := h.brk
  free b hb := by
    by_cases hba : b = a
    · rw [hba, Function.update_self]
    · rw [Function.update_of_ne hba]
      exact h.free b hb

/-- Write through a pointer. -/
def modify (h : Heap α) (a : ℕ) (f : Cell α → Cell α) : Option (Heap α) :=
  match h.cell a with
  | none => none
  | some c => some (h.put a (f c))

/-- The first cell along `next` whose value has the property; there is no result when the way leads to a
dead cell or is longer than `n`. -/
def find (h : Heap α) (p : α → Bool) : ℕ → Option ℕ → Option (Option ℕ)
  | 0, _ => none
  | _ + 1, none => some none
  | n + 1, some a =>
    match h.cell a with
    | none => none
    | some c => if p c.val then some (some a) else h.find p n c.next

def nth (h : Heap α) : ℕ → Option ℕ → Option (Option ℕ)
  | 0, q => some q
  | _ + 1, none => none
  | n + 1, some a =>
    match h.cell a with
    | none => none
    | some c => h.nth n c.next

/-- Take a cell out of its list: its neighbours, or the head, get its links. -/
def unlink (h : Heap α) (head : Option ℕ) (a : ℕ) : Option (Heap α × Option ℕ) :=
  match h.cell a with
  | none => none
  | some c =>
    match (match c.prev with
      | some b => (h.modify b fun d => { d with next := c.next }).map fun h => (h, head)
      | none => some (h, c.next)) with
    | none => none
    | some (h, head) =>
      match c.next with
      | some b => (h.modify b fun d => { d with prev := c.prev }).map fun h => (h, head)
      | none => some (h, head)

section Basic

variable {h : Heap α} {a b : ℕ} {c : Cell α}

theorem fresh_free (h : Heap α) (a : ℕ) : h.cell (h.fresh a) = none := by
  unfold fresh
  split
  · rename_i ha
    exact Option.isNone_iff_eq_none.1 ha
  · exact h.free _ (Nat.le_refl _)

@[simp] theorem put_cell_self (h : Heap α) (a : ℕ) (c : Cell α) : (h.put a c).cell a = some c :=
  Function.update_self _ _ _

theorem put_cell_ne (hab : b ≠ a) : (h.put a c).cell b = h.cell b := Function.update_of_ne hab _ _

@[simp] theorem del_cell_self (h : Heap α) (a : ℕ) : (h.del a).cell a = none := Function.update_self _ _ _

theorem del_cell_ne (hab : b ≠ a) : (h.del a).cell b = h.cell b := Function.update_of_ne hab _ _

theorem modify_eq (hc : h.cell a = some c) (f : Cell α → Cell α) : h.modify a f = some (h.put a (f c)) := by
  unfold modify
  rw [hc]

theorem lt_brk (hc : h.cell a = some c) : a < h.brk := by
  by_contra hle
  rw [h.free a (by omega)] at hc
  cases hc

end Basic

end Heap

/-! ### Segments -/

/-- The cells of `l` in a row, from the pointers `p` and `q` to the pointers `p'` and `q'`. -/
def Seg (h : Heap α) : Option ℕ → Option ℕ → List (ℕ × α) → Option ℕ → Option ℕ → Prop
  | p, q, [], p', q' => p = p' ∧ q = q'
  | p, q, (a, v) :: l, p', q' =>
    q = some a ∧ ∃ next, h.cell a = some ⟨v, next, p⟩ ∧ Seg h (some a) next l p' q'

section Seg

variable {h h' : Heap α} {p q p' q' : Option ℕ} {l l₁ l₂ : List (ℕ × α)} {a : ℕ} {v : α}

theorem seg_append : Seg h p q (l₁ ++ l₂) p' q' ↔ ∃ r s, Seg h p q l₁ r s ∧ Seg h r s l₂ p' q' := by
  induction l₁ generalizing p q with
  | nil =>
    constructor
    · intro hs
      exact ⟨p, q, ⟨rfl, rfl⟩, hs⟩
    · rintro ⟨r, s, ⟨rfl, rfl⟩, hs⟩
      exact hs
  | cons x l₁ ih =>
    constructor
    · rintro ⟨hq, next, hc, hs⟩
      obtain ⟨r, s, h1, h2⟩ := ih.1 hs
      exact ⟨r, s, ⟨hq, next, hc, h1⟩, h2⟩
    · rintro ⟨r, s, ⟨hq, next, hc, h1⟩, h2⟩
      exact ⟨hq, next, hc, ih.2 ⟨r, s, h1, h2⟩⟩

/-- A segment is about its own cells only. -/
theorem Seg.congr (hs : Seg h p q l p' q') (hh : ∀ x ∈ l, h'.cell x.1 = h.cell x.1) : Seg h' p q l p' q' := by
  induction l generalizing p q with
  | nil => exact hs
  | cons x l ih =>
    obtain ⟨hq, next, hc, hs⟩ := hs
    exact ⟨hq, next, (hh x List.mem_cons_self).trans hc, ih hs fun y hy => hh y (List.mem_cons_of_mem _ hy)⟩

theorem Seg.cell (hs : Seg h p q l p' q') {x : ℕ × α} (hx : x ∈ l) :
    ∃ c, h.cell x.1 = some c ∧ c.val = x.2 := by
  induction l generalizing p q with
  | nil => cases hx
  | cons y l ih =>
    obtain ⟨hq, next, hc, hs⟩ := hs
    rcases List.mem_cons.1 hx with rfl | hx
    · exact ⟨_, hc, rfl⟩
    · exact ih hs hx

theorem Seg.setNext (hs : Seg h p q (l ++ [(a, v)]) p' q') (hn : ((l ++ [(a, v)]).map Prod.fst).Nodup)
    (r : Option ℕ) :
    ∃ c, h.cell a = some c ∧ p' = some a ∧ Seg (h.put a { c with next := r }) p q (l ++ [(a, v)]) (some a) r := by
  obtain ⟨s, t, h1, rfl, next, hc, rfl, rfl⟩ := seg_append.1 hs
  refine ⟨_, hc, rfl, seg_append.2 ⟨s, some a, h1.congr fun x hx => ?_, rfl, r, Heap.put_cell_self _ _ _,
    rfl, rfl⟩⟩
  apply Heap.put_cell_ne
  intro hxa
  rw [List.map_append, List.nodup_append] at hn
  exact hn.2.2 x.1 (List.mem_map_of_mem hx) a (by simp) hxa

theorem Seg.setPrev (hs : Seg h p q ((a, v) :: l) p' q') (hn : (((a, v) :: l).map Prod.fst).Nodup)
    (r : Option ℕ) :
    ∃ c, h.cell a = some c ∧ q = some a ∧ Seg (h.put a { c with prev := r }) r q ((a, v) :: l) p' q' := by
  obtain ⟨rfl, next, hc, hs⟩ := hs
  refine ⟨_, hc, rfl, rfl, next, Heap.put_cell_self _ _ _, hs.congr fun x hx => ?_⟩
  apply Heap.put_cell_ne
  intro hxa
  rw [List.map_cons, List.nodup_cons] at hn
  exact hn.1 (List.mem_map.2 ⟨x, hx, hxa⟩)

theorem Seg.nth (hs : Seg h p q l p' q') : h.nth l.length q = some q' := by
  induction l generalizing p q with
  | nil => exact congrArg some hs.2
  | cons x l ih =>
    obtain ⟨rfl, next, hc, hs⟩ := hs
    rw [List.length_cons, Heap.nth, hc]
    exact ih hs

/-- A way that leads to a dead cell is not part of a list. -/
theorem Seg.not_seg_of_dead (hs : Seg h p q l p' (some a)) (hdead : h.cell a = none) (l' : List (ℕ × α))
    (r : Option ℕ) : ¬ Seg h p q l' r none := by
  induction l generalizing p q l' with
  | nil =>
    obtain ⟨rfl, rfl⟩ := hs
    intro hs'
    cases l' with
    | nil => cases hs'.2
    | cons x l' =>
      obtain ⟨hq, next, hc, -⟩ := hs'
      cases hq
      rw [hdead] at hc
      cases hc
  | cons x l ih =>
    obtain ⟨b, w⟩ := x
    obtain ⟨rfl, next, hc, hs⟩ := hs
    intro hs'
    cases l' with
    | nil => cases hs'.2
    | cons y l' =>
      obtain ⟨b', w'⟩ := y
      obtain ⟨hq, next', hc', hs'⟩ := hs'
      cases hq
      cases hc.symm.trans hc'
      exact ih hs l' hs'

end Seg

/-! ### Whole lists -/

/-- **A doubly linked list**: from `head`, the cells of `l` are alive and follow one another, each one pointing
back to the one before; the first points back to nothing, and behind the last there is nothing. -/
structure IsDll (h : Heap α) (head : Option ℕ) (l : List (ℕ × α)) : Prop where
  seg : ∃ last, Seg h none head l last none
  nodup : (l.map Prod.fst).Nodup

section IsDll

variable {h : Heap α} {head : Option ℕ} {l l₁ l₂ : List (ℕ × α)} {a : ℕ} {v : α}

theorem isDll_empty : IsDll (Heap.empty : Heap α) none [] := ⟨⟨none, rfl, rfl⟩, List.nodup_nil⟩

theorem IsDll.congr {h' : Heap α} (hd : IsDll h head l) (hh : ∀ x ∈ l, h'.cell x.1 = h.cell x.1) :
    IsDll h' head l := by
  obtain ⟨last, hs⟩ := hd.seg
  exact ⟨⟨last, hs.congr hh⟩, hd.nodup⟩

theorem IsDll.del (hd : IsDll h head l) (ha : a ∉ l.map Prod.fst) : IsDll (h.del a) head l :=
  hd.congr fun _ hx => Heap.del_cell_ne fun hxa => ha (hxa ▸ List.mem_map_of_mem hx)

/-- The cells behind a pointer are determined by the heap. -/
theorem Seg.unique {q p₁ p₂ : Option ℕ} {p r : Option ℕ} {l₁ l₂ : List (ℕ × α)} (h₁ : Seg h p q l₁ p₁ none)
    (h₂ : Seg h r q l₂ p₂ none) : l₁ = l₂ := by
  induction l₁ generalizing p r q l₂ with
  | nil =>
    obtain ⟨-, rfl⟩ := h₁
    cases l₂ with
    | nil => rfl
    | cons y l₂ => cases h₂.1
  | cons x l₁ ih =>
    obtain ⟨rfl, next, hc, h₁⟩ := h₁
    cases l₂ with
    | nil => cases h₂.2
    | cons y l₂ =>
      obtain ⟨hxy, next', hc', h₂⟩ := h₂
      have hval : y.1 = x.1 := Option.some.inj hxy.symm
      rw [hval] at hc' h₂
      have hcell := Option.some.inj (hc.symm.trans hc')
      obtain ⟨hv, hnext, -⟩ := Cell.mk.inj hcell
      rw [ih h₁ (hnext ▸ h₂), show x = y from Prod.ext hval.symm hv]

theorem IsDll.unique {l₂ : List (ℕ × α)} (hd : IsDll h head l) (hd₂ : IsDll h head l₂) : l = l₂ := by
  obtain ⟨_, hs⟩ := hd.seg
  obtain ⟨_, hs₂⟩ := hd₂.seg
  exact hs.unique hs₂

theorem IsDll.cell (hd : IsDll h head l) {x : ℕ × α} (hx : x ∈ l) : ∃ c, h.cell x.1 = some c ∧ c.val = x.2 := by
  obtain ⟨last, hs⟩ := hd.seg
  exact hs.cell hx

theorem IsDll.notMem (hd : IsDll h head l) (ha : h.cell a = none) : a ∉ l.map Prod.fst := by
  intro hmem
  obtain ⟨x, hx, rfl⟩ := List.mem_map.1 hmem
  obtain ⟨c, hc, -⟩ := hd.cell hx
  rw [ha] at hc
  cases hc

/-- A list has no more cells than there are addresses in use. -/
theorem IsDll.length_le_brk (hd : IsDll h head l) : l.length ≤ h.brk := by
  have hsub : l.map Prod.fst ⊆ List.range h.brk := by
    intro a ha
    obtain ⟨x, hx, rfl⟩ := List.mem_map.1 ha
    obtain ⟨c, hc, -⟩ := hd.cell hx
    exact List.mem_range.2 (Heap.lt_brk hc)
  have := (hd.nodup.subperm hsub).length_le
  rwa [List.length_map, List.length_range] at this

/-- **A new first cell.** -/
theorem isDll_push_nil (h : Heap α) (a : ℕ) (v : α) : IsDll (h.put a ⟨v, none, none⟩) (some a) [(a, v)] :=
  ⟨⟨some a, rfl, none, Heap.put_cell_self _ _ _, rfl, rfl⟩, List.nodup_singleton _⟩

theorem IsDll.push_cons {b : ℕ} (hd : IsDll h (some b) l) (ha : h.cell a = none) :
    ∃ c, h.cell b = some c ∧
      IsDll ((h.put a ⟨v, some b, none⟩).put b { c with prev := some a }) (some a) ((a, v) :: l) := by
  obtain ⟨last, hs⟩ := hd.seg
  cases l with
  | nil => cases hs.2
  | cons x l =>
    obtain ⟨b', w⟩ := x
    obtain ⟨hb, next, hc, hs⟩ := hs
    cases hb
    have hal := hd.notMem ha
    rw [List.map_cons, List.mem_cons, not_or] at hal
    have hbl : b ∉ l.map Prod.fst := (List.nodup_cons.1 hd.nodup).1
    refine ⟨_, hc, ⟨last, rfl, some b, ?_, rfl, next, Heap.put_cell_self _ _ _, hs.congr fun x hx => ?_⟩,
      List.nodup_cons.2 ⟨?_, hd.nodup⟩⟩
    · rw [Heap.put_cell_ne hal.1, Heap.put_cell_self]
    · have hx' : x.1 ∈ l.map Prod.fst := List.mem_map_of_mem hx
      rw [Heap.put_cell_ne (ne_of_mem_of_not_mem hx' hbl), Heap.put_cell_ne (ne_of_mem_of_not_mem hx' hal.2)]
    · exact List.mem_cons.not.2 (not_or.2 hal)

/-- **A new value** in a cell of the list. -/
theorem IsDll.put_val (hd : IsDll h head (l₁ ++ (a, v) :: l₂)) (w : α) :
    ∃ c, h.cell a = some c ∧ c.val = v ∧ IsDll (h.put a { c with val := w }) head (l₁ ++ (a, w) :: l₂) := by
  obtain ⟨last, hs⟩ := hd.seg
  obtain ⟨r, s, h1, rfl, next, hc, h2⟩ := seg_append.1 hs
  have hn := hd.nodup
  rw [List.map_append, List.map_cons, List.nodup_append, List.nodup_cons] at hn
  have hne : ∀ x ∈ l₁, x.1 ≠ a := fun x hx => hn.2.2 x.1 (List.mem_map_of_mem hx) a List.mem_cons_self
  have hne' : ∀ x ∈ l₂, x.1 ≠ a := fun x hx he => hn.2.1.1 (List.mem_map.2 ⟨x, hx, he⟩)
  refine ⟨_, hc, rfl, ⟨last, seg_append.2 ⟨r, some a, ?_, rfl, next, Heap.put_cell_self _ _ _, ?_⟩⟩, ?_⟩
  · exact h1.congr fun x hx => Heap.put_cell_ne (hne x hx)
  · exact h2.congr fun x hx => Heap.put_cell_ne (hne' x hx)
  · simpa using hd.nodup

theorem Seg.bypass {p' : Option ℕ} (hs : Seg h none head l p' (some a)) (hn : (l.map Prod.fst).Nodup)
    (next : Option ℕ) :
    ∃ h' head', (match p' with
        | some b => (h.modify b fun d => { d with next := next }).map fun h => (h, head)
        | none => some (h, next)) = some (h', head') ∧
      Seg h' none head' l p' next ∧ ∀ x, x ∉ l.map Prod.fst → h'.cell x = h.cell x := by
  rcases List.eq_nil_or_concat l with rfl | ⟨l, x, rfl⟩
  · obtain ⟨rfl, rfl⟩ := hs
    exact ⟨h, next, rfl, ⟨rfl, rfl⟩, fun _ _ => rfl⟩
  · obtain ⟨b, w⟩ := x
    rw [List.concat_eq_append] at hs hn ⊢
    obtain ⟨c, hc, rfl, hs'⟩ := hs.setNext hn next
    refine ⟨_, head, ?_, hs', fun x hx => Heap.put_cell_ne fun he => hx (he ▸ by simp)⟩
    dsimp only
    rw [Heap.modify_eq hc]
    rfl

theorem Seg.backLink {p p' next : Option ℕ} {r : Option ℕ} (hs : Seg h (some a) next l p' none)
    (hn : (l.map Prod.fst).Nodup) :
    ∃ h', (match next with
        | some b => (h.modify b fun d => { d with prev := p }).map fun h => (h, r)
        | none => some (h, r)) = some (h', r) ∧
      (∃ last, ∀ {l₀ : List (ℕ × α)} {q : Option ℕ}, Seg h' none q l₀ p next → Seg h' none q (l₀ ++ l) last none) ∧
      ∀ x, x ∉ l.map Prod.fst → h'.cell x = h.cell x := by
  cases l with
  | nil =>
    obtain ⟨rfl, rfl⟩ := hs
    exact ⟨h, rfl, ⟨p, fun hs₀ => by rwa [List.append_nil]⟩, fun _ _ => rfl⟩
  | cons x l =>
    obtain ⟨b, w⟩ := x
    obtain ⟨c, hc, rfl, hs'⟩ := hs.setPrev hn p
    refine ⟨_, ?_, ⟨p', fun hs₀ => seg_append.2 ⟨p, some b, hs₀, hs'⟩⟩, fun x hx => Heap.put_cell_ne fun he => ?_⟩
    · dsimp only
      rw [Heap.modify_eq hc]
      rfl
    · exact hx (he ▸ by simp)

/-- **One cell out**: the others stay in their order, and the cell itself stays as it is. -/
theorem IsDll.unlink (hd : IsDll h head (l₁ ++ (a, v) :: l₂)) :
    ∃ h' head', h.unlink head a = some (h', head') ∧ IsDll h' head' (l₁ ++ l₂) ∧ h'.cell a = h.cell a := by
  obtain ⟨last, hs⟩ := hd.seg
  obtain ⟨r, s, h1, rfl, next, hc, h2⟩ := seg_append.1 hs
  have hn := hd.nodup
  rw [List.map_append, List.map_cons, List.nodup_append, List.nodup_cons] at hn
  obtain ⟨hn₁, ⟨ha₂, hn₂⟩, hdis⟩ := hn
  have ha₁ : a ∉ l₁.map Prod.fst := fun hm => hdis a hm a List.mem_cons_self rfl
  obtain ⟨h', head', hm, hs₁, hfr⟩ := h1.bypass hn₁ next
  have hs₂ : Seg h' (some a) next l₂ last none := h2.congr fun x hx =>
    hfr x.1 fun hm => hdis x.1 hm x.1 (List.mem_cons_of_mem _ (List.mem_map_of_mem hx)) rfl
  obtain ⟨h'', hm', ⟨last', hglue⟩, hfr'⟩ := hs₂.backLink (p := r) (r := head') hn₂
  have hs₁' : Seg h'' none head' l₁ r next := hs₁.congr fun x hx =>
    hfr' x.1 fun hm => hdis x.1 (List.mem_map_of_mem hx) x.1 (List.mem_cons_of_mem _ hm) rfl
  refine ⟨h'', head', ?_, ⟨⟨last', hglue hs₁'⟩, ?_⟩, (hfr' a ha₂).trans (hfr a ha₁)⟩
  · unfold Heap.unlink
    rw [hc]
    dsimp only
    rw [hm]
    exact hm'
  · rw [List.map_append, List.nodup_append]
    exact ⟨hn₁, hn₂, fun x hx y hy => hdis x hx y (List.mem_cons_of_mem _ hy)⟩

/-- **A search** along `next` finds the first cell of the list that has the property. -/
theorem Seg.find {p q p' : Option ℕ} (f : α → Bool) {n : ℕ} (hs : Seg h p q l p' none) (hn : l.length < n) :
    h.find f n q = some ((l.find? fun x => f x.2).map Prod.fst) := by
  induction l generalizing p q n with
  | nil =>
    obtain ⟨rfl, rfl⟩ := hs
    cases n with
    | zero => cases hn
    | succ n => rfl
  | cons x l ih =>
    obtain ⟨b, w⟩ := x
    obtain ⟨rfl, next, hc, hs⟩ := hs
    cases n with
    | zero => cases hn
    | succ n =>
      rw [Heap.find, hc, List.find?_cons]
      dsimp only
      by_cases hw : f w
      · rw [if_pos hw, hw]
        rfl
      · rw [if_neg hw, ih hs (by simpa using hn)]
        simp [hw]

theorem IsDll.find (hd : IsDll h head l) (f : α → Bool) :
    h.find f (h.brk + 1) head = some ((l.find? fun x => f x.2).map Prod.fst) := by
  obtain ⟨last, hs⟩ := hd.seg
  exact hs.find f (Nat.lt_succ_of_le hd.length_le_brk)

end IsDll

end TamuProofs.Lib
