import Mathlib.Data.List.Destutter
import TamuProofs.Lib.Run
import TamuProofs.IrDemod.Messages

/-!
The program without interrupts, `helloworld.c`: a loop that reads the message registers and prints a message when
register 0 is not what it was.

* `Poller.exec` — one statement of the loop, `Poller.onEdge` — an edge of the board;
* `Timely` — a message comes only after the one before it has been read, and not between the two reads;
* `Polled` — the invariant: printed, or about to be, are the values that register 0 has had, one for each run of
  equal ones;
* **`printed_transmission`**: so a word is printed exactly if it is not the word before it.
-/

namespace TamuProofs.IrDemod

open TamuProofs.Lib

/-! ### Runs of equal elements -/

section Destutter

variable {α : Type*} {R : α → α → Prop} [DecidableRel R]

/-- An element at the end is kept if it is not related to the last one that was kept. -/
theorem destutter'_concat : ∀ (l : List α) (a b : α), ∃ c, (l.destutter' R a).getLast? = some c ∧
    (l ++ [b]).destutter' R a = if R c b then l.destutter' R a ++ [b] else l.destutter' R a := by
  intro l
  induction l with
  | nil =>
    intro a b
    refine ⟨a, rfl, ?_⟩
    rw [List.nil_append, List.destutter'_singleton]
    rfl
  | cons x l ih =>
    intro a b
    by_cases hax : R a x
    · obtain ⟨c, hlast, hc⟩ := ih x b
      refine ⟨c, ?_, ?_⟩
      · rw [List.destutter'_cons_pos _ hax, List.getLast?_cons, hlast]
        rfl
      · rw [List.cons_append, List.destutter'_cons_pos _ hax, List.destutter'_cons_pos _ hax, hc]
        split <;> rfl
    · obtain ⟨c, hlast, hc⟩ := ih a b
      refine ⟨c, ?_, ?_⟩
      · rw [List.destutter'_cons_neg _ hax, hlast]
      · rw [List.cons_append, List.destutter'_cons_neg _ hax, List.destutter'_cons_neg _ hax, hc]

theorem destutter'_prefix (l m : List α) (a : α) : l.destutter' R a <+: (l ++ m).destutter' R a := by
  induction m using List.reverseRecOn with
  | nil => exact ⟨[], by rw [List.append_nil, List.append_nil]⟩
  | append_singleton m b ih =>
    obtain ⟨c, -, hc⟩ := destutter'_concat (R := R) (l ++ m) a b
    rw [← List.append_assoc, hc]
    split
    · exact ih.trans (List.prefix_append _ _)
    · exact ih

end Destutter

/-- What the loop compares: the messages, whatever their counters. -/
def Differ (a b : BitVec 32 × BitVec 32) : Prop := a.1 ≠ b.1

instance : DecidableRel Differ := fun a b => inferInstanceAs (Decidable (a.1 ≠ b.1))

/-- The values that the two registers have had, one for each run of the same message. -/
def squeeze (first : BitVec 32 × BitVec 32) (values : List (BitVec 32 × BitVec 32)) : List (BitVec 32 × BitVec 32) :=
  values.destutter' Differ first

theorem squeeze_concat (first : BitVec 32 × BitVec 32) (values : List (BitVec 32 × BitVec 32))
    (v : BitVec 32 × BitVec 32) : ∃ c, (squeeze first values).getLast? = some c ∧
      squeeze first (values ++ [v]) = if c.1 = v.1 then squeeze first values else squeeze first values ++ [v] := by
  obtain ⟨c, hlast, hc⟩ := destutter'_concat (R := Differ) values first v
  refine ⟨c, hlast, ?_⟩
  by_cases heq : c.1 = v.1
  · rw [if_pos heq]
    exact hc.trans (if_neg (not_not_intro heq))
  · rw [if_neg heq]
    exact hc.trans (if_pos heq)

/-! ### The program -/

inductive Line
  | readReg0
  | readReg1
  | readReg3
  | test
  deriving DecidableEq, Repr

/-- The demodulator, the loop and its variables, and the lines printed. `unread` is not in the source: no read of
register 0 has come after the message that it holds. What is read from register 3 is not used. -/
structure Poller where
  demod : Demod
  line : Line
  reg0 : BitVec 32
  reg0Prev : BitVec 32
  reg1 : BitVec 32
  printed : List (BitVec 32 × BitVec 32)
  unread : Bool
  deriving DecidableEq, Repr

namespace Poller

def exec (s : Poller) : Poller :=
  match s.line with
  | .readReg0 => { s with reg0 := s.demod.slvReg0, line := .readReg1, unread := false }
  | .readReg1 => { s with reg1 := s.demod.slvReg1, line := .readReg3 }
  | .readReg3 => { s with line := .test }
  | .test =>
    if s.reg0 ≠ s.reg0Prev then
      { s with printed := s.printed ++ [(s.reg0, s.reg1)], reg0Prev := s.reg0, line := .readReg0 }
    else { s with line := .readReg0 }

def onEdge (s : Poller) (e : Edge) : Poller :=
  { s with demod := s.demod.step e, unread := s.unread || !(s.demod.message e).isEmpty }

inductive Ev
  | edge (e : Edge)
  | exec
  deriving DecidableEq, Repr

def Ev.edge? : Ev → Option Edge
  | .edge e => some e
  | .exec => none

def edges (es : List Ev) : List Edge := es.filterMap Ev.edge?

def next (s : Poller) : Ev → Poller
  | .edge e => s.onEdge e
  | .exec => s.exec

def step (s : Poller) (e : Ev) : Option Poller := some (s.next e)

def run (s : Poller) (es : List Ev) : Poller := es.foldl next s

def start (d : Demod) (reg0 reg0Prev reg1 : BitVec 32) : Poller := ⟨d, .readReg0, reg0, reg0Prev, reg1, [], true⟩

/-- A message comes only after the one before it has been read, and not between the two reads of the loop. -/
def Timely (s : Poller) : Ev → Prop
  | .edge e => s.demod.message e = [] ∨ s.unread = false ∧ s.line ≠ .readReg1
  | .exec => True

instance : ∀ (s : Poller) (e : Ev), Decidable (s.Timely e)
  | s, .edge e => inferInstanceAs (Decidable (s.demod.message e = [] ∨ s.unread = false ∧ s.line ≠ .readReg1))
  | _, .exec => .isTrue trivial

/-- Messages with their counters, after `count` others. -/
def counted : BitVec 32 → List (BitVec 32) → List (BitVec 32 × BitVec 32)
  | _, [] => []
  | count, msg :: msgs => (msg, count + 1) :: counted (count + 1) msgs

/-! ### The invariant -/

def value (s : Poller) : BitVec 32 × BitVec 32 := (s.demod.slvReg0, s.demod.slvReg1)

/-- What the loop will print in this turn, if it will. -/
def coming (s : Poller) : List (BitVec 32 × BitVec 32) :=
  if s.reg0 = s.reg0Prev then []
  else
    match s.line with
    | .readReg0 => []
    | .readReg1 => [(s.reg0, s.demod.slvReg1)]
    | .readReg3 => [(s.reg0, s.reg1)]
    | .test => [(s.reg0, s.reg1)]

/-- After the value `first` the registers have had the values `values` and `s.value`. -/
structure Polled (first : BitVec 32 × BitVec 32) (values : List (BitVec 32 × BitVec 32)) (s : Poller) : Prop where
  all : squeeze first (if s.unread then values else values ++ [s.value]) = first :: (s.printed ++ s.coming)
  prev : ((first :: s.printed).getLast?).map Prod.fst = some s.reg0Prev
  read : s.line = .readReg1 → s.unread = false ∧ s.reg0 = s.demod.slvReg0

section Steps

variable {first : BitVec 32 × BitVec 32} {values : List (BitVec 32 × BitVec 32)} {s : Poller}

theorem polled_start (d : Demod) (reg0 reg0Prev reg1 count : BitVec 32) :
    Polled (reg0Prev, count) [] (start d reg0 reg0Prev reg1) := by
  refine ⟨?_, rfl, fun h => by cases h⟩
  have hcoming : (start d reg0 reg0Prev reg1).coming = [] := by
    unfold coming start
    split <;> rfl
  rw [hcoming]
  rfl

/-- The read of register 0 takes its value into account. -/
theorem Polled.readReg0 (h : Polled first values s) (hl : s.line = .readReg0) : Polled first values s.exec := by
  -- at the head of the loop nothing is about to be printed
  have hnone : s.coming = [] := by
    unfold coming
    rw [hl]
    split <;> rfl
  have hexec : s.exec = { s with reg0 := s.demod.slvReg0, line := .readReg1, unread := false } := by
    rw [exec, hl]
  have hcoming : s.exec.coming = if s.demod.slvReg0 = s.reg0Prev then [] else [s.value] := by
    rw [hexec]
    rfl
  -- the value read is printed if it is not the one before it, and it goes through `squeeze` likewise
  have hvalue : squeeze first (values ++ [s.value]) =
      first :: (s.printed ++ if s.demod.slvReg0 = s.reg0Prev then [] else [s.value]) := by
    obtain ⟨c, hlast, hc⟩ := squeeze_concat first values s.value
    have hall := h.all
    have hprev := h.prev
    rw [hnone, List.append_nil] at hall
    rw [← hall] at hprev
    cases hu : s.unread with
    | true => -- a value that was not read yet
      rw [hu, if_pos rfl] at hall hprev
      rw [hlast] at hprev
      have hc1 : c.1 = s.reg0Prev := Option.some.inj hprev
      rw [hc, hall, hc1]
      by_cases heq : s.demod.slvReg0 = s.reg0Prev
      · rw [if_pos (show s.reg0Prev = s.value.1 from heq.symm), if_pos heq, List.append_nil]
      · rw [if_neg (show ¬ s.reg0Prev = s.value.1 from fun he => heq he.symm), if_neg heq]
        rfl
    | false => -- the last value once more
      rw [hu, if_neg Bool.false_ne_true] at hall hprev
      have heq : s.demod.slvReg0 = s.reg0Prev := by
        rw [hc] at hprev
        by_cases hsame : c.1 = s.value.1
        · rw [if_pos hsame, hlast] at hprev
          exact hsame.symm.trans (Option.some.inj hprev)
        · rw [if_neg hsame, List.getLast?_concat] at hprev
          exact Option.some.inj hprev
      rw [if_pos heq, List.append_nil, hall]
  refine ⟨?_, ?_, fun _ => ?_⟩
  · rw [hcoming]
    rw [hexec]
    exact hvalue
  · rw [hexec]
    exact h.prev
  · rw [hexec]
    exact ⟨rfl, rfl⟩

theorem Polled.exec (h : Polled first values s) : Polled first values s.exec := by
  cases hl : s.line with
  | readReg0 => exact h.readReg0 hl
  | readReg1 =>
    obtain ⟨hu, h0⟩ := h.read hl
    have hexec : s.exec = { s with reg1 := s.demod.slvReg1, line := .readReg3 } := by rw [Poller.exec, hl]
    have hcoming : s.exec.coming = s.coming := by
      rw [hexec, coming, coming, hl]
    refine ⟨?_, by rw [hexec]; exact h.prev, fun hr => by rw [hexec] at hr; cases hr⟩
    rw [hcoming, hexec]
    exact h.all
  | readReg3 =>
    have hexec : s.exec = { s with line := .test } := by rw [Poller.exec, hl]
    have hcoming : s.exec.coming = s.coming := by
      rw [hexec, coming, coming, hl]
    refine ⟨?_, by rw [hexec]; exact h.prev, fun hr => by rw [hexec] at hr; cases hr⟩
    rw [hcoming, hexec]
    exact h.all
  | test =>
    by_cases heq : s.reg0 = s.reg0Prev
    · -- the value before it once more: nothing is printed
      have hexec : s.exec = { s with line := .readReg0 } := by
        rw [Poller.exec, hl]
        exact if_neg (not_not_intro heq)
      have hcoming : s.exec.coming = s.coming := by
        rw [hexec, coming, coming, if_pos heq, if_pos heq]
      refine ⟨?_, by rw [hexec]; exact h.prev, fun hr => by rw [hexec] at hr; cases hr⟩
      rw [hcoming, hexec]
      exact h.all
    · -- a new value is printed
      have hexec : s.exec = { s with
          printed := s.printed ++ [(s.reg0, s.reg1)], reg0Prev := s.reg0, line := .readReg0 } := by
        rw [Poller.exec, hl]
        exact if_pos heq
      have hcoming : s.exec.coming = [] := by
        rw [hexec]
        exact if_pos rfl
      have hbefore : s.coming = [(s.reg0, s.reg1)] := by
        rw [coming, hl]
        exact if_neg heq
      have hall := h.all
      rw [hbefore] at hall
      refine ⟨?_, ?_, fun hr => by rw [hexec] at hr; cases hr⟩
      · rw [hcoming, List.append_nil, hexec]
        exact hall
      · rw [hexec, ← List.cons_append, List.getLast?_concat]
        rfl

theorem Polled.edge_quiet (h : Polled first values s) {e : Edge} (hmsg : s.demod.message e = [])
    (h0 : (s.demod.step e).slvReg0 = s.demod.slvReg0) (h1 : (s.demod.step e).slvReg1 = s.demod.slvReg1) :
    Polled first values (s.onEdge e) := by
  have hedge : s.onEdge e = { s with demod := s.demod.step e } := by
    rw [onEdge, hmsg]
    simp
  have hvalue : (s.onEdge e).value = s.value := by rw [hedge, value, value, h0, h1]
  have hcoming : (s.onEdge e).coming = s.coming := by
    rw [hedge, coming, coming]
    dsimp only
    rw [h1]
  refine ⟨?_, ?_, fun hr => ?_⟩
  · rw [hvalue, hcoming, hedge]
    exact h.all
  · rw [hedge]
    exact h.prev
  · rw [hedge] at hr ⊢
    obtain ⟨hu, hr0⟩ := h.read hr
    exact ⟨hu, hr0.trans h0.symm⟩

/-- A message that comes in time is one more value. -/
theorem Polled.edge_message (h : Polled first values s) {e : Edge} {msg : BitVec 32} (hmsg : s.demod.message e = [msg])
    (hu : s.unread = false) (hl : s.line ≠ .readReg1) : Polled first (values ++ [s.value]) (s.onEdge e) := by
  have hedge : s.onEdge e = { s with demod := s.demod.step e, unread := true } := by
    rw [onEdge, hmsg]
    simp
  -- `coming` looks at register 1 only between the two reads
  have hcoming : (s.onEdge e).coming = s.coming := by
    rw [hedge, coming, coming]
    cases hline : s.line with
    | readReg1 => exact absurd hline hl
    | readReg0 => rfl
    | readReg3 => rfl
    | test => rfl
  have hall := h.all
  rw [hu, if_neg Bool.false_ne_true] at hall
  refine ⟨?_, ?_, fun hr => ?_⟩
  · rw [hcoming, hedge]
    exact hall
  · rw [hedge]
    exact h.prev
  · rw [hedge] at hr
    exact absurd hr hl

/-- **A run of timely messages**: the registers have had the values of its messages. -/
theorem polled_run : ∀ (es : List Ev) {values : List (BitVec 32 × BitVec 32)} {s : Poller}, Polled first values s →
    AllSteps step Timely s es → ∃ values', Polled first values' (s.run es) ∧
      values' ++ [(s.run es).value] =
        values ++ s.value :: counted s.demod.slvReg1 (s.demod.messages (edges es)) := by
  intro es
  induction es with
  | nil => intro values s h _; exact ⟨values, h, rfl⟩
  | cons e es ih =>
    intro values s h ht
    have hlater := ht.2 (s.next e) rfl
    cases e with
    | exec =>
      obtain ⟨values', h', hall⟩ := ih h.exec hlater
      have hdemod : s.exec.demod = s.demod := by
        unfold Poller.exec
        cases s.line with
        | readReg0 => rfl
        | readReg1 => rfl
        | readReg3 => rfl
        | test => dsimp only; split <;> rfl
      have hvalue : s.exec.value = s.value := by rw [value, value, hdemod]
      refine ⟨values', h', ?_⟩
      rw [hvalue, hdemod] at hall
      exact hall
    | edge e =>
      have hmsgs : s.demod.messages (edges (.edge e :: es)) =
          s.demod.message e ++ (s.demod.step e).messages (edges es) := rfl
      rcases s.demod.message_cases e with ⟨hmsg, h0, h1⟩ | ⟨hmsg, h1⟩
      · -- an edge without a message leaves the registers
        obtain ⟨values', h', hall⟩ := ih (h.edge_quiet hmsg h0 h1) hlater
        have hvalue : (s.onEdge e).value = s.value := by
          show ((s.demod.step e).slvReg0, (s.demod.step e).slvReg1) = _
          rw [h0, h1]
          rfl
        refine ⟨values', h', ?_⟩
        rw [hvalue, show (s.onEdge e).demod = s.demod.step e from rfl, h1] at hall
        rw [hmsgs, hmsg]
        exact hall
      · -- a message is one more value
        have hnow : s.unread = false ∧ s.line ≠ .readReg1 := by
          rcases ht.1 with hnil | hnow
          · rw [hmsg] at hnil
            cases hnil
          · exact hnow
        obtain ⟨values', h', hall⟩ := ih (h.edge_message hmsg hnow.1 hnow.2) hlater
        have hvalue : (s.onEdge e).value = ((s.demod.step e).slvReg0, s.demod.slvReg1 + 1) := by
          show ((s.demod.step e).slvReg0, (s.demod.step e).slvReg1) = _
          rw [h1]
        refine ⟨values', h', ?_⟩
        rw [hvalue, show (s.onEdge e).demod = s.demod.step e from rfl, h1] at hall
        rw [hmsgs, hmsg]
        exact hall.trans (by rw [List.append_assoc]; rfl)

end Steps

theorem counted_append : ∀ (msgs msgs' : List (BitVec 32)) (count : BitVec 32),
    counted count msgs <+: counted count (msgs ++ msgs') := by
  intro msgs msgs'
  induction msgs with
  | nil => intro count; exact List.nil_prefix
  | cons msg msgs ih => intro count; exact List.cons_prefix_cons.2 ⟨rfl, ih (count + 1)⟩

/-- What has been printed is the beginning of the values that the registers have had. -/
theorem Polled.printed_prefix {first : BitVec 32 × BitVec 32} {values : List (BitVec 32 × BitVec 32)} {s : Poller}
    (h : Polled first values s) : first :: s.printed <+: squeeze first (values ++ [s.value]) := by
  have hnow : first :: s.printed <+: squeeze first (if s.unread then values else values ++ [s.value]) := by
    rw [h.all]
    exact List.cons_prefix_cons.2 ⟨rfl, List.prefix_append _ _⟩
  refine hnow.trans ?_
  split
  · exact destutter'_prefix values [s.value] first
  · exact List.prefix_refl _

/-- **What the loop prints of a transmission.** The signal carries a transmission and stays high, the board and the
loop take their steps in any order, and every message comes in time. Then the lines printed are the first of the
values that the two registers have had, the one before the transmission and its words with their numbers, without
those whose message is the one before. Once all is read and printed these are all of them, and then every word has
its line exactly if no message is equal to the one before it. -/
theorem printed_transmission (d : Demod) (hd : d.irSignal = true) (reg0 reg0Prev reg1 : BitVec 32) {hold : Nat}
    (hhold : 1 ≤ hold) (frames : List Frame) (rest : Nat) (es : List Ev)
    (hedges : edges es <+: wave hold frames ++ List.replicate rest (.clk true))
    (htimely : AllSteps step Timely (start d reg0 reg0Prev reg1) es) :
    let s := (start d reg0 reg0Prev reg1).run es
    let values := (d.slvReg0, d.slvReg1) :: counted d.slvReg1 (frames.map fun f => f.word.setWidth 32)
    (reg0Prev, 0) :: s.printed <+: squeeze (reg0Prev, 0) values ∧
      (edges es = wave hold frames ++ List.replicate rest (.clk true) → s.unread = false → s.line = .readReg0 →
        (reg0Prev, 0) :: s.printed = squeeze (reg0Prev, 0) values ∧
          (s.printed = values ↔ ((reg0Prev, 0) :: values).IsChain Differ)) := by
  obtain ⟨values', hpolled, hvalues⟩ := polled_run es (polled_start d reg0 reg0Prev reg1 0) htimely
  have hwave := Demod.messages_wave hd hhold frames rest
  have hvalues' : values' ++ [((start d reg0 reg0Prev reg1).run es).value] =
      (d.slvReg0, d.slvReg1) :: counted d.slvReg1 (d.messages (edges es)) := hvalues
  refine ⟨?_, fun hwhole hunread hline => ?_⟩
  · obtain ⟨later, hlater⟩ := hedges
    refine hpolled.printed_prefix.trans ?_
    rw [hvalues', ← hwave, ← hlater, Demod.messages_append]
    obtain ⟨more, hmore⟩ := counted_append (d.messages (edges es)) ((d.run (edges es)).messages later) d.slvReg1
    rw [← hmore]
    exact destutter'_prefix (_ :: counted d.slvReg1 (d.messages (edges es))) more _
  · -- at the head of the loop with nothing unread, all that was polled is printed
    have hnone : ((start d reg0 reg0Prev reg1).run es).coming = [] := by
      unfold coming
      rw [hline]
      split <;> rfl
    have hall := hpolled.all
    rw [hunread, if_neg Bool.false_ne_true, hvalues', hwhole, hwave, hnone, List.append_nil] at hall
    refine ⟨hall.symm, ?_⟩
    rw [← List.destutter'_eq_self_iff]
    show _ ↔ squeeze _ _ = _
    rw [hall]
    simp

/-! ### A run of one word -/

def turn : List Ev := [.exec, .exec, .exec, .exec]

def oneWord (w : BitVec 12) : List Ev := turn ++ ((wave 1 [.ofWord w]).map .edge ++ turn)

theorem run_turn {s : Poller} (h : s.line = .readReg0) :
    (s.run turn).demod = s.demod ∧ (s.run turn).line = .readReg0 ∧ (s.run turn).unread = false := by
  obtain ⟨d, line, reg0, reg0Prev, reg1, printed, unread⟩ := s
  obtain rfl : line = .readReg0 := h
  have hrun : run ⟨d, .readReg0, reg0, reg0Prev, reg1, printed, unread⟩ turn =
      exec ⟨d, .test, d.slvReg0, reg0Prev, d.slvReg1, printed, false⟩ := rfl
  rw [hrun, exec]
  dsimp only
  split <;> exact ⟨rfl, rfl, rfl⟩

theorem edges_map_edge (E : List Edge) : edges (E.map .edge) = E := by
  induction E with
  | nil => rfl
  | cons e E ih => exact congrArg (e :: ·) ih

/-- While the loop does not move, one message is in time if the one before has been read. -/
theorem timely_edges : ∀ (E : List Edge) {s : Poller},
    (s.demod.messages E = [] ∨ (s.unread = false ∧ s.line = .readReg0) ∧ (s.demod.messages E).length ≤ 1) →
      AllSteps step Timely s (E.map .edge) ∧ (s.run (E.map .edge)).line = s.line := by
  intro E
  induction E with
  | nil => intro s _; exact ⟨trivial, rfl⟩
  | cons e E ih =>
    intro s h
    have hsplit : s.demod.messages (e :: E) = s.demod.message e ++ (s.demod.step e).messages E := rfl
    have hnow : s.Timely (.edge e) := by
      rcases h with hnil | ⟨⟨hu, hl⟩, -⟩
      · rw [hsplit] at hnil
        exact .inl (List.append_eq_nil_iff.1 hnil).1
      · exact .inr ⟨hu, by rw [hl]; decide⟩
    -- with one message at most, none is left after it
    have hlater : (s.onEdge e).demod.messages E = [] ∨
        ((s.onEdge e).unread = false ∧ (s.onEdge e).line = .readReg0) ∧ ((s.onEdge e).demod.messages E).length ≤ 1 := by
      rcases h with hnil | ⟨⟨hu, hl⟩, hlen⟩
      · rw [hsplit] at hnil
        exact .inl (List.append_eq_nil_iff.1 hnil).2
      · rw [hsplit, List.length_append] at hlen
        rcases s.demod.message_cases e with ⟨hmsg, -⟩ | ⟨hmsg, -⟩
        · refine .inr ⟨⟨?_, hl⟩, ?_⟩
          · show (s.unread || !(s.demod.message e).isEmpty) = false
            rw [hu, hmsg]
            rfl
          · rw [hmsg, List.length_nil, Nat.zero_add] at hlen
            exact hlen
        · rw [hmsg, List.length_singleton] at hlen
          exact .inl (List.eq_nil_of_length_eq_zero (by show ((s.demod.step e).messages E).length = 0; omega))
    obtain ⟨hsteps, hline⟩ := ih hlater
    exact ⟨(allSteps_cons_some rfl).2 ⟨hnow, hsteps⟩, hline⟩

theorem timely_turn (s : Poller) : AllSteps step Timely s turn :=
  allSteps_of_forall fun e he _ => by
    simp only [turn, List.mem_cons, List.not_mem_nil, or_false, or_self] at he
    rw [he]
    trivial

def powerUp : Poller := start ⟨true, 0, .other, 0, 0, 0, 0⟩ 0 7 0

theorem oneWord_timely (w : BitVec 12) : AllSteps step Timely powerUp (oneWord w) ∧
    (powerUp.run (oneWord w)).line = .readReg0 ∧ (powerUp.run (oneWord w)).unread = false := by
  obtain ⟨hdemod, hline, hunread⟩ := run_turn (s := powerUp) rfl
  have hlen : ((powerUp.run turn).demod.messages (wave 1 [.ofWord w])).length ≤ 1 := by
    have hwave := Demod.messages_wave (s := powerUp.demod) rfl (Nat.le_refl 1) [.ofWord w] 0
    rw [List.replicate_zero, List.append_nil] at hwave
    rw [hdemod, hwave]
    exact Nat.le_refl 1
  obtain ⟨hedges, hline'⟩ := timely_edges (wave 1 [.ofWord w]) (.inr ⟨⟨hunread, hline⟩, hlen⟩)
  have hrun : powerUp.run (oneWord w) = ((powerUp.run turn).run ((wave 1 [.ofWord w]).map .edge)).run turn := by
    rw [oneWord, run, List.foldl_append, List.foldl_append]
    rfl
  obtain ⟨-, hend⟩ := run_turn (hline'.trans hline)
  rw [hrun]
  exact ⟨allSteps_append (timely_turn _) (allSteps_append hedges (timely_turn _)), hend⟩

theorem edges_oneWord (w : BitVec 12) : edges (oneWord w) = wave 1 [.ofWord w] ++ List.replicate 0 (.clk true) := by
  have hturn : edges turn = [] := rfl
  rw [oneWord, edges, List.filterMap_append, List.filterMap_append, List.replicate_zero]
  show edges turn ++ (edges ((wave 1 [.ofWord w]).map .edge) ++ edges turn) = _
  rw [hturn, edges_map_edge]
  rfl

/-- The program prints what register 0 held, and then the word. -/
theorem printed_turns : (powerUp.run (oneWord 0xA81)).printed = [(0, 0), (0xA81, 1)] := by
  obtain ⟨htimely, hline, hunread⟩ := oneWord_timely 0xA81
  have hedges := edges_oneWord 0xA81
  have hpre : edges (oneWord 0xA81) <+: wave 1 [.ofWord 0xA81] ++ List.replicate 0 (.clk true) :=
    ⟨[], (List.append_nil _).trans hedges⟩
  have hall := (printed_transmission ⟨true, 0, .other, 0, 0, 0, 0⟩ rfl 0 7 0 (Nat.le_refl 1) [.ofWord 0xA81] 0
    (oneWord 0xA81) hpre htimely).2 hedges hunread hline
  refine hall.2.2 ?_
  decide

end Poller

end TamuProofs.IrDemod
