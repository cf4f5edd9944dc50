import TamuProofs.Jackpot.Fsm
import TamuProofs.Lib.Divider

/-!
# The boards (`jackpot.v`, `counter.v`)

Both designs run something on a clock that a 24-bit divider makes of the clock of the board.

* `Board` is the module `jackpot`: the divider, the pattern, which `RESET` sets at any time, and the state machine.
  `Clockwork` says what the pattern should be: the light that is on is given by how often the slower clock has risen
  since `RESET` was high.
* **`lit_run`** — it is so after the first rise of `RESET`, whatever the registers held before;
* **`win_iff_lit`** — the player wins with the one switch of the light that was on at the edge before, and in no other
  way.
* `CounterBoard` is the module `counter`, and **`count_run`** says what its lights show.
-/

namespace TamuProofs.Jackpot

open TamuProofs.Lib

/-! ### The running light -/

/-- A rising edge of `CLOCK`, with the switches, or a change of `RESET`. -/
inductive Event
  | clock (switches : BitVec 4)
  | reset (level : Bool)

/-- The registers of the module `jackpot` and of its `clock_divider`, and the level of `RESET`. -/
structure Board where
  divider : Divider 24
  fsm : Fsm
  ledPattern : BitVec 4
  reset : Bool

/-- The pattern after a rising edge of `my_clk` or `RESET`. -/
def nextPattern (reset : Bool) (ledPattern : BitVec 4) : BitVec 4 :=
  if reset then 0b0001 else if ledPattern.getLsbD 3 then 0b0001 else ledPattern <<< 1

/-- At an edge of `CLOCK` all registers of that clock look at the pattern before `my_clk` rises. -/
def Board.step (b : Board) : Event → Board
  | .clock switches =>
    { b with
      divider := b.divider.onClk
      fsm := b.fsm.onClk { switches := switches, reset := b.reset, ledPattern := b.ledPattern }
      ledPattern := if b.divider.rises then nextPattern b.reset b.ledPattern else b.ledPattern }
  | .reset level =>
    { b with
      reset := level
      ledPattern := if level && !b.reset then nextPattern level b.ledPattern else b.ledPattern }

def Board.run (b : Board) (es : List Event) : Board := es.foldl Board.step b

/-- The edges of `CLOCK`, counted from a fall of the slower clock, those before `RESET` was last high, and the level of
`RESET`. -/
structure Clockwork where
  edges : ℕ
  highAt : ℕ
  reset : Bool

namespace Clockwork

def step (c : Clockwork) : Event → Clockwork
  | .clock _ => { c with edges := c.edges + 1, highAt := if c.reset then c.edges + 1 else c.highAt }
  | .reset level => { c with highAt := if level then c.edges else c.highAt, reset := level }

def run (c : Clockwork) (es : List Event) : Clockwork := es.foldl step c

def start (phase : ℕ) : Clockwork := { edges := phase, highAt := phase, reset := true }

/-- The light that is on: the next one at each rise of the slower clock. -/
def lit (c : Clockwork) : ℕ := (Divider.risesBy 24 c.edges - Divider.risesBy 24 c.highAt) % 4

theorem lit_lt (c : Clockwork) : c.lit < 4 := Nat.mod_lt _ (Nat.succ_pos 3)

end Clockwork

def oneLight (k : ℕ) : BitVec 4 := 1#4 <<< k

/-- The board and what should be on it. -/
structure Shows (b : Board) (c : Clockwork) : Prop where
  phase : b.divider.phase = c.edges % 2 ^ 25
  reset : b.reset = c.reset
  le : c.highAt ≤ c.edges
  high : c.reset = true → c.highAt = c.edges
  pattern : b.ledPattern = oneLight c.lit

section Light

variable {b : Board} {c : Clockwork}

theorem nextPattern_oneLight {k : ℕ} (hk : k < 4) : nextPattern false (oneLight k) = oneLight ((k + 1) % 4) := by
  have hall : ∀ k < 4, nextPattern false (oneLight k) = oneLight ((k + 1) % 4) := by decide
  exact hall k hk

theorem lit_of_high (h : c.highAt = c.edges) : c.lit = 0 := by
  rw [Clockwork.lit, h, Nat.sub_self]

theorem Shows.clock (h : Shows b c) (switches : BitVec 4) :
    Shows (b.step (.clock switches)) (c.step (.clock switches)) := by
  -- the light moves at the clock edges that make the divider rise
  have hrise : b.divider.rises = true ↔ c.edges % 2 ^ 25 + 1 = 2 ^ 24 := by
    rw [Divider.rises_iff, h.phase]
  have hcount := Divider.risesBy_succ (w := 24) c.edges
  refine ⟨?_, h.reset, ?_, ?_, ?_⟩
  · show b.divider.onClk.phase = (c.edges + 1) % 2 ^ 25
    rw [Divider.phase_onClk, h.phase, Nat.mod_add_mod]
  · show (if c.reset then c.edges + 1 else c.highAt) ≤ c.edges + 1
    have hle := h.le
    split <;> omega
  · intro hreset
    exact if_pos hreset
  · show (if b.divider.rises then nextPattern b.reset b.ledPattern else b.ledPattern) = _
    cases hreset : c.reset with
    | true =>
      have hlit : (c.step (.clock switches)).lit = 0 := lit_of_high (if_pos hreset)
      have hone : b.ledPattern = 0b0001 := by rw [h.pattern, lit_of_high (h.high hreset)]; rfl
      rw [hlit, h.reset, hreset, hone]
      split <;> rfl
    | false =>
      have hstep : c.step (.clock switches) = { c with edges := c.edges + 1 } := by
        rw [Clockwork.step, hreset]
        simp
      have hmono := Divider.risesBy_mono (w := 24) h.le
      rw [h.reset, hreset, h.pattern, hstep]
      by_cases hr : b.divider.rises = true
      · -- a rise moves the light by one
        rw [if_pos (hrise.1 hr)] at hcount
        have hlit : Clockwork.lit { c with edges := c.edges + 1 } = (c.lit + 1) % 4 := by
          unfold Clockwork.lit
          dsimp only
          rw [hcount]
          omega
        rw [if_pos hr, nextPattern_oneLight c.lit_lt, hlit]
      · -- else it stays
        rw [if_neg fun he => hr (hrise.2 he)] at hcount
        have hlit : Clockwork.lit { c with edges := c.edges + 1 } = c.lit := by
          unfold Clockwork.lit
          dsimp only
          rw [hcount, Nat.add_zero]
        rw [if_neg hr, hlit]

theorem Shows.reset_step (h : Shows b c) (level : Bool) : Shows (b.step (.reset level)) (c.step (.reset level)) := by
  refine ⟨h.phase, rfl, ?_, ?_, ?_⟩
  · show (if level then c.edges else c.highAt) ≤ c.edges
    have hle := h.le
    split <;> omega
  · intro hlevel
    exact if_pos hlevel
  · show (if level && !b.reset then nextPattern level b.ledPattern else b.ledPattern) = _
    cases level with
    | false => exact h.pattern
    | true =>
      have hlit : (c.step (.reset true)).lit = 0 := lit_of_high rfl
      rw [hlit]
      cases hreset : b.reset with
      | false => rfl
      | true => -- it was high before, so the first light is on
        show b.ledPattern = _
        rw [h.pattern, lit_of_high (h.high (h.reset ▸ hreset))]

theorem Shows.run (h : Shows b c) (es : List Event) : Shows (b.run es) (c.run es) := by
  induction es generalizing b c with
  | nil => exact h
  | cons e es ih =>
    cases e with
    | clock switches => exact ih (h.clock switches)
    | reset level => exact ih (h.reset_step level)

theorem shows_reset (b : Board) (hb : b.reset = false) :
    Shows (b.step (.reset true)) (Clockwork.start b.divider.phase) := by
  refine ⟨(Nat.mod_eq_of_lt b.divider.phase_lt).symm, rfl, Nat.le_refl _, fun _ => rfl, ?_⟩
  rw [lit_of_high rfl]
  show (if true && !b.reset then nextPattern true b.ledPattern else b.ledPattern) = _
  rw [hb]
  rfl

end Light

section Win

/-- **The light that is on**, after any events that follow a rise of `RESET`, whatever the registers held before. -/
theorem lit_run (b : Board) (hb : b.reset = false) (es : List Event) :
    (b.run (.reset true :: es)).ledPattern = oneLight ((Clockwork.start b.divider.phase).run es).lit :=
  ((shows_reset b hb).run es).pattern

def powerUp : Board :=
  { divider := { counter := 0, clkOut := false }, fsm := { state := .idle, leds := 0 }, ledPattern := 0,
    reset := false }

theorem lit_powerUp : (powerUp.run [.reset true, .clock 0, .reset false, .clock 0b0001]).ledPattern =
    oneLight ((Clockwork.start powerUp.divider.phase).run [.clock 0, .reset false, .clock 0b0001]).lit :=
  lit_run powerUp rfl [.clock 0, .reset false, .clock 0b0001]

theorem fsm_resets {resets : List Event} (h : ∀ e ∈ resets, ∃ level, e = .reset level) (b : Board) :
    (b.run resets).fsm = b.fsm := by
  induction resets generalizing b with
  | nil => rfl
  | cons e resets ih =>
    obtain ⟨level, rfl⟩ := h e List.mem_cons_self
    exact ih (fun e' he' => h e' (List.mem_cons_of_mem _ he')) (b.step (.reset level))

theorem pushed_iff {s : Fsm} {i : Input} : (s.onClk i).state = .pushed ↔ s.state = .idle ∧ i.switches ≠ 0 := by
  constructor
  · intro h
    obtain ⟨hs, -⟩ := pushed_entered h
    refine ⟨hs, fun h0 => ?_⟩
    simp [Fsm.onClk, hs, h0] at h
  · rintro ⟨hs, hsw⟩
    simp only [Fsm.onClk, hs, if_pos hsw]

theorem win_iff {s : Fsm} {i : Input} (hs : s.state ≠ .win) :
    (s.onClk i).state = .win ↔ s.state = .pushed ∧ i.switches = s.leds := by
  constructor
  · exact win_entered hs
  · rintro ⟨hpushed, hsw⟩
    simp [Fsm.onClk, hpushed, hsw]

/-- **How the player wins**: from `IDLE`, with a switch on at one edge of `CLOCK` and, at the next one, exactly the
switch of the light that the clockwork has on at the first.  `RESET` may change in between. -/
theorem win_iff_lit (b : Board) (hb : b.reset = false) (es resets : List Event) (sw₁ sw₂ : BitVec 4)
    (hresets : ∀ e ∈ resets, ∃ level, e = .reset level)
    (hwin : ((b.run (.reset true :: es)).run (.clock sw₁ :: resets)).fsm.state ≠ .win) :
    (((b.run (.reset true :: es)).run (.clock sw₁ :: resets)).step (.clock sw₂)).fsm.state = .win ↔
      (b.run (.reset true :: es)).fsm.state = .idle ∧ sw₁ ≠ 0 ∧
        sw₂ = oneLight ((Clockwork.start b.divider.phase).run es).lit := by
  have hpattern := ((shows_reset b hb).run es).pattern
  have hrun : b.run (.reset true :: es) = (b.step (.reset true)).run es := rfl
  rw [← hrun] at hpattern
  generalize b.run (.reset true :: es) = s at hpattern hwin ⊢
  have hfsm : (s.run (.clock sw₁ :: resets)).fsm =
      s.fsm.onClk { switches := sw₁, reset := s.reset, ledPattern := s.ledPattern } :=
    fsm_resets hresets (s.step (.clock sw₁))
  rw [hfsm] at hwin
  show (Fsm.onClk (s.run (.clock sw₁ :: resets)).fsm _).state = .win ↔ _
  rw [hfsm, win_iff hwin, pushed_iff, and_assoc]
  -- the lights that the switches are compared to were latched when the machine left `IDLE`
  refine and_congr_right fun hidle => and_congr_right fun hsw => ?_
  have hleds : (s.fsm.onClk { switches := sw₁, reset := s.reset, ledPattern := s.ledPattern }).leds = s.ledPattern := by
    simp only [Fsm.onClk, hidle]
  rw [hleds, hpattern]

theorem win_first_light :
    (((powerUp.run [.reset true]).run [.clock 0b0001, .reset false]).step (.clock 0b0001)).fsm.state = .win ↔
      (powerUp.run [.reset true]).fsm.state = .idle ∧ (0b0001 : BitVec 4) ≠ 0 ∧
        0b0001 = oneLight ((Clockwork.start powerUp.divider.phase).run []).lit :=
  win_iff_lit powerUp rfl [] [.reset false] 0b0001 0b0001 (by simp) (by decide)

end Win

/-! ### The counter -/

/-- The registers of the module `counter` and of its `clock_divider`. -/
structure CounterBoard where
  divider : Divider 24
  counter : BitVec 4

/-- The counter after a rising edge of `my_clock`: of the assignments that are made the last one holds. -/
def count (buttons : BitVec 3) (counter : BitVec 4) : BitVec 4 :=
  let up := if buttons.getLsbD 0 then counter + 1 else counter
  let down := if buttons.getLsbD 1 then counter - 1 else up
  if buttons.getLsbD 2 then 0 else down

def CounterBoard.onClk (c : CounterBoard) (buttons : BitVec 3) : CounterBoard where
  divider := c.divider.onClk
  counter := if c.divider.rises then count buttons c.counter else c.counter

/-- The buttons that the counter looks at, of those at the edges from `t` on. -/
def sampled (t : ℕ) : List (BitVec 3) → List (BitVec 3)
  | [] => []
  | buttons :: rest => (if t % 2 ^ 25 + 1 = 2 ^ 24 then [buttons] else []) ++ sampled (t + 1) rest

/-- What the buttons do to a number: the reset before the others, down before up. -/
def tally (n : ℤ) (buttons : BitVec 3) : ℤ :=
  if buttons.getLsbD 2 then 0 else if buttons.getLsbD 1 then n - 1 else if buttons.getLsbD 0 then n + 1 else n

theorem count_ofInt (buttons : BitVec 3) (n : ℤ) :
    count buttons (BitVec.ofInt 4 n) = BitVec.ofInt 4 (tally n buttons) := by
  have hdown : ∀ x : BitVec 4, x - 1 = x + BitVec.ofInt 4 (-1) := by decide
  unfold count tally
  dsimp only
  split
  · rfl
  split
  · rw [hdown, Int.sub_eq_add_neg, BitVec.ofInt_add]
  split
  · rw [BitVec.ofInt_add]
    rfl
  · rfl

/-- The counter looks at the buttons once in each period of the divider. -/
theorem length_sampled (t : ℕ) (buttons : List (BitVec 3)) : (sampled t buttons).length =
    Divider.risesBy 24 (t + buttons.length) - Divider.risesBy 24 t := by
  induction buttons generalizing t with
  | nil => exact (Nat.sub_self _).symm
  | cons b buttons ih =>
    have hmono := Divider.risesBy_mono (w := 24) (Nat.le_add_right (t + 1) buttons.length)
    have hsucc := Divider.risesBy_succ (w := 24) t
    rw [sampled, List.length_append, ih, List.length_cons,
      show t + (buttons.length + 1) = t + 1 + buttons.length by omega]
    by_cases ht : t % 2 ^ 25 + 1 = 2 ^ 24
    · rw [if_pos ht] at hsucc
      rw [if_pos ht, List.length_singleton]
      omega
    · rw [if_neg ht] at hsucc
      rw [if_neg ht, List.length_nil]
      omega

/-- **What the counter shows** after any edges: modulo 16, what the buttons it has looked at make of the number it
began with, and it looks at them as often as the slower clock rises. -/
theorem count_run (c : CounterBoard) (buttons : List (BitVec 3)) :
    (buttons.foldl CounterBoard.onClk c).counter =
        BitVec.ofInt 4 ((sampled c.divider.phase buttons).foldl tally c.counter.toNat) ∧
      (sampled c.divider.phase buttons).length =
        Divider.risesBy 24 (c.divider.phase + buttons.length) - Divider.risesBy 24 c.divider.phase := by
  -- the counter is a number modulo 16, and the divider somewhere in its period
  have hrun : ∀ (buttons : List (BitVec 3)) (c : CounterBoard) (t : ℕ) (n : ℤ), c.divider.phase = t % 2 ^ 25 →
      c.counter = BitVec.ofInt 4 n →
      (buttons.foldl CounterBoard.onClk c).counter = BitVec.ofInt 4 ((sampled t buttons).foldl tally n) := by
    intro buttons
    induction buttons with
    | nil =>
      intro c t n _ hn
      exact hn
    | cons b buttons ih =>
      intro c t n ht hn
      have hrise : c.divider.rises = true ↔ t % 2 ^ 25 + 1 = 2 ^ 24 := by rw [Divider.rises_iff, ht]
      have hphase : (c.onClk b).divider.phase = (t + 1) % 2 ^ 25 := by
        show c.divider.onClk.phase = _
        rw [Divider.phase_onClk, ht, Nat.mod_add_mod]
      rw [List.foldl_cons, sampled, List.foldl_append]
      refine ih (c.onClk b) (t + 1) _ hphase ?_
      show (if c.divider.rises then count b c.counter else c.counter) = _
      by_cases hr : c.divider.rises = true
      · rw [if_pos hr, if_pos (hrise.1 hr), hn, count_ofInt]
        rfl
      · rw [if_neg hr, if_neg fun he => hr (hrise.2 he), hn]
        rfl
  refine ⟨hrun buttons c c.divider.phase c.counter.toNat (Nat.mod_eq_of_lt c.divider.phase_lt).symm ?_,
    length_sampled _ _⟩
  rw [BitVec.ofInt_natCast, BitVec.ofNat_toNat, BitVec.setWidth_eq]

end TamuProofs.Jackpot
