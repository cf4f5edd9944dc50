import Mathlib.Logic.Basic

/-!
Runs of a deterministic machine that may also go wrong: a step is a partial function, `none` standing
for a step whose behaviour is not defined.

* `AllStates step P s es` — the run of the events `es` from `s` is defined throughout and every state
  it goes through satisfies `P`;
* `AllSteps step C s es` — every step of the run is taken from a state and on an event that `C` allows.

`allStates_iff_allSteps` is the exactness rule: if `C` is what it takes to keep an invariant, and every
step outside `C` leaves `P`, then the runs that stay in `P` are the runs whose steps are all in `C`;
`allStates_iff_allSteps_within` is the same rule for the runs that an assumption on their steps admits, and
`allStates_and_allSteps_iff` for a property of the states together with one of the steps.
-/

namespace TamuProofs.Lib

variable {σ ε : Type*}

/-- The run of `es` from `s` is defined, and `P` holds in every state of it. -/
def AllStates (step : σ → ε → Option σ) (P : σ → Prop) : σ → List ε → Prop
  | s, [] => P s
  | s, e :: es => P s ∧ ∃ s', step s e = some s' ∧ AllStates step P s' es

/-- Every step of the run of `es` from `s` meets `C`, a condition on the state before it and the event. -/
def AllSteps (step : σ → ε → Option σ) (C : σ → ε → Prop) : σ → List ε → Prop
  | _, [] => True
  | s, e :: es => C s e ∧ ∀ s', step s e = some s' → AllSteps step C s' es

variable {step : σ → ε → Option σ} {P I : σ → Prop} {C : σ → ε → Prop}

theorem AllStates.head {s : σ} {es : List ε} (h : AllStates step P s es) : P s := by
  cases es with
  | nil => exact h
  | cons e es => exact h.1

/-- **The invariant rule.** An invariant that every allowed step keeps holds along every run whose steps
are all allowed. -/
theorem allStates_of_allSteps (hstep : ∀ s e, I s → C s e → ∃ s', step s e = some s' ∧ I s') :
    ∀ {es : List ε} {s : σ}, I s → AllSteps step C s es → AllStates step I s es := by
  intro es
  induction es with
  | nil => intro s hs _; exact hs
  | cons e es ih =>
    intro s hs hC
    obtain ⟨s', he, hs'⟩ := hstep s e hs hC.1
    exact ⟨hs, s', he, ih hs' (hC.2 s' he)⟩

theorem inv_of_run (hstep : ∀ s e s', I s → step s e = some s' → I s') :
    ∀ {es : List ε} {s s' : σ}, I s → es.foldlM step s = some s' → I s' := by
  intro es
  induction es with
  | nil =>
    intro s s' hs h
    cases h
    exact hs
  | cons e es ih =>
    intro s s' hs h
    rw [List.foldlM_cons] at h
    obtain ⟨t, ht, h⟩ := Option.bind_eq_some_iff.1 h
    exact ih (hstep s e t hs ht) h

/-- The invariant rule for a machine that never goes wrong: an invariant that every allowed step keeps holds at
the end of every run whose steps are all allowed. -/
theorem inv_of_allSteps {next : σ → ε → σ} (hstep : ∀ s e, I s → C s e → I (next s e)) :
    ∀ {es : List ε} {s : σ}, I s → AllSteps (fun s e => some (next s e)) C s es → I (es.foldl next s) := by
  intro es
  induction es with
  | nil => intro s hs _; exact hs
  | cons e es ih =>
    intro s hs h
    exact ih (hstep s e hs h.1) (h.2 _ rfl)

/-- An invariant that every allowed step keeps, if it is defined, holds at the end of every run that gets to its end
by allowed steps. -/
theorem inv_of_allowed_run (hstep : ∀ s e s', I s → C s e → step s e = some s' → I s') :
    ∀ {es : List ε} {s s' : σ}, I s → AllSteps step C s es → es.foldlM step s = some s' → I s' := by
  intro es
  induction es with
  | nil =>
    intro s s' hs _ h
    cases h
    exact hs
  | cons e es ih =>
    intro s s' hs hC h
    rw [List.foldlM_cons] at h
    obtain ⟨t, ht, h⟩ := Option.bind_eq_some_iff.1 h
    exact ih (hstep s e t hs hC.1 ht) (hC.2 t ht) h

theorem AllStates.last : ∀ {es : List ε} {s : σ}, AllStates step P s es →
    ∃ s', es.foldlM step s = some s' ∧ P s' := by
  intro es
  induction es with
  | nil => intro s h; exact ⟨s, rfl, h⟩
  | cons e es ih =>
    rintro s ⟨-, s', he, h⟩
    obtain ⟨t, ht, hP⟩ := ih h
    exact ⟨t, by simp [List.foldlM_cons, he, ht], hP⟩

theorem AllStates.mono {Q : σ → Prop} (hPQ : ∀ s, P s → Q s) :
    ∀ {es : List ε} {s : σ}, AllStates step P s es → AllStates step Q s es := by
  intro es
  induction es with
  | nil => intro s h; exact hPQ s h
  | cons e es ih =>
    rintro s ⟨hs, s', he, h⟩
    exact ⟨hPQ s hs, s', he, ih h⟩

theorem AllSteps.mono {D : σ → ε → Prop} (hCD : ∀ s e, C s e → D s e) :
    ∀ {es : List ε} {s : σ}, AllSteps step C s es → AllSteps step D s es := by
  intro es
  induction es with
  | nil => intro s _; trivial
  | cons e es ih =>
    intro s h
    exact ⟨hCD s e h.1, fun s' he => ih (h.2 s' he)⟩

theorem AllSteps.and {D : σ → ε → Prop} : ∀ {es : List ε} {s : σ}, AllSteps step C s es → AllSteps step D s es →
    AllSteps step (fun s e => C s e ∧ D s e) s es := by
  intro es
  induction es with
  | nil => intro s _ _; trivial
  | cons e es ih =>
    intro s hC hD
    exact ⟨⟨hC.1, hD.1⟩, fun s' he => ih (hC.2 s' he) (hD.2 s' he)⟩

theorem allSteps_of_forall : ∀ {es : List ε} {s : σ}, (∀ e ∈ es, ∀ s, C s e) → AllSteps step C s es := by
  intro es
  induction es with
  | nil => intro s _; trivial
  | cons e es ih =>
    intro s h
    exact ⟨h e List.mem_cons_self s, fun s' _ => ih fun e' he' => h e' (List.mem_cons_of_mem _ he')⟩

/-- What an invariant gives for every step, along a run of events that meet `D`. -/
theorem allSteps_of_inv {D : ε → Prop} (hC : ∀ s e, I s → D e → C s e)
    (hstep : ∀ s e s', I s → D e → step s e = some s' → I s') :
    ∀ {es : List ε} {s : σ}, I s → (∀ e ∈ es, D e) → AllSteps step C s es := by
  intro es
  induction es with
  | nil => intro s _ _; trivial
  | cons e es ih =>
    intro s hs hD
    have he : D e := hD e List.mem_cons_self
    exact ⟨hC s e hs he, fun s' hs' => ih (hstep s e s' hs he hs') fun e' he' => hD e' (List.mem_cons_of_mem _ he')⟩

theorem allSteps_congr {D : σ → ε → Prop} (hCD : ∀ s e, I s → (C s e ↔ D s e))
    (hstep : ∀ s e s', I s → step s e = some s' → I s') :
    ∀ {es : List ε} {s : σ}, I s → (AllSteps step C s es ↔ AllSteps step D s es) := by
  intro es
  induction es with
  | nil => intro s _; exact Iff.rfl
  | cons e es ih =>
    intro s hs
    refine and_congr (hCD s e hs) (forall₂_congr fun s' he => ?_)
    exact ih (hstep s e s' hs he)

theorem AllStates.allSteps (hPC : ∀ s e, P s → C s e) :
    ∀ {es : List ε} {s : σ}, AllStates step P s es → AllSteps step C s es := by
  intro es
  induction es with
  | nil => intro s _; trivial
  | cons e es ih =>
    rintro s ⟨hs, s', he, h⟩
    refine ⟨hPC s e hs, fun t ht => ?_⟩
    obtain rfl : s' = t := Option.some.inj (he.symm.trans ht)
    exact ih h

theorem allSteps_cons_none {s : σ} {e : ε} {es : List ε} (h : step s e = none) :
    AllSteps step C s (e :: es) ↔ C s e := by
  refine ⟨And.left, fun hC => ⟨hC, fun s' hs' => ?_⟩⟩
  rw [h] at hs'
  cases hs'

theorem allSteps_cons_some {s s' : σ} {e : ε} {es : List ε} (h : step s e = some s') :
    AllSteps step C s (e :: es) ↔ C s e ∧ AllSteps step C s' es := by
  refine ⟨fun hs => ⟨hs.1, hs.2 s' h⟩, fun hs => ⟨hs.1, fun t ht => ?_⟩⟩
  obtain rfl : s' = t := Option.some.inj (h.symm.trans ht)
  exact hs.2

theorem foldlM_cons_some {s s' : σ} {e : ε} {es : List ε} (h : step s e = some s') :
    (e :: es).foldlM step s = es.foldlM step s' := by
  rw [List.foldlM_cons, h]
  rfl

theorem foldlM_append_some {s s' : σ} {es fs : List ε} (h : es.foldlM step s = some s') :
    (es ++ fs).foldlM step s = fs.foldlM step s' := by
  rw [List.foldlM_append, h]
  rfl

theorem AllSteps.append : ∀ {es fs : List ε} {s : σ}, AllSteps step C s es →
    (∀ s', es.foldlM step s = some s' → AllSteps step C s' fs) → AllSteps step C s (es ++ fs) := by
  intro es fs
  induction es with
  | nil => intro s _ h; exact h s rfl
  | cons e es ih =>
    intro s hes h
    exact ⟨hes.1, fun t ht => ih (hes.2 t ht) fun s' hs' => h s' ((foldlM_cons_some ht).trans hs')⟩

theorem allSteps_append {next : σ → ε → σ} : ∀ {es fs : List ε} {s : σ},
    AllSteps (fun s e => some (next s e)) C s es →
    AllSteps (fun s e => some (next s e)) C (es.foldl next s) fs →
    AllSteps (fun s e => some (next s e)) C s (es ++ fs) := by
  intro es fs
  induction es with
  | nil => intro s _ h; exact h
  | cons e es ih => intro s hes h; exact (allSteps_cons_some rfl).2 ⟨hes.1, ih (hes.2 _ rfl) h⟩

theorem AllSteps.of_append : ∀ {es fs : List ε} {s : σ}, AllSteps step C s (es ++ fs) → AllSteps step C s es := by
  intro es fs
  induction es with
  | nil => intro s _; trivial
  | cons e es ih => intro s h; exact ⟨h.1, fun s' hs' => ih (h.2 s' hs')⟩

theorem AllSteps.last_step : ∀ {es : List ε} {s s' : σ} {e : ε}, AllSteps step C s (es ++ [e]) →
    es.foldlM step s = some s' → C s' e := by
  intro es
  induction es with
  | nil =>
    intro s s' e h hs
    cases hs
    exact h.1
  | cons e' es ih =>
    intro s s' e h hs
    rw [List.foldlM_cons] at hs
    obtain ⟨t, ht, hs⟩ := Option.bind_eq_some_iff.1 hs
    exact ih (h.2 t ht) hs

theorem allSteps_isSome_of_run : ∀ {es : List ε} {s s' : σ}, es.foldlM step s = some s' →
    AllSteps step (fun s e => (step s e).isSome = true) s es := by
  intro es
  induction es with
  | nil => intro s s' _; trivial
  | cons e es ih =>
    intro s s' h
    rw [List.foldlM_cons] at h
    obtain ⟨t, ht, h⟩ := Option.bind_eq_some_iff.1 h
    refine ⟨Option.isSome_iff_exists.2 ⟨t, ht⟩, fun u hu => ?_⟩
    obtain rfl : t = u := Option.some.inj (ht.symm.trans hu)
    exact ih h

/-- **The exactness rule.** When the allowed steps keep `I`, and a step that ends in `P` was an allowed
one, a run stays in `P` if and only if all its steps are allowed. -/
theorem allStates_iff_allSteps (hP : ∀ s, I s → P s)
    (hstep : ∀ s e, I s → C s e → ∃ s', step s e = some s' ∧ I s')
    (hback : ∀ s e s', I s → step s e = some s' → P s' → C s e) :
    ∀ {es : List ε} {s : σ}, I s → (AllStates step P s es ↔ AllSteps step C s es) := by
  intro es s hs
  refine ⟨fun h => ?_, fun h => (allStates_of_allSteps hstep hs h).mono hP⟩
  induction es generalizing s with
  | nil => trivial
  | cons e es ih =>
    obtain ⟨-, s', he, h⟩ := h
    have hC : C s e := hback s e s' hs he h.head
    obtain ⟨t, ht, hI⟩ := hstep s e hs hC
    refine ⟨hC, fun u hu => ?_⟩
    obtain rfl : s' = u := Option.some.inj (he.symm.trans hu)
    obtain rfl : s' = t := Option.some.inj (he.symm.trans ht)
    exact ih hI h

/-- The exactness rule within the runs whose steps all meet an assumption `D`. -/
theorem allStates_iff_allSteps_within {D : σ → ε → Prop} (hP : ∀ s, I s → P s)
    (hstep : ∀ s e, I s → D s e → C s e → ∃ s', step s e = some s' ∧ I s')
    (hback : ∀ s e s', I s → D s e → step s e = some s' → P s' → C s e) :
    ∀ {es : List ε} {s : σ}, I s → AllSteps step D s es → (AllStates step P s es ↔ AllSteps step C s es) := by
  intro es
  induction es with
  | nil => intro s hs _; exact ⟨fun _ => trivial, fun _ => hP s hs⟩
  | cons e es ih =>
    intro s hs hD
    constructor
    · rintro ⟨-, s', he, h⟩
      have hC : C s e := hback s e s' hs hD.1 he h.head
      obtain ⟨t, ht, hI⟩ := hstep s e hs hD.1 hC
      refine ⟨hC, fun u hu => ?_⟩
      obtain rfl : s' = u := Option.some.inj (he.symm.trans hu)
      obtain rfl : s' = t := Option.some.inj (he.symm.trans ht)
      exact (ih hI (hD.2 s' he)).1 h
    · intro h
      obtain ⟨t, ht, hI⟩ := hstep s e hs hD.1 h.1
      exact ⟨hP s hs, t, ht, (ih hI (hD.2 t ht)).2 (h.2 t ht)⟩

/-- The exactness rule for a property of the states together with a property `Q` of the steps. -/
theorem allStates_and_allSteps_iff {Q : σ → ε → Prop} (hP : ∀ s, I s → P s)
    (hstep : ∀ s e, I s → C s e → ∃ s', step s e = some s' ∧ I s') (hQ : ∀ s e, I s → C s e → Q s e)
    (hback : ∀ s e s', I s → step s e = some s' → P s' → Q s e → C s e) :
    ∀ {es : List ε} {s : σ}, I s →
      (AllStates step P s es ∧ AllSteps step Q s es ↔ AllSteps step C s es) := by
  intro es
  induction es with
  | nil => intro s hs; exact ⟨fun _ => trivial, fun _ => ⟨hP s hs, trivial⟩⟩
  | cons e es ih =>
    intro s hs
    constructor
    · rintro ⟨⟨-, s', he, h⟩, hq, hqs⟩
      have hC : C s e := hback s e s' hs he h.head hq
      obtain ⟨t, ht, hI⟩ := hstep s e hs hC
      obtain rfl : s' = t := Option.some.inj (he.symm.trans ht)
      exact (allSteps_cons_some he).2 ⟨hC, (ih hI).1 ⟨h, hqs s' he⟩⟩
    · intro h
      obtain ⟨t, ht, hI⟩ := hstep s e hs h.1
      obtain ⟨hstates, hsteps⟩ := (ih hI).2 (h.2 t ht)
      exact ⟨⟨hP s hs, t, ht, hstates⟩, (allSteps_cons_some ht).2 ⟨hQ s e hs h.1, hsteps⟩⟩

/-! ### Concrete runs -/

/-- A condition that can be tested at every step can be tested along a run. -/
instance decidableAllSteps [∀ s e, Decidable (C s e)] : ∀ s es, Decidable (AllSteps step C s es)
  | _, [] => .isTrue trivial
  | s, e :: es =>
    match h : step s e with
    | none => decidable_of_iff' (C s e) (allSteps_cons_none h)
    | some s' =>
      have := decidableAllSteps s' es
      decidable_of_iff' (C s e ∧ AllSteps step C s' es) (allSteps_cons_some h)

end TamuProofs.Lib
