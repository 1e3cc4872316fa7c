import Mathlib.Tactic.Common

/-!
# Machines whose steps may fault

A machine is a step function `step : σ → α → Except ε σ`: in the state `s` the input `a` leads to a new state or
faults, and a run feeds a list of inputs to the machine until one of them faults.

* `Reachable.induct` is the invariant rule for all runs;
* `always_of_meets` is the invariant rule for the runs all of whose steps meet a condition on the state they are
  taken from;
* `always_iff_meets` turns a step-by-step equivalence into one over whole runs: when, from a state with the
  property `P`, a step keeps `P` exactly if it meets `cond`, the runs that keep `P` throughout are exactly the runs
  all of whose steps meet `cond`;
* `run_of_obeys` says that a machine does not fault as long as its inputs meet a condition under which no step faults,
  and `obeys_iff_obeys` compares two such conditions;
* `run_refines` is the rule of forward simulation: a machine follows a specification through every run of legal
  inputs when it follows every single one; `run_refines_map` has a second machine take the same steps, and
  `run_follows` is the rule for the runs that do not fault; `run_simulates` is the rule for a specification that is a
  relation;
* `run_project` is the rule for participants that do not disturb each other: what a run does to the view of one of them
  is what its own inputs alone do.
-/

namespace Machine

variable {σ α ε : Type} {step : σ → α → Except ε σ}

/-- Feed the inputs to the machine one after the other. -/
def run (step : σ → α → Except ε σ) : σ → List α → Except ε σ
  | s, [] => .ok s
  | s, a :: l =>
    match step s a with
    | .ok s' => run step s' l
    | .error e => .error e

/-- `s` is the state after some run from `s₀`. -/
def Reachable (step : σ → α → Except ε σ) (s₀ s : σ) : Prop := ∃ l, run step s₀ l = .ok s

/-- Every step of the run meets `cond` in the state it is taken from (a step that faults has no successor and is
not constrained). -/
def Meets (step : σ → α → Except ε σ) (cond : σ → α → Prop) : σ → List α → Prop
  | _, [] => True
  | s, a :: l => ∀ s', step s a = .ok s' → cond s a ∧ Meets step cond s' l

/-- `P` holds in every state the run goes through, the first one included. -/
def Always (step : σ → α → Except ε σ) (P : σ → Prop) : σ → List α → Prop
  | s, [] => P s
  | s, a :: l => P s ∧ ∀ s', step s a = .ok s' → Always step P s' l

/-! ### Runs and concatenation -/

@[simp] theorem run_nil (s : σ) : run step s [] = .ok s := rfl

theorem run_cons_ok {s s' : σ} {a : α} (l : List α) (h : step s a = .ok s') :
    run step s (a :: l) = run step s' l := by
  simp only [run, h]

theorem run_cons_eq_ok {s s₂ : σ} {a : α} {l : List α} :
    run step s (a :: l) = .ok s₂ ↔ ∃ s₁, step s a = .ok s₁ ∧ run step s₁ l = .ok s₂ := by
  cases h : step s a with
  | ok s₁ => rw [run_cons_ok l h]; simp
  | error e => simp [run, h]

theorem run_append_eq_ok {s s₂ : σ} {l₁ l₂ : List α} :
    run step s (l₁ ++ l₂) = .ok s₂ ↔ ∃ s₁, run step s l₁ = .ok s₁ ∧ run step s₁ l₂ = .ok s₂ := by
  induction l₁ generalizing s with
  | nil => simp
  | cons a l ih =>
    rw [List.cons_append, run_cons_eq_ok]
    constructor
    · rintro ⟨s₁, h1, h2⟩
      obtain ⟨s', h3, h4⟩ := ih.1 h2
      exact ⟨s', run_cons_eq_ok.2 ⟨s₁, h1, h3⟩, h4⟩
    · rintro ⟨s', h1, h2⟩
      obtain ⟨s₁, h3, h4⟩ := run_cons_eq_ok.1 h1
      exact ⟨s₁, h3, ih.2 ⟨s', h4, h2⟩⟩

/-! ### Invariants -/

/-- What holds at the start and is kept by every step holds in every reachable state. -/
theorem Reachable.induct {P : σ → Prop} {s₀ s : σ} (hr : Reachable step s₀ s) (h₀ : P s₀)
    (hstep : ∀ s a s', P s → step s a = .ok s' → P s') : P s := by
  obtain ⟨l, hl⟩ := hr
  induction l generalizing s₀ with
  | nil =>
    cases hl
    exact h₀
  | cons a l ih =>
    obtain ⟨s₁, h1, h2⟩ := run_cons_eq_ok.1 hl
    exact ih (hstep _ _ _ h₀ h1) h2

/-- What holds at the start and is kept by every step that meets `cond` holds throughout a run whose steps all
meet `cond`. -/
theorem always_of_meets {cond : σ → α → Prop} {P : σ → Prop}
    (hstep : ∀ s a s', P s → cond s a → step s a = .ok s' → P s') {s : σ} {l : List α} (h₀ : P s)
    (hm : Meets step cond s l) : Always step P s l := by
  induction l generalizing s with
  | nil => exact h₀
  | cons a l ih =>
    refine ⟨h₀, fun s' hs => ?_⟩
    obtain ⟨hc, hm'⟩ := hm s' hs
    exact ih (hstep _ _ _ h₀ hc hs) hm'

/-- The runs that keep `P` are those whose steps all meet `cond`, when a step from a state with `P` keeps `P`
exactly if it meets `cond`.  `B` is an invariant of all runs that the equivalence may use. -/
theorem always_iff_meets {cond : σ → α → Prop} {B P : σ → Prop}
    (hB : ∀ s a s', B s → step s a = .ok s' → B s')
    (hstep : ∀ s a s', B s → P s → step s a = .ok s' → (P s' ↔ cond s a)) {s : σ} {l : List α} (hb : B s)
    (hp : P s) : Always step P s l ↔ Meets step cond s l := by
  induction l generalizing s with
  | nil => exact ⟨fun _ => trivial, fun _ => hp⟩
  | cons a l ih =>
    constructor
    · intro h s' hs
      have hP : P s' := by
        have := h.2 s' hs
        cases l with
        | nil => exact this
        | cons b l => exact this.1
      exact ⟨(hstep _ _ _ hb hp hs).1 hP, (ih (hB _ _ _ hb hs) hP).1 (h.2 s' hs)⟩
    · intro h
      refine ⟨hp, fun s' hs => ?_⟩
      obtain ⟨hc, hm⟩ := h s' hs
      have hP : P s' := (hstep _ _ _ hb hp hs).2 hc
      exact (ih (hB _ _ _ hb hs) hP).2 hm

theorem Always.last {P : σ → Prop} {s s' : σ} {l : List α} (h : Always step P s l)
    (hl : run step s l = .ok s') : P s' := by
  induction l generalizing s with
  | nil =>
    cases hl
    exact h
  | cons a l ih =>
    obtain ⟨s₁, h1, h2⟩ := run_cons_eq_ok.1 hl
    exact ih (h.2 s₁ h1) h2

theorem Always.imp {P Q : σ → Prop} (hPQ : ∀ s, P s → Q s) {s : σ} {l : List α} (h : Always step P s l) :
    Always step Q s l := by
  induction l generalizing s with
  | nil => exact hPQ _ h
  | cons a l ih => exact ⟨hPQ _ h.1, fun s' hs => ih (h.2 s' hs)⟩

/-- A property kept by the steps that end with `P` holds throughout a run that keeps `P`. -/
theorem Always.strengthen {P Q : σ → Prop} (hstep : ∀ s a s', Q s → P s' → step s a = .ok s' → Q s') {s : σ}
    {l : List α} (hq : Q s) (h : Always step P s l) : Always step Q s l := by
  induction l generalizing s with
  | nil => exact hq
  | cons a l ih =>
    refine ⟨hq, fun s' hs => ?_⟩
    have hrest := h.2 s' hs
    have hp : P s' := by
      cases l with
      | nil => exact hrest
      | cons b l => exact hrest.1
    exact ih (hstep s a s' hq hp hs) hrest

/-- Two conditions on the steps allow the same runs, when they agree in the states that an invariant describes; the
invariant need only be kept by the steps that meet them. -/
theorem meets_iff_meets {cond cond' : σ → α → Prop} {B : σ → Prop}
    (hB : ∀ s a s', B s → cond s a → step s a = .ok s' → B s')
    (hiff : ∀ s a s', B s → step s a = .ok s' → (cond s a ↔ cond' s a)) {s : σ} {l : List α} (hb : B s) :
    Meets step cond s l ↔ Meets step cond' s l := by
  induction l generalizing s with
  | nil => exact Iff.rfl
  | cons a l ih =>
    refine forall_congr' fun s' => forall_congr' fun hs => ?_
    rw [hiff s a s' hb hs]
    refine and_congr_right fun hc => ?_
    exact ih (hB s a s' hb ((hiff s a s' hb hs).2 hc) hs)

/-- Every input meets `cond` in the state it is fed in, also one that faults. -/
def Obeys (step : σ → α → Except ε σ) (cond : σ → α → Prop) : σ → List α → Prop
  | _, [] => True
  | s, a :: l => cond s a ∧ ∀ s', step s a = .ok s' → Obeys step cond s' l

theorem Obeys.cons {cond : σ → α → Prop} {s s' : σ} {a : α} {l : List α} (hcond : cond s a) (hs : step s a = .ok s')
    (h : Obeys step cond s' l) : Obeys step cond s (a :: l) := by
  refine ⟨hcond, fun s₁ h1 => ?_⟩
  obtain rfl : s' = s₁ := Except.ok.inj (hs.symm.trans h1)
  exact h

/-- A machine whose steps do not fault and keep `P`, when they meet `cond`, runs to the end of such inputs. -/
theorem run_of_obeys {cond : σ → α → Prop} {P : σ → Prop}
    (hstep : ∀ s a, P s → cond s a → ∃ s', step s a = .ok s' ∧ P s') {s : σ} {l : List α} (h₀ : P s)
    (h : Obeys step cond s l) : ∃ s', run step s l = .ok s' ∧ P s' := by
  induction l generalizing s with
  | nil => exact ⟨s, rfl, h₀⟩
  | cons a l ih =>
    obtain ⟨s₁, h1, h2⟩ := hstep s a h₀ h.1
    obtain ⟨s', h3, h4⟩ := ih h2 (h.2 s₁ h1)
    exact ⟨s', (run_cons_ok l h1).trans h3, h4⟩

/-- The last of the inputs meets the condition too. -/
theorem Obeys.last {cond : σ → α → Prop} {s s' : σ} {l : List α} {a : α} (h : Obeys step cond s (l ++ [a]))
    (hrun : run step s l = .ok s') : cond s' a := by
  induction l generalizing s with
  | nil =>
    cases hrun
    exact h.1
  | cons b l ih =>
    obtain ⟨s₁, h1, h2⟩ := run_cons_eq_ok.1 hrun
    exact ih (h.2 s₁ h1) h2

/-- Two conditions allow the same inputs, when they agree in the states that an invariant of the allowed steps
describes. -/
theorem obeys_iff_obeys {legal : α → Prop} {cond cond' : σ → α → Prop} {B : σ → Prop}
    (hB : ∀ s a s', B s → legal a → cond' s a → step s a = .ok s' → B s')
    (hiff : ∀ s a, B s → (cond s a ↔ cond' s a)) {s : σ} {l : List α} (hb : B s) (hlegal : ∀ a ∈ l, legal a) :
    Obeys step cond s l ↔ Obeys step cond' s l := by
  induction l generalizing s with
  | nil => exact Iff.rfl
  | cons a l ih =>
    obtain ⟨ha, hl⟩ := List.forall_mem_cons.1 hlegal
    rw [Obeys, Obeys, hiff s a hb]
    refine and_congr_right fun hcond => forall_congr' fun s' => forall_congr' fun hs => ?_
    exact ih (hB s a s' hb ha hcond hs) hl

/-- Every input of the list is legal in the state that the inputs before it lead to, where `spec` says what an input
does. -/
def Allowed {τ : Type} (spec : τ → α → τ) (legal : τ → α → Prop) : τ → List α → Prop
  | _, [] => True
  | t, a :: l => legal t a ∧ Allowed spec legal (spec t a) l

theorem Allowed.and_mem {τ : Type} {spec : τ → α → τ} {legal : τ → α → Prop} {P : α → Prop} {t : τ} {l : List α}
    (h : Allowed spec legal t l) (hl : ∀ a ∈ l, P a) : Allowed spec (fun t a => legal t a ∧ P a) t l := by
  induction l generalizing t with
  | nil => trivial
  | cons a l ih =>
    exact ⟨⟨h.1, hl a List.mem_cons_self⟩, ih h.2 fun b hb => hl b (List.mem_cons_of_mem _ hb)⟩

/-- A machine that does not fault on legal inputs and follows `spec` on them, up to the relation `R`, follows it
through every run of legal inputs; and if a second machine takes the same steps, up to the map `f`, it takes the same
runs. -/
theorem run_refines_map {τ σ₂ : Type} {spec : τ → α → τ} {legal : τ → α → Prop} {R : τ → σ → Prop}
    {step₂ : σ₂ → α → Except ε σ₂} {f : σ → σ₂}
    (hstep : ∀ t s a, R t s → legal t a → ∃ s', step s a = .ok s' ∧ step₂ (f s) a = .ok (f s') ∧ R (spec t a) s')
    {t : τ} {s : σ} {l : List α} (h : R t s) (hl : Allowed spec legal t l) :
    ∃ s', run step s l = .ok s' ∧ run step₂ (f s) l = .ok (f s') ∧ R (l.foldl spec t) s' := by
  induction l generalizing t s with
  | nil => exact ⟨s, rfl, rfl, h⟩
  | cons a l ih =>
    obtain ⟨s₁, h1, h1', h2⟩ := hstep t s a h hl.1
    obtain ⟨s', h3, h3', h4⟩ := ih h2 hl.2
    exact ⟨s', (run_cons_ok l h1).trans h3, (run_cons_ok l h1').trans h3', h4⟩

/-- The rule for one machine. -/
theorem run_refines {τ : Type} {spec : τ → α → τ} {legal : τ → α → Prop} {R : τ → σ → Prop}
    (hstep : ∀ t s a, R t s → legal t a → ∃ s', step s a = .ok s' ∧ R (spec t a) s') {t : τ} {s : σ} {l : List α}
    (h : R t s) (hl : Allowed spec legal t l) : ∃ s', run step s l = .ok s' ∧ R (l.foldl spec t) s' := by
  have hboth : ∀ t s a, R t s → legal t a →
      ∃ s', step s a = .ok s' ∧ step (id s) a = .ok (id s') ∧ R (spec t a) s' := by
    intro t s a hR ha
    obtain ⟨s', hs, hR'⟩ := hstep t s a hR ha
    exact ⟨s', hs, hs, hR'⟩
  obtain ⟨s', hrun, -, hR⟩ := run_refines_map hboth h hl
  exact ⟨s', hrun, hR⟩

/-- A machine that follows `spec` on the legal inputs it does not fault on follows it through every run that does not
fault. -/
theorem run_follows {τ : Type} {spec : τ → α → τ} {legal : τ → α → Prop} {R : τ → σ → Prop}
    (hstep : ∀ t s a s', R t s → legal t a → step s a = .ok s' → R (spec t a) s') {t : τ} {s s' : σ} {l : List α}
    (h : R t s) (hl : Allowed spec legal t l) (hrun : run step s l = .ok s') : R (l.foldl spec t) s' := by
  induction l generalizing t s with
  | nil =>
    cases hrun
    exact h
  | cons a l ih =>
    obtain ⟨s₁, h1, h2⟩ := run_cons_eq_ok.1 hrun
    exact ih (hstep t s a s₁ h hl.1 h1) hl.2 h2

/-- The inputs of the list lead from `t` to `t'`, where `spec` relates the states before and behind an input. -/
def Traces {τ : Type} (spec : τ → α → τ → Prop) : τ → List α → τ → Prop
  | t, [], t' => t = t'
  | t, a :: l, t' => ∃ t₁, spec t a t₁ ∧ Traces spec t₁ l t'

/-- The rule for a specification that is a relation: what it allows the machine does, up to `R`. -/
theorem run_simulates {τ : Type} {spec : τ → α → τ → Prop} {R : τ → σ → Prop}
    (hstep : ∀ t s a t', R t s → spec t a t' → ∃ s', step s a = .ok s' ∧ R t' s') {t t' : τ} {s : σ} {l : List α}
    (h : R t s) (hl : Traces spec t l t') : ∃ s', run step s l = .ok s' ∧ R t' s' := by
  induction l generalizing t s with
  | nil =>
    cases hl
    exact ⟨s, rfl, h⟩
  | cons a l ih =>
    obtain ⟨t₁, ha, hl⟩ := hl
    obtain ⟨s₁, h1, h2⟩ := hstep t s a t₁ h ha
    obtain ⟨s', h3, h4⟩ := ih h2 hl
    exact ⟨s', (run_cons_ok l h1).trans h3, h4⟩

/-- The inputs that are `mine` act on equal views in the same way, and the others leave the view alone; then a run has the
effect on the view that its inputs that are `mine` have alone. -/
theorem run_project {ρ : Type} {legal : α → Prop} (view : σ → ρ) (mine : α → Bool)
    (hother : ∀ s a s', legal a → mine a = false → step s a = .ok s' → view s' = view s)
    (hmine : ∀ s₁ s₂ a s₁', legal a → mine a = true → view s₁ = view s₂ → step s₁ a = .ok s₁' →
      ∃ s₂', step s₂ a = .ok s₂' ∧ view s₁' = view s₂')
    {s₁ s₂ s₁' : σ} {l : List α} (hl : ∀ a ∈ l, legal a) (hview : view s₁ = view s₂) (h : run step s₁ l = .ok s₁') :
    ∃ s₂', run step s₂ (l.filter mine) = .ok s₂' ∧ view s₁' = view s₂' := by
  induction l generalizing s₁ s₂ with
  | nil =>
    cases h
    exact ⟨s₂, rfl, hview⟩
  | cons a l ih =>
    obtain ⟨t₁, h1, h2⟩ := run_cons_eq_ok.1 h
    have hlegal : legal a := hl a (by simp)
    have hrest : ∀ b ∈ l, legal b := fun b hb => hl b (by simp [hb])
    cases ha : mine a with
    | false =>
      rw [List.filter_cons_of_neg (by simp [ha])]
      exact ih hrest ((hother _ _ _ hlegal ha h1).trans hview) h2
    | true =>
      obtain ⟨t₂, h3, hview'⟩ := hmine _ _ _ _ hlegal ha hview h1
      obtain ⟨s₂', h4, h5⟩ := ih hrest hview' h2
      rw [List.filter_cons_of_pos ha, run_cons_ok _ h3]
      exact ⟨s₂', h4, h5⟩

/-- A run as a sequence of steps. -/
theorem traces_of_run {s s' : σ} {l : List α} (h : run step s l = .ok s') :
    Traces (fun s a s' => step s a = .ok s') s l s' := by
  induction l generalizing s with
  | nil => exact Except.ok.inj h
  | cons a l ih =>
    obtain ⟨s₁, h1, h2⟩ := run_cons_eq_ok.1 h
    exact ⟨s₁, h1, ih h2⟩

theorem Meets.cons {cond : σ → α → Prop} {s s₁ : σ} {a : α} {l : List α} (h : step s a = .ok s₁)
    (hc : cond s a) (hm : Meets step cond s₁ l) : Meets step cond s (a :: l) := by
  intro s' hs
  rw [h] at hs
  cases hs
  exact ⟨hc, hm⟩

theorem Meets.left {cond : σ → α → Prop} {s : σ} {l₁ l₂ : List α} (h : Meets step cond s (l₁ ++ l₂)) :
    Meets step cond s l₁ := by
  induction l₁ generalizing s with
  | nil => trivial
  | cons a l ih =>
    intro s' hs
    obtain ⟨hc, hm⟩ := h s' hs
    exact ⟨hc, ih hm⟩

theorem Meets.right {cond : σ → α → Prop} {s s' : σ} {l₁ l₂ : List α} (h : Meets step cond s (l₁ ++ l₂))
    (hl : run step s l₁ = .ok s') : Meets step cond s' l₂ := by
  induction l₁ generalizing s with
  | nil =>
    cases hl
    exact h
  | cons a l ih =>
    obtain ⟨s₁, h1, h2⟩ := run_cons_eq_ok.1 hl
    exact ih (h s₁ h1).2 h2

end Machine
