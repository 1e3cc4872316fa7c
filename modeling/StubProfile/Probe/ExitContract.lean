import StubProfile.Probe.Registry

/-!
# The contract of `probe_exit`

`probe.h` promises that `probe_exit` destroys the idle threads, leaves alone the threads that are stopped inside a
probe, and returns 0 when no thread in use is left.  The loop in `thread.c` skips the idle threads and destroys the
others, so the call does what the contract says only when there is nothing to do (`NothingToExit`): no registered
thread is in use, and either the call returns at once or the registry is empty and `nb_exit` has run past
`nb_thread` (`probeExit_contract_iff`).
-/

namespace StubProfile.Probe

open Machine

variable {τ : Type} [DecidableEq τ] {hk : Hooks} {σ σ' : State τ} {c t u : τ}

def State.Destroyed (σ' : State τ) (i : Nat) (u : τ) : Prop :=
  (σ'.info u).state = .uninit ∧ σ'.threads i = none

/-- What `probe_exit` promises of a call from `σ` that ends in `σ'` and returns `ret`. -/
structure ExitContract (σ σ' : State τ) (ret : UInt32) : Prop where
  destroys : ∀ i u, σ.threads i = some u → (σ'.Destroyed i u ↔ (σ.info u).state = .idle)
  keeps : ∀ u, (σ.info u).state = .running → (σ'.info u).state = .running ∧
    (σ'.info u).data = (σ.info u).data ∧ ∀ i, σ.threads i = some u → σ'.threads i = some u
  returns : ret = 0 ∨ ret = 1
  returns_zero : ret = 0 ↔ ∀ u, σ'.Registered u → ¬ σ'.Live u

/-- No registered thread is in use, and the call returns at once or finds the registry empty and `nb_exit` past
`nb_thread`. -/
def NothingToExit (σ : State τ) : Prop :=
  (∀ u, σ.Registered u → ¬ σ.Live u) ∧
    (σ.nbExit = σ.nbThread ∨ σ.nbThread < σ.nbExit ∧ ∀ u, ¬ σ.Registered u)

omit [DecidableEq τ] in
private theorem exitContract_of_ctl (h : ∀ u, σ.Registered u → ¬ σ.Live u) (s : ProbeState) :
    ExitContract σ { σ with ctlState := s } 0 := by
  refine ⟨?_, ?_, .inl rfl, ?_⟩
  · intro i u hi
    constructor
    · rintro ⟨-, hnone⟩
      have hnone' : σ.threads i = none := hnone
      rw [hi] at hnone'
      cases hnone'
    · intro hidle
      exact absurd (.inl hidle) (h u ⟨i, hi⟩)
  · intro u hu
    exact ⟨hu, rfl, fun i hi => hi⟩
  · exact ⟨fun _ => h, fun _ => rfl⟩

private theorem nothingToExit_sufficient (h : NothingToExit σ) (hk : Hooks) (c : τ) :
    ExitContract σ (probeExit hk c σ).1 (probeExit hk c σ).2 := by
  obtain ⟨hlive, hnb⟩ := h
  rcases probeExit_cases hk c σ with ⟨-, he⟩ | ⟨hne, σ₁, hσ₁, hcase⟩
  · rw [he]
    exact exitContract_of_ctl hlive _
  · obtain ⟨hlt, hempty⟩ : σ.nbThread < σ.nbExit ∧ ∀ u, ¬ σ.Registered u := by
      rcases hnb with hnb | hnb
      · exact absurd hnb hne
      · exact hnb
    -- the loop finds every slot empty
    have hself : σ₁ = { σ with ctlState := .exit } := by
      rw [hσ₁]
      exact visits_eq_self fun i _ u hu => hempty u ⟨i, hu.1⟩
    rcases hcase with ⟨-, he⟩ | ⟨hlt', -⟩
    · rw [he, hself]
      exact exitContract_of_ctl hlive _
    · rw [hself] at hlt'
      have h1 := UInt8.lt_iff_toNat_lt.1 hlt
      have h2 := UInt8.lt_iff_toNat_lt.1 hlt'
      simp only at h2
      omega

private theorem probeExit_eq_visits (hne : σ.nbExit ≠ σ.nbThread) (hk : Hooks) (c : τ) :
    (probeExit hk c σ).1.threads = (visits hk c σ.nbThread.toNat { σ with ctlState := .exit }).threads ∧
      (probeExit hk c σ).1.info = (visits hk c σ.nbThread.toNat { σ with ctlState := .exit }).info := by
  rcases probeExit_cases hk c σ with ⟨he, -⟩ | ⟨-, σ₁, rfl, ⟨-, he⟩ | ⟨-, he⟩⟩
  · exact absurd he hne
  · rw [he]
    exact ⟨rfl, rfl⟩
  · rw [he]
    exact ⟨rfl, rfl⟩

/-- After the loop every registered thread is gone or was `IDLE`, and an `IDLE` one is still there. -/
private theorem exit_loop_outcome (hr : Registry σ) (hne : σ.nbExit ≠ σ.nbThread) (hk : Hooks) (c : τ) {i : Nat}
    (hi : σ.threads i = some u) :
    ((σ.info u).state = .idle → ((probeExit hk c σ).1.info u).state = .idle ∧
        (probeExit hk c σ).1.threads i = some u) ∧
      ((σ.info u).state ≠ .idle → (probeExit hk c σ).1.Destroyed i u) := by
  have hr' : Registry { σ with ctlState := .exit } := hr.setCtl _ _
  have hv := visits_spec hr'.slotsInj hk c σ.nbThread.toNat
  have hlt : i < σ.nbThread.toNat := hr.slot_lt hi
  obtain ⟨e1, e2⟩ := probeExit_eq_visits hne hk c
  unfold State.Destroyed
  rw [e1, e2]
  constructor
  · intro hidle
    have hnd : ∀ j, ¬ ({ σ with ctlState := .exit } : State τ).Doomed j u := fun j hd => hd.2 hidle
    refine ⟨(hv.state_kept u fun j _ => hnd j).trans hidle, ?_⟩
    rw [hv.slot_kept i fun _ w hw => ?_]
    · exact hi
    · have hwu : w = u := Option.some.inj (hw.1.symm.trans hi)
      exact hnd i (hwu ▸ hw)
  · intro hidle
    exact ⟨hv.state_gone i u hlt ⟨hi, hidle⟩, hv.slot_gone i u hlt ⟨hi, hidle⟩⟩

private theorem nothingToExit_necessary (hr : Registry σ) (hk : Hooks) (c : τ)
    (h : ExitContract σ (probeExit hk c σ).1 (probeExit hk c σ).2) : NothingToExit σ := by
  by_cases hne : σ.nbExit = σ.nbThread
  · -- the early return reports that no thread is left
    have he : probeExit hk c σ = ({ σ with ctlState := .exit }, 0) := by
      rcases probeExit_cases hk c σ with ⟨-, he⟩ | ⟨hne', -⟩
      · exact he
      · exact absurd hne hne'
    rw [he] at h
    exact ⟨h.returns_zero.1 rfl, .inl hne⟩
  · have hout := fun {i u} (hi : σ.threads i = some u) => exit_loop_outcome hr hne hk c hi
    -- an idle thread survives the loop, any other one is destroyed by it: both break the contract
    have hempty : ∀ u, ¬ σ.Registered u := by
      rintro u ⟨i, hi⟩
      by_cases hidle : (σ.info u).state = .idle
      · have h1 := ((h.destroys i u hi).2 hidle).1
        rw [((hout hi).1 hidle).1] at h1
        cases h1
      · exact hidle ((h.destroys i u hi).1 ((hout hi).2 hidle))
    refine ⟨fun u hu => absurd hu (hempty u), .inr ⟨?_, hempty⟩⟩
    rcases probeExit_cases hk c σ with ⟨he, -⟩ | ⟨-, σ₁, hσ₁, hcase⟩
    · exact absurd he hne
    · have hself : σ₁ = { σ with ctlState := .exit } := by
        rw [hσ₁]
        exact visits_eq_self fun i _ u hu => hempty u ⟨i, hu.1⟩
      rcases hcase with ⟨hle, -⟩ | ⟨-, he⟩
      · rw [hself] at hle
        have h1 := UInt8.le_iff_toNat_le.1 hle
        have h2 : σ.nbExit.toNat ≠ σ.nbThread.toNat := fun h2 => hne (UInt8.toNat_inj.1 h2)
        rw [UInt8.lt_iff_toNat_lt]
        simp only at h1
        omega
      · rw [he] at h
        have h0 := h.returns_zero.2 fun u hu => ?_
        · cases h0
        · rw [hself] at hu
          exact absurd hu (hempty u)

/-- From every reachable state, `probe_exit` keeps its contract exactly when there is nothing to do. -/
theorem probeExit_contract_iff (h : Reachable (step hk) (State.initial τ) σ) (c : τ) :
    ExitContract σ (probeExit hk c σ).1 (probeExit hk c σ).2 ↔ NothingToExit σ :=
  ⟨nothingToExit_necessary (Reachable.registry h) hk c, fun hn => nothingToExit_sufficient hn hk c⟩

/-- A thread whose initialisation failed is all there is: the call returns 0 at once. -/
theorem probeExit_contract_failed_thread :
    ∃ σ : State Bool, run (step funccHooks) (State.initial Bool) [.funccInit false 0 3 false] = .ok σ ∧
      σ.Registered false ∧ ExitContract σ (probeExit funccHooks false σ).1 (probeExit funccHooks false σ).2 := by
  refine ⟨_, rfl, ⟨0, rfl⟩, (probeExit_contract_iff ⟨[.funccInit false 0 3 false], rfl⟩ false).2 ⟨?_, .inl rfl⟩⟩
  intro u hu
  cases u with
  | false => rintro (hl | hl) <;> cases hl
  | true => rintro (hl | hl) <;> cases hl

/-- One thread is idle and one is stopped inside a probe: the call destroys the latter, keeps the former and
returns 1. -/
theorem probeExit_destroys_running :
    ∃ σ : State Bool, run (step funccHooks) (State.initial Bool)
        [.funccInit false 0 3 true, .countEnter true .pre 1 true, .countStep true] = .ok σ ∧
      (σ.info false).state = .idle ∧ (σ.info true).state = .running ∧
      ((probeExit funccHooks false σ).1.info false).state = .idle ∧
      ((probeExit funccHooks false σ).1.info true).state = .uninit ∧
      ¬ ExitContract σ (probeExit funccHooks false σ).1 (probeExit funccHooks false σ).2 := by
  refine ⟨_, rfl, rfl, rfl, rfl, rfl, ?_⟩
  intro h
  have h1 := (h.keeps true rfl).1
  cases h1

end StubProfile.Probe
