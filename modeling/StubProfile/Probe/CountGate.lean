import StubProfile.Probe.Registry

/-!
# The gate of the counting functions

`funcc_count_pre` and `funcc_count_post` test the state of the thread once.  An uninitialised thread calls
`probe_thread_init` and goes on to the increment whatever came of it: the global state may not be `RUNNING`, or
the initialisation may have failed, and then the data pointer is `NULL` (`gate_falls_through`).  The second way to
an increment without data is `probe_exit`, whose loop destroys the threads that are not `IDLE`, those inside a
probe among them.

`GateStep` excludes these two, and nothing else: a counting call of an uninitialised thread finds the library
running and gets its block, and `probe_exit` finds no thread to destroy.  In the runs whose steps all meet it
every increment is safe (`increment_safe_of_gateStep`).
-/

namespace StubProfile.Probe

open Machine

variable {τ : Type} [DecidableEq τ] {hk : Hooks} {σ σ' : State τ} {c t u : τ} {m : Bool}

def State.AtIncrement (σ : State τ) (t : τ) : Prop := ∃ k func, σ.pc t = .counting k func

/-- In `σ₂`, every thread at its increment has data and was initialised successfully, and a thread whose
initialisation had failed in the earlier state `σ₁` is in the state `ERROR` and not at an increment. -/
def IncrementSafe (σ₁ σ₂ : State τ) : Prop :=
  (∀ t, σ₂.AtIncrement t → (σ₂.info t).data ≠ none ∧ σ₂.inited t = .succeeded) ∧
    ∀ t, σ₁.inited t = .failed → (σ₂.info t).state = .error ∧ ¬ σ₂.AtIncrement t

/-- The steps that go through the gate and through `probe_exit` without reaching the defects. -/
def GateStep (hk : Hooks) (σ : State τ) : Call τ → Prop
  | .countEnter t _ _ m =>
    σ.pc t = .outside → (σ.info t).state = .uninit → σ.ctlState = .running ∧ hk.ready σ.idxRange m = true
  | .probeExit _ => σ.nbExit ≠ σ.nbThread → ∀ i u, ¬ σ.Doomed i u
  | .threadGlobalExit _ => σ.ctlState ≠ .uninit → σ.nbExit ≠ σ.nbThread → ∀ i u, ¬ σ.Doomed i u
  | _ => True

structure GateInv (σ : State τ) : Prop where
  live : ∀ {t}, σ.Live t → (σ.info t).data ≠ none ∧ σ.inited t = .succeeded
  failed : ∀ {t}, σ.inited t = .failed → (σ.info t).state = .error
  inside : ∀ {t}, σ.pc t ≠ .outside → σ.Live t

omit [DecidableEq τ] in
private theorem not_live_of_uninit (h : (σ.info t).state = .uninit) : ¬ σ.Live t := by
  rintro (hl | hl) <;> rw [h] at hl <;> cases hl

omit [DecidableEq τ] in
private theorem not_live_of_error (h : (σ.info t).state = .error) : ¬ σ.Live t := by
  rintro (hl | hl) <;> rw [h] at hl <;> cases hl

omit [DecidableEq τ] in
private theorem gateInv_initial : GateInv (State.initial τ) := by
  refine ⟨?_, ?_, ?_⟩
  · intro t ht
    exact absurd ht (not_live_of_uninit rfl)
  · intro t ht
    cases ht
  · intro t ht
    exact absurd rfl ht

omit [DecidableEq τ] in
private theorem GateInv.setCtl (h : GateInv σ) (r : Range) (s : ProbeState) :
    GateInv { σ with idxRange := r, ctlState := s } :=
  ⟨fun ht => h.live ht, fun ht => h.failed ht, fun ht => h.inside ht⟩

omit [DecidableEq τ] in
private theorem GateInv.setHeap (h : GateInv σ) (heap : Nat → List FunccCounter) : GateInv { σ with heap := heap } :=
  ⟨fun ht => h.live ht, fun ht => h.failed ht, fun ht => h.inside ht⟩

private theorem GateInv.setPc (h : GateInv σ) (t : τ) (p : Pc) (hp : p ≠ .outside → σ.Live t) :
    GateInv (σ.setPc t p) := by
  refine ⟨fun ht => h.live ht, fun ht => h.failed ht, ?_⟩
  intro u hu
  by_cases hut : u = t
  · subst hut
    simp only [State.setPc, Function.update_self] at hu
    exact hp hu
  · simp only [State.setPc, Function.update_of_ne hut] at hu
    exact h.inside hu

/-- A live thread may change its state to `RUNNING` or back to `IDLE`. -/
private theorem GateInv.setState (h : GateInv σ) (ht : σ.Live t) {s : ProbeState} (hs : s = .idle ∨ s = .running) :
    GateInv (σ.setState t s) := by
  have hlive : ∀ {u}, (σ.setState t s).Live u → σ.Live u := by
    intro u hu
    by_cases hut : u = t
    · rw [hut]
      exact ht
    · simpa [State.Live, State.setState, hut] using hu
  refine ⟨?_, ?_, ?_⟩
  · intro u hu
    have := h.live (hlive hu)
    by_cases hut : u = t
    · subst hut
      simpa [State.setState] using this
    · simpa [State.setState, hut] using this
  · intro u hu
    have hu' : σ.inited u = .failed := hu
    have hut : u ≠ t := by
      rintro rfl
      exact not_live_of_error (h.failed hu') ht
    simpa [State.setState, hut] using h.failed hu'
  · intro u hu
    by_cases hut : u = t
    · subst hut
      simpa [State.Live, State.setState] using hs
    · simpa [State.Live, State.setState, hut] using h.inside hu

private theorem createData_data {dataInit : Range → Bool → Option (List FunccCounter)}
    (hd : hk.threadDataInit = some dataInit) (hr : hk.ready σ.idxRange m = true) :
    ((createData hk t m σ).info t).data = some σ.brk := by
  simp only [Hooks.ready, hd, Option.isSome_iff_exists] at hr
  obtain ⟨counters, hb⟩ := hr
  simp [createData, hd, hb, State.setState, State.setData, State.setInited]

private theorem createData_inited_other (hu : u ≠ t) : (createData hk t m σ).inited u = σ.inited u := by
  cases hr : hk.ready σ.idxRange m with
  | true => rw [(createData_of_ready hr).2.2, Function.update_of_ne hu]
  | false => rw [(createData_of_not_ready hr).2.2, Function.update_of_ne hu]

private theorem GateInv.createData {dataInit : Range → Bool → Option (List FunccCounter)}
    (hd : hk.threadDataInit = some dataInit) (h : GateInv σ) (ht : (σ.info t).state = .uninit) :
    GateInv (createData hk t m σ) := by
  have hpc := (createData_frame hk t m σ).2.2.2.1
  have hout : σ.pc t = .outside := not_not.1 fun hp => not_live_of_uninit ht (h.inside hp)
  refine ⟨?_, ?_, ?_⟩
  · intro u hu
    by_cases hut : u = t
    · subst hut
      cases hr : hk.ready σ.idxRange m with
      | true => simp [createData_data hd hr, (createData_of_ready hr).2.2]
      | false => exact absurd hu (not_live_of_error (createData_of_not_ready hr).1)
    · unfold State.Live at hu
      rw [createData_info_other hut] at hu ⊢
      rw [createData_inited_other hut]
      exact h.live hu
  · intro u hu
    by_cases hut : u = t
    · subst hut
      cases hr : hk.ready σ.idxRange m with
      | true => simp [(createData_of_ready hr).2.2] at hu
      | false => exact (createData_of_not_ready hr).1
    · rw [createData_inited_other hut] at hu
      rw [createData_info_other hut]
      exact h.failed hu
  · intro u hu
    rw [hpc] at hu
    have hut : u ≠ t := by
      rintro rfl
      exact hu hout
    unfold State.Live
    rw [createData_info_other hut]
    exact h.inside hu

private theorem GateInv.withTid (h : GateInv σ) (t : τ) : GateInv (σ.withTid t) := by
  have hinfo : ∀ u, ((σ.withTid t).info u).state = (σ.info u).state ∧
      ((σ.withTid t).info u).data = (σ.info u).data := by
    intro u
    by_cases hut : u = t <;> simp [State.withTid, hut]
  have hlive : ∀ {u}, (σ.withTid t).Live u ↔ σ.Live u := by
    intro u
    unfold State.Live
    rw [(hinfo u).1]
  refine ⟨?_, ?_, ?_⟩
  · intro u hu
    rw [(hinfo u).2]
    exact h.live (hlive.1 hu)
  · intro u hu
    rw [(hinfo u).1]
    exact h.failed hu
  · intro u hu
    exact hlive.2 (h.inside hu)

private theorem GateInv.probeThreadInit {dataInit : Range → Bool → Option (List FunccCounter)}
    (hd : hk.threadDataInit = some dataInit) (h : GateInv σ) (hs : probeThreadInit hk t m σ = .ok σ') :
    GateInv σ' := by
  rcases probeThreadInit_cases hs with ⟨-, rfl⟩ | ⟨hr, σ₁, hg, rfl⟩
  · exact h
  · rcases generateTid_cases hg with ⟨-, -, rfl⟩ | ⟨-, rfl⟩
    · exact (h.withTid t).createData hd (by simpa [State.withTid] using hr.2)
    · exact h.createData hd hr.2

/-- `probe_exit` without a thread to destroy changes the global state only. -/
private theorem probeExit_of_not_doomed (h : σ.nbExit ≠ σ.nbThread → ∀ i u, ¬ σ.Doomed i u) (hk : Hooks) (c : τ) :
    ∃ s, (probeExit hk c σ).1 = { σ with ctlState := s } := by
  rcases probeExit_cases hk c σ with ⟨-, he⟩ | ⟨hne, σ₁, hσ₁, ⟨-, he⟩ | ⟨-, he⟩⟩ <;> rw [he]
  · exact ⟨.exit, rfl⟩
  · have hself : σ₁ = { σ with ctlState := .exit } := by
      rw [hσ₁]
      exact visits_eq_self fun i _ u hu => h hne i u hu
    exact ⟨.uninit, by rw [hself]⟩
  · have hself : σ₁ = { σ with ctlState := .exit } := by
      rw [hσ₁]
      exact visits_eq_self fun i _ u hu => h hne i u hu
    exact ⟨.exit, hself⟩

private theorem gateInv_step {dataInit : Range → Bool → Option (List FunccCounter)}
    (hd : hk.threadDataInit = some dataInit) (h : GateInv σ) {a : Call τ} (hc : GateStep hk σ a)
    (hs : step hk σ a = .ok σ') : GateInv σ' := by
  cases a with
  | funccInit t min max m =>
    simp only [step, funccInit] at hs
    split at hs
    · cases hs
      exact h
    · exact (h.setCtl _ _).probeThreadInit hd hs
  | threadGlobalExit t =>
    simp only [step, threadGlobalExit] at hs
    cases hs
    split
    · rename_i hst
      obtain ⟨s, he⟩ := probeExit_of_not_doomed (hc hst) hk t
      rw [he]
      exact h.setCtl _ _
    · exact h
  | probeThreadInit t m => exact h.probeThreadInit hd hs
  | probeExit t =>
    cases hs
    obtain ⟨s, he⟩ := probeExit_of_not_doomed hc hk t
    rw [he]
    exact h.setCtl _ _
  | countEnter t k func m =>
    rcases countEnter_cases hs with ⟨-, rfl⟩ | ⟨-, hi, rfl⟩ | ⟨hp, hu, σ₁, hi, rfl⟩
    · exact h
    · exact h.setPc _ _ fun _ => .inl hi
    · obtain ⟨hrun, hready⟩ := hc hp hu
      refine (h.probeThreadInit hd hi).setPc _ _ fun _ => .inl ?_
      -- the initialisation ran and got its block, so the thread is `IDLE` now
      rcases probeThreadInit_cases hi with ⟨hn, -⟩ | ⟨-, σ₂, hg, rfl⟩
      · exact absurd ⟨hrun, hu⟩ hn
      · rcases generateTid_cases hg with ⟨-, -, rfl⟩ | ⟨-, rfl⟩
        · have hready' : hk.ready (σ.withTid t).idxRange m = true := hready
          exact (createData_of_ready hready').1
        · exact (createData_of_ready hready).1
  | countStep t =>
    rcases funccCountStep_cases hs with ⟨-, rfl⟩ | ⟨k, func, hp, rfl⟩ | ⟨k, func, heap, hp, rfl⟩ | ⟨hp, rfl⟩
    · exact h
    · have hl : σ.Live t := h.inside (by rw [hp]; simp)
      exact (h.setState hl (.inr rfl)).setPc _ _ fun _ => .inr (by simp [State.setState])
    · have hl : σ.Live t := h.inside (by rw [hp]; simp)
      exact (h.setHeap heap).setPc _ _ fun _ => hl
    · have hl : σ.Live t := h.inside (by rw [hp]; simp)
      exact (h.setState hl (.inl rfl)).setPc _ _ fun hne => absurd rfl hne

/-- Only an uninitialised thread is initialised again. -/
private theorem GateInv.failed_probeThreadInit (h : GateInv σ) (hs : Probe.probeThreadInit hk u m σ = .ok σ')
    (ht : σ.inited t = .failed) : σ'.inited t = .failed := by
  rcases probeThreadInit_cases hs with ⟨-, rfl⟩ | ⟨hr, σ₁, hg, rfl⟩
  · exact ht
  · have htu : t ≠ u := by
      rintro rfl
      have hstate := hr.2
      rw [h.failed ht] at hstate
      cases hstate
    have hinited : σ₁.inited = σ.inited := by
      rcases generateTid_cases hg with ⟨-, -, rfl⟩ | ⟨-, rfl⟩ <;> rfl
    rw [createData_inited_other htu, hinited, ht]

private theorem failed_step (h : GateInv σ) {a : Call τ} (hc : GateStep hk σ a) (hs : step hk σ a = .ok σ')
    (ht : σ.inited t = .failed) : σ'.inited t = .failed := by
  cases a with
  | funccInit u min max m =>
    simp only [step, funccInit] at hs
    split at hs
    · cases hs
      exact ht
    · exact (h.setCtl _ _).failed_probeThreadInit hs ht
  | threadGlobalExit u =>
    simp only [step, threadGlobalExit] at hs
    cases hs
    split
    · rename_i hst
      obtain ⟨s, he⟩ := probeExit_of_not_doomed (hc hst) hk u
      rw [he]
      exact ht
    · exact ht
  | probeThreadInit u m => exact h.failed_probeThreadInit hs ht
  | probeExit u =>
    cases hs
    obtain ⟨s, he⟩ := probeExit_of_not_doomed hc hk u
    rw [he]
    exact ht
  | countEnter u k func m =>
    rcases countEnter_cases hs with ⟨-, rfl⟩ | ⟨-, -, rfl⟩ | ⟨-, -, σ₁, hi, rfl⟩
    · exact ht
    · exact ht
    · show σ₁.inited t = .failed
      exact h.failed_probeThreadInit hi ht
  | countStep u =>
    rcases funccCountStep_cases hs with ⟨-, rfl⟩ | ⟨k, func, -, rfl⟩ | ⟨k, func, heap, -, rfl⟩ | ⟨-, rfl⟩ <;>
      exact ht

omit [DecidableEq τ] in
private theorem GateInv.not_atIncrement (h : GateInv σ) (ht : (σ.info t).state = .error) : ¬ σ.AtIncrement t := by
  rintro ⟨k, func, hp⟩
  exact not_live_of_error ht (h.inside (by rw [hp]; simp))

/-- In a run whose steps all meet `GateStep`, every increment is made by an initialised thread with data, and a
thread whose initialisation failed stays in the state `ERROR` and never comes to an increment. -/
theorem increment_safe_of_gateStep {dataInit : Range → Bool → Option (List FunccCounter)}
    (hd : hk.threadDataInit = some dataInit) {l₁ l₂ : List (Call τ)} {σ₁ σ₂ : State τ}
    (h₁ : run (step hk) (State.initial τ) l₁ = .ok σ₁) (h₂ : run (step hk) σ₁ l₂ = .ok σ₂)
    (hm : Meets (step hk) (GateStep hk) (State.initial τ) (l₁ ++ l₂)) : IncrementSafe σ₁ σ₂ := by
  have hinv₁ : GateInv σ₁ :=
    (always_of_meets (fun _ _ _ h hc hs => gateInv_step hd h hc hs) gateInv_initial hm.left).last h₁
  have hinv₂ : GateInv σ₂ :=
    (always_of_meets (fun _ _ _ h hc hs => gateInv_step hd h hc hs) hinv₁ (hm.right h₁)).last h₂
  refine ⟨?_, ?_⟩
  · rintro t ⟨k, func, hp⟩
    exact hinv₂.live (hinv₂.inside (by rw [hp]; simp))
  · intro t ht
    -- the failure is carried along the second part of the run together with the invariant
    have hkeep : GateInv σ₂ ∧ σ₂.inited t = .failed :=
      (always_of_meets (P := fun σ => GateInv σ ∧ σ.inited t = .failed)
        (fun _ _ _ h hc hs => ⟨gateInv_step hd h.1 hc hs, failed_step h.1 hc hs h.2⟩) ⟨hinv₁, ht⟩
        (hm.right h₁)).last h₂
    have hst := hkeep.1.failed hkeep.2
    exact ⟨hst, hkeep.1.not_atIncrement hst⟩

/-- Two threads: the first initialises the library and the second makes a counting call, stopped at its
increment. -/
theorem increment_safe_two_threads :
    ∃ σ : State Bool, run (step funccHooks) (State.initial Bool)
        [.funccInit false 0 3 true, .countEnter true .pre 1 true, .countStep true] = .ok σ ∧
      σ.AtIncrement true ∧ IncrementSafe σ σ := by
  refine ⟨_, rfl, ⟨_, _, rfl⟩, ?_⟩
  have hrun : run (step funccHooks) (State.initial Bool)
    [.funccInit false 0 3 true, .countEnter true .pre 1 true, .countStep true] = .ok _ := rfl
  refine increment_safe_of_gateStep rfl hrun (run_nil _) ?_
  refine Meets.cons rfl trivial (Meets.cons rfl (fun _ _ => ⟨rfl, rfl⟩) (Meets.cons rfl trivial ?_))
  trivial

/-- The first counting call of a thread whose `malloc` fails goes on to the increment with the data pointer
`NULL`. -/
theorem gate_falls_through :
    ∃ σ : State Bool, run (step funccHooks) (State.initial Bool)
        [.funccInit false 0 3 true, .countEnter true .pre 1 false, .countStep true] = .ok σ ∧
      σ.AtIncrement true ∧ (σ.info true).data = none ∧ σ.inited true = .failed ∧ ¬ IncrementSafe σ σ := by
  refine ⟨_, rfl, ⟨_, _, rfl⟩, rfl, rfl, ?_⟩
  intro h
  exact (h.1 true ⟨_, _, rfl⟩).1 rfl

end StubProfile.Probe
