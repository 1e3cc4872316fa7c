import StubProfile.Probe.ExitAccounting

/-!
# Live threads and the registry

Every live thread should stand in the slot of its `tid`, so that the next `probe_exit` visits it (`Coherent`).  A
`tid` survives the destruction of its thread while the slot is cleared, and `probe_thread_init` fills a slot only
together with a new `tid`: a thread that is destroyed and initialised again is live and in no slot
(`reinitialised_thread_not_registered`).  The same happens when a counting call stores `RUNNING` or `IDLE` into
the state of a thread that is not live.  And when `nb_exit` runs ahead it may reach `nb_thread` too early, so that
`probe_exit` returns before its loop.

`CoherentStep` excludes these steps; in the runs whose steps all meet it the registry is coherent in every state
(`coherent_of_coherentStep`).
-/

namespace StubProfile.Probe

open Machine Tally

variable {τ : Type} [DecidableEq τ] {hk : Hooks} {σ σ' : State τ} {c t u : τ} {m : Bool}

/-- A call of `probe_exit` on the thread `c` gets to its loop, which finds the thread `t` in some round. -/
def State.Visits (hk : Hooks) (σ : State τ) (c t : τ) : Prop :=
  σ.nbExit ≠ σ.nbThread ∧
    ∃ i < σ.nbThread.toNat, (visits hk c i { σ with ctlState := .exit }).threads i = some t

/-- Every live thread stands in the slot of its `tid`, no two live threads share a `tid`, and the next `probe_exit`
visits every live thread. -/
structure Coherent (hk : Hooks) (σ : State τ) : Prop where
  slot : ∀ t, σ.Live t → (σ.info t).tid < σ.nbThread ∧ σ.threads (σ.info t).tid.toNat = some t
  unique : ∀ t u, σ.Live t → σ.Live u → (σ.info t).tid = (σ.info u).tid → t = u
  visited : ∀ c t, σ.Live t → σ.Visits hk c t

/-- The steps that keep the registry coherent: those that keep `nb_exit` right, where moreover a counting call only
touches the state of a live thread. -/
def CoherentStep (σ : State τ) (a : Call τ) : Prop :=
  AccountStep σ a ∧
    ∀ t, a = .countStep t → (∃ k func, σ.pc t = .entering k func) ∨ σ.pc t = .leaving → σ.Live t

omit [DecidableEq τ] in
private theorem State.Live.not_exited (h : σ.Live t) : ¬ σ.Exited t := by
  rintro ⟨-, hs⟩
  rcases h with h | h <;> rw [h] at hs <;> rcases hs with hs | hs <;> cases hs

omit [DecidableEq τ] in
private theorem coherentStep_of_live (h : σ.Live t) : CoherentStep σ (.countStep t) := by
  refine ⟨fun _ => h.not_exited, ?_⟩
  rintro u hu -
  cases hu
  exact h

def State.LiveInSlot (σ : State τ) : Prop := ∀ t, σ.Live t → σ.threads (σ.info t).tid.toNat = some t

omit [DecidableEq τ] in
private theorem liveInSlot_initial : (State.initial τ).LiveInSlot := by
  rintro t (h | h) <;> cases h

omit [DecidableEq τ] in
private theorem LiveInSlot.of_frame (h : σ.LiveInSlot) (hslots : σ'.threads = σ.threads)
    (htid : ∀ u, (σ'.info u).tid = (σ.info u).tid) (hlive : ∀ u, σ'.Live u → σ.Live u) : σ'.LiveInSlot := by
  intro t ht
  rw [hslots, htid]
  exact h t (hlive t ht)

private theorem LiveInSlot.probeThreadInit (hr : Registry σ) (h : σ.LiveInSlot)
    (hfirst : σ.InitRuns t → ¬ σ.HoldsTid t) (hs : probeThreadInit hk t m σ = .ok σ') : σ'.LiveInSlot := by
  rcases probeThreadInit_cases hs with ⟨-, rfl⟩ | ⟨hrun, σ₁, hg, rfl⟩
  · exact h
  have hfresh := hfirst hrun
  rcases generateTid_cases hg with ⟨-, -, rfl⟩ | ⟨hle, -⟩
  · have hslots := (createData_frame hk t m (σ.withTid t)).2.1
    intro u hu
    rw [hslots, createData_tid]
    by_cases hut : u = t
    · subst hut
      simp [State.withTid]
    · -- the other live threads keep their slots, which lie below the new one
      unfold State.Live at hu
      rw [createData_info_other hut] at hu
      have hlive : σ.Live u := by simpa [State.Live, State.withTid, hut] using hu
      have hslot := h u hlive
      have hlt := hr.slot_lt hslot
      have htid : ((σ.withTid t).info u).tid = (σ.info u).tid := by simp [State.withTid, hut]
      rw [htid]
      simp only [State.withTid]
      rw [Function.update_of_ne (by omega)]
      exact hslot
  · have h1 := UInt8.lt_iff_toNat_lt.1 (hr.fresh_iff.2 hfresh)
    have h2 := UInt8.le_iff_toNat_le.1 hle
    omega

private theorem LiveInSlot.visits (hr : Registry σ) (h : σ.LiveInSlot) (hk : Hooks) (c : τ) (n : Nat) :
    (visits hk c n σ).LiveInSlot := by
  have hv := visits_spec hr.slotsInj hk c n
  intro u hu
  -- a thread that is live after the loop was not destroyed by it
  have hnd : ∀ i < n, ¬ σ.Doomed i u := by
    intro i hi hd
    unfold State.Live at hu
    rw [hv.state_gone i u hi hd] at hu
    rcases hu with hu | hu <;> cases hu
  have hlive : σ.Live u := by
    unfold State.Live at hu ⊢
    rwa [hv.state_kept u hnd] at hu
  have hslot := h u hlive
  rw [hv.tid, hv.slot_kept _ fun hi w hw => ?_]
  · exact hslot
  · have hwu : w = u := Option.some.inj (hw.1.symm.trans hslot)
    exact hnd _ hi (hwu ▸ hw)

private theorem LiveInSlot.probeExit (hr : Registry σ) (h : σ.LiveInSlot) (hk : Hooks) (c : τ) :
    (probeExit hk c σ).1.LiveInSlot := by
  have hr' : Registry { σ with ctlState := .exit } := hr.setCtl _ _
  have h' : ({ σ with ctlState := .exit } : State τ).LiveInSlot := h
  rcases probeExit_cases hk c σ with ⟨-, he⟩ | ⟨-, σ₁, hσ₁, ⟨-, he⟩ | ⟨-, he⟩⟩ <;> rw [he]
  · exact h'
  · rw [hσ₁]
    exact LiveInSlot.visits hr' h' hk c _
  · rw [hσ₁]
    exact LiveInSlot.visits hr' h' hk c _

private theorem LiveInSlot.setState (h : σ.LiveInSlot) (ht : σ.Live t) (s : ProbeState) (p : Pc) :
    ((σ.setState t s).setPc t p).LiveInSlot := by
  refine LiveInSlot.of_frame h rfl (fun u => ?_) (fun u hu => ?_)
  · by_cases hut : u = t <;> simp [State.setState, State.setPc, hut]
  · by_cases hut : u = t
    · rw [hut]
      exact ht
    · simpa [State.Live, State.setState, State.setPc, hut] using hu

private theorem liveInSlot_step (hr : Registry σ) (h : σ.LiveInSlot) {a : Call τ} (hc : CoherentStep σ a)
    (hs : step hk σ a = .ok σ') : σ'.LiveInSlot := by
  obtain ⟨hacc, hlive⟩ := hc
  cases a with
  | funccInit t min max m =>
    simp only [step, funccInit] at hs
    split at hs
    · cases hs
      exact h
    · rename_i hst
      exact LiveInSlot.probeThreadInit (hr.setCtl ⟨min.toUInt16, max.toUInt16⟩ .running) h
        (fun hrun => hacc (not_not.1 hst) hrun.2) hs
  | threadGlobalExit t =>
    simp only [step, threadGlobalExit] at hs
    cases hs
    split
    · exact LiveInSlot.probeExit hr h hk t
    · exact h
  | probeThreadInit t m => exact LiveInSlot.probeThreadInit hr h hacc hs
  | probeExit t =>
    cases hs
    exact LiveInSlot.probeExit hr h hk t
  | countEnter t k func m =>
    rcases countEnter_cases hs with ⟨-, rfl⟩ | ⟨-, -, rfl⟩ | ⟨hp, -, σ₁, hi, rfl⟩
    · exact h
    · exact h
    · have hi' : σ₁.LiveInSlot := LiveInSlot.probeThreadInit hr h (hacc hp) hi
      exact hi'
  | countStep t =>
    rcases funccCountStep_cases hs with ⟨-, rfl⟩ | ⟨k, func, hp, rfl⟩ | ⟨k, func, heap, -, rfl⟩ | ⟨hp, rfl⟩
    · exact h
    · exact LiveInSlot.setState h (hlive t rfl (.inl ⟨k, func, hp⟩)) _ _
    · exact h
    · exact LiveInSlot.setState h (hlive t rfl (.inr hp)) _ _

/-- A live thread is not counted by `nb_exit`, so the count stays below `nb_thread`. -/
private theorem nbExit_lt_of_live (hr : Registry σ) (hc : NbExitExact σ) (h : σ.LiveInSlot) (ht : σ.Live t) :
    σ.nbExit.toNat < σ.nbThread.toNat := by
  have hholds : ∀ u, u = t ∨ σ.Exited u → σ.HoldsTid u := by
    rintro u (rfl | hu)
    · exact hr.holdsTid (h u ht)
    · exact hu.1
  have hcount : Counts (fun u => u = t ∨ σ.Exited u) (σ.nbExit.toNat + 1) 0 := hc.insert ht.not_exited fun _ => Iff.rfl
  have hle := hcount.le_of_injOn (m := σ.nbThread.toNat) (fun u => (σ.info u).tid.toNat)
    (fun u hu => hr.tid_lt (hholds u hu))
    (fun u v hu _ huv => hr.tid_inj (hholds u hu) (UInt8.toNat_inj.1 huv))
  omega

private theorem coherent_of_invariants (hr : Registry σ) (hc : NbExitExact σ) (h : σ.LiveInSlot) (hk : Hooks) :
    Coherent hk σ := by
  refine ⟨?_, ?_, ?_⟩
  · intro t ht
    exact ⟨UInt8.lt_iff_toNat_lt.2 (hr.slot_lt (h t ht)), h t ht⟩
  · intro t u ht hu htu
    have h1 := h t ht
    rw [htu, h u hu] at h1
    exact (Option.some.inj h1).symm
  · intro c t ht
    have hlt := nbExit_lt_of_live hr hc h ht
    refine ⟨fun he => ?_, (σ.info t).tid.toNat, hr.slot_lt (h t ht), ?_⟩
    · rw [he] at hlt
      omega
    · -- the rounds before the one of this slot leave the slot alone
      have hr' : Registry { σ with ctlState := .exit } := hr.setCtl _ _
      rw [(visits_spec hr'.slotsInj hk c _).slot_kept _ fun hi => by omega]
      exact h t ht

/-- In a run whose steps all meet `CoherentStep` the registry is coherent in every state. -/
theorem coherent_of_coherentStep {l : List (Call τ)} (hm : Meets (step hk) CoherentStep (State.initial τ) l) :
    Always (step hk) (Coherent hk) (State.initial τ) l := by
  have hinv : Always (step hk) (fun σ => Registry σ ∧ NbExitExact σ ∧ σ.LiveInSlot) (State.initial τ) l := by
    refine always_of_meets ?_ ⟨registry_initial, nbExitExact_initial, liveInSlot_initial⟩ hm
    rintro σ a σ' ⟨hr, hc, h⟩ hcond hs
    exact ⟨registry_step hr hs, (nbExitExact_step_iff hr hc hs).2 hcond.1, liveInSlot_step hr h hcond hs⟩
  exact hinv.imp fun σ h => coherent_of_invariants h.1 h.2.1 h.2.2 hk

/-- Two threads, a whole counting call of the second and a call of `probe_exit`. -/
theorem coherent_two_threads :
    Always (step funccHooks) (Coherent funccHooks) (State.initial Bool)
      [.funccInit false 0 3 true, .countEnter true .pre 1 true, .countStep true, .countStep true, .countStep true,
        .probeExit false] := by
  apply coherent_of_coherentStep
  refine Meets.cons rfl ⟨fun _ _ h => h rfl, fun _ h => by cases h⟩ ?_
  refine Meets.cons rfl ⟨fun _ _ h => h rfl, fun _ h => by cases h⟩ ?_
  refine Meets.cons rfl (coherentStep_of_live (.inl rfl)) ?_
  refine Meets.cons rfl (coherentStep_of_live (.inr rfl)) ?_
  refine Meets.cons rfl (coherentStep_of_live (.inr rfl)) ?_
  refine Meets.cons rfl ⟨fun _ u _ h => ?_, fun _ h => by cases h⟩ ?_
  · cases u <;> cases h
  · trivial

/-- A thread whose first initialisation fails is destroyed by `thread_global_exit`.  After the library is
initialised again its second initialisation succeeds, and the thread is live with an empty slot. -/
theorem reinitialised_thread_not_registered :
    ∃ σ : State Bool, run (step funccHooks) (State.initial Bool)
        [.funccInit false 0 3 true, .probeThreadInit true false, .threadGlobalExit false, .funccInit false 0 3 true,
          .probeThreadInit true true] = .ok σ ∧
      σ.Live true ∧ σ.threads (σ.info true).tid.toNat = none ∧ ¬ Coherent funccHooks σ := by
  refine ⟨_, rfl, .inl rfl, rfl, ?_⟩
  intro h
  have h1 := (h.slot true (.inl rfl)).2
  cases h1

end StubProfile.Probe
