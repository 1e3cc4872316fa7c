import StubProfile.Lib.Tally
import StubProfile.Probe.Registry

/-!
# What `nb_exit` counts

`nb_exit` should be the number of threads that hold a `tid` and are destroyed or failed (`NbExitExact`).  It goes
wrong in three ways: `probe_exit` counts a failed thread a second time when it destroys it, an initialisation of a
destroyed thread does not take it out of the count, and neither does a counting call that stores `RUNNING` or
`IDLE` into the state of a destroyed or failed thread.

Each of these makes the counter run ahead by exactly one, and every other step keeps it right
(`nbExitExact_step_iff`), so the runs that keep the counter right are exactly those that avoid the three
(`nbExit_exact_iff`).
-/

namespace StubProfile.Probe

open Machine Tally

variable {τ : Type} [DecidableEq τ] {hk : Hooks} {σ σ' : State τ} {c t u : τ} {m : Bool} {k : Nat}

/-- The thread holds a `tid` and is destroyed or failed. -/
def State.Exited (σ : State τ) (u : τ) : Prop :=
  σ.HoldsTid u ∧ ((σ.info u).state = .uninit ∨ (σ.info u).state = .error)

/-- `nb_exit` is the number of exited threads. -/
def NbExitExact (σ : State τ) : Prop := Counts σ.Exited σ.nbExit.toNat 0

/-- No thread the loop of `probe_exit` visits is in the state `ERROR`. -/
def State.NoneFailed (σ : State τ) : Prop := ∀ u, σ.Registered u → (σ.info u).state ≠ .error

/-- The steps that keep the count: an initialisation that runs is the first one of its thread, a counting call
does not touch the state of an exited thread, and the loop of `probe_exit` meets no failed thread. -/
def AccountStep (σ : State τ) : Call τ → Prop
  | .funccInit t _ _ _ => σ.ctlState = .uninit → (σ.info t).state = .uninit → ¬ σ.HoldsTid t
  | .threadGlobalExit _ => σ.ctlState ≠ .uninit → σ.nbExit ≠ σ.nbThread → σ.NoneFailed
  | .probeThreadInit t _ => σ.InitRuns t → ¬ σ.HoldsTid t
  | .probeExit _ => σ.nbExit ≠ σ.nbThread → σ.NoneFailed
  | .countEnter t _ _ _ => σ.pc t = .outside → σ.InitRuns t → ¬ σ.HoldsTid t
  | .countStep t => (∃ k func, σ.pc t = .entering k func) ∨ σ.pc t = .leaving → ¬ σ.Exited t

omit [DecidableEq τ] in
theorem nbExitExact_initial : NbExitExact (State.initial τ) :=
  Counts.empty fun _ hu => hu.1 rfl

omit [DecidableEq τ] in
private theorem Registry.nbExit_le (h : Registry σ) (hc : Counts σ.Exited σ.nbExit.toNat k) :
    σ.nbExit.toNat ≤ σ.nbThread.toNat + k := by
  apply hc.le_of_injOn (fun u => (σ.info u).tid.toNat)
  · intro u hu
    exact h.tid_lt hu.1
  · intro u v hu _ huv
    exact h.tid_inj hu.1 (UInt8.toNat_inj.1 huv)

omit [DecidableEq τ] in
private theorem nbExit_succ {n : UInt8} (h : n.toNat < 255) : (n + 1).toNat = n.toNat + 1 := by
  rw [UInt8.toNat_add]
  simp
  omega

omit [DecidableEq τ] in
private theorem exact_iff_excess (h : Counts σ.Exited σ.nbExit.toNat k) : NbExitExact σ ↔ k = 0 := by
  constructor
  · intro he
    exact h.excess_eq he
  · rintro rfl
    exact h

/-! ### Initialisation -/

private theorem createData_exited (hk : Hooks) (t : τ) (m : Bool) (σ : State τ) (ht : σ.HoldsTid t) :
    ((∀ u, (createData hk t m σ).Exited u ↔ u ≠ t ∧ σ.Exited u) ∧ (createData hk t m σ).nbExit = σ.nbExit) ∨
    ((∀ u, (createData hk t m σ).Exited u ↔ u = t ∨ σ.Exited u) ∧
      (createData hk t m σ).nbExit = σ.nbExit + 1) := by
  have hother : ∀ {u}, u ≠ t → ((createData hk t m σ).Exited u ↔ σ.Exited u) := by
    intro u hu
    unfold State.Exited State.HoldsTid
    rw [createData_info_other hu]
  have hself : (createData hk t m σ).HoldsTid t := by
    unfold State.HoldsTid
    rw [createData_tid]
    exact ht
  cases hr : hk.ready σ.idxRange m with
  | true =>
    obtain ⟨c1, c2, -⟩ := createData_of_ready (t := t) hr
    refine .inl ⟨fun u => ?_, c2⟩
    by_cases hu : u = t
    · subst hu
      simp [State.Exited, c1]
    · simp only [hother hu, hu, ne_eq, not_false_eq_true, true_and]
  | false =>
    obtain ⟨c1, c2, -⟩ := createData_of_not_ready (t := t) hr
    refine .inr ⟨fun u => ?_, c2⟩
    by_cases hu : u = t
    · subst hu
      simp [State.Exited, c1, hself]
    · simp only [hother hu, hu, false_or]

/-- The first initialisation of a thread keeps the count: the thread was not exited, and is counted if it is now. -/
private theorem first_init_exact (hr : Registry σ) (hc : NbExitExact σ) (hlt : σ.nbThread < (σ.info t).tid)
    (hnb : σ.nbExit.toNat < 255) (hk : Hooks) (m : Bool) : NbExitExact (createData hk t m (σ.withTid t)) := by
  have hnot : ¬ σ.Exited t := fun h => hr.fresh_iff.1 hlt h.1
  have hother : ∀ {u}, u ≠ t → ((σ.withTid t).Exited u ↔ σ.Exited u) := by
    intro u hu
    simp [State.Exited, State.HoldsTid, State.withTid, hu]
  have ht : (σ.withTid t).HoldsTid t := by
    simp only [State.HoldsTid, State.withTid, Function.update_self]
    intro he
    rw [he] at hlt
    have h1 := UInt8.lt_iff_toNat_lt.1 hlt
    have h2 := (σ.info t).tid.toNat_lt
    simp at h1
    omega
  unfold NbExitExact
  rcases createData_exited hk t m (σ.withTid t) ht with ⟨he, hn⟩ | ⟨he, hn⟩
  · rw [hn]
    refine hc.congr fun u => ?_
    rw [he]
    by_cases hu : u = t
    · subst hu
      simp [hnot]
    · simp only [hother hu, hu, ne_eq, not_false_eq_true, true_and]
  · have hsucc : ((σ.withTid t).nbExit + 1).toNat = σ.nbExit.toNat + 1 := nbExit_succ hnb
    rw [hn, hsucc]
    refine hc.insert hnot fun u => ?_
    rw [he]
    by_cases hu : u = t
    · simp [hu]
    · simp only [hother hu, hu, false_or]

/-- A later initialisation puts the count out by one: the thread was counted when it was destroyed. -/
private theorem later_init_excess (hc : NbExitExact σ) (ht : σ.Exited t) (hnb : σ.nbExit.toNat < 255)
    (hk : Hooks) (m : Bool) : Counts (createData hk t m σ).Exited (createData hk t m σ).nbExit.toNat 1 := by
  rcases createData_exited hk t m σ ht.1 with ⟨he, hn⟩ | ⟨he, hn⟩
  · rw [hn]
    exact hc.erase ht he
  · rw [hn, nbExit_succ hnb]
    exact hc.recount ht he

/-- `probe_thread_init` keeps the count unless it initialises a thread that holds a `tid`. -/
private theorem probeThreadInit_exact (hr : Registry σ) (hc : NbExitExact σ)
    (hs : probeThreadInit hk t m σ = .ok σ') :
    NbExitExact σ' ↔ (σ.InitRuns t → ¬ σ.HoldsTid t) := by
  have hnb : σ.nbExit.toNat < 255 := by
    have h1 := hr.nbExit_le hc
    have h2 := hr.nb_le
    omega
  rcases probeThreadInit_cases hs with ⟨hn, rfl⟩ | ⟨hrun, σ₁, hg, rfl⟩
  · exact ⟨fun _ h => absurd h hn, fun _ => hc⟩
  rcases generateTid_cases hg with ⟨hlt, -, rfl⟩ | ⟨hle, rfl⟩
  · exact ⟨fun _ _ => hr.fresh_iff.1 hlt, fun _ => first_init_exact hr hc hlt hnb hk m⟩
  · have ht : σ₁.HoldsTid t := by
      by_contra h
      have h1 := UInt8.lt_iff_toNat_lt.1 (hr.fresh_iff.2 h)
      have h2 := UInt8.le_iff_toNat_le.1 hle
      omega
    rw [exact_iff_excess (later_init_excess hc ⟨ht, .inl hrun.2⟩ hnb hk m)]
    constructor
    · intro h
      cases h
    · intro h
      exact absurd ht (h hrun)

/-! ### The loop of `probe_exit` -/

/-- One round that destroys a thread: the thread is counted, a failed one for the second time. -/
private theorem visit_excess (hr : Registry σ) (hc : Counts σ.Exited σ.nbExit.toNat k) {i : Nat} (hi : i ≤ 64)
    (hki : k ≤ i) (hd : σ.Doomed i u) (hk : Hooks) (c : τ) :
    Counts (probeExitVisit hk c σ i).Exited (probeExitVisit hk c σ i).nbExit.toNat
      (if (σ.info u).state = .error then k + 1 else k) := by
  obtain ⟨-, v2, -, -, -, -, v7, v8⟩ := probeExitVisit_doomed hd hk c
  have hholds : σ.HoldsTid u := hr.holdsTid hd.1
  have hex : ∀ w, (probeExitVisit hk c σ i).Exited w ↔ w = u ∨ σ.Exited w := by
    intro w
    unfold State.Exited State.HoldsTid
    rw [v7, v8]
    by_cases hw : w = u
    · subst hw
      exact ⟨fun _ => .inl rfl, fun _ => ⟨hholds, .inl (if_pos rfl)⟩⟩
    · simp [hw]
  have hlt : σ.nbExit.toNat < 255 := by
    have h1 := hr.nbExit_le hc
    have h2 := hr.nb_le
    omega
  rw [v2, nbExit_succ hlt]
  split
  · rename_i herr
    exact hc.recount ⟨hholds, .inr herr⟩ hex
  · rename_i herr
    refine hc.insert ?_ hex
    rintro ⟨-, h | h⟩
    · exact hr.slot_state hd.1 h
    · exact herr h

/-- The excess after `n` rounds: it grows by one for each failed thread. -/
private theorem visits_excess (hr : Registry σ) (hc : NbExitExact σ) (hk : Hooks) (c : τ) {n : Nat}
    (hn : n ≤ 64) :
    ∃ k ≤ n, Counts (visits hk c n σ).Exited (visits hk c n σ).nbExit.toNat k ∧
      (k = 0 ↔ ∀ i < n, ∀ u, σ.threads i = some u → (σ.info u).state ≠ .error) := by
  induction n with
  | zero => exact ⟨0, Nat.le_refl 0, hc, by simp⟩
  | succ n ih =>
    obtain ⟨k, hkn, hcount, hzero⟩ := ih (by omega)
    have hv := visits_spec hr.slotsInj hk c n
    rw [visits_succ, Nat.forall_lt_succ_right, ← hzero]
    by_cases hd : ∃ u, σ.Doomed n u
    · obtain ⟨u, hu⟩ := hd
      have hu' := (hv.doomed_iff hr.slotsInj (Nat.le_refl n)).2 hu
      have hstate : ((visits hk c n σ).info u).state = (σ.info u).state :=
        hv.state_kept u fun i hi hdi => by have := hr.slotsInj _ _ _ hdi.1 hu.1; omega
      have hround := visit_excess (hr.visits hk c n) hcount (by omega) hkn hu' hk c
      have hslot : (∀ w, σ.threads n = some w → (σ.info w).state ≠ .error) ↔ (σ.info u).state ≠ .error := by
        simp [hu.1]
      rw [hstate] at hround
      rw [hslot]
      refine ⟨_, ?_, hround, ?_⟩ <;> split <;> rename_i herr
      · omega
      · omega
      · simp [herr]
      · simp [herr]
    · have hskip : ∀ u, ¬ (visits hk c n σ).Doomed n u := by
        intro u hu
        exact hd ⟨u, (hv.doomed_iff hr.slotsInj (Nat.le_refl n)).1 hu⟩
      rw [probeExitVisit_skip hskip]
      refine ⟨k, by omega, hcount, ?_⟩
      constructor
      · intro h
        refine ⟨h, fun u hu herr => hd ⟨u, hu, ?_⟩⟩
        rw [herr]
        decide
      · exact And.left

private theorem probeExit_excess (hr : Registry σ) (hc : NbExitExact σ) (hk : Hooks) (c : τ) :
    NbExitExact (probeExit hk c σ).1 ↔ (σ.nbExit ≠ σ.nbThread → σ.NoneFailed) := by
  have hr' : Registry { σ with ctlState := .exit } := hr.setCtl _ _
  have hc' : NbExitExact { σ with ctlState := .exit } := hc
  obtain ⟨k, -, hcount, hzero⟩ := visits_excess hr' hc' hk c hr.nb_le
  have hfailed : (k = 0 ↔ σ.NoneFailed) := by
    rw [hzero]
    constructor
    · rintro h u ⟨i, hi⟩
      exact h i (hr.slot_lt hi) u hi
    · intro h i _ u hi
      exact h u ⟨i, hi⟩
  rcases probeExit_cases hk c σ with ⟨heq, he⟩ | ⟨hne, σ₁, hσ₁, ⟨-, he⟩ | ⟨-, he⟩⟩
  · rw [he]
    exact ⟨fun _ hne => absurd heq hne, fun _ => hc⟩
  · rw [he]
    rw [← hσ₁] at hcount
    have hcount' : Counts ({ σ₁ with ctlState := .uninit } : State τ).Exited σ₁.nbExit.toNat k := hcount
    exact (exact_iff_excess hcount').trans (hfailed.trans ⟨fun h _ => h, fun h => h hne⟩)
  · rw [he]
    rw [← hσ₁] at hcount
    exact (exact_iff_excess hcount).trans (hfailed.trans ⟨fun h _ => h, fun h => h hne⟩)

/-! ### The counting calls -/

private theorem setState_excess (hc : NbExitExact σ) {s : ProbeState} (hs : s = .idle ∨ s = .running) (p : Pc) :
    NbExitExact ((σ.setState t s).setPc t p) ↔ ¬ σ.Exited t := by
  have hex : ∀ u, ((σ.setState t s).setPc t p).Exited u ↔ u ≠ t ∧ σ.Exited u := by
    intro u
    by_cases hu : u = t
    · subst hu
      rcases hs with rfl | rfl <;> simp [State.Exited, State.setState, State.setPc]
    · simp [State.Exited, State.HoldsTid, State.setState, State.setPc, hu]
  constructor
  · intro h ht
    have h1 : Counts ((σ.setState t s).setPc t p).Exited σ.nbExit.toNat 1 := hc.erase ht hex
    have h2 : NbExitExact ((σ.setState t s).setPc t p) ↔ 1 = 0 := exact_iff_excess h1
    cases h2.1 h
  · intro ht
    refine Counts.congr hc fun u => ?_
    rw [hex]
    constructor
    · exact And.right
    · intro hu
      refine ⟨?_, hu⟩
      rintro rfl
      exact ht hu

/-! ### Runs -/

/-- A step from a state with the right count keeps it right exactly when it is an `AccountStep`. -/
theorem nbExitExact_step_iff (hr : Registry σ) (hc : NbExitExact σ) {a : Call τ} (hs : step hk σ a = .ok σ') :
    NbExitExact σ' ↔ AccountStep σ a := by
  cases a with
  | funccInit t min max m =>
    simp only [step, funccInit] at hs
    split at hs
    · rename_i hst
      cases hs
      exact ⟨fun _ h => absurd h hst, fun _ => hc⟩
    · rename_i hst
      rw [probeThreadInit_exact (hr.setCtl ⟨min.toUInt16, max.toUInt16⟩ .running) hc hs]
      exact ⟨fun h _ hu => h ⟨rfl, hu⟩, fun h hrun => h (not_not.1 hst) hrun.2⟩
  | threadGlobalExit t =>
    simp only [step, threadGlobalExit] at hs
    cases hs
    split
    · rename_i hst
      refine (probeExit_excess hr hc hk t).trans ?_
      exact ⟨fun h _ => h, fun h => h hst⟩
    · rename_i hst
      exact ⟨fun _ h => absurd h hst, fun _ => hc⟩
  | probeThreadInit t m => exact probeThreadInit_exact hr hc hs
  | probeExit t =>
    cases hs
    exact probeExit_excess hr hc hk t
  | countEnter t k func m =>
    rcases countEnter_cases hs with ⟨hno, rfl⟩ | ⟨-, hi, rfl⟩ | ⟨hp, hu, σ₁, hi, rfl⟩
    · refine ⟨fun _ hp hrun => ?_, fun _ => hc⟩
      rcases hno with hno | hno
      · exact absurd hp hno
      · exact absurd hrun.2 hno.1
    · refine ⟨fun _ _ hrun => ?_, fun _ => hc⟩
      have := hrun.2
      rw [hi] at this
      cases this
    · refine Iff.trans (b := NbExitExact σ₁) Iff.rfl ?_
      rw [probeThreadInit_exact hr hc hi]
      exact ⟨fun h _ => h, fun h => h hp⟩
  | countStep t =>
    rcases funccCountStep_cases hs with ⟨hp, rfl⟩ | ⟨k, func, hp, rfl⟩ | ⟨k, func, heap, hp, rfl⟩ | ⟨hp, rfl⟩
    · refine ⟨?_, fun _ => hc⟩
      rintro - (⟨k, func, h⟩ | h) <;> rw [hp] at h <;> cases h
    · rw [setState_excess hc (.inr rfl)]
      exact ⟨fun h _ => h, fun h => h (.inl ⟨k, func, hp⟩)⟩
    · refine ⟨?_, fun _ => hc⟩
      rintro - (⟨k, func, h⟩ | h) <;> rw [hp] at h <;> cases h
    · rw [setState_excess hc (.inl rfl)]
      exact ⟨fun h _ => h, fun h => h (.inr hp)⟩

/-- The runs in which `nb_exit` is the number of exited threads, and so at most `nb_thread`, in every state are
exactly the runs all of whose steps meet `AccountStep`. -/
theorem nbExit_exact_iff (hk : Hooks) (l : List (Call τ)) :
    Always (step hk) (fun σ => NbExitExact σ ∧ σ.nbExit ≤ σ.nbThread) (State.initial τ) l ↔
      Meets (step hk) AccountStep (State.initial τ) l := by
  apply always_iff_meets (B := Registry)
  · intro σ a σ' hr hs
    exact registry_step hr hs
  · intro σ a σ' hr hp hs
    rw [← nbExitExact_step_iff hr hp.1 hs]
    refine ⟨And.left, fun he => ⟨he, ?_⟩⟩
    rw [UInt8.le_iff_toNat_le]
    exact (registry_step hr hs).nbExit_le he
  · exact registry_initial
  · exact ⟨nbExitExact_initial, UInt8.le_refl 0⟩

/-- Two threads, of which the second fails to initialise: `probe_exit` destroys it and counts it again, so that
`nb_exit` is 2 while one thread is idle and one exited. -/
theorem nbExit_counts_twice :
    ∃ σ : State Bool, run (step funccHooks) (State.initial Bool)
        [.funccInit false 0 3 true, .probeThreadInit true false, .probeExit false] = .ok σ ∧
      σ.nbExit = 2 ∧ ¬ σ.Exited false ∧ σ.Exited true ∧ ¬ NbExitExact σ := by
  refine ⟨_, rfl, rfl, ?_, ⟨show (1 : UInt8) ≠ 255 by decide, .inl rfl⟩, ?_⟩
  · rintro ⟨-, h | h⟩ <;> cases h
  · rintro ⟨s, hs, hcard⟩
    have hsub : s ⊆ {true} := by
      intro u hu
      cases u with
      | true => simp
      | false => rcases ((hs false).1 hu).2 with h | h <;> cases h
    have hle := Finset.card_le_card hsub
    have h2 : s.card = 2 := hcard.symm
    simp at hle
    omega

end StubProfile.Probe
