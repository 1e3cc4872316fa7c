import StubProfile.Probe.Thread

/-!
# What each function of the probe library can do

The inversion of `probe_thread_init` (`probeThreadInit_cases`, `generateTid_cases`), of `probe_exit`
(`probeExit_cases`) and of the counting calls (`countEnter_cases`, `funccCountStep_cases`), stated once.  One round
of the loop of `probe_exit` either skips its slot or destroys the thread in it (`probeExitVisit_skip`,
`probeExitVisit_doomed`); what the whole loop does to the slots and the states follows by induction on the number
of rounds (`visits_spec`).
-/

namespace StubProfile.Probe

variable {τ : Type} [DecidableEq τ] {hk : Hooks} {σ σ' : State τ} {c t u : τ} {m : Bool}

/-! ### Initialisation -/

/-- `probe_thread_init` gets past its two checks. -/
def State.InitRuns (σ : State τ) (t : τ) : Prop := σ.ctlState = .running ∧ (σ.info t).state = .uninit

/-- `thread_data_init` is unset or returns a block. -/
def Hooks.ready (hk : Hooks) (r : Range) (m : Bool) : Bool :=
  match hk.threadDataInit with
  | none => true
  | some dataInit => (dataInit r m).isSome

/-- The state after the thread `t` was given a new `tid`. -/
def State.withTid (σ : State τ) (t : τ) : State τ :=
  { σ with
    nbThread := σ.nbThread + 1
    info := Function.update σ.info t { σ.info t with tid := σ.nbThread }
    threads := Function.update σ.threads σ.nbThread.toNat (some t) }

theorem generateTid_cases (h : generateTid t σ = .ok σ') :
    (σ.nbThread < (σ.info t).tid ∧ σ.nbThread.toNat < 64 ∧ σ' = σ.withTid t) ∨
      ((σ.info t).tid ≤ σ.nbThread ∧ σ' = σ) := by
  unfold generateTid at h
  split at h
  · rename_i hlt
    split at h
    · rename_i hnb
      cases h
      exact .inl ⟨hlt, hnb, rfl⟩
    · cases h
  · rename_i hle
    cases h
    exact .inr ⟨UInt8.not_lt.1 hle, rfl⟩

theorem probeThreadInit_cases (h : probeThreadInit hk t m σ = .ok σ') :
    (¬ σ.InitRuns t ∧ σ' = σ) ∨
      (σ.InitRuns t ∧ ∃ σ₁, generateTid t σ = .ok σ₁ ∧ σ' = createData hk t m σ₁) := by
  unfold probeThreadInit at h
  split at h
  · rename_i hc
    cases h
    exact .inl ⟨fun hr => hc hr.1, rfl⟩
  · rename_i hc
    split at h
    · rename_i hs
      cases h
      exact .inl ⟨fun hr => hs hr.2, rfl⟩
    · rename_i hs
      cases hg : generateTid t σ with
      | error e => simp [hg] at h
      | ok σ₁ =>
        simp only [hg] at h
        cases h
        exact .inr ⟨⟨not_not.1 hc, not_not.1 hs⟩, σ₁, rfl, rfl⟩

theorem createData_of_ready (h : hk.ready σ.idxRange m = true) :
    ((createData hk t m σ).info t).state = .idle ∧ (createData hk t m σ).nbExit = σ.nbExit ∧
      (createData hk t m σ).inited = Function.update σ.inited t .succeeded := by
  unfold createData
  cases hd : hk.threadDataInit with
  | none => simp [State.setState, State.setInited]
  | some dataInit =>
    simp only [Hooks.ready, hd, Option.isSome_iff_exists] at h
    obtain ⟨counters, hb⟩ := h
    simp [hb, State.setState, State.setData, State.setInited]

theorem createData_of_not_ready (h : hk.ready σ.idxRange m = false) :
    ((createData hk t m σ).info t).state = .error ∧ (createData hk t m σ).nbExit = σ.nbExit + 1 ∧
      (createData hk t m σ).inited = Function.update σ.inited t .failed := by
  unfold createData
  cases hd : hk.threadDataInit with
  | none => simp [Hooks.ready, hd] at h
  | some dataInit =>
    simp only [Hooks.ready, hd, Option.isSome_eq_false_iff, Option.isNone_iff_eq_none] at h
    simp [h, State.setState, State.setData, State.setInited]

theorem createData_frame (hk : Hooks) (t : τ) (m : Bool) (σ : State τ) :
    (createData hk t m σ).nbThread = σ.nbThread ∧ (createData hk t m σ).threads = σ.threads ∧
      (createData hk t m σ).ctlState = σ.ctlState ∧ (createData hk t m σ).pc = σ.pc ∧
      (createData hk t m σ).idxRange = σ.idxRange ∧ (createData hk t m σ).freed = σ.freed := by
  unfold createData
  split
  · exact ⟨rfl, rfl, rfl, rfl, rfl, rfl⟩
  · split <;> exact ⟨rfl, rfl, rfl, rfl, rfl, rfl⟩

theorem createData_info_other (hu : u ≠ t) : (createData hk t m σ).info u = σ.info u := by
  unfold createData
  split
  · simp [State.setState, State.setInited, hu]
  · split <;> simp [State.setState, State.setData, State.setInited, hu]

theorem createData_tid (u : τ) : ((createData hk t m σ).info u).tid = (σ.info u).tid := by
  by_cases hu : u = t
  · subst hu
    unfold createData
    split
    · simp [State.setState, State.setInited]
    · split <;> simp [State.setState, State.setData, State.setInited]
  · rw [createData_info_other hu]

theorem createData_state_ne (hk : Hooks) (t : τ) (m : Bool) (σ : State τ) :
    ((createData hk t m σ).info t).state ≠ .uninit := by
  cases h : hk.ready σ.idxRange m with
  | true => rw [(createData_of_ready h).1]; decide
  | false => rw [(createData_of_not_ready h).1]; decide

theorem probeThreadInit_frame (h : probeThreadInit hk t m σ = .ok σ') :
    σ'.idxRange = σ.idxRange ∧ σ'.freed = σ.freed ∧ σ'.pc = σ.pc ∧ σ'.ctlState = σ.ctlState ∧
      ∀ u, u ≠ t → σ'.info u = σ.info u := by
  rcases probeThreadInit_cases h with ⟨-, rfl⟩ | ⟨-, σ₁, hg, rfl⟩
  · exact ⟨rfl, rfl, rfl, rfl, fun _ _ => rfl⟩
  · obtain ⟨-, -, f3, f4, f5, f6⟩ := createData_frame hk t m σ₁
    rcases generateTid_cases hg with ⟨-, -, rfl⟩ | ⟨-, rfl⟩
    · refine ⟨f5, f6, f4, f3, fun u hu => ?_⟩
      rw [createData_info_other hu]
      simp [State.withTid, hu]
    · exact ⟨f5, f6, f4, f3, fun u hu => createData_info_other hu⟩

/-! ### The loop of `probe_exit` -/

/-- The loop destroys the thread `u` when it comes to the slot `i`. -/
def State.Doomed (σ : State τ) (i : Nat) (u : τ) : Prop := σ.threads i = some u ∧ (σ.info u).state ≠ .idle

def visits (hk : Hooks) (c : τ) (n : Nat) (σ : State τ) : State τ :=
  (List.range n).foldl (probeExitVisit hk c) σ

theorem visits_succ (hk : Hooks) (c : τ) (n : Nat) (σ : State τ) :
    visits hk c (n + 1) σ = probeExitVisit hk c (visits hk c n σ) n := by
  unfold visits
  rw [List.range_succ, List.foldl_append]
  rfl

theorem probeExitVisit_skip {i : Nat} (h : ∀ u, ¬ σ.Doomed i u) : probeExitVisit hk c σ i = σ := by
  unfold probeExitVisit
  split
  · rfl
  · rename_i u hu
    have hs : (σ.info u).state = .idle := not_not.1 fun hs => h u ⟨hu, hs⟩
    simp only [hs, ↓reduceIte]

private theorem funccDataFree_frame (c : τ) (σ : State τ) :
    (funccDataFree c σ).nbThread = σ.nbThread ∧ (funccDataFree c σ).nbExit = σ.nbExit ∧
      (funccDataFree c σ).threads = σ.threads ∧ (funccDataFree c σ).ctlState = σ.ctlState ∧
      (funccDataFree c σ).pc = σ.pc ∧ (funccDataFree c σ).inited = σ.inited ∧
      (∀ u, ((funccDataFree c σ).info u).tid = (σ.info u).tid) ∧
      (∀ u, ((funccDataFree c σ).info u).state = (σ.info u).state) := by
  unfold funccDataFree
  split
  · exact ⟨rfl, rfl, rfl, rfl, rfl, rfl, fun _ => rfl, fun _ => rfl⟩
  · refine ⟨rfl, rfl, rfl, rfl, rfl, rfl, fun u => ?_, fun u => ?_⟩ <;>
      by_cases hu : u = c <;> simp [State.setData, hu]

theorem probeExitVisit_doomed {i : Nat} (h : σ.Doomed i u) (hk : Hooks) (c : τ) :
    (probeExitVisit hk c σ i).nbThread = σ.nbThread ∧ (probeExitVisit hk c σ i).nbExit = σ.nbExit + 1 ∧
      (probeExitVisit hk c σ i).threads = Function.update σ.threads i none ∧
      (probeExitVisit hk c σ i).ctlState = σ.ctlState ∧ (probeExitVisit hk c σ i).pc = σ.pc ∧
      (probeExitVisit hk c σ i).inited = Function.update σ.inited u .none ∧
      (∀ v, ((probeExitVisit hk c σ i).info v).tid = (σ.info v).tid) ∧
      (∀ v, ((probeExitVisit hk c σ i).info v).state = if v = u then .uninit else (σ.info v).state) := by
  obtain ⟨hslot, hst⟩ := h
  obtain ⟨f1, f2, f3, f4, f5, f6, f7, f8⟩ := funccDataFree_frame c σ
  unfold probeExitVisit
  simp only [hslot, hst, ↓reduceIte]
  cases hk.threadDataFree
  · simp only [Bool.false_eq_true, ↓reduceIte, State.setState, State.setInited, true_and]
    refine ⟨fun v => ?_, fun v => ?_⟩ <;> by_cases hv : v = u <;> simp [hv]
  · simp only [↓reduceIte, State.setState, State.setInited, State.setData, f1, f2, f3, f4, f5, f6, true_and]
    refine ⟨fun v => ?_, fun v => ?_⟩ <;> by_cases hv : v = u <;> simp [hv, f7, f8]

/-- What the first `n` rounds of the loop do to the registry. -/
structure VisitSpec (σ σ' : State τ) (n : Nat) : Prop where
  nbThread : σ'.nbThread = σ.nbThread
  ctlState : σ'.ctlState = σ.ctlState
  pc : σ'.pc = σ.pc
  tid : ∀ u, (σ'.info u).tid = (σ.info u).tid
  slot_gone : ∀ i u, i < n → σ.Doomed i u → σ'.threads i = none
  slot_kept : ∀ i, (i < n → ∀ u, ¬ σ.Doomed i u) → σ'.threads i = σ.threads i
  state_gone : ∀ i u, i < n → σ.Doomed i u → (σ'.info u).state = .uninit
  state_kept : ∀ u, (∀ i < n, ¬ σ.Doomed i u) → (σ'.info u).state = (σ.info u).state

def State.SlotsInj (σ : State τ) : Prop := ∀ i j u, σ.threads i = some u → σ.threads j = some u → i = j

omit [DecidableEq τ] in
/-- A slot that was not reached yet is doomed now if it was at the start. -/
theorem VisitSpec.doomed_iff {n i : Nat} (h : VisitSpec σ σ' n) (hinj : σ.SlotsInj) (hi : n ≤ i) :
    σ'.Doomed i u ↔ σ.Doomed i u := by
  have hslot : σ'.threads i = σ.threads i := h.slot_kept i (fun hlt => by omega)
  unfold State.Doomed
  rw [hslot]
  refine and_congr_right fun hu => ?_
  rw [h.state_kept u (fun j hj hd => by have := hinj _ _ _ hd.1 hu; omega)]

theorem visits_spec (hinj : σ.SlotsInj) (hk : Hooks) (c : τ) (n : Nat) : VisitSpec σ (visits hk c n σ) n := by
  induction n with
  | zero =>
    refine ⟨rfl, rfl, rfl, fun _ => rfl, ?_, fun _ _ => rfl, ?_, fun _ _ => rfl⟩ <;> intros <;> omega
  | succ n ih =>
    rw [visits_succ]
    by_cases hd : ∃ u, σ.Doomed n u
    · obtain ⟨u, hu⟩ := hd
      obtain ⟨v1, -, v3, v4, v5, -, v7, v8⟩ := probeExitVisit_doomed ((ih.doomed_iff hinj (Nat.le_refl n)).2 hu) hk c
      refine ⟨v1.trans ih.nbThread, v4.trans ih.ctlState, v5.trans ih.pc, fun v => (v7 v).trans (ih.tid v),
        ?_, ?_, ?_, ?_⟩
      · intro i v hi hv
        rw [v3]
        by_cases hin : i = n
        · simp [hin]
        · rw [Function.update_of_ne hin]
          exact ih.slot_gone i v (by omega) hv
      · intro i hi
        have hin : i ≠ n := by
          rintro rfl
          exact hi (by omega) u hu
        rw [v3, Function.update_of_ne hin]
        exact ih.slot_kept i (fun hlt => hi (by omega))
      · intro i v hi hv
        rw [v8]
        split
        · rfl
        · rename_i hvu
          have hin : i ≠ n := by
            rintro rfl
            exact hvu (Option.some.inj (hv.1.symm.trans hu.1))
          exact ih.state_gone i v (by omega) hv
      · intro v hv
        have hvu : v ≠ u := by
          rintro rfl
          exact hv n (by omega) hu
        rw [v8]
        simp only [hvu, ↓reduceIte]
        exact ih.state_kept v (fun i hi => hv i (by omega))
    · have hskip : ∀ u, ¬ (visits hk c n σ).Doomed n u := by
        intro u hu
        exact hd ⟨u, (ih.doomed_iff hinj (Nat.le_refl n)).1 hu⟩
      rw [probeExitVisit_skip hskip]
      have hcase : ∀ i v, i < n + 1 → σ.Doomed i v → i < n := by
        intro i v hi hv
        have : i ≠ n := by
          rintro rfl
          exact hd ⟨v, hv⟩
        omega
      exact ⟨ih.nbThread, ih.ctlState, ih.pc, ih.tid, fun i v hi hv => ih.slot_gone i v (hcase i v hi hv) hv,
        fun i hi => ih.slot_kept i (fun hlt => hi (by omega)),
        fun i v hi hv => ih.state_gone i v (hcase i v hi hv) hv,
        fun v hv => ih.state_kept v (fun i hi => hv i (by omega))⟩

theorem visits_eq_self {n : Nat} (h : ∀ i < n, ∀ u, ¬ σ.Doomed i u) : visits hk c n σ = σ := by
  induction n with
  | zero => rfl
  | succ n ih =>
    rw [visits_succ, ih (fun i hi => h i (by omega))]
    exact probeExitVisit_skip (h n (by omega))

private theorem visits_frame (hk : Hooks) (c : τ) (n : Nat) (σ : State τ) :
    (visits hk c n σ).ctlState = σ.ctlState ∧ (visits hk c n σ).pc = σ.pc := by
  induction n with
  | zero => exact ⟨rfl, rfl⟩
  | succ n ih =>
    rw [visits_succ]
    by_cases hd : ∃ u, (visits hk c n σ).Doomed n u
    · obtain ⟨u, hu⟩ := hd
      obtain ⟨-, -, -, h4, h5, -⟩ := probeExitVisit_doomed hu hk c
      exact ⟨h4.trans ih.1, h5.trans ih.2⟩
    · rw [probeExitVisit_skip fun u hu => hd ⟨u, hu⟩]
      exact ih

/-- `probe_exit`: the early return, and the two ways out after the loop. -/
theorem probeExit_cases (hk : Hooks) (c : τ) (σ : State τ) :
    (σ.nbExit = σ.nbThread ∧ probeExit hk c σ = ({ σ with ctlState := .exit }, 0)) ∨
    (σ.nbExit ≠ σ.nbThread ∧ ∃ σ₁, σ₁ = visits hk c σ.nbThread.toNat { σ with ctlState := .exit } ∧
      ((σ₁.nbThread ≤ σ₁.nbExit ∧ probeExit hk c σ = ({ σ₁ with ctlState := .uninit }, 0)) ∨
       (σ₁.nbExit < σ₁.nbThread ∧ probeExit hk c σ = (σ₁, 1)))) := by
  unfold probeExit
  by_cases he : σ.nbExit = σ.nbThread
  · exact .inl ⟨he, by simp [he]⟩
  · refine .inr ⟨he, _, rfl, ?_⟩
    simp only [he, ↓reduceIte]
    by_cases hge : (probeExitLoop hk c { σ with ctlState := .exit }).nbThread ≤
        (probeExitLoop hk c { σ with ctlState := .exit }).nbExit
    · exact .inl ⟨hge, by simp only [ge_iff_le, hge, ↓reduceIte]; rfl⟩
    · exact .inr ⟨UInt8.not_le.1 hge, by simp only [ge_iff_le, hge, ↓reduceIte]; rfl⟩

theorem probeExit_frame (hk : Hooks) (c : τ) (σ : State τ) :
    (probeExit hk c σ).1.ctlState ≠ .running ∧ (probeExit hk c σ).1.pc = σ.pc := by
  obtain ⟨hctl, hpc⟩ := visits_frame hk c σ.nbThread.toNat { σ with ctlState := .exit }
  rcases probeExit_cases hk c σ with ⟨-, he⟩ | ⟨-, σ₁, rfl, ⟨-, he⟩ | ⟨-, he⟩⟩ <;> rw [he]
  · exact ⟨by simp, rfl⟩
  · exact ⟨by simp, hpc⟩
  · exact ⟨by simp [hctl], hpc⟩

/-! ### The counting calls -/

theorem nbCounter_toNat (r : Range) : (nbCounter r).toNat = (2 ^ 32 + r.max.toNat + 1 - r.min.toNat) % 2 ^ 32 := by
  have h1 := UInt16.toNat_lt r.min
  have h2 := UInt16.toNat_lt r.max
  unfold nbCounter
  rw [UInt32.toNat_add, UInt32.toNat_sub, UInt16.toNat_toUInt32, UInt16.toNat_toUInt32]
  simp only [UInt32.reduceToNat]
  omega

theorem nbCounter_of_le {r : Range} (hle : r.min.toNat ≤ r.max.toNat) :
    (nbCounter r).toNat = r.max.toNat - r.min.toNat + 1 := by
  have := UInt16.toNat_lt r.max
  rw [nbCounter_toNat]
  omega

omit [DecidableEq τ] in
private theorem increment_ok {k : Kind} {func : UInt32} (h : increment t k func σ = .ok σ') :
    ∃ heap, σ' = { σ with heap := heap } := by
  unfold increment at h
  split at h
  · cases h
  · split at h
    · cases h
    · split at h
      · cases h
        exact ⟨_, rfl⟩
      · cases h

theorem funccCountStep_cases (h : funccCountStep t σ = .ok σ') :
    (σ.pc t = .outside ∧ σ' = σ) ∨
    (∃ k func, σ.pc t = .entering k func ∧ σ' = (σ.setState t .running).setPc t (.counting k func)) ∨
    (∃ k func heap, σ.pc t = .counting k func ∧ σ' = ({ σ with heap := heap } : State τ).setPc t .leaving) ∨
    (σ.pc t = .leaving ∧ σ' = (σ.setState t .idle).setPc t .outside) := by
  unfold funccCountStep at h
  split at h
  · rename_i hp
    cases h
    exact .inl ⟨hp, rfl⟩
  · rename_i k func hp
    cases h
    exact .inr (.inl ⟨k, func, hp, rfl⟩)
  · rename_i k func hp
    cases hi : increment t k func σ with
    | error e => simp [hi] at h
    | ok σ₁ =>
      simp only [hi] at h
      cases h
      obtain ⟨heap, rfl⟩ := increment_ok hi
      exact .inr (.inr (.inl ⟨k, func, heap, hp, rfl⟩))
  · rename_i hp
    cases h
    exact .inr (.inr (.inr ⟨hp, rfl⟩))

theorem countEnter_cases {k : Kind} {func : UInt32} (h : step hk σ (.countEnter t k func m) = .ok σ') :
    ((σ.pc t ≠ .outside ∨ ((σ.info t).state ≠ .uninit ∧ (σ.info t).state ≠ .idle)) ∧ σ' = σ) ∨
    (σ.pc t = .outside ∧ (σ.info t).state = .idle ∧ σ' = σ.setPc t (.entering k func)) ∨
    (σ.pc t = .outside ∧ (σ.info t).state = .uninit ∧
      ∃ σ₁, probeThreadInit hk t m σ = .ok σ₁ ∧ σ' = σ₁.setPc t (.entering k func)) := by
  simp only [step] at h
  split at h
  · rename_i hp
    unfold funccCountEnter at h
    split at h
    · rename_i hu
      cases hi : probeThreadInit hk t m σ with
      | error e => simp [hi] at h
      | ok σ₁ =>
        simp only [hi] at h
        cases h
        exact .inr (.inr ⟨hp, hu, σ₁, rfl, rfl⟩)
    · rename_i hu
      split at h
      · rename_i hi
        cases h
        exact .inl ⟨.inr ⟨hu, hi⟩, rfl⟩
      · rename_i hi
        cases h
        exact .inr (.inl ⟨hp, not_not.1 hi, rfl⟩)
  · rename_i hp
    cases h
    exact .inl ⟨.inl hp, rfl⟩

end StubProfile.Probe
