import StubProfile.Lib.Machine
import StubProfile.Probe.Cases

/-!
# The thread registry

`Registry` is what holds of the registry in every reachable state, whatever the calls: the slots in use lie below
`nb_thread` and hold threads with that `tid`, a `tid` is the initial `UINT8_MAX` or lies below `nb_thread`, and no
two threads hold the same one.
-/

namespace StubProfile.Probe

variable {τ : Type} [DecidableEq τ] {hk : Hooks} {σ σ' : State τ} {c t u : τ} {m : Bool}

structure Registry (σ : State τ) : Prop where
  nb_le : σ.nbThread.toNat ≤ 64
  slot_lt : ∀ {i u}, σ.threads i = some u → i < σ.nbThread.toNat
  slot_tid : ∀ {i u}, σ.threads i = some u → (σ.info u).tid.toNat = i
  slot_state : ∀ {i u}, σ.threads i = some u → (σ.info u).state ≠ .uninit
  tid_lt : ∀ {u}, σ.HoldsTid u → (σ.info u).tid.toNat < σ.nbThread.toNat
  tid_inj : ∀ {u v}, σ.HoldsTid u → (σ.info u).tid = (σ.info v).tid → u = v

omit [DecidableEq τ] in
theorem Registry.slotsInj (h : Registry σ) : σ.SlotsInj := by
  intro i j u hi hj
  rw [← h.slot_tid hi, ← h.slot_tid hj]

omit [DecidableEq τ] in
theorem Registry.holdsTid (h : Registry σ) {i : Nat} (hi : σ.threads i = some u) : σ.HoldsTid u := by
  intro he
  have h1 := h.slot_tid hi
  have h2 := h.slot_lt hi
  have h3 := h.nb_le
  rw [he] at h1
  simp at h1
  omega

omit [DecidableEq τ] in
theorem Registry.fresh_iff (h : Registry σ) : σ.nbThread < (σ.info t).tid ↔ ¬ σ.HoldsTid t := by
  have hnb := h.nb_le
  rw [UInt8.lt_iff_toNat_lt]
  constructor
  · intro hlt hh
    have := h.tid_lt hh
    omega
  · intro hh
    rw [not_not.1 hh]
    simp
    omega

omit [DecidableEq τ] in
theorem registry_initial : Registry (State.initial τ) := by
  refine ⟨by simp [State.initial], ?_, ?_, ?_, ?_, ?_⟩ <;> intros <;> simp_all [State.initial, State.HoldsTid]

omit [DecidableEq τ] in
/-- A step that fills no slot and keeps the `tid`s keeps the registry, if the threads that stay in their slots do not
get the state `UNINIT`. -/
private theorem Registry.of_slots (h : Registry σ) (hnb : σ'.nbThread = σ.nbThread)
    (htid : ∀ u, (σ'.info u).tid = (σ.info u).tid)
    (hslots : ∀ i u, σ'.threads i = some u → σ.threads i = some u ∧ (σ'.info u).state ≠ .uninit) : Registry σ' := by
  have hholds : ∀ {u}, σ'.HoldsTid u → σ.HoldsTid u := by
    intro u hu
    unfold State.HoldsTid at hu ⊢
    rwa [htid] at hu
  refine ⟨by rw [hnb]; exact h.nb_le, ?_, ?_, ?_, ?_, ?_⟩
  · intro i u hi
    rw [hnb]
    exact h.slot_lt (hslots i u hi).1
  · intro i u hi
    rw [htid]
    exact h.slot_tid (hslots i u hi).1
  · intro i u hi
    exact (hslots i u hi).2
  · intro u hu
    rw [htid, hnb]
    exact h.tid_lt (hholds hu)
  · intro u v hu huv
    rw [htid, htid] at huv
    exact h.tid_inj (hholds hu) huv

omit [DecidableEq τ] in
private theorem Registry.of_frame (h : Registry σ) (hnb : σ'.nbThread = σ.nbThread) (hslots : σ'.threads = σ.threads)
    (htid : ∀ u, (σ'.info u).tid = (σ.info u).tid)
    (hstate : ∀ u, (σ.info u).state ≠ .uninit → (σ'.info u).state ≠ .uninit) : Registry σ' := by
  refine h.of_slots hnb htid fun i u hi => ?_
  rw [hslots] at hi
  exact ⟨hi, hstate u (h.slot_state hi)⟩

omit [DecidableEq τ] in
theorem Registry.setCtl (h : Registry σ) (r : Range) (s : ProbeState) :
    Registry { σ with idxRange := r, ctlState := s } :=
  h.of_frame rfl rfl (fun _ => rfl) (fun _ hu => hu)

private theorem Registry.setPc (h : Registry σ) (t : τ) (p : Pc) : Registry (σ.setPc t p) :=
  h.of_frame rfl rfl (fun _ => rfl) (fun _ hu => hu)

private theorem Registry.setState (h : Registry σ) (t : τ) {s : ProbeState} (hs : s ≠ .uninit) :
    Registry (σ.setState t s) := by
  refine h.of_frame rfl rfl (fun u => ?_) (fun u hu => ?_)
  · by_cases hut : u = t <;> simp [State.setState, hut]
  · by_cases hut : u = t
    · simpa [State.setState, hut] using hs
    · simpa [State.setState, hut] using hu

omit [DecidableEq τ] in
private theorem Registry.tid_ne_nbThread (h : Registry σ) (hu : σ.HoldsTid u) : (σ.info u).tid ≠ σ.nbThread := by
  intro he
  have hlt := h.tid_lt hu
  rw [he] at hlt
  omega

private theorem Registry.slot_withTid (h : Registry σ) (ht : ¬ σ.HoldsTid t) {i : Nat}
    (hi : (σ.withTid t).threads i = some u) :
    (i = σ.nbThread.toNat ∧ u = t) ∨ (u ≠ t ∧ σ.threads i = some u) := by
  simp only [State.withTid, Function.update_apply] at hi
  split at hi
  · rename_i hin
    exact .inl ⟨hin, (Option.some.inj hi).symm⟩
  · refine .inr ⟨?_, hi⟩
    rintro rfl
    exact ht (h.holdsTid hi)

private theorem createData_withTid_tid (u : τ) : ((createData hk t m (σ.withTid t)).info u).tid =
    if u = t then σ.nbThread else (σ.info u).tid := by
  rw [createData_tid]
  by_cases hu : u = t <;> simp [State.withTid, hu]

/-- The thread that just got a `tid` enters the registry with the state its initialisation ends in. -/
private theorem Registry.withTid (h : Registry σ) (ht : ¬ σ.HoldsTid t) (hnb : σ.nbThread.toNat < 64)
    (hk : Hooks) (m : Bool) : Registry (createData hk t m (σ.withTid t)) := by
  obtain ⟨c1, c2, -⟩ := createData_frame hk t m (σ.withTid t)
  have hnb' : (createData hk t m (σ.withTid t)).nbThread.toNat = σ.nbThread.toNat + 1 := by
    rw [c1]
    show (σ.nbThread + 1).toNat = _
    rw [UInt8.toNat_add]
    simp
    omega
  refine ⟨by omega, ?_, ?_, ?_, ?_, ?_⟩
  · intro i u hi
    rw [c2] at hi
    rcases h.slot_withTid ht hi with ⟨rfl, -⟩ | ⟨-, hi⟩
    · omega
    · have := h.slot_lt hi
      omega
  · intro i u hi
    rw [c2] at hi
    rw [createData_withTid_tid]
    rcases h.slot_withTid ht hi with ⟨rfl, rfl⟩ | ⟨hut, hi⟩
    · rw [if_pos rfl]
    · rw [if_neg hut]
      exact h.slot_tid hi
  · intro i u hi
    rw [c2] at hi
    rcases h.slot_withTid ht hi with ⟨-, rfl⟩ | ⟨hut, hi⟩
    · exact createData_state_ne hk u m _
    · rw [createData_info_other hut]
      simpa [State.withTid, hut] using h.slot_state hi
  · intro u hu
    unfold State.HoldsTid at hu
    rw [createData_withTid_tid] at hu ⊢
    by_cases hut : u = t
    · rw [if_pos hut]
      omega
    · rw [if_neg hut] at hu ⊢
      have := h.tid_lt hu
      omega
  · intro u v hu huv
    unfold State.HoldsTid at hu
    rw [createData_withTid_tid] at hu
    rw [createData_withTid_tid, createData_withTid_tid] at huv
    by_cases hut : u = t <;> by_cases hvt : v = t
    · rw [hut, hvt]
    · rw [if_pos hut] at hu
      rw [if_pos hut, if_neg hvt] at huv
      have hv : σ.HoldsTid v := by
        unfold State.HoldsTid
        rwa [← huv]
      exact absurd huv.symm (h.tid_ne_nbThread hv)
    · rw [if_neg hut] at hu
      rw [if_neg hut, if_pos hvt] at huv
      exact absurd huv (h.tid_ne_nbThread hu)
    · rw [if_neg hut] at hu
      rw [if_neg hut, if_neg hvt] at huv
      exact h.tid_inj hu huv

private theorem Registry.probeThreadInit (h : Registry σ) (hs : probeThreadInit hk t m σ = .ok σ') : Registry σ' := by
  rcases probeThreadInit_cases hs with ⟨-, rfl⟩ | ⟨hr, σ₁, hg, rfl⟩
  · exact h
  · rcases generateTid_cases hg with ⟨hlt, hnb, rfl⟩ | ⟨-, rfl⟩
    · exact h.withTid (h.fresh_iff.1 hlt) hnb hk m
    · obtain ⟨c1, c2, -⟩ := createData_frame hk t m σ₁
      refine h.of_frame c1 c2 createData_tid (fun u hu => ?_)
      by_cases hut : u = t
      · subst hut
        exact createData_state_ne hk u m σ₁
      · rwa [createData_info_other hut]

theorem Registry.visits (h : Registry σ) (hk : Hooks) (c : τ) (n : Nat) : Registry (visits hk c n σ) := by
  have hv := visits_spec h.slotsInj hk c n
  -- a slot still in use is one the loop skipped or did not reach, and its thread is untouched
  refine h.of_slots hv.nbThread hv.tid fun i u hi => ?_
  have hnd : i < n → ∀ w, ¬ σ.Doomed i w := by
    intro hin w hw
    rw [hv.slot_gone i w hin hw] at hi
    cases hi
  rw [hv.slot_kept i hnd] at hi
  have hstate : ((Probe.visits hk c n σ).info u).state = (σ.info u).state := by
    apply hv.state_kept
    intro j hj hd
    have hji := h.slotsInj _ _ _ hd.1 hi
    exact hnd (by omega) u (hji ▸ hd)
  rw [hstate]
  exact ⟨hi, h.slot_state hi⟩

private theorem Registry.probeExit (h : Registry σ) (hk : Hooks) (c : τ) : Registry (probeExit hk c σ).1 := by
  have h₁ : Registry { σ with ctlState := .exit } := h.setCtl _ _
  rcases probeExit_cases hk c σ with ⟨-, he⟩ | ⟨-, σ₁, hσ₁, ⟨-, he⟩ | ⟨-, he⟩⟩ <;> rw [he]
  · exact h₁
  · rw [hσ₁]
    exact (h₁.visits hk c _).setCtl _ _
  · rw [hσ₁]
    exact h₁.visits hk c _

theorem registry_step (h : Registry σ) {a : Call τ} (hs : step hk σ a = .ok σ') : Registry σ' := by
  cases a with
  | funccInit t min max m =>
    simp only [step, funccInit] at hs
    split at hs
    · cases hs
      exact h
    · exact (h.setCtl _ _).probeThreadInit hs
  | threadGlobalExit t =>
    simp only [step, threadGlobalExit] at hs
    cases hs
    split
    · exact (h.probeExit hk t).setCtl _ _
    · exact h
  | probeThreadInit t m => exact h.probeThreadInit hs
  | probeExit t =>
    cases hs
    exact h.probeExit hk t
  | countEnter t k func m =>
    rcases countEnter_cases hs with ⟨-, rfl⟩ | ⟨-, -, rfl⟩ | ⟨-, -, σ₁, hi, rfl⟩
    · exact h
    · exact h.setPc _ _
    · exact (h.probeThreadInit hi).setPc _ _
  | countStep t =>
    rcases funccCountStep_cases hs with ⟨-, rfl⟩ | ⟨k, func, -, rfl⟩ | ⟨k, func, heap, -, rfl⟩ | ⟨-, rfl⟩
    · exact h
    · exact (h.setState t (by decide)).setPc _ _
    · exact h.of_frame rfl rfl (fun _ => rfl) (fun _ hu => hu)
    · exact (h.setState t (by decide)).setPc _ _

theorem Reachable.registry (h : Machine.Reachable (step hk) (State.initial τ) σ) : Registry σ :=
  h.induct registry_initial fun _ _ _ hr hs => registry_step hr hs

end StubProfile.Probe
