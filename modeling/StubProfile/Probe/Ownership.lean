import StubProfile.Probe.Registry

/-!
# Who owns the counter blocks

A counter block belongs to the thread whose `data` pointer holds it.  `probe_exit` walks over the records of all
threads, but releases through `funcc_data_free`, which takes no argument and works on the calling thread; then it
clears the pointer of the thread it destroys.  So the first thread it destroys costs the caller its block, and every
destroyed thread other than the caller loses its pointer without a release (`visits_release`).

Everything else about the blocks holds in all runs (`Blocks`): no two threads share one, no released block is
pointed to, and initialisation never overwrites a pointer.
-/

namespace StubProfile.Probe

open Machine

variable {τ : Type} [DecidableEq τ] {hk : Hooks} {σ σ' : State τ} {c t u : τ} {m : Bool}

/-- `probe_exit` gets to its loop and destroys the thread. -/
def State.Destroys (σ : State τ) (u : τ) : Prop :=
  σ.nbExit ≠ σ.nbThread ∧ ∃ i < σ.nbThread.toNat, σ.Doomed i u

/-- A call of `probe_exit` that leads from `σ` to `σ'` dumps and releases the block of each thread it destroys, and no
other. -/
structure ReleasesOwn (σ σ' : State τ) : Prop where
  own : ∀ u p, σ.Destroys u → (σ.info u).data = some p → p ∉ σ.freed ∧ p ∈ σ'.freed ∧
    ∃ before after, σ'.log = σ.log ++ before ++ dumpCounters u σ.idxRange ((σ.heap p).headD default) ++ after
  others : ∀ v p, ¬ σ.Destroys v → (σ.info v).data = some p → p ∉ σ'.freed

/-- Every block is released at most once, and no block is lost: it is released, or some thread points to it. -/
structure Accounted (σ : State τ) : Prop where
  once : σ.freed.Nodup
  kept : ∀ p < σ.brk, p ∈ σ.freed ∨ ∃ t, (σ.info t).data = some p

/-- The call runs `probe_exit`. -/
def Exits (σ : State τ) : Call τ → Prop
  | .probeExit _ => True
  | .threadGlobalExit _ => σ.ctlState ≠ .uninit
  | _ => False

/-- The call accounts for all blocks, and if it is an exit it releases the blocks of the threads it destroys. -/
def OwnershipKept (hk : Hooks) (σ : State τ) (a : Call τ) : Prop :=
  ∀ σ', step hk σ a = .ok σ' → Accounted σ' ∧ (Exits σ a → ReleasesOwn σ σ')

/-- Each thread an exit destroys is the caller or has no block, and if it destroys any, the caller is one of them or
has no block. -/
def State.CallerOnly (σ : State τ) (c : τ) : Prop :=
  ∀ u, σ.Destroys u → ((σ.info u).data ≠ none → u = c) ∧ ((σ.info c).data ≠ none → σ.Destroys c)

def OwnerStep (σ : State τ) : Call τ → Prop
  | .probeExit c => σ.CallerOnly c
  | .threadGlobalExit c => σ.ctlState ≠ .uninit → σ.CallerOnly c
  | _ => True

/-! ### The loop of `probe_exit` and the blocks -/

/-- What `funcc_data_free` reports for the thread. -/
def report (σ : State τ) (c : τ) : List (Report τ) :=
  match (σ.info c).data with
  | none => []
  | some p => dumpCounters c σ.idxRange ((σ.heap p).headD default)

private theorem funccDataFree_data (c : τ) (σ : State τ) :
    (funccDataFree c σ).freed = σ.freed ++ (σ.info c).data.toList ∧ (funccDataFree c σ).log = σ.log ++ report σ c ∧
      (funccDataFree c σ).heap = σ.heap ∧ (funccDataFree c σ).brk = σ.brk ∧
      (funccDataFree c σ).idxRange = σ.idxRange ∧
      ∀ v, ((funccDataFree c σ).info v).data = if v = c then none else (σ.info v).data := by
  unfold funccDataFree report
  cases hd : (σ.info c).data with
  | none =>
    refine ⟨by simp, by simp, rfl, rfl, rfl, fun v => ?_⟩
    by_cases hv : v = c
    · simp [hv, hd]
    · simp [hv]
  | some p =>
    refine ⟨rfl, rfl, rfl, rfl, rfl, fun v => ?_⟩
    by_cases hv : v = c
    · simp [hv, State.setData]
    · simp [hv, State.setData]

private theorem probeExitVisit_data {i : Nat} (hfree : hk.threadDataFree = true) (h : σ.Doomed i u) (c : τ) :
    (probeExitVisit hk c σ i).freed = σ.freed ++ (σ.info c).data.toList ∧
      (probeExitVisit hk c σ i).log = σ.log ++ report σ c ∧ (probeExitVisit hk c σ i).heap = σ.heap ∧
      (probeExitVisit hk c σ i).brk = σ.brk ∧ (probeExitVisit hk c σ i).idxRange = σ.idxRange ∧
      ∀ v, ((probeExitVisit hk c σ i).info v).data = if v = u ∨ v = c then none else (σ.info v).data := by
  obtain ⟨hslot, hst⟩ := h
  obtain ⟨f1, f2, f3, f4, f5, f6⟩ := funccDataFree_data c σ
  unfold probeExitVisit
  simp only [hslot, hst, hfree, ↓reduceIte]
  refine ⟨f1, f2, f3, f4, f5, fun v => ?_⟩
  by_cases hv : v = u
  · subst hv
    simp [State.setState, State.setInited, State.setData]
  · simp [State.setState, State.setInited, State.setData, hv, f6]

/-- The first `n` rounds of the loop, when some thread is destroyed in them. -/
structure ReleaseSpec (c : τ) (σ σ' : State τ) (n : Nat) : Prop where
  freed : σ'.freed = σ.freed ++ (σ.info c).data.toList
  log : σ'.log = σ.log ++ report σ c
  brk : σ'.brk = σ.brk
  data_gone : ∀ i u, i < n → σ.Doomed i u → (σ'.info u).data = none
  data_caller : (σ'.info c).data = none
  data_kept : ∀ v, v ≠ c → (∀ i < n, ¬ σ.Doomed i v) → (σ'.info v).data = (σ.info v).data

omit [DecidableEq τ] in
/-- A round in which no thread is destroyed. -/
private theorem ReleaseSpec.skip {n : Nat} (h : ReleaseSpec c σ σ' n) (hn : ∀ u, ¬ σ.Doomed n u) :
    ReleaseSpec c σ σ' (n + 1) := by
  refine ⟨h.freed, h.log, h.brk, fun i v hi hv => ?_, h.data_caller,
    fun v hv hnd => h.data_kept v hv fun i hi => hnd i (by omega)⟩
  have hin : i ≠ n := by
    rintro rfl
    exact hn v hv
  exact h.data_gone i v (by omega) hv

/-- A round that destroys another thread: the caller has no block anymore. -/
private theorem ReleaseSpec.next {n : Nat} (h : ReleaseSpec c σ σ' n) (hfree : hk.threadDataFree = true)
    (hu : σ.Doomed n u) (hu' : σ'.Doomed n u) : ReleaseSpec c σ (probeExitVisit hk c σ' n) (n + 1) := by
  obtain ⟨d1, d2, -, d4, -, d6⟩ := probeExitVisit_data hfree hu' c
  have hreport : report σ' c = [] := by simp [report, h.data_caller]
  refine ⟨?_, ?_, d4.trans h.brk, ?_, by simp [d6], ?_⟩
  · rw [d1, h.freed, h.data_caller]
    simp
  · rw [d2, h.log, hreport, List.append_nil]
  · intro i v hi hv
    rw [d6]
    split
    · rfl
    · rename_i hvu
      have hin : i ≠ n := by
        rintro rfl
        exact hvu (.inl (Option.some.inj (hv.1.symm.trans hu.1)))
      exact h.data_gone i v (by omega) hv
  · intro v hv hnd
    have hvu : v ≠ u := by
      rintro rfl
      exact hnd n (by omega) hu
    rw [d6, if_neg (by simp [hv, hvu])]
    exact h.data_kept v hv fun i hi => hnd i (by omega)

/-- The first round that destroys a thread. -/
private theorem releaseSpec_first {n : Nat} (hfree : hk.threadDataFree = true) (hu : σ.Doomed n u)
    (hbefore : ∀ i < n, ∀ v, ¬ σ.Doomed i v) (c : τ) : ReleaseSpec c σ (probeExitVisit hk c σ n) (n + 1) := by
  obtain ⟨d1, d2, -, d4, -, d6⟩ := probeExitVisit_data hfree hu c
  refine ⟨d1, d2, d4, ?_, by simp [d6], ?_⟩
  · intro i v hi hv
    obtain rfl : i = n := by
      by_contra hin
      exact hbefore i (by omega) v hv
    have hvu : v = u := Option.some.inj (hv.1.symm.trans hu.1)
    simp [d6, hvu]
  · intro v hv hnd
    have hvu : v ≠ u := by
      rintro rfl
      exact hnd n (by omega) hu
    rw [d6, if_neg (by simp [hv, hvu])]

theorem visits_release (hinj : σ.SlotsInj) (hfree : hk.threadDataFree = true) (c : τ) {n : Nat}
    (hdoomed : ∃ i < n, ∃ u, σ.Doomed i u) : ReleaseSpec c σ (visits hk c n σ) n := by
  induction n with
  | zero =>
    obtain ⟨i, hi, -⟩ := hdoomed
    omega
  | succ n ih =>
    rw [visits_succ]
    have hlast : ∀ u, (visits hk c n σ).Doomed n u ↔ σ.Doomed n u := fun u =>
      (visits_spec hinj hk c n).doomed_iff hinj (Nat.le_refl n)
    by_cases hbefore : ∃ i < n, ∃ u, σ.Doomed i u
    · have h := ih hbefore
      by_cases hn : ∃ u, σ.Doomed n u
      · obtain ⟨u, hu⟩ := hn
        exact h.next hfree hu ((hlast u).2 hu)
      · rw [probeExitVisit_skip fun u hu => hn ⟨u, (hlast u).1 hu⟩]
        exact h.skip fun u hu => hn ⟨u, hu⟩
    · have hnone : ∀ i < n, ∀ v, ¬ σ.Doomed i v := fun i hi v hv => hbefore ⟨i, hi, v, hv⟩
      obtain ⟨i, hi, u, hu⟩ := hdoomed
      obtain rfl : i = n := by
        by_contra hin
        exact hnone i (by omega) u hu
      rw [visits_eq_self hnone]
      exact releaseSpec_first hfree hu hnone c

/-- What `probe_exit` does to the blocks: nothing, or what the loop does. -/
def ExitEffect (c : τ) (σ σ' : State τ) : Prop :=
  ((∀ u, ¬ σ.Destroys u) ∧ σ'.info = σ.info ∧ σ'.freed = σ.freed ∧ σ'.brk = σ.brk) ∨
  ((∃ u, σ.Destroys u) ∧ ReleaseSpec c σ σ' σ.nbThread.toNat ∧
    ∀ u, ¬ σ.Destroys u → (σ'.info u).state = (σ.info u).state)

private theorem probeExit_effect (hr : Registry σ) (hfree : hk.threadDataFree = true) (c : τ) :
    ExitEffect c σ (probeExit hk c σ).1 := by
  by_cases hearly : σ.nbExit = σ.nbThread
  · refine .inl ⟨fun u hu => hu.1 hearly, ?_⟩
    rcases probeExit_cases hk c σ with ⟨-, he⟩ | ⟨hne, -⟩
    · rw [he]
      exact ⟨rfl, rfl, rfl⟩
    · exact absurd hearly hne
  · -- the last store to the global state changes no block
    obtain ⟨s, he⟩ : ∃ s, (probeExit hk c σ).1 =
        { visits hk c σ.nbThread.toNat { σ with ctlState := .exit } with ctlState := s } := by
      rcases probeExit_cases hk c σ with ⟨h, -⟩ | ⟨-, σ₁, rfl, ⟨-, he⟩ | ⟨-, he⟩⟩
      · exact absurd h hearly
      · exact ⟨.uninit, by rw [he]⟩
      · exact ⟨_, by rw [he]⟩
    rw [he]
    have hinj : ({ σ with ctlState := .exit } : State τ).SlotsInj := hr.slotsInj
    by_cases hd : ∃ i < σ.nbThread.toNat, ∃ u, σ.Doomed i u
    · have hrel := visits_release hinj hfree c hd
      have hspec := visits_spec hinj hk c σ.nbThread.toNat
      obtain ⟨i, hi, u, hu⟩ := hd
      exact .inr ⟨⟨u, hearly, i, hi, hu⟩, ⟨hrel.freed, hrel.log, hrel.brk, hrel.data_gone, hrel.data_caller,
        hrel.data_kept⟩, fun v hv => hspec.state_kept v fun j hj hdv => hv ⟨hearly, j, hj, hdv⟩⟩
    · have hself : visits hk c σ.nbThread.toNat { σ with ctlState := .exit } = { σ with ctlState := .exit } :=
        visits_eq_self fun i hi u hu => hd ⟨i, hi, u, hu⟩
      rw [hself]
      exact .inl ⟨fun u hu => hd ⟨hu.2.choose, hu.2.choose_spec.1, u, hu.2.choose_spec.2⟩, rfl, rfl, rfl⟩

/-! ### The blocks in all runs -/

/-- Pointers lead to blocks that are allocated, not released and owned by one thread; a thread that is not
initialised has none. -/
structure Blocks (σ : State τ) : Prop where
  lt : ∀ {t p}, (σ.info t).data = some p → p < σ.brk
  live : ∀ {t p}, (σ.info t).data = some p → p ∉ σ.freed
  inj : ∀ {t u p}, (σ.info t).data = some p → (σ.info u).data = some p → t = u
  freed_lt : ∀ {p}, p ∈ σ.freed → p < σ.brk
  once : σ.freed.Nodup
  fresh : ∀ {t}, (σ.info t).state = .uninit → (σ.info t).data = none

omit [DecidableEq τ] in
private theorem blocks_initial : Blocks (State.initial τ) := by
  refine ⟨?_, ?_, ?_, ?_, ?_, ?_⟩ <;> intros <;> simp_all [State.initial]

omit [DecidableEq τ] in
/-- A step that touches no block and no pointer. -/
private theorem Blocks.of_frame (h : Blocks σ) (hdata : ∀ u, (σ'.info u).data = (σ.info u).data)
    (hfreed : σ'.freed = σ.freed)
    (hbrk : σ'.brk = σ.brk) (hfresh : ∀ u, (σ'.info u).state = .uninit → (σ.info u).state = .uninit) :
    Blocks σ' := by
  refine ⟨?_, ?_, ?_, ?_, ?_, ?_⟩
  · intro t p ht
    rw [hbrk]
    exact h.lt ((hdata t).symm.trans ht)
  · intro t p ht
    rw [hfreed]
    exact h.live ((hdata t).symm.trans ht)
  · intro t u p ht hu
    exact h.inj ((hdata t).symm.trans ht) ((hdata u).symm.trans hu)
  · intro p hp
    rw [hbrk]
    exact h.freed_lt (hfreed ▸ hp)
  · rw [hfreed]
    exact h.once
  · intro t ht
    rw [hdata]
    exact h.fresh (hfresh t ht)

omit [DecidableEq τ] in
private theorem Accounted.of_frame (h : Accounted σ) (hdata : ∀ u, (σ'.info u).data = (σ.info u).data)
    (hfreed : σ'.freed = σ.freed) (hbrk : σ'.brk = σ.brk) : Accounted σ' := by
  refine ⟨by rw [hfreed]; exact h.once, fun p hp => ?_⟩
  rw [hfreed]
  rcases h.kept p (hbrk ▸ hp) with hp | ⟨t, ht⟩
  · exact .inl hp
  · exact .inr ⟨t, (hdata t).trans ht⟩

/-- A thread without a block gets none, or the next one. -/
private theorem createData_block (ht : (σ.info t).data = none) (hk : Hooks) (m : Bool) :
    ((createData hk t m σ).brk = σ.brk ∧ ∀ u, ((createData hk t m σ).info u).data = (σ.info u).data) ∨
    ((createData hk t m σ).brk = σ.brk + 1 ∧
      ∀ u, ((createData hk t m σ).info u).data = if u = t then some σ.brk else (σ.info u).data) := by
  have hother : ∀ u, u ≠ t → ((createData hk t m σ).info u).data = (σ.info u).data := fun u hu => by
    rw [createData_info_other hu]
  have hcase : ((createData hk t m σ).brk = σ.brk ∧ ((createData hk t m σ).info t).data = none) ∨
      ((createData hk t m σ).brk = σ.brk + 1 ∧ ((createData hk t m σ).info t).data = some σ.brk) := by
    unfold createData
    split
    · exact .inl ⟨rfl, by simp [State.setState, State.setInited, ht]⟩
    · split
      · exact .inr ⟨rfl, by simp [State.setState, State.setInited, State.setData]⟩
      · exact .inl ⟨rfl, by simp [State.setState, State.setInited, State.setData]⟩
  rcases hcase with ⟨hbrk, hdata⟩ | ⟨hbrk, hdata⟩
  · refine .inl ⟨hbrk, fun u => ?_⟩
    by_cases hu : u = t
    · rw [hu, hdata, ht]
    · exact hother u hu
  · refine .inr ⟨hbrk, fun u => ?_⟩
    by_cases hu : u = t
    · rw [hu, hdata, if_pos rfl]
    · rw [hother u hu, if_neg hu]

private theorem Blocks.createData (h : Blocks σ) (ht : (σ.info t).data = none) (hk : Hooks) (m : Bool) :
    Blocks (createData hk t m σ) := by
  obtain ⟨-, -, -, -, -, hfreed⟩ := createData_frame hk t m σ
  have hfresh : ∀ u, ((Probe.createData hk t m σ).info u).state = .uninit →
      u ≠ t ∧ (σ.info u).state = .uninit := by
    intro u hu
    have hut : u ≠ t := by
      rintro rfl
      exact createData_state_ne hk u m σ hu
    exact ⟨hut, by rwa [createData_info_other hut] at hu⟩
  rcases createData_block ht hk m with ⟨hbrk, hdata⟩ | ⟨hbrk, hdata⟩
  · exact h.of_frame hdata hfreed hbrk fun u hu => (hfresh u hu).2
  · -- the new block is none of the old ones
    have hnew : ∀ {u p}, ((Probe.createData hk t m σ).info u).data = some p →
        (u = t ∧ p = σ.brk) ∨ (u ≠ t ∧ (σ.info u).data = some p) := by
      intro u p hu
      rw [hdata] at hu
      split at hu
      · rename_i hut
        exact .inl ⟨hut, (Option.some.inj hu).symm⟩
      · rename_i hut
        exact .inr ⟨hut, hu⟩
    refine ⟨?_, ?_, ?_, ?_, ?_, ?_⟩
    · intro u p hu
      rw [hbrk]
      rcases hnew hu with ⟨-, rfl⟩ | ⟨-, hold⟩
      · omega
      · have := h.lt hold
        omega
    · intro u p hu
      rw [hfreed]
      rcases hnew hu with ⟨-, rfl⟩ | ⟨-, hold⟩
      · intro hp
        have := h.freed_lt hp
        omega
      · exact h.live hold
    · intro u v p hu hv
      rcases hnew hu with ⟨rfl, rfl⟩ | ⟨-, hu'⟩
      · rcases hnew hv with ⟨rfl, -⟩ | ⟨-, hv'⟩
        · rfl
        · have := h.lt hv'
          omega
      · rcases hnew hv with ⟨-, rfl⟩ | ⟨-, hv'⟩
        · have := h.lt hu'
          omega
        · exact h.inj hu' hv'
    · intro p hp
      rw [hbrk]
      have := h.freed_lt (hfreed ▸ hp)
      omega
    · rw [hfreed]
      exact h.once
    · intro u hu
      obtain ⟨hut, hst⟩ := hfresh u hu
      rw [hdata, if_neg hut]
      exact h.fresh hst

private theorem Accounted.createData (h : Accounted σ) (ht : (σ.info t).data = none) (hk : Hooks) (m : Bool) :
    Accounted (createData hk t m σ) := by
  obtain ⟨-, -, -, -, -, hfreed⟩ := createData_frame hk t m σ
  rcases createData_block ht hk m with ⟨hbrk, hdata⟩ | ⟨hbrk, hdata⟩
  · exact h.of_frame hdata hfreed hbrk
  · refine ⟨by rw [hfreed]; exact h.once, fun p hp => ?_⟩
    rw [hfreed]
    by_cases hpb : p = σ.brk
    · exact .inr ⟨t, by rw [hdata, if_pos rfl, hpb]⟩
    · rcases h.kept p (by omega) with hp | ⟨u, hu⟩
      · exact .inl hp
      · have hut : u ≠ t := by
          rintro rfl
          rw [ht] at hu
          cases hu
        exact .inr ⟨u, by rw [hdata, if_neg hut, hu]⟩

private theorem blocks_withTid (h : Blocks σ) (t : τ) : Blocks (σ.withTid t) := by
  refine h.of_frame (fun u => ?_) rfl rfl fun u hu => ?_
  · by_cases hut : u = t <;> simp [State.withTid, hut]
  · by_cases hut : u = t
    · subst hut
      simpa [State.withTid] using hu
    · simpa [State.withTid, hut] using hu

private theorem probeThreadInit_blocks (h : Blocks σ) (hs : probeThreadInit hk t m σ = .ok σ') :
    Blocks σ' ∧ (Accounted σ → Accounted σ') := by
  rcases probeThreadInit_cases hs with ⟨-, rfl⟩ | ⟨hr, σ₁, hg, rfl⟩
  · exact ⟨h, id⟩
  · have hnone : (σ.info t).data = none := h.fresh hr.2
    rcases generateTid_cases hg with ⟨-, -, rfl⟩ | ⟨-, rfl⟩
    · have hnone' : ((σ.withTid t).info t).data = none := by simpa [State.withTid] using hnone
      refine ⟨(blocks_withTid h t).createData hnone' hk m, fun ha => ?_⟩
      have ha' : Accounted (σ.withTid t) := by
        refine ha.of_frame (fun u => ?_) rfl rfl
        by_cases hut : u = t <;> simp [State.withTid, hut]
      exact ha'.createData hnone' hk m
    · exact ⟨h.createData hnone hk m, fun ha => ha.createData hnone hk m⟩

omit [DecidableEq τ] in
private theorem Blocks.exit (h : Blocks σ) (he : ExitEffect c σ σ') : Blocks σ' := by
  rcases he with ⟨-, hinfo, hfreed, hbrk⟩ | ⟨-, hrel, hstate⟩
  · exact h.of_frame (fun u => by rw [hinfo]) hfreed hbrk fun u hu => by rwa [hinfo] at hu
  · -- the pointers that are left are old ones, and none of them is the caller's
    have hold : ∀ {u p}, (σ'.info u).data = some p → u ≠ c ∧ ¬ σ.Destroys u ∧ (σ.info u).data = some p := by
      intro u p hu
      have huc : u ≠ c := by
        rintro rfl
        rw [hrel.data_caller] at hu
        cases hu
      have hnd : ∀ i < σ.nbThread.toNat, ¬ σ.Doomed i u := by
        intro i hi hd
        rw [hrel.data_gone i u hi hd] at hu
        cases hu
      exact ⟨huc, fun hd => by obtain ⟨-, i, hi, hdi⟩ := hd; exact hnd i hi hdi,
        (hrel.data_kept u huc hnd).symm.trans hu⟩
    refine ⟨?_, ?_, ?_, ?_, ?_, ?_⟩
    · intro u p hu
      rw [hrel.brk]
      exact h.lt (hold hu).2.2
    · intro u p hu hp
      obtain ⟨huc, -, hup⟩ := hold hu
      rw [hrel.freed] at hp
      rcases List.mem_append.1 hp with hp | hp
      · exact h.live hup hp
      · exact huc (h.inj hup (Option.mem_toList.1 hp))
    · intro u v p hu hv
      exact h.inj (hold hu).2.2 (hold hv).2.2
    · intro p hp
      rw [hrel.freed] at hp
      rw [hrel.brk]
      rcases List.mem_append.1 hp with hp | hp
      · exact h.freed_lt hp
      · exact h.lt (Option.mem_toList.1 hp)
    · rw [hrel.freed]
      cases hd : (σ.info c).data with
      | none => simpa using h.once
      | some p =>
        simpa using List.nodup_append.2 ⟨h.once, by simp, by simpa using fun q hq => by rintro rfl; exact h.live hd hq⟩
    · intro u hu
      cases hd : (σ'.info u).data with
      | none => rfl
      | some p =>
        obtain ⟨-, hnd, hup⟩ := hold hd
        rw [hstate u hnd] at hu
        rw [h.fresh hu] at hup
        cases hup

/-- An exit accounts for the blocks and releases the right ones exactly if it meets `CallerOnly`. -/
private theorem exit_ownership_iff (h : Blocks σ) (ha : Accounted σ) (he : ExitEffect c σ σ') :
    (Accounted σ' ∧ ReleasesOwn σ σ') ↔ σ.CallerOnly c := by
  have hb' := h.exit he
  rcases he with ⟨hnone, hinfo, hfreed, hbrk⟩ | ⟨⟨d, hd⟩, hrel, -⟩
  · refine ⟨fun _ u hu => absurd hu (hnone u), fun _ => ⟨ha.of_frame (fun u => by rw [hinfo]) hfreed hbrk, ?_⟩⟩
    refine ⟨fun u p hu => absurd hu (hnone u), fun v p _ hv => ?_⟩
    rw [hfreed]
    exact h.live hv
  · constructor
    · rintro ⟨-, hown⟩ u hu
      refine ⟨fun hdata => ?_, fun hdata => ?_⟩
      · obtain ⟨p, hp⟩ := Option.ne_none_iff_exists'.1 hdata
        obtain ⟨hnot, hin, -⟩ := hown.own u p hu hp
        rw [hrel.freed] at hin
        exact h.inj hp (Option.mem_toList.1 ((List.mem_append.1 hin).resolve_left hnot))
      · obtain ⟨p, hp⟩ := Option.ne_none_iff_exists'.1 hdata
        by_contra hc
        refine hown.others c p hc hp ?_
        rw [hrel.freed, hp]
        simp
    · intro hcaller
      have hfreed : ∀ {p}, (σ.info c).data = some p → p ∈ σ'.freed := by
        intro p hp
        rw [hrel.freed, hp]
        simp
      refine ⟨⟨hb'.once, fun p hp => ?_⟩, ⟨fun u p hu hup => ?_, fun v p hv hvp hp => ?_⟩⟩
      · rcases ha.kept p (hrel.brk ▸ hp) with hp | ⟨t, ht⟩
        · exact .inl (by rw [hrel.freed]; exact List.mem_append_left _ hp)
        · by_cases htc : t = c
          · exact .inl (hfreed (htc ▸ ht))
          · refine .inr ⟨t, ?_⟩
            rw [hrel.data_kept t htc, ht]
            intro i hi hdi
            exact htc ((hcaller t ⟨hd.1, i, hi, hdi⟩).1 (by simp [ht]))
      · obtain rfl := (hcaller u hu).1 (by simp [hup])
        refine ⟨h.live hup, hfreed hup, [], [], ?_⟩
        rw [hrel.log]
        simp [report, hup]
      · rw [hrel.freed] at hp
        have hcp := Option.mem_toList.1 ((List.mem_append.1 hp).resolve_left (h.live hvp))
        obtain rfl := h.inj hvp hcp
        exact hv ((hcaller d hd).2 (by simp [hvp]))

/-! ### Runs -/

omit [DecidableEq τ] in
private theorem globalExit_effect (he : ExitEffect c σ σ') (s : ProbeState) :
    ExitEffect c σ { σ' with ctlState := s } := by
  rcases he with ⟨hnone, hrest⟩ | ⟨hsome, hrel, hstate⟩
  · exact .inl ⟨hnone, hrest⟩
  · exact .inr ⟨hsome, ⟨hrel.freed, hrel.log, hrel.brk, hrel.data_gone, hrel.data_caller, hrel.data_kept⟩, hstate⟩

/-- A store to the state of a thread, in a counting call. -/
private theorem setState_blocks (h : Blocks σ) {s : ProbeState} (hs : s ≠ .uninit) (t : τ) (p : Pc) :
    Blocks ((σ.setState t s).setPc t p) ∧ (Accounted σ → Accounted ((σ.setState t s).setPc t p)) := by
  have hdata : ∀ u, (((σ.setState t s).setPc t p).info u).data = (σ.info u).data := fun u => by
    by_cases hut : u = t <;> simp [State.setState, State.setPc, hut]
  refine ⟨h.of_frame hdata rfl rfl fun u hu => ?_, fun ha => ha.of_frame hdata rfl rfl⟩
  by_cases hut : u = t
  · subst hut
    simp [State.setState, State.setPc, hs] at hu
  · simpa [State.setState, State.setPc, hut] using hu

/-- What a step does to the blocks: an exit has its effect, and every other step keeps them in order. -/
private theorem step_blocks (hr : Registry σ) (h : Blocks σ) (hfree : hk.threadDataFree = true) {a : Call τ}
    (hs : step hk σ a = .ok σ') :
    (Exits σ a ∧ ∃ c, (OwnerStep σ a ↔ σ.CallerOnly c) ∧ ExitEffect c σ σ') ∨
      (¬ Exits σ a ∧ OwnerStep σ a ∧ Blocks σ' ∧ (Accounted σ → Accounted σ')) := by
  cases a with
  | funccInit t min max m =>
    refine .inr ⟨id, trivial, ?_⟩
    simp only [step, funccInit] at hs
    split at hs
    · rw [← Except.ok.inj hs]
      exact ⟨h, id⟩
    · have h' : Blocks { σ with idxRange := ⟨min.toUInt16, max.toUInt16⟩, ctlState := .running } :=
        h.of_frame (fun _ => rfl) rfl rfl fun _ hu => hu
      obtain ⟨hb, ha⟩ := probeThreadInit_blocks h' hs
      exact ⟨hb, fun hacc => ha (hacc.of_frame (fun _ => rfl) rfl rfl)⟩
  | threadGlobalExit t =>
    simp only [step, threadGlobalExit] at hs
    split at hs
    · rename_i hctl
      rw [← Except.ok.inj hs]
      exact .inl ⟨hctl, t, ⟨fun ho => ho hctl, fun ho _ => ho⟩, globalExit_effect (probeExit_effect hr hfree t) _⟩
    · rename_i hctl
      rw [← Except.ok.inj hs]
      exact .inr ⟨hctl, fun hne => absurd hne hctl, h, id⟩
  | probeThreadInit t m => exact .inr ⟨id, trivial, probeThreadInit_blocks h hs⟩
  | probeExit t =>
    rw [← Except.ok.inj hs]
    exact .inl ⟨trivial, t, Iff.rfl, probeExit_effect hr hfree t⟩
  | countEnter t k func m =>
    refine .inr ⟨id, trivial, ?_⟩
    rcases countEnter_cases hs with ⟨-, rfl⟩ | ⟨-, -, rfl⟩ | ⟨-, -, σ₁, hi, rfl⟩
    · exact ⟨h, id⟩
    · exact ⟨h.of_frame (fun _ => rfl) rfl rfl fun _ hu => hu, fun ha => ha.of_frame (fun _ => rfl) rfl rfl⟩
    · obtain ⟨hb, ha⟩ := probeThreadInit_blocks h hi
      exact ⟨hb.of_frame (fun _ => rfl) rfl rfl fun _ hu => hu,
        fun hacc => (ha hacc).of_frame (fun _ => rfl) rfl rfl⟩
  | countStep t =>
    refine .inr ⟨id, trivial, ?_⟩
    rcases funccCountStep_cases hs with ⟨-, rfl⟩ | ⟨k, func, -, rfl⟩ | ⟨k, func, heap, -, rfl⟩ | ⟨-, rfl⟩
    · exact ⟨h, id⟩
    · exact setState_blocks h (by decide) t _
    · exact ⟨h.of_frame (fun _ => rfl) rfl rfl fun _ hu => hu, fun ha => ha.of_frame (fun _ => rfl) rfl rfl⟩
    · exact setState_blocks h (by decide) t _

private theorem blocks_step (hr : Registry σ) (h : Blocks σ) (hfree : hk.threadDataFree = true) {a : Call τ}
    (hs : step hk σ a = .ok σ') : Blocks σ' := by
  rcases step_blocks hr h hfree hs with ⟨-, c, -, he⟩ | ⟨-, -, hb, -⟩
  · exact h.exit he
  · exact hb

/-- The calls of a run respect the owners of the blocks exactly if each exit destroys the calling thread and threads
without a block only. -/
theorem ownership_iff (hfree : hk.threadDataFree = true) (l : List (Call τ)) :
    Meets (step hk) (OwnershipKept hk) (State.initial τ) l ↔ Meets (step hk) OwnerStep (State.initial τ) l := by
  have hstart : Registry (State.initial τ) ∧ Blocks (State.initial τ) ∧ Accounted (State.initial τ) :=
    ⟨registry_initial, blocks_initial, ⟨List.nodup_nil, fun p hp => absurd hp (Nat.not_lt_zero p)⟩⟩
  refine meets_iff_meets (B := fun σ => Registry σ ∧ Blocks σ ∧ Accounted σ) ?_ ?_ hstart
  · rintro σ a σ' ⟨hr, hb, -⟩ hkept hs
    exact ⟨registry_step hr hs, blocks_step hr hb hfree hs, (hkept σ' hs).1⟩
  · rintro σ a σ' ⟨hr, hb, ha⟩ hs
    have hone : OwnershipKept hk σ a ↔ Accounted σ' ∧ (Exits σ a → ReleasesOwn σ σ') :=
      ⟨fun h => h σ' hs, fun h σ'' hs' => by rw [hs] at hs'; cases hs'; exact h⟩
    rw [hone]
    rcases step_blocks hr hb hfree hs with ⟨hex, c, hown, he⟩ | ⟨hex, hown, -, hacc⟩
    · rw [hown, ← exit_ownership_iff hb ha he]
      simp [hex]
    · simp [hex, hown, hacc ha]

/-- The thread that calls `probe_exit` is the one that is stopped inside the probe. -/
theorem ownership_caller_inside :
    Meets (step funccHooks) (OwnershipKept funccHooks) (State.initial Bool)
      [.funccInit true 10 20 true, .countEnter true .pre 12 true, .countStep true, .probeExit true] := by
  apply (ownership_iff rfl _).2
  refine Meets.cons rfl trivial ?_
  refine Meets.cons rfl trivial ?_
  refine Meets.cons rfl trivial ?_
  refine Meets.cons rfl (fun u _ => ⟨fun hdata => ?_, fun _ => ⟨by decide, 0, by decide, rfl, by decide⟩⟩) trivial
  cases u with
  | false => exact absurd rfl hdata
  | true => rfl

/-- Thread `true` is stopped inside the probe and `false`, which has a block of its own, calls `probe_exit`: the block
of `false` is released, and the pointer to the block of `true` is lost. -/
theorem exit_releases_block_of_caller :
    ∃ σ σ', run (step funccHooks) (State.initial Bool)
        [.funccInit true 10 20 true, .probeThreadInit false true, .countEnter true .pre 12 true, .countStep true] =
          .ok σ ∧
      (σ.info true).data = some 0 ∧ (σ.info false).data = some 1 ∧ σ.Destroys true ∧ ¬ σ.Destroys false ∧
      step funccHooks σ (.probeExit false) = .ok σ' ∧ σ'.freed = [1] ∧ (σ'.info true).data = none ∧
      ¬ OwnershipKept funccHooks σ (.probeExit false) := by
  refine ⟨_, _, rfl, rfl, rfl, ⟨by decide, 0, by decide, rfl, by decide⟩, ?_, rfl, rfl, rfl, fun hkept => ?_⟩
  · rintro ⟨-, i, -, hslot, hidle⟩
    exact hidle rfl
  · rcases (hkept _ rfl).1.kept 0 (by decide) with hfreed | ⟨t, ht⟩
    · revert hfreed
      decide
    · cases t <;> cases ht

end StubProfile.Probe
