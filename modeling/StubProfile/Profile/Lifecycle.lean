import StubProfile.Lib.Machine
import StubProfile.Profile.Process

/-!
# Reading the counters during the life of the process

`__read_count` follows `globalinfo.evlist` and indexes the arrays of its events with the `tid` of the thread.  The
index is never the problem: the arrays are sized by the thread map, and a thread becomes `RUNNING` only with an
index into that map (`ProcInv`).  The list is: `prof_exit` deletes it and leaves the state of every thread as it
is, so a `RUNNING` thread goes on to `__read_count` with `NULL`.

A step keeps the reads safe exactly if no `RUNNING` thread enters a counting call without the list, and `prof_exit`
is not called while a thread is inside (`readSafe_step_iff`).
-/

namespace StubProfile.Profile

open Machine WrapBuffer

variable {τ : Type} [DecidableEq τ] {gettid : τ → Int} {σ σ' : Process τ} {t u : τ} {sys : Sys} {env : InitEnv} {n : Nat}

/-- Every thread inside `__read_count` has an event list, and for each enabled event of it an entry of its own. -/
def ReadSafe (σ : Process τ) : Prop :=
  ∀ t func, σ.pc t = .reading func → ∃ el, σ.evlist = some el ∧ ∀ ev ∈ el.entries, ev.isEnable = true →
    ∃ l, ev.perThread = some l ∧ 0 ≤ (σ.tinfo t).tid ∧ (σ.tinfo t).tid < l.length

/-- No `RUNNING` thread enters a counting call after the event list is deleted, and `prof_exit` is called only
when no thread is inside a counting call. -/
def LifeStep (σ : Process τ) : Call τ → Prop
  | .countEnter t _ _ _ => σ.pc t = .outside → (σ.tinfo t).state = .running → σ.evlist ≠ none
  | .exit _ => ∀ u, σ.pc u = .outside
  | _ => True

/-- The arrays of the events and the indices of the threads fit the thread map of `n` threads. -/
structure ProcInv (n : Nat) (σ : Process τ) : Prop where
  map : ∀ {el}, σ.evlist = some el → ∃ threads, el.threads = some threads ∧ threads.pids.length = n
  sized : ∀ {el}, σ.evlist = some el → ∀ ev ∈ el.entries, ev.Sized n
  index : ∀ {t}, (σ.tinfo t).state = .running → 0 ≤ (σ.tinfo t).tid ∧ (σ.tinfo t).tid < n
  inside : ∀ {t}, σ.pc t ≠ .outside → (σ.tinfo t).state = .running

omit [DecidableEq τ] in
theorem procInv_profInit (h : profInit sys env (Process.initial τ) = (0, σ)) : ∃ n, ProcInv n σ := by
  obtain ⟨el, -, hel, -, hth, hsized, -, htinfo, hpc⟩ := profInit_ok h
  refine ⟨env.tasks.length, ?_, ?_, ?_, ?_⟩
  · intro el' h'
    rw [hel] at h'
    cases h'
    exact ⟨_, hth, rfl⟩
  · intro el' h'
    rw [hel] at h'
    cases h'
    exact hsized
  · intro t ht
    rw [htinfo t] at ht
    cases ht
  · intro t ht
    exact absurd (hpc t) ht

omit [DecidableEq τ] in
/-- The reads are safe when whoever reads finds an event list. -/
private theorem ProcInv.readSafe_iff (h : ProcInv n σ) :
    ReadSafe σ ↔ ((∃ t, σ.pc t ≠ .outside) → σ.evlist ≠ none) := by
  constructor
  · rintro hs ⟨t, ht⟩ hnone
    cases hp : σ.pc t with
    | outside => exact ht hp
    | reading func =>
      obtain ⟨el, hel, -⟩ := hs t func hp
      rw [hnone] at hel
      cases hel
  · intro hs t func hp
    have hin : σ.pc t ≠ .outside := by
      rw [hp]
      simp
    obtain ⟨el, hel⟩ := Option.ne_none_iff_exists'.1 (hs ⟨t, hin⟩)
    refine ⟨el, hel, fun ev hev hen => ?_⟩
    obtain ⟨l, hl, hlen⟩ := h.sized hel ev hev (.inr hen)
    have hidx := h.index (h.inside hin)
    exact ⟨l, hl, hidx.1, by omega⟩

/-! ### The steps -/

private theorem ProcInv.setTInfo (h : ProcInv n σ) {ti : TInfo}
    (hidx : ti.state = .running → 0 ≤ ti.tid ∧ ti.tid < n) (hin : σ.pc t ≠ .outside → ti.state = .running) :
    ProcInv n (σ.setTInfo t ti) := by
  refine ⟨h.map, h.sized, ?_, ?_⟩
  · intro u hu
    by_cases hut : u = t
    · subst hut
      simp only [Process.setTInfo, Function.update_self] at hu ⊢
      exact hidx hu
    · simp only [Process.setTInfo, Function.update_of_ne hut] at hu ⊢
      exact h.index hu
  · intro u hu
    by_cases hut : u = t
    · subst hut
      simp only [Process.setTInfo, Function.update_self]
      exact hin hu
    · simp only [Process.setTInfo, Function.update_of_ne hut]
      exact h.inside hu

private theorem ProcInv.setPc (h : ProcInv n σ) {p : Pc} (hp : p ≠ .outside → (σ.tinfo t).state = .running) :
    ProcInv n (σ.setPc t p) := by
  refine ⟨h.map, h.sized, h.index, ?_⟩
  intro u hu
  by_cases hut : u = t
  · subst hut
    simp only [Process.setPc, Function.update_self] at hu
    exact hp hu
  · simp only [Process.setPc, Function.update_of_ne hut] at hu
    exact h.inside hu

private theorem ProcInv.gate (h : ProcInv n σ) (func : UInt32) : ProcInv n (σ.gate t func) := by
  unfold Process.gate
  split
  · exact h
  · rename_i hs
    exact h.setPc fun _ => not_not.1 hs

private theorem ProcInv.threadExit (h : ProcInv n σ) (t : τ) :
    ProcInv n (σ.setTInfo t (threadExit (σ.tinfo t))) := by
  obtain ⟨hs, ht⟩ := threadExit_state (σ.tinfo t)
  refine h.setTInfo ?_ ?_
  · rw [hs, ht]
    exact h.index
  · rw [hs]
    exact h.inside

/-- `prof_count_pre` and `prof_count_post`: the thread has been initialised or not, and is past the gate or not. -/
theorem countEnter_cases {k : Kind} {func : UInt32} {e : ThreadEnv}
    (h : step gettid σ (.countEnter t k func e) = .ok σ') :
    (σ.pc t ≠ .outside ∧ σ' = σ) ∨
    (σ.pc t = .outside ∧ ¬ (k = .pre ∧ (σ.tinfo t).state = .uninit) ∧ σ' = σ.gate t func) ∨
    (σ.pc t = .outside ∧ k = .pre ∧ (σ.tinfo t).state = .uninit ∧
      ∃ ti, initThread (gettid t) e σ.evlist (σ.tinfo t) = .ok ti ∧ σ' = (σ.setTInfo t ti).gate t func) := by
  simp only [step] at h
  split at h
  · rename_i hp
    unfold countEnter at h
    split at h
    · rename_i hk
      cases hi : initThread (gettid t) e σ.evlist (σ.tinfo t) with
      | error e => simp [hi] at h
      | ok ti =>
        simp only [hi] at h
        cases h
        exact .inr (.inr ⟨hp, hk.1, hk.2, ti, rfl, rfl⟩)
    · rename_i hk
      cases h
      exact .inr (.inl ⟨hp, hk, rfl⟩)
  · rename_i hp
    cases h
    exact .inl ⟨hp, rfl⟩

theorem countRead_cases {pmc : Nat → UInt64} (h : countRead t pmc σ = .ok σ') :
    (σ.pc t = .outside ∧ σ' = σ) ∨
    (∃ func el buf, σ.pc t = .reading func ∧ σ.evlist = some el ∧
      readCount func pmc (σ.tinfo t).tid 0 el.entries (σ.tinfo t).buf = .ok buf ∧
      σ' = (σ.setTInfo t { σ.tinfo t with buf := buf }).setPc t .outside) := by
  unfold countRead at h
  split at h
  · rename_i hp
    cases h
    exact .inl ⟨hp, rfl⟩
  · rename_i func hp
    cases hel : σ.evlist with
    | none => simp [hel] at h
    | some el =>
      simp only [hel] at h
      cases hr : readCount func pmc (σ.tinfo t).tid 0 el.entries (σ.tinfo t).buf with
      | error e => simp [hr] at h
      | ok buf =>
        simp only [hr] at h
        cases h
        exact .inr ⟨func, el, buf, hp, rfl, hr, rfl⟩

theorem profExit_frame (t : τ) (σ : Process τ) :
    (profExit t σ).evlist = none ∧ (profExit t σ).pc = σ.pc ∧
      (profExit t σ).tinfo = (σ.setTInfo t (threadExit (σ.tinfo t))).tinfo := by
  unfold profExit
  simp only
  split
  · rename_i hel
    exact ⟨hel, rfl, rfl⟩
  · exact ⟨rfl, rfl, rfl⟩

theorem procInv_step (h : ProcInv n σ) {a : Call τ} (hs : step gettid σ a = .ok σ') : ProcInv n σ' := by
  cases a with
  | countEnter t k func e =>
    rcases countEnter_cases hs with ⟨-, rfl⟩ | ⟨-, -, rfl⟩ | ⟨hp, -, -, ti, hi, rfl⟩
    · exact h
    · exact h.gate func
    · refine ProcInv.gate (h.setTInfo ?_ fun hn => absurd hp hn) func
      intro hrun
      obtain ⟨el, threads, hel, hth, ⟨herr, -⟩ | ⟨-, ⟨hne, -⟩, htid, -⟩⟩ := initThread_cases hi
      · rw [herr] at hrun
        cases hrun
      · obtain ⟨threads', hth', hlen⟩ := h.map hel
        rw [hth] at hth'
        cases hth'
        rw [htid, ← hlen]
        exact threadMapGetindex_bounds hne
  | countRead t pmc =>
    rcases countRead_cases hs with ⟨-, rfl⟩ | ⟨func, el, buf, -, -, -, rfl⟩
    · exact h
    · have hbuf : ProcInv n (σ.setTInfo t { σ.tinfo t with buf := buf }) := by
        refine h.setTInfo ?_ ?_
        · exact h.index
        · exact h.inside
      exact hbuf.setPc fun hp => absurd rfl hp
  | threadExit t =>
    cases hs
    exact h.threadExit t
  | exit t =>
    cases hs
    obtain ⟨h1, h2, h3⟩ := profExit_frame t σ
    have ht := h.threadExit t
    refine ⟨?_, ?_, ?_, ?_⟩
    · intro el hel
      rw [h1] at hel
      cases hel
    · intro el hel
      rw [h1] at hel
      cases hel
    · intro u hu
      rw [h3] at hu ⊢
      exact ht.index hu
    · intro u hu
      rw [h2] at hu
      rw [h3]
      exact ht.inside hu

private theorem gate_inside (σ : Process τ) (t : τ) (func : UInt32) :
    (∃ u, (σ.gate t func).pc u ≠ .outside) ↔ (∃ u, σ.pc u ≠ .outside) ∨ (σ.tinfo t).state = .running := by
  unfold Process.gate
  split
  · rename_i hs
    simp [hs]
  · rename_i hs
    have hrun : (σ.tinfo t).state = .running := not_not.1 hs
    simp only [hrun, or_true, iff_true]
    exact ⟨t, by simp [Process.setPc]⟩

/-- From a state with safe reads, a step keeps them safe exactly if it meets `LifeStep`. -/
theorem readSafe_step_iff (h : ProcInv n σ) (hsafe : ReadSafe σ) {a : Call τ} (hs : step gettid σ a = .ok σ') :
    ReadSafe σ' ↔ LifeStep σ a := by
  have h' := procInv_step h hs
  rw [h.readSafe_iff] at hsafe
  rw [h'.readSafe_iff]
  cases a with
  | countEnter t k func e =>
    rcases countEnter_cases hs with ⟨hp, rfl⟩ | ⟨hp, -, rfl⟩ | ⟨hp, -, hun, ti, hi, rfl⟩
    · exact ⟨fun _ ho => absurd ho hp, fun _ => hsafe⟩
    · rw [Process.gate_evlist, gate_inside]
      constructor
      · intro hin _ hrun
        exact hin (.inr hrun)
      · rintro hc (hin | hrun)
        · exact hsafe hin
        · exact hc hp hrun
    · -- a thread that is initialised now has found the event list
      obtain ⟨el, -, hel, -⟩ := initThread_cases hi
      have hsome : σ.evlist ≠ none := by
        rw [hel]
        simp
      refine ⟨fun _ _ _ => hsome, fun _ _ => ?_⟩
      rw [Process.gate_evlist]
      exact hsome
  | countRead t pmc =>
    refine ⟨fun _ => trivial, fun _ => ?_⟩
    rcases countRead_cases hs with ⟨-, rfl⟩ | ⟨func, el, buf, -, hel, -, rfl⟩
    · exact hsafe
    · intro _
      show σ.evlist ≠ none
      rw [hel]
      simp
  | threadExit t =>
    cases hs
    exact ⟨fun _ => trivial, fun _ => hsafe⟩
  | exit t =>
    cases hs
    obtain ⟨h1, h2, -⟩ := profExit_frame t σ
    rw [h1, h2]
    constructor
    · intro hno u
      by_contra hu
      exact hno ⟨u, hu⟩ rfl
    · rintro hall ⟨u, hu⟩
      exact absurd (hall u) hu

omit [DecidableEq τ] in
private theorem readSafe_profInit (h : profInit sys env (Process.initial τ) = (0, σ)) : ReadSafe σ := by
  obtain ⟨-, -, -, -, -, -, -, -, hpc⟩ := profInit_ok h
  intro t func hp
  rw [hpc t] at hp
  cases hp

/-- After a successful `prof_init`, the runs in which every read of the counters is safe are exactly those whose
steps all meet `LifeStep`. -/
theorem readSafe_iff_lifeStep (h : profInit sys env (Process.initial τ) = (0, σ)) (gettid : τ → Int)
    (l : List (Call τ)) :
    Always (step gettid) ReadSafe σ l ↔ Meets (step gettid) LifeStep σ l := by
  obtain ⟨n, hinv⟩ := procInv_profInit h
  apply always_iff_meets (B := ProcInv n)
  · intro σ a σ' hb hs
    exact procInv_step hb hs
  · intro σ a σ' hb hp hs
    exact readSafe_step_iff hb hp hs
  · exact hinv
  · exact readSafe_profInit h

/-- Two threads that count, exit, and leave the last word to `prof_exit`. -/
theorem readSafe_orderly_exit :
    Always (step fun b : Bool => if b then 101 else 100) ReadSafe
      (profInit goodSys oneEvent (Process.initial Bool)).2
      [.countEnter true .pre 7 ⟨true, true⟩, .countEnter false .pre 8 ⟨true, true⟩, .countRead true fun _ => 5,
        .countRead false fun _ => 6, .threadExit true, .exit false] := by
  have hinit : profInit goodSys oneEvent (Process.initial Bool) =
      (0, (profInit goodSys oneEvent (Process.initial Bool)).2) := rfl
  apply (readSafe_iff_lifeStep hinit _ _).2
  refine Meets.cons rfl (fun _ h => by cases h) ?_
  refine Meets.cons rfl (fun _ h => by cases h) ?_
  refine Meets.cons rfl trivial ?_
  refine Meets.cons rfl trivial ?_
  refine Meets.cons rfl trivial ?_
  refine Meets.cons rfl (fun u => ?_) ?_
  · cases u <;> rfl
  · trivial

/-- The main thread calls `prof_exit` while the other thread is between two counting calls: the state of the
thread is still `RUNNING`, and its next call enters `__read_count` without an event list. -/
theorem read_after_exit :
    ∃ σ, run (step fun b : Bool => if b then 101 else 100) (profInit goodSys oneEvent (Process.initial Bool)).2
        [.countEnter true .pre 7 ⟨true, true⟩, .countRead true fun _ => 5, .exit false,
          .countEnter true .post 7 ⟨true, true⟩] = .ok σ ∧
      σ.pc true = .reading 7 ∧ σ.evlist = none ∧ ¬ ReadSafe σ := by
  refine ⟨_, rfl, rfl, rfl, ?_⟩
  intro h
  obtain ⟨el, hel, -⟩ := h true 7 rfl
  cases hel

end StubProfile.Profile
