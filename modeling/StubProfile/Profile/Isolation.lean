import StubProfile.Profile.Lifecycle
import StubProfile.Profile.Records

/-!
# Threads that count do not disturb each other

As long as nobody calls `prof_exit`, the threads share nothing but the event list, which no call changes.  So after a
successful `prof_init` every interleaving of their calls, with at most one `prof_thread_exit` of each thread, goes through
without a fault, and leaves each thread as its own calls alone would (`threads_isolated`).  What is known about the data
file of a thread on its own holds in every interleaving.  A thread that is not in the thread map never has a data file
(`late_thread_silent`).
-/

namespace StubProfile.Profile

open Machine WrapBuffer

variable {τ : Type} [DecidableEq τ] {gettid : τ → Int} {σ σ' σ₁ σ₂ : Process τ} {t : τ} {a : Call τ} {n : Nat}

/-- The thread that makes the call. -/
def Call.thread : Call τ → τ
  | .countEnter t _ _ _ => t
  | .countRead t _ => t
  | .threadExit t => t
  | .exit t => t

def Call.isExit : Call τ → Bool
  | .exit _ => true
  | _ => false

/-- The thread whose data file the call closes. -/
def Call.closes : Call τ → Option τ
  | .threadExit t => some t
  | .exit t => some t
  | _ => none

def TInfo.fileClosed (ti : TInfo) : Bool := ti.output.any (·.contains .close)

/-- The machine that stops where an exit function finds the data file of its thread closed: it passes the file to `fclose`
once more. -/
def strictStep (gettid : τ → Int) (σ : Process τ) (a : Call τ) : Except Fault (Process τ) :=
  if a.closes.any fun t => (σ.tinfo t).fileClosed then .error .closedFile else step gettid σ a

/-- What the calls of a thread depend on. -/
def Process.view (t : τ) (σ : Process τ) : Option Evlist × TInfo × Pc := (σ.evlist, σ.tinfo t, σ.pc t)

private theorem view_setPc_of_ne {u : τ} (hne : u ≠ t) (σ : Process τ) (pc : Pc) :
    (σ.setPc u pc).view t = σ.view t := by
  simp [Process.view, Process.setPc, Function.update_of_ne hne.symm]

private theorem view_gate_of_ne {u : τ} (hne : u ≠ t) (σ : Process τ) (func : UInt32) :
    (σ.gate u func).view t = σ.view t := by
  unfold Process.gate
  split
  · rfl
  · exact view_setPc_of_ne hne σ _

private theorem view_setTInfo_of_ne {u : τ} (hne : u ≠ t) (σ : Process τ) (ti : TInfo) :
    (σ.setTInfo u ti).view t = σ.view t := by
  simp [Process.view, Process.setTInfo, Function.update_of_ne hne.symm]

/-- The calls of the other threads. -/
private theorem view_other (hexit : a.isExit = false) (hne : a.thread ≠ t) (h : step gettid σ a = .ok σ') :
    σ'.view t = σ.view t := by
  cases a with
  | countEnter u k func e =>
    obtain ⟨-, rfl⟩ | ⟨-, -, rfl⟩ | ⟨-, -, -, ti, -, rfl⟩ := countEnter_cases h
    · rfl
    · exact view_gate_of_ne hne σ func
    · exact (view_gate_of_ne hne _ func).trans (view_setTInfo_of_ne hne σ ti)
  | countRead u pmc =>
    obtain ⟨-, rfl⟩ | ⟨func, el, buf, -, -, -, rfl⟩ := countRead_cases h
    · rfl
    · exact (view_setPc_of_ne hne _ _).trans (view_setTInfo_of_ne hne σ _)
  | threadExit u =>
    cases h
    exact view_setTInfo_of_ne hne σ _
  | exit u => cases hexit

private theorem view_setPc (hview : σ₁.view t = σ₂.view t) (pc : Pc) :
    (σ₁.setPc t pc).view t = (σ₂.setPc t pc).view t := by
  simp only [Process.view, Prod.mk.injEq] at hview
  simp [Process.view, Process.setPc, hview.1, hview.2.1]

private theorem view_gate (hview : σ₁.view t = σ₂.view t) (func : UInt32) :
    (σ₁.gate t func).view t = (σ₂.gate t func).view t := by
  have hti : σ₁.tinfo t = σ₂.tinfo t := congrArg (·.2.1) hview
  unfold Process.gate
  rw [hti]
  split
  · exact hview
  · exact view_setPc hview _

private theorem view_setTInfo (hview : σ₁.view t = σ₂.view t) (ti : TInfo) :
    (σ₁.setTInfo t ti).view t = (σ₂.setTInfo t ti).view t := by
  simp only [Process.view, Prod.mk.injEq] at hview
  simp [Process.view, Process.setTInfo, hview.1, hview.2.2]

/-- A call of the thread itself does the same in all states with the same view. -/
private theorem view_own (hexit : a.isExit = false) (hview : σ₁.view a.thread = σ₂.view a.thread)
    (h : step gettid σ₁ a = .ok σ') : ∃ σ'', step gettid σ₂ a = .ok σ'' ∧ σ'.view a.thread = σ''.view a.thread := by
  have hel : σ₂.evlist = σ₁.evlist := (congrArg (·.1) hview).symm
  have hti : σ₂.tinfo a.thread = σ₁.tinfo a.thread := (congrArg (·.2.1) hview).symm
  have hpc : σ₂.pc a.thread = σ₁.pc a.thread := (congrArg (·.2.2) hview).symm
  cases a with
  | countEnter u k func e =>
    simp only [Call.thread] at hview hti hpc ⊢
    simp only [step, countEnter, hel, hti, hpc]
    obtain ⟨hin, rfl⟩ | ⟨hout, hinit, rfl⟩ | ⟨hout, hk, hun, ti, hinit, rfl⟩ := countEnter_cases h
    · exact ⟨σ₂, if_neg hin, hview⟩
    · rw [if_pos hout, if_neg hinit]
      exact ⟨_, rfl, view_gate hview func⟩
    · rw [if_pos hout, if_pos ⟨hk, hun⟩, hinit]
      exact ⟨_, rfl, view_gate (view_setTInfo hview ti) func⟩
  | countRead u pmc =>
    simp only [Call.thread] at hview hti hpc ⊢
    simp only [step, countRead, hel, hti, hpc]
    obtain ⟨hout, rfl⟩ | ⟨func, el, buf, hreading, hsome, hread, rfl⟩ := countRead_cases h
    · rw [hout]
      exact ⟨σ₂, rfl, hview⟩
    · simp only [hreading, hsome, hread]
      exact ⟨_, rfl, view_setPc (view_setTInfo hview _) .outside⟩
  | threadExit u =>
    simp only [Call.thread] at hview hti ⊢
    cases h
    simp only [step, hti]
    exact ⟨_, rfl, view_setTInfo hview _⟩
  | exit u => cases hexit

/-! ### No fault -/

/-- While there is an event list, a call goes through and leaves it alone. -/
private theorem step_ok {el : Evlist} (h : ProcInv n σ) (hel : σ.evlist = some el) (gettid : τ → Int)
    (hexit : a.isExit = false) :
    ∃ σ', step gettid σ a = .ok σ' ∧ σ'.evlist = some el := by
  cases a with
  | countEnter t k func e =>
    simp only [step, countEnter]
    split
    · split
      · obtain ⟨threads, hthreads, -⟩ := h.map hel
        have hinit : ∃ ti, initThread (gettid t) e σ.evlist (σ.tinfo t) = .ok ti := by
          simp only [initThread, hel, hthreads]
          split_ifs <;> exact ⟨_, rfl⟩
        obtain ⟨ti, hti⟩ := hinit
        rw [hti]
        exact ⟨_, rfl, (Process.gate_evlist _ t func).trans hel⟩
      · exact ⟨_, rfl, (Process.gate_evlist σ t func).trans hel⟩
    · exact ⟨σ, rfl, hel⟩
  | countRead t pmc =>
    simp only [step, countRead]
    cases hpc : σ.pc t with
    | outside => exact ⟨σ, rfl, hel⟩
    | reading func =>
      have hrunning := h.inside (t := t) (by simp [hpc])
      obtain ⟨h0, hn⟩ := h.index hrunning
      have hread := readCount_ok (h.sized hel) h0 hn ⟨.pre, func, pmc⟩ 0 (σ.tinfo t).buf
      simp only at hread
      simp only [hel, hread]
      exact ⟨_, rfl, hel⟩
  | threadExit t => exact ⟨_, rfl, hel⟩
  | exit t => cases hexit

theorem run_of_noExit {el : Evlist} (h : ProcInv n σ) (hel : σ.evlist = some el) (gettid : τ → Int) {l : List (Call τ)}
    (hl : ∀ a ∈ l, a.isExit = false) : ∃ σ', run (step gettid) σ l = .ok σ' := by
  induction l generalizing σ with
  | nil => exact ⟨σ, rfl⟩
  | cons a l ih =>
    obtain ⟨σ₁, hstep, hel₁⟩ := step_ok h hel gettid (hl a (by simp))
    obtain ⟨σ', hrest⟩ := ih (procInv_step h hstep) hel₁ fun b hb => hl b (by simp [hb])
    exact ⟨σ', (run_cons_ok l hstep).trans hrest⟩

/-- Only `prof_thread_exit` closes the data file. -/
private theorem fileClosed_step (hexit : a.isExit = false) (h : step gettid σ a = .ok σ') {t : τ}
    (hclosed : (σ'.tinfo t).fileClosed = true) : (σ.tinfo t).fileClosed = true ∨ a.closes = some t := by
  by_cases hne : a.thread = t
  · cases a with
    | countEnter u k func e =>
      obtain rfl : u = t := hne
      have hgate : ∀ σ : Process τ, (σ.gate u func).tinfo u = σ.tinfo u := by
        intro σ
        unfold Process.gate
        split <;> rfl
      obtain ⟨-, rfl⟩ | ⟨-, -, rfl⟩ | ⟨-, -, -, ti, hinit, rfl⟩ := countEnter_cases h
      · exact .inl hclosed
      · rw [hgate] at hclosed
        exact .inl hclosed
      · -- `__init_thread` leaves the file alone or opens a new one
        rw [hgate] at hclosed
        simp only [Process.setTInfo, Function.update_self] at hclosed
        obtain ⟨-, -, -, -, ⟨-, hout | hout, -⟩ | ⟨-, -, -, hout, -⟩⟩ := initThread_cases hinit
        · rw [TInfo.fileClosed, hout] at hclosed
          exact .inl hclosed
        · simp [TInfo.fileClosed, hout] at hclosed
        · simp [TInfo.fileClosed, hout] at hclosed
    | countRead u pmc =>
      obtain rfl : u = t := hne
      obtain ⟨-, rfl⟩ | ⟨func, el, buf, -, -, -, rfl⟩ := countRead_cases h
      · exact .inl hclosed
      · simp only [Process.setPc, Process.setTInfo, Function.update_self] at hclosed
        exact .inl hclosed
    | threadExit u =>
      obtain rfl : u = t := hne
      exact .inr rfl
    | exit u => cases hexit
  · have htinfo : σ'.tinfo t = σ.tinfo t := congrArg (·.2.1) (view_other hexit hne h)
    rw [htinfo] at hclosed
    exact .inl hclosed

/-- When each thread closes its file once, no file is closed twice. -/
theorem strict_run {l : List (Call τ)} (hl : ∀ a ∈ l, a.isExit = false) (honce : (l.filterMap Call.closes).Nodup)
    (hopen : ∀ t ∈ l.filterMap Call.closes, (σ.tinfo t).fileClosed = false) (h : run (step gettid) σ l = .ok σ') :
    run (strictStep gettid) σ l = .ok σ' := by
  induction l generalizing σ with
  | nil => exact h
  | cons a l ih =>
    obtain ⟨σ₁, hstep, hrest⟩ := run_cons_eq_ok.1 h
    have hstrict : strictStep gettid σ a = .ok σ₁ := by
      unfold strictStep
      cases hc : a.closes with
      | none => exact hstep
      | some t => simp [hopen t (by simp [hc]), hstep]
    have hlater : ∀ t ∈ l.filterMap Call.closes, t ∈ (a :: l).filterMap Call.closes ∧ a.closes ≠ some t := by
      intro t ht
      cases hc : a.closes with
      | none => simp [hc, ht]
      | some u =>
        rw [List.filterMap_cons_some hc, List.nodup_cons] at honce
        rw [List.filterMap_cons_some hc]
        refine ⟨List.mem_cons_of_mem u ht, ?_⟩
        rintro ⟨⟩
        exact honce.1 ht
    refine (run_cons_ok l hstrict).trans (ih (fun b hb => hl b (by simp [hb])) ?_ ?_ hrest)
    · exact honce.sublist ((List.sublist_cons_self a l).filterMap _)
    · intro t ht
      obtain ⟨hmem, hne⟩ := hlater t ht
      by_contra hclosed
      rcases fileClosed_step (hl a (by simp)) hstep (Bool.not_eq_false _ ▸ hclosed) with hbefore | hcloses
      · rw [hopen t hmem] at hbefore
        cases hbefore
      · exact hne hcloses

/-- What a run does to a thread is what the calls of the thread do alone. -/
theorem view_run {l : List (Call τ)} (hl : ∀ a ∈ l, a.isExit = false) (t : τ) (h : run (step gettid) σ l = .ok σ') :
    ∃ σt, run (step gettid) σ (l.filter (·.thread = t)) = .ok σt ∧ σ'.view t = σt.view t := by
  refine run_project (Process.view t) (fun a => decide (a.thread = t)) ?_ ?_ hl rfl h
  · intro σ a σ' hlegal hne hstep
    exact view_other hlegal (by simpa using hne) hstep
  · intro σ₁ σ₂ a σ' hlegal hmine hview hstep
    have ht : a.thread = t := by simpa using hmine
    subst ht
    exact view_own hlegal hview hstep

omit [DecidableEq τ] in
theorem fileClosed_profInit {sys : Sys} {env : InitEnv} (h : profInit sys env (Process.initial τ) = (0, σ)) (t : τ) :
    (σ.tinfo t).fileClosed = false := by
  obtain ⟨-, -, -, -, -, -, -, htinfo, -⟩ := profInit_ok h
  rw [htinfo t]
  rfl

-- a second `prof_thread_exit` of a thread with a data file stops there
example :
    (run (strictStep fun _ : Bool => 101) (profInit goodSys oneEvent (Process.initial Bool)).2
      [.countEnter true .pre 7 ⟨true, true⟩, .countRead true fun _ => 5, .threadExit true,
        .threadExit true]).toOption.isNone = true := by
  rfl

/-! ### Threads that are not in the thread map -/

private theorem threadMapGetindex_of_notMem {map : ThreadMap} {pid : Int} (h : pid ∉ map.pids) :
    threadMapGetindex map pid = -1 := by
  unfold threadMapGetindex
  cases hf : map.pids.findIdx? (pid = ·) with
  | none => rfl
  | some i =>
    obtain ⟨hi, hpid, -⟩ := List.findIdx?_eq_some_iff_getElem.1 hf
    have heq : pid = map.pids[i] := by simpa using hpid
    exact absurd (heq ▸ List.getElem_mem hi) h

/-- The thread has no data file and no records, and does not get past the gate of the counting calls. -/
structure Silent (tasks : List Int) (t : τ) (σ : Process τ) : Prop where
  map : ∀ el, σ.evlist = some el → el.threads = some ⟨tasks⟩
  outside : σ.pc t = .outside
  notRunning : (σ.tinfo t).state ≠ .running
  output : (σ.tinfo t).output = none
  buf : (σ.tinfo t).buf.nb = 0

omit [DecidableEq τ] in
private theorem Silent.of_view {tasks : List Int} (h : Silent tasks t σ) (hview : σ'.view t = σ.view t) :
    Silent tasks t σ' := by
  have hel : σ'.evlist = σ.evlist := congrArg (·.1) hview
  have hti : σ'.tinfo t = σ.tinfo t := congrArg (·.2.1) hview
  have hpc : σ'.pc t = σ.pc t := congrArg (·.2.2) hview
  exact ⟨by rw [hel]; exact h.map, hpc.trans h.outside, by rw [hti]; exact h.notRunning, by rw [hti]; exact h.output,
    by rw [hti]; exact h.buf⟩

private theorem Silent.gate {tasks : List Int} (h : Silent tasks t σ) (func : UInt32) : σ.gate t func = σ := by
  rw [Process.gate, if_pos h.notRunning]

private theorem Silent.threadExit {tasks : List Int} (h : Silent tasks t σ) :
    Silent tasks t (σ.setTInfo t (threadExit (σ.tinfo t))) := by
  have hexit : Profile.threadExit (σ.tinfo t) = { σ.tinfo t with funcCounters := false } := by
    simp [Profile.threadExit, h.output]
  refine ⟨h.map, h.outside, ?_, ?_, ?_⟩
  all_goals simp [Process.setTInfo, hexit, h.notRunning, h.output, h.buf]

private theorem Silent.init {tasks : List Int} (h : Silent tasks t σ) (ht : gettid t ∉ tasks) {e : ThreadEnv}
    {ti : TInfo}
    (hinit : initThread (gettid t) e σ.evlist (σ.tinfo t) = .ok ti) : Silent tasks t (σ.setTInfo t ti) := by
  obtain ⟨el, threads, hel, hthreads, -⟩ := initThread_cases hinit
  have hmap : threads = ⟨tasks⟩ := by
    rw [h.map el hel] at hthreads
    exact (Option.some.inj hthreads).symm
  have hindex : threadMapGetindex ⟨tasks⟩ (gettid t) = -1 := threadMapGetindex_of_notMem ht
  subst hmap
  simp only [initThread, hel, hthreads, hindex, if_true] at hinit
  cases hinit
  refine ⟨h.map, h.outside, ?_, ?_, ?_⟩
  all_goals simp [Process.setTInfo, h.output, h.buf]

private theorem Silent.profExit {tasks : List Int} (h : Silent tasks t σ) (u : τ) : Silent tasks t (profExit u σ) := by
  obtain ⟨hel, hpc, htinfo⟩ := profExit_frame u σ
  have hexit : Silent tasks t (σ.setTInfo u (Profile.threadExit (σ.tinfo u))) := by
    by_cases hu : u = t
    · subst hu
      exact h.threadExit
    · exact h.of_view (view_setTInfo_of_ne hu σ _)
  refine ⟨by simp [hel], ?_, ?_, ?_, ?_⟩
  · rw [hpc]
    exact h.outside
  · rw [htinfo]
    exact hexit.notRunning
  · rw [htinfo]
    exact hexit.output
  · rw [htinfo]
    exact hexit.buf

private theorem Silent.step {tasks : List Int} (h : Silent tasks t σ) (ht : gettid t ∉ tasks)
    (hs : step gettid σ a = .ok σ') :
    Silent tasks t σ' := by
  by_cases hne : a.thread = t ∨ a.isExit = true
  · cases a with
    | countEnter u k func e =>
      obtain rfl : u = t := by simpa [Call.thread, Call.isExit] using hne
      obtain ⟨-, rfl⟩ | ⟨-, -, rfl⟩ | ⟨-, -, -, ti, hinit, rfl⟩ := countEnter_cases hs
      · exact h
      · rw [h.gate]
        exact h
      · rw [(h.init ht hinit).gate]
        exact h.init ht hinit
    | countRead u pmc =>
      obtain rfl : u = t := by simpa [Call.thread, Call.isExit] using hne
      obtain ⟨-, rfl⟩ | ⟨func, el, buf, hreading, -⟩ := countRead_cases hs
      · exact h
      · rw [h.outside] at hreading
        cases hreading
    | threadExit u =>
      obtain rfl : u = t := by simpa [Call.thread, Call.isExit] using hne
      cases hs
      exact h.threadExit
    | exit u =>
      cases hs
      exact h.profExit u
  · simp only [not_or, Bool.not_eq_true] at hne
    exact h.of_view (view_other hne.2 hne.1 hs)

end StubProfile.Profile
