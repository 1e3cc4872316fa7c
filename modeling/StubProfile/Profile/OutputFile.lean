import StubProfile.Profile.Lifecycle
import StubProfile.Profile.Records

/-!
# The data file of a thread

`prof_thread_exit` writes the buffer to the data file of the thread and closes the file.  It leaves `output_file` and
the state of the thread as they are (`prof_exit`, by contrast, sets `flog` to `NULL` behind its `fclose`), so a second
exit writes to the closed file and closes it once more, and counting calls go on filling the buffer.

The calls of one thread are watched with two additions: whether an exit function was called, and the records added
to the buffer after that.
-/

namespace StubProfile.Profile

open Machine WrapBuffer

variable {τ : Type} [DecidableEq τ] {gettid : τ → Int} {σ σ' : Process τ} {t : τ} {sys : Sys} {env : InitEnv}

/-- A call of the library by the thread. -/
inductive ThreadCall where
  | count (c : CountCall) (e : ThreadEnv)
  | threadExit
  | exit

def ThreadCall.steps (t : τ) : ThreadCall → List (Call τ)
  | .count c e => [.countEnter t c.kind c.func e, .countRead t c.pmc]
  | .threadExit => [.threadExit t]
  | .exit => [.exit t]

/-- The records a counting call has added when it returns with the process in the state `σ'`. -/
def ThreadCall.added (t : τ) (σ' : Process τ) : ThreadCall → List Record
  | .count c _ =>
    match σ'.evlist with
    | some el => if (σ'.tinfo t).state = .running then c.records 0 el.entries else []
    | none => []
  | _ => []

/-- The process, whether the thread called an exit function, and the records added since. -/
structure Watch (τ : Type) where
  proc : Process τ
  exited : Bool
  late : List Record

def watchStep (gettid : τ → Int) (t : τ) (w : Watch τ) (call : ThreadCall) : Except Fault (Watch τ) :=
  match run (step gettid) w.proc (call.steps t) with
  | .error e => .error e
  | .ok σ' =>
    let exits := match call with
      | .count _ _ => false
      | _ => true
    .ok ⟨σ', w.exited || exits, w.late ++ if w.exited then call.added t σ' else []⟩

/-- Nothing is done with a file after it is closed. -/
def ClosedLast (ops : List FileOp) : Prop := ∀ before after, ops = before ++ .close :: after → after = []

/-- The data file is closed at most once and not written behind that, and no record was added after an exit. -/
def FileKept (t : τ) (w : Watch τ) : Prop :=
  (∀ ops, (w.proc.tinfo t).output = some ops → ClosedLast ops) ∧ w.late = []

/-- The call gets to `__read_count`, and there are events to read. -/
def Samples (gettid : τ → Int) (t : τ) (σ : Process τ) (c : CountCall) (e : ThreadEnv) : Prop :=
  ∃ el, σ.evlist = some el ∧ el.entries ≠ [] ∧
    ((σ.tinfo t).state = .running ∨
      (c.kind = .pre ∧ (σ.tinfo t).state = .uninit ∧ e.mallocOk = true ∧ e.fopenOk = true ∧
        ∃ threads, el.threads = some threads ∧ threadMapGetindex threads (gettid t) ≠ -1))

/-- An exit function finds the file of the thread not closed yet, and behind an exit no counting call samples. -/
def FileStep (gettid : τ → Int) (t : τ) (w : Watch τ) : ThreadCall → Prop
  | .count c e => w.exited = true → ¬ Samples gettid t w.proc c e
  | _ => ∀ ops, (w.proc.tinfo t).output = some ops → .close ∉ ops

/-! ### The operations on the file -/

private theorem closedLast_append_close (ops : List FileOp) {new : List FileOp} (hnew : .close ∉ new) :
    ClosedLast (ops ++ (new ++ [.close])) ↔ .close ∉ ops := by
  constructor
  · intro h hmem
    obtain ⟨before, after, rfl⟩ := List.append_of_mem hmem
    have := h before (after ++ (new ++ [.close])) (by simp)
    simp at this
  · intro hops before after heq
    -- the last operation is the only close
    rcases List.eq_nil_or_concat after with rfl | ⟨after', last, rfl⟩
    · rfl
    · have hsplit : ops ++ new ++ [.close] = (before ++ .close :: after') ++ [last] := by simpa using heq
      have hin : FileOp.close ∈ ops ++ new := by
        rw [(List.append_inj' hsplit rfl).1]
        simp
      rcases List.mem_append.1 hin with hin | hin
      · exact absurd hin hops
      · exact absurd hin hnew

private theorem closedLast_threadExit (ti : TInfo) :
    (∀ ops, (threadExit ti).output = some ops → ClosedLast ops) ↔ ∀ ops, ti.output = some ops → .close ∉ ops := by
  unfold threadExit
  cases hout : ti.output with
  | none => simp
  | some ops =>
    have hwrite : ClosedLast (ops ++ ([.write ti.buf.contents] ++ [.close])) ↔ .close ∉ ops :=
      closedLast_append_close ops (by simp)
    have hclose : ClosedLast (ops ++ ([] ++ [.close])) ↔ .close ∉ ops := closedLast_append_close ops (by simp)
    simp only [Option.some.injEq, forall_eq']
    split
    · simpa using hwrite
    · simpa using hclose

/-! ### The counting calls -/

/-- What `__read_count` pushes when it returns. -/
theorem readCount_eq_ok {c : CountCall} {tid : Int} {i : Nat} {evs : List Evsel} {buf buf' : Buf Record}
    (h : readCount c.func c.pmc tid i evs buf = .ok buf') :
    buf' = pushAll profRecordCache buf (c.records i evs) := by
  induction evs generalizing i buf with
  | nil =>
    cases h
    rfl
  | cons ev evs ih =>
    unfold readCount at h
    cases hread : evselRdpmc ev tid (c.pmc i) with
    | error e => simp [hread] at h
    | ok count =>
      simp only [hread] at h
      rw [ih h, evselRdpmc_eq_ok hread]
      rfl

/-- `__init_thread` succeeds for a thread of the map when its calls do. -/
private theorem initThread_running_iff {pid : Int} {e : ThreadEnv} {el : Evlist} {ti ti' : TInfo}
    (h : initThread pid e (some el) ti = .ok ti') :
    ti'.state = .running ↔ e.mallocOk = true ∧ e.fopenOk = true ∧
      ∃ threads, el.threads = some threads ∧ threadMapGetindex threads pid ≠ -1 := by
  obtain ⟨_, threads, hel, hth, ⟨herr, -, hno⟩ | ⟨hrun, ⟨htid, hm, hf⟩, -⟩⟩ := initThread_cases h
  · cases hel
    rw [herr]
    constructor
    · intro hrun
      cases hrun
    · rintro ⟨hm, hf, threads', hth', htid⟩
      rw [hth] at hth'
      cases hth'
      exact absurd ⟨htid, hm, hf⟩ hno
  · cases hel
    exact ⟨fun _ => ⟨hm, hf, threads, hth, htid⟩, fun _ => hrun⟩

/-- `__init_thread` leaves the file alone or opens a new one. -/
private theorem initThread_closedLast {pid : Int} {e : ThreadEnv} {evlist : Option Evlist} {ti ti' : TInfo}
    (h : initThread pid e evlist ti = .ok ti') (hkept : ∀ ops, ti.output = some ops → ClosedLast ops) :
    ∀ ops, ti'.output = some ops → ClosedLast ops := by
  obtain ⟨-, -, -, -, ⟨-, hout | hout, -⟩ | ⟨-, -, -, hout, -⟩⟩ := initThread_cases h
  · rwa [hout]
  · simp [hout]
  · simp [hout, ClosedLast]

/-- A counting call that returns: `ti` is the thread behind the first test of the function. -/
private theorem run_count_cases {c : CountCall} {e : ThreadEnv} (hout : σ.pc t = .outside)
    (h : run (step gettid) σ ((ThreadCall.count c e).steps t) = .ok σ') :
    ∃ ti, (ti = σ.tinfo t ∧ ¬ (c.kind = .pre ∧ (σ.tinfo t).state = .uninit) ∨
        c.kind = .pre ∧ (σ.tinfo t).state = .uninit ∧ initThread (gettid t) e σ.evlist (σ.tinfo t) = .ok ti) ∧
      σ'.pc t = .outside ∧ σ'.evlist = σ.evlist ∧
      ((ti.state ≠ .running ∧ σ'.tinfo t = ti) ∨
        (ti.state = .running ∧ ∃ el, σ.evlist = some el ∧
          σ'.tinfo t = { ti with buf := pushAll profRecordCache ti.buf (c.records 0 el.entries) })) := by
  obtain ⟨σ₁, henter, hrest⟩ := run_cons_eq_ok.1 h
  obtain ⟨σ₂, hread, hnil⟩ := run_cons_eq_ok.1 hrest
  cases hnil
  -- the gate and the loop, from a state whose thread is `ti`
  have hgate : ∀ ρ : Process τ, ρ.pc t = .outside → ρ.evlist = σ.evlist → σ₁ = ρ.gate t c.func →
      σ'.pc t = .outside ∧ σ'.evlist = σ.evlist ∧
      (((ρ.tinfo t).state ≠ .running ∧ σ'.tinfo t = ρ.tinfo t) ∨
        ((ρ.tinfo t).state = .running ∧ ∃ el, σ.evlist = some el ∧
          σ'.tinfo t = { ρ.tinfo t with buf := pushAll profRecordCache (ρ.tinfo t).buf (c.records 0 el.entries) })) := by
    intro ρ hρ hev hσ₁
    subst hσ₁
    by_cases hrun : (ρ.tinfo t).state = .running
    · simp only [Process.gate, hrun, ne_eq, not_true_eq_false, ↓reduceIte] at hread
      simp only [step, countRead, Process.setPc, Function.update_self] at hread
      split at hread
      · cases hread
      · rename_i el hel
        split at hread
        · cases hread
        · rename_i buf hbuf
          cases hread
          have hpush := readCount_eq_ok hbuf
          refine ⟨by simp, hev, .inr ⟨hrun, el, by rw [← hev, hel], ?_⟩⟩
          simp [Process.setTInfo, hpush]
    · simp only [Process.gate, hrun, ne_eq, not_false_eq_true, ↓reduceIte] at hread
      simp only [step, countRead, hρ] at hread
      cases hread
      exact ⟨hρ, hev, .inl ⟨hrun, rfl⟩⟩
  rcases countEnter_cases henter with ⟨hp, -⟩ | ⟨-, hk, hσ₁⟩ | ⟨-, hk, hun, ti, hti, hσ₁⟩
  · exact absurd hout hp
  · exact ⟨σ.tinfo t, .inl ⟨rfl, hk⟩, hgate σ hout rfl hσ₁⟩
  · have hres := hgate (σ.setTInfo t ti) hout rfl hσ₁
    simp only [Process.setTInfo, Function.update_self] at hres
    exact ⟨ti, .inr ⟨hk, hun, hti⟩, hres⟩

private theorem added_ne_nil_iff {c : CountCall} {e : ThreadEnv} (hout : σ.pc t = .outside)
    (h : run (step gettid) σ ((ThreadCall.count c e).steps t) = .ok σ') :
    (ThreadCall.count c e).added t σ' ≠ [] ↔ Samples gettid t σ c e := by
  obtain ⟨ti, hti, -, hev, hend⟩ := run_count_cases hout h
  have hstate : (σ'.tinfo t).state = ti.state := by
    rcases hend with ⟨-, hσ'⟩ | ⟨-, el, -, hσ'⟩
    · rw [hσ']
    · rw [hσ']
  have hrecords : ∀ evs, c.records 0 evs = [] ↔ evs = [] := fun evs => by simp [CountCall.records]
  unfold ThreadCall.added Samples
  cases hel : σ.evlist with
  | none => simp [hev, hel]
  | some el =>
    simp only [hev, hel, hstate, Option.some.injEq, exists_eq_left']
    have hrun : ti.state = .running ↔ ((σ.tinfo t).state = .running ∨
        (c.kind = .pre ∧ (σ.tinfo t).state = .uninit ∧ e.mallocOk = true ∧ e.fopenOk = true ∧
          ∃ threads, el.threads = some threads ∧ threadMapGetindex threads (gettid t) ≠ -1)) := by
      rcases hti with ⟨rfl, hno⟩ | ⟨hk, hun, hinit⟩
      · constructor
        · exact .inl
        · rintro (hr | ⟨hk, hun, -⟩)
          · exact hr
          · exact absurd ⟨hk, hun⟩ hno
      · rw [hel] at hinit
        simp [hk, hun, initThread_running_iff hinit]
    rw [← hrun]
    by_cases hst : ti.state = .running
    · simp [hst, hrecords]
    · simp [hst]

/-! ### The calls of a thread -/

private theorem watchStep_ok {w w' : Watch τ} {call : ThreadCall} (h : watchStep gettid t w call = .ok w') :
    run (step gettid) w.proc (call.steps t) = .ok w'.proc ∧
      w'.late = w.late ++ if w.exited then call.added t w'.proc else [] := by
  unfold watchStep at h
  cases hrun : run (step gettid) w.proc (call.steps t) with
  | error e => simp [hrun] at h
  | ok σ' =>
    simp only [hrun] at h
    cases h
    exact ⟨rfl, rfl⟩

private theorem exit_output {call : ThreadCall} (hcall : ∀ c e, call ≠ .count c e)
    (h : run (step gettid) σ (call.steps t) = .ok σ') :
    (σ'.tinfo t).output = (threadExit (σ.tinfo t)).output ∧ σ'.pc t = σ.pc t := by
  cases call with
  | count c e => exact absurd rfl (hcall c e)
  | threadExit =>
    cases h
    exact ⟨by simp [Process.setTInfo], rfl⟩
  | exit =>
    cases h
    obtain ⟨-, hpc, htinfo⟩ := profExit_frame t σ
    exact ⟨by simp [htinfo, Process.setTInfo], by rw [hpc]⟩

/-- A call keeps the discipline exactly if it meets `FileStep`. -/
private theorem fileKept_step_iff {w w' : Watch τ} {call : ThreadCall} (hout : w.proc.pc t = .outside)
    (hkept : FileKept t w) (h : watchStep gettid t w call = .ok w') : FileKept t w' ↔ FileStep gettid t w call := by
  obtain ⟨hrun, hlate⟩ := watchStep_ok h
  unfold FileKept
  rw [hlate, hkept.2, List.nil_append]
  cases call with
  | count c e =>
    have hfile : ∀ ops, (w'.proc.tinfo t).output = some ops → ClosedLast ops := by
      obtain ⟨ti, hti, -, -, hend⟩ := run_count_cases hout hrun
      have hoff : (w'.proc.tinfo t).output = ti.output := by
        rcases hend with ⟨-, hσ'⟩ | ⟨-, el, -, hσ'⟩
        · rw [hσ']
        · rw [hσ']
      rw [hoff]
      rcases hti with ⟨rfl, -⟩ | ⟨-, -, hinit⟩
      · exact hkept.1
      · exact initThread_closedLast hinit hkept.1
    have hadd := added_ne_nil_iff hout hrun
    simp only [FileStep, ← hadd, not_not]
    cases w.exited with
    | false => simpa using hfile
    | true => simpa using fun _ => hfile
  | threadExit =>
    obtain ⟨hoff, -⟩ := exit_output (by simp) hrun
    have hadd : (if w.exited then ThreadCall.threadExit.added t w'.proc else []) = [] := by simp [ThreadCall.added]
    rw [hoff, hadd]
    simpa [FileStep] using closedLast_threadExit (w.proc.tinfo t)
  | exit =>
    obtain ⟨hoff, -⟩ := exit_output (by simp) hrun
    have hadd : (if w.exited then ThreadCall.exit.added t w'.proc else []) = [] := by simp [ThreadCall.added]
    rw [hoff, hadd]
    simpa [FileStep] using closedLast_threadExit (w.proc.tinfo t)

private theorem watchStep_outside {w w' : Watch τ} {call : ThreadCall} (hout : w.proc.pc t = .outside)
    (h : watchStep gettid t w call = .ok w') : w'.proc.pc t = .outside := by
  obtain ⟨hrun, -⟩ := watchStep_ok h
  cases call with
  | count c e =>
    obtain ⟨-, -, hpc, -⟩ := run_count_cases hout hrun
    exact hpc
  | threadExit => exact (exit_output (by simp) hrun).2.trans hout
  | exit => exact (exit_output (by simp) hrun).2.trans hout

/-- After a successful `prof_init`, the calls of a thread keep the discipline of its data file exactly if every exit
function finds the file not closed yet and no counting call behind an exit samples the events. -/
theorem fileKept_iff (h : profInit sys env (Process.initial τ) = (0, σ)) (gettid : τ → Int) (t : τ)
    (calls : List ThreadCall) :
    Always (watchStep gettid t) (FileKept t) ⟨σ, false, []⟩ calls ↔
      Meets (watchStep gettid t) (FileStep gettid t) ⟨σ, false, []⟩ calls := by
  obtain ⟨-, -, -, -, -, -, -, htinfo, hpc⟩ := profInit_ok h
  refine always_iff_meets (B := fun w => w.proc.pc t = .outside) ?_ ?_ (hpc t) ?_
  · exact fun _ _ _ hout hs => watchStep_outside hout hs
  · exact fun _ _ _ hout hkept hs => fileKept_step_iff hout hkept hs
  · refine ⟨fun ops hops => ?_, rfl⟩
    rw [htinfo t] at hops
    cases hops

/-- A thread that counts twice and exits once. -/
theorem fileKept_one_exit :
    Always (watchStep (fun b : Bool => if b then 101 else 100) true) (FileKept true)
      ⟨(profInit goodSys oneEvent (Process.initial Bool)).2, false, []⟩
      [.count ⟨.pre, 7, fun _ => 5⟩ ⟨true, true⟩, .count ⟨.post, 7, fun _ => 6⟩ ⟨true, true⟩, .threadExit] := by
  have hinit : profInit goodSys oneEvent (Process.initial Bool) =
      (0, (profInit goodSys oneEvent (Process.initial Bool)).2) := rfl
  apply (fileKept_iff hinit _ _ _).2
  refine Meets.cons rfl (fun hexit => by cases hexit) ?_
  refine Meets.cons rfl (fun hexit => by cases hexit) ?_
  refine Meets.cons rfl (fun ops hops => ?_) trivial
  cases hops
  simp

/-- `pthread_exit` on the way to the end of the process: the counting call in between adds a record, and `prof_exit`
writes it to the closed file and closes the file again. -/
theorem file_closed_twice :
    ∃ w, run (watchStep (fun b : Bool => if b then 101 else 100) true)
        ⟨(profInit goodSys oneEvent (Process.initial Bool)).2, false, []⟩
        [.count ⟨.pre, 7, fun _ => 5⟩ ⟨true, true⟩, .threadExit, .count ⟨.post, 7, fun _ => 6⟩ ⟨true, true⟩, .exit] =
          .ok w ∧
      (w.proc.tinfo true).output = some [.write [⟨7, 0, 5⟩], .close, .write [⟨7, 0, 6⟩], .close] ∧
      w.late = [⟨7, 0, 6⟩] ∧ ¬ FileKept true w := by
  refine ⟨_, rfl, rfl, rfl, fun hkept => ?_⟩
  have hlast := hkept.1 _ rfl [.write [⟨7, 0, 5⟩]] [.write [⟨7, 0, 6⟩], .close] rfl
  cases hlast

end StubProfile.Profile
