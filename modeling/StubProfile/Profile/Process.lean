import Mathlib.Algebra.Group.Nat.Defs
import StubProfile.Lib.WrapBuffer
import StubProfile.Profile.Evsel

/-!
# The profiling library in a process

`profile.c` keeps the event list of the process in `globalinfo` and for each thread, in `tinfo`, its index in the
thread map, its state, its data file and a buffer of records.  A thread is initialised by its first
`prof_count_pre`.  The counting calls are split where they enter `__read_count`, since another thread may call
`prof_exit` in between.

Left out are the log file and its messages, the function counters, of which only the allocation matters, and the
fields of `globalinfo` that only go into them.
-/

namespace StubProfile.Profile

open WrapBuffer

inductive ProfState where
  | uninit | running | stop | error
deriving DecidableEq, Repr

structure Record where
  funcIdx : UInt16
  evIdx : UInt8
  count : UInt64
deriving DecidableEq, Repr

def profRecordCache : Nat := 2 ^ 16

/-- What is done with a data file after it is opened. -/
inductive FileOp where
  | write (records : List Record)
  | close
deriving DecidableEq, Repr

/-- `struct prof_tinfo`: `buf` is `nb_record` with `records`, and `output` is `NULL` or the data file. -/
structure TInfo where
  tid : Int
  state : ProfState
  output : Option (List FileOp)
  funcCounters : Bool
  buf : Buf Record

def TInfo.initial : TInfo := ⟨-1, .uninit, none, false, ⟨0, fun _ => ⟨0, 0, 0⟩⟩⟩

/-- Where a thread stands: outside the library, or before the loop of `__read_count`. -/
inductive Pc where
  | outside
  | reading (func : UInt32)
deriving DecidableEq, Repr

/-- What the process does when the C code is undefined. -/
inductive Fault where
  | nullEvlist -- `evlist` is `NULL`
  | nullThreads -- `evlist->threads` is `NULL`
  | nullPerThread -- `evsel->per_thread` is `NULL`
  | badThread -- `per_thread[tid]` is outside the array
  | closedFile -- `fwrite` or `fclose` on a file that is closed, where a machine looks at that
deriving DecidableEq, Repr

structure Process (τ : Type) where
  evlist : Option Evlist -- `globalinfo.evlist`
  log : List Syscall
  tinfo : τ → TInfo
  pc : τ → Pc

def Process.initial (τ : Type) : Process τ := ⟨none, [], fun _ => TInfo.initial, fun _ => .outside⟩

variable {τ : Type} [DecidableEq τ]

def Process.setTInfo (σ : Process τ) (t : τ) (ti : TInfo) : Process τ :=
  { σ with tinfo := Function.update σ.tinfo t ti }

def Process.setPc (σ : Process τ) (t : τ) (p : Pc) : Process τ := { σ with pc := Function.update σ.pc t p }

/-! ### `prof_init` -/

/-- The outcomes of the calls `prof_init` makes, and the threads of the process at that time. -/
structure InitEnv where
  logOk : Bool -- `fopen` of the log file
  evlistOk : Bool -- `prof_evlist__new`
  parsed : Option (List (List Char × Attr)) -- what `prof_evlist__add_from_str` parses, `none` for the empty string
  tasks : List Int
  mapOk : Bool

def createEvlist (sys : Sys) (env : InitEnv) (log : List Syscall) : Option Evlist × List Syscall :=
  if !env.evlistOk then (none, log)
  else
    match env.parsed with
    | none => (none, evlistDelete ⟨[], none⟩ log)
    | some parsed =>
      match threadMapNew env.tasks env.mapOk with
      | none => (none, evlistDelete (evlistOfParsed parsed) log)
      | some threads =>
        let r := evlistStart sys { evlistOfParsed parsed with threads := some threads } log
        if r.1 < 0 then (none, evlistDelete r.2.1 r.2.2) else (some r.2.1, r.2.2)

/-- `prof_init`: 0 or -1, and the process after it. -/
def profInit (sys : Sys) (env : InitEnv) (σ : Process τ) : Int × Process τ :=
  if !env.logOk then (-1, σ)
  else
    match createEvlist sys env σ.log with
    | (none, log) => (-1, { σ with log := log })
    | (some el, log) => (0, { σ with evlist := some el, log := log })

/-! ### The threads -/

/-- The outcomes of the calls `__init_thread` makes. -/
structure ThreadEnv where
  mallocOk : Bool
  fopenOk : Bool
deriving DecidableEq, Repr

/-- `__init_thread` on a thread with the id `pid`. -/
def initThread (pid : Int) (env : ThreadEnv) (evlist : Option Evlist) (ti : TInfo) : Except Fault TInfo :=
  match evlist with
  | none => .error .nullEvlist
  | some el =>
    match el.threads with
    | none => .error .nullThreads
    | some threads =>
      let tid := threadMapGetindex threads pid
      if tid = -1 then .ok { ti with tid := tid, state := .error }
      else if !env.mallocOk then .ok { ti with tid := tid, funcCounters := false, state := .error }
      else if !env.fopenOk then .ok { ti with tid := tid, funcCounters := false, output := none, state := .error }
      else
        .ok { ti with
          tid := tid
          funcCounters := true
          output := some []
          buf := { ti.buf with cells := fun _ => ⟨0, 0, 0⟩ }
          state := .running }

/-- `prof_evsel__rdpmc`, where the instruction would read `value`. -/
def evselRdpmc (ev : Evsel) (tid : Int) (value : UInt64) : Except Fault UInt64 :=
  if !ev.isEnable then .ok 0
  else
    match ev.perThread with
    | none => .error .nullPerThread
    | some l => if 0 ≤ tid ∧ tid < l.length then .ok value else .error .badThread

/-- The loop of `__read_count`, from the event with the number `i` on. -/
def readCount (func : UInt32) (pmc : Nat → UInt64) (tid : Int) : Nat → List Evsel → Buf Record →
    Except Fault (Buf Record)
  | _, [], buf => .ok buf
  | i, ev :: evs, buf =>
    match evselRdpmc ev tid (pmc i) with
    | .error e => .error e
    | .ok count =>
      readCount func pmc tid (i + 1) evs (buf.push profRecordCache ⟨func.toUInt16, UInt8.ofNat i, count⟩)

def threadExit (ti : TInfo) : TInfo :=
  match ti.output with
  | none => { ti with funcCounters := false }
  | some ops =>
    if ti.buf.nb ≠ 0 then
      { ti with
        funcCounters := false
        output := some (ops ++ [.write ti.buf.contents, .close])
        buf := { ti.buf with nb := 0 } }
    else { ti with funcCounters := false, output := some (ops ++ [.close]) }

/-! ### The library as a machine -/

/-- `prof_count_pre` and `prof_count_post`. -/
inductive Kind where
  | pre | post
deriving DecidableEq, Repr

/-- A step of the process: a call of the library by a thread, the counting calls in two parts.  `pmc i` is what the
counter of the event with the number `i` shows. -/
inductive Call (τ : Type) where
  | countEnter (t : τ) (k : Kind) (func : UInt32) (env : ThreadEnv)
  | countRead (t : τ) (pmc : Nat → UInt64)
  | threadExit (t : τ)
  | exit (t : τ)

/-- The second test of the counting functions. -/
def Process.gate (σ : Process τ) (t : τ) (func : UInt32) : Process τ :=
  if (σ.tinfo t).state ≠ .running then σ else σ.setPc t (.reading func)

/-- `prof_count_pre` and `prof_count_post` up to the call of `__read_count`. -/
def countEnter (gettid : τ → Int) (t : τ) (k : Kind) (func : UInt32) (env : ThreadEnv) (σ : Process τ) :
    Except Fault (Process τ) :=
  if k = .pre ∧ (σ.tinfo t).state = .uninit then
    match initThread (gettid t) env σ.evlist (σ.tinfo t) with
    | .error e => .error e
    | .ok ti => .ok ((σ.setTInfo t ti).gate t func)
  else .ok (σ.gate t func)

def countRead (t : τ) (pmc : Nat → UInt64) (σ : Process τ) : Except Fault (Process τ) :=
  match σ.pc t with
  | .outside => .ok σ
  | .reading func =>
    match σ.evlist with
    | none => .error .nullEvlist
    | some el =>
      match readCount func pmc (σ.tinfo t).tid 0 el.entries (σ.tinfo t).buf with
      | .error e => .error e
      | .ok buf => .ok ((σ.setTInfo t { σ.tinfo t with buf := buf }).setPc t .outside)

def profExit (t : τ) (σ : Process τ) : Process τ :=
  let σ₁ := σ.setTInfo t (threadExit (σ.tinfo t))
  match σ₁.evlist with
  | none => σ₁
  | some el => { σ₁ with evlist := none, log := evlistDelete el σ₁.log }

/-- A thread inside a counting call cannot start another one. -/
def step (gettid : τ → Int) (σ : Process τ) : Call τ → Except Fault (Process τ)
  | .countEnter t k func env => if σ.pc t = .outside then countEnter gettid t k func env σ else .ok σ
  | .countRead t pmc => countRead t pmc σ
  | .threadExit t => .ok (σ.setTInfo t (threadExit (σ.tinfo t)))
  | .exit t => .ok (profExit t σ)

/-! ### What the functions do -/

variable {gettid : τ → Int} {σ σ' : Process τ} {t u : τ} {sys : Sys} {env : InitEnv}

theorem threadMapGetindex_bounds {map : ThreadMap} {pid : Int} (h : threadMapGetindex map pid ≠ -1) :
    0 ≤ threadMapGetindex map pid ∧ threadMapGetindex map pid < map.pids.length := by
  unfold threadMapGetindex at h ⊢
  cases hf : map.pids.findIdx? (pid = ·) with
  | none => simp [hf] at h
  | some i =>
    have hi : i < map.pids.length := (List.findIdx?_eq_some_iff_getElem.1 hf).1
    simp only
    omega

theorem threadMapGetindex_of_mem {map : ThreadMap} {pid : Int} (h : pid ∈ map.pids) :
    threadMapGetindex map pid ≠ -1 := by
  unfold threadMapGetindex
  cases hf : map.pids.findIdx? (pid = ·) with
  | none =>
    have hnone := List.findIdx?_eq_none_iff.1 hf pid h
    simp at hnone
  | some i =>
    simp only
    omega

theorem threadExit_state (ti : TInfo) : (threadExit ti).state = ti.state ∧ (threadExit ti).tid = ti.tid := by
  unfold threadExit
  split
  · exact ⟨rfl, rfl⟩
  · split <;> exact ⟨rfl, rfl⟩

theorem Process.gate_evlist (σ : Process τ) (t : τ) (func : UInt32) : (σ.gate t func).evlist = σ.evlist := by
  unfold Process.gate
  split <;> rfl

theorem evselRdpmc_eq_ok {ev : Evsel} {tid : Int} {value count : UInt64} (h : evselRdpmc ev tid value = .ok count) :
    count = if ev.isEnable then value else 0 := by
  unfold evselRdpmc at h
  cases hen : ev.isEnable with
  | false => simpa [hen] using h.symm
  | true =>
    simp only [hen, Bool.not_true, Bool.false_eq_true, ↓reduceIte] at h ⊢
    split at h
    · cases h
    · split at h
      · exact (Except.ok.inj h).symm
      · cases h

theorem initThread_cases {pid : Int} {e : ThreadEnv} {evlist : Option Evlist} {ti ti' : TInfo}
    (h : initThread pid e evlist ti = .ok ti') :
    ∃ el threads, evlist = some el ∧ el.threads = some threads ∧
      ((ti'.state = .error ∧ (ti'.output = ti.output ∨ ti'.output = none) ∧
          ¬(threadMapGetindex threads pid ≠ -1 ∧ e.mallocOk = true ∧ e.fopenOk = true)) ∨
        (ti'.state = .running ∧ (threadMapGetindex threads pid ≠ -1 ∧ e.mallocOk = true ∧ e.fopenOk = true) ∧
          ti'.tid = threadMapGetindex threads pid ∧ ti'.output = some [] ∧ ti'.buf.nb = ti.buf.nb)) := by
  unfold initThread at h
  cases evlist with
  | none => cases h
  | some el =>
    simp only at h
    cases hth : el.threads with
    | none => simp [hth] at h
    | some threads =>
      refine ⟨el, threads, rfl, hth, ?_⟩
      simp only [hth] at h
      split at h
      · rename_i htid
        cases h
        exact .inl ⟨rfl, .inl rfl, fun hno => hno.1 htid⟩
      · rename_i htid
        split at h
        · rename_i hm
          cases h
          exact .inl ⟨rfl, .inl rfl, by simp_all⟩
        · rename_i hm
          split at h
          · rename_i hf
            cases h
            exact .inl ⟨rfl, .inr rfl, by simp_all⟩
          · rename_i hf
            cases h
            exact .inr ⟨rfl, ⟨htid, by simpa using hm, by simpa using hf⟩, rfl, rfl, rfl⟩

omit [DecidableEq τ] in
/-- What a successful `prof_init` leaves behind: one event for each that was parsed, with an entry for each thread of
the process if it could be opened. -/
theorem profInit_ok (h : profInit sys env (Process.initial τ) = (0, σ)) :
    ∃ el parsed, σ.evlist = some el ∧ env.parsed = some parsed ∧ el.threads = some ⟨env.tasks⟩ ∧
      (∀ ev ∈ el.entries, ev.Sized env.tasks.length) ∧ el.entries.length = parsed.length ∧
      (∀ t, σ.tinfo t = TInfo.initial) ∧ ∀ t, σ.pc t = .outside := by
  unfold profInit at h
  split at h
  · cases h
  · split at h
    · cases h
    · rename_i el log hc
      cases h
      unfold createEvlist at hc
      split at hc
      · cases hc
      · split at hc
        · cases hc
        · rename_i parsed hp
          split at hc
          · cases hc
          · rename_i threads hth
            have hthreads : threads = ⟨env.tasks⟩ := by
              unfold threadMapNew at hth
              split at hth
              · cases hth
              · split at hth
                · exact (Option.some.inj hth).symm
                · cases hth
            subst hthreads
            simp only at hc
            split at hc
            · cases hc
            · cases hc
              have hnew : ∀ ev ∈ (evlistOfParsed parsed).entries, ev.isOpen = false ∧ ev.isEnable = false := by
                intro ev hev
                obtain ⟨i, hi, rfl⟩ := List.mem_mapIdx.1 hev
                exact ⟨rfl, rfl⟩
              have hmap : ({ evlistOfParsed parsed with threads := some ⟨env.tasks⟩ } : Evlist).threads =
                  some ⟨env.tasks⟩ := rfl
              obtain ⟨h1, h2, h3⟩ := evlistStart_sized hmap hnew
              have hlen : (evlistOfParsed parsed).entries.length = parsed.length := List.length_mapIdx
              exact ⟨_, parsed, rfl, hp, h1, h2, h3.trans hlen, fun _ => rfl, fun _ => rfl⟩

/-- One event, and a process with the threads 100 and 101. -/
def oneEvent : InitEnv := ⟨true, true, some [("cycles".toList, ⟨0, 0, false, false⟩)], [100, 101], true⟩

end StubProfile.Profile
