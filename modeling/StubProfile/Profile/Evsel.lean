import Mathlib.Tactic.Common

/-!
# Events and event lists

An event (`struct prof_evsel`) is opened once for each thread of the thread map: `per_thread` is the array of the
descriptors with their control pages.  The functions of `evsel.c` and `evlist.c` call the kernel; the results of the
calls are an argument (`Sys`), asked with the number of calls made so far, and the calls that open, close, enable,
disable, map or unmap something are kept in a log in the order they are made.
-/

namespace StubProfile.Profile

/-- `struct thread_map`: the ids of the threads, `nr` is their number. -/
structure ThreadMap where
  pids : List Int
deriving DecidableEq, Repr

/-- `thread_map__new` on the entries of `/proc/<pid>/task`. -/
def threadMapNew (tasks : List Int) (allocOk : Bool) : Option ThreadMap :=
  if tasks.length ≤ 0 then none else if allocOk then some ⟨tasks⟩ else none

def threadMapGetindex (map : ThreadMap) (pid : Int) : Int :=
  match map.pids.findIdx? (pid = ·) with
  | some i => i
  | none => -1

/-- The fields of `struct perf_event_attr` the parser sets. -/
structure Attr where
  type : UInt32
  config : UInt64
  excludeKernel : Bool
  excludeUser : Bool
deriving DecidableEq, Repr

/-- `struct thread_data`; `mmPage` says whether the pointer is set. -/
structure ThreadData where
  fd : Int
  hwcIndex : UInt32
  mmPage : Bool
deriving DecidableEq, Repr

/-- `struct prof_evsel`; the back pointer to the event list is left out. -/
structure Evsel where
  name : List Char
  attr : Attr
  idx : Nat
  threads : Option ThreadMap
  perThread : Option (List ThreadData)
  isOpen : Bool
  isEnable : Bool
deriving DecidableEq, Repr

/-- `prof_evsel__new` followed by `prof_evsel__init`. -/
def evselNew (name : List Char) (attr : Attr) (idx : Nat) : Evsel := ⟨name, attr, idx, none, none, false, false⟩

/-- The system calls on events, with their arguments and results. -/
inductive Syscall where
  | perfEventOpen (attr : Attr) (pid : Int) (fd : Int) -- the descriptor, or the negative error number
  | close (fd : Int)
  | enable (fd : Int)
  | disable (fd : Int)
  | mmap (fd : Int) (ok : Bool)
  | munmap (fd : Int)
deriving DecidableEq, Repr

/-- The answers of the kernel, by the number of logged calls before. -/
structure Sys where
  perfEventOpen : Nat → Int
  getrlimit : Nat → Bool
  setrlimit : Nat → Bool
  mmap : Nat → Bool
  pageIndex : Nat → UInt32 -- the `index` field of the page
  zalloc : Nat → Bool

/-- A kernel that grants everything. -/
def goodSys : Sys := ⟨fun n => n, fun _ => true, fun _ => true, fun _ => true, fun _ => 1, fun _ => true⟩

def emfile : Int := 24

def enomem : Int := 12

/-! ### Opening -/

/-- The part of the loop of `prof_evsel__open` from the label `retry_open` on, for one thread: `retries` is how
often the limit on descriptors may still be raised, `INCREASED_MAX - set_rlimit`. -/
def openFd (sys : Sys) (attr : Attr) (pid : Int) : Nat → List Syscall → Int × List Syscall
  | 0, log =>
    let fd := sys.perfEventOpen log.length
    (fd, log ++ [.perfEventOpen attr pid fd])
  | retries + 1, log =>
    let fd := sys.perfEventOpen log.length
    let log₁ := log ++ [.perfEventOpen attr pid fd]
    if fd = -emfile ∧ sys.getrlimit log₁.length ∧ sys.setrlimit log₁.length then openFd sys attr pid retries log₁
    else (fd, log₁)

/-- The clean-up loop of `prof_evsel__open`, from the last opened descriptor down. -/
def closeOpened (opened : List ThreadData) (log : List Syscall) : List Syscall :=
  log ++ opened.reverse.flatMap fun data => if data.fd < 0 then [] else [.disable data.fd, .close data.fd]

/-- The loop of `prof_evsel__open` over the threads; `opened` is the part of `per_thread` that is filled. -/
def openThreads (sys : Sys) (attr : Attr) : List Int → List ThreadData → List Syscall →
    Except Int (List ThreadData) × List Syscall
  | [], opened, log => (.ok opened, log)
  | pid :: pids, opened, log =>
    let r := openFd sys attr pid 2 log
    if r.1 < 0 then (.error r.1, closeOpened opened r.2)
    else openThreads sys attr pids (opened ++ [⟨r.1, 0, false⟩]) r.2

/-- `prof_evsel__open` with a thread map, as `prof_evlist__start` calls it. -/
def evselOpen (sys : Sys) (threads : ThreadMap) (ev : Evsel) (log : List Syscall) : Int × Evsel × List Syscall :=
  if !sys.zalloc log.length then (-enomem, { ev with threads := some threads, perThread := none }, log)
  else
    match openThreads sys ev.attr threads.pids [] log with
    | (.ok perThread, log₁) =>
      (0, { ev with threads := some threads, perThread := some perThread, isOpen := true }, log₁)
    | (.error err, log₁) =>
      (err, { ev with threads := some threads, perThread := none, isOpen := false }, log₁)

/-! ### Enabling, disabling, closing -/

/-- The loop of `prof_evsel__enable` over `per_thread`; `done` is the part behind it.  When `mmap` fails, the loop
at `out_failed` runs once for each thread so far, but always on the entry of the thread that failed. -/
def enableLoop (sys : Sys) : List ThreadData → List ThreadData → List Syscall →
    Bool × List ThreadData × List Syscall
  | done, [], log => (true, done, log)
  | done, data :: rest, log =>
    if data.fd < 0 then enableLoop sys (done ++ [data]) rest log
    else
      let log₁ := log ++ [.enable data.fd]
      if sys.mmap log₁.length then
        enableLoop sys (done ++ [{ data with mmPage := true, hwcIndex := sys.pageIndex log₁.length }]) rest
          (log₁ ++ [.mmap data.fd true])
      else
        (false, done ++ { data with mmPage := false } :: rest,
          log₁ ++ .mmap data.fd false :: List.replicate (done.length + 1) (.disable data.fd))

/-- `prof_evsel__enable`, where `per_thread` has the length `nthreads`. -/
def evselEnable (sys : Sys) (ev : Evsel) (log : List Syscall) : Int × Evsel × List Syscall :=
  if !ev.isOpen then (1, ev, log)
  else if ev.isEnable then (0, ev, log)
  else
    let r := enableLoop sys [] (ev.perThread.getD []) log
    if r.1 then (0, { ev with perThread := some r.2.1, isEnable := true }, r.2.2)
    else (-1, { ev with perThread := some r.2.1 }, r.2.2)

/-- The loop of `prof_evsel__disable`. -/
def disableThreads (perThread : List ThreadData) : List ThreadData :=
  perThread.map fun data => if data.fd < 0 then data else { data with mmPage := false }

/-- `prof_evsel__disable`; it sets `is_enable` once more. -/
def evselDisable (ev : Evsel) (log : List Syscall) : Evsel × List Syscall :=
  if !ev.isEnable then (ev, log)
  else
    ({ ev with perThread := ev.perThread.map disableThreads, isEnable := true },
      log ++ (ev.perThread.getD []).flatMap fun data =>
        if data.fd < 0 then [] else (if data.mmPage then [.munmap data.fd] else []) ++ [.disable data.fd])

def evselClose (ev : Evsel) (log : List Syscall) : Evsel × List Syscall :=
  if !ev.isOpen then (ev, log)
  else
    let r := evselDisable ev log
    ({ r.1 with
        perThread := r.1.perThread.map fun l => l.map fun data => if data.fd < 0 then data else { data with fd := -1 }
        isOpen := false },
      r.2 ++ (r.1.perThread.getD []).flatMap fun data => if data.fd < 0 then [] else [.close data.fd])

/-! ### Event lists -/

/-- `struct prof_evlist`; `nr_entries` is the length of the list. -/
structure Evlist where
  entries : List Evsel
  threads : Option ThreadMap
deriving DecidableEq, Repr

/-- What `prof_evlist__add_from_str` leaves in an empty list, from the names and attributes it parses. -/
def evlistOfParsed (parsed : List (List Char × Attr)) : Evlist :=
  ⟨parsed.mapIdx fun i p => evselNew p.1 p.2 i, none⟩

/-- Run through the events of a list. -/
def forEach (f : Evsel → List Syscall → Evsel × List Syscall) :
    List Evsel → List Syscall → List Evsel × List Syscall
  | [], log => ([], log)
  | ev :: evs, log => ((f ev log).1 :: (forEach f evs (f ev log).2).1, (forEach f evs (f ev log).2).2)

/-- `prof_evlist__start`: an event that cannot be opened or enabled is only reported. -/
def evlistStart (sys : Sys) (el : Evlist) (log : List Syscall) : Int × Evlist × List Syscall :=
  match el.threads with
  | none => (-1, el, log)
  | some threads =>
    let opened := forEach (fun ev log => if ev.isOpen then (ev, log) else (evselOpen sys threads ev log).2) el.entries log
    let enabled := forEach (fun ev log => (evselEnable sys ev log).2) opened.1 opened.2
    (0, { el with entries := enabled.1 }, enabled.2)

/-- `prof_evlist__stop`. -/
def evlistStop (el : Evlist) (log : List Syscall) : Evlist × List Syscall :=
  let disabled := forEach evselDisable el.entries log
  ({ el with entries := disabled.1 }, disabled.2)

/-- `prof_evlist__delete`: the events are closed in reverse order, and everything is freed. -/
def evlistDelete (el : Evlist) (log : List Syscall) : List Syscall :=
  (forEach evselClose el.entries.reverse log).2

/-! ### What a started list looks like -/

/-- An enabled event has an entry for each of the `n` threads. -/
def Evsel.Sized (n : Nat) (ev : Evsel) : Prop :=
  (ev.isOpen = true ∨ ev.isEnable = true) → ∃ l, ev.perThread = some l ∧ l.length = n

theorem forEach_all {P Q : Evsel → Prop} {f : Evsel → List Syscall → Evsel × List Syscall}
    (hf : ∀ ev log, P ev → Q (f ev log).1) {evs : List Evsel} (h : ∀ ev ∈ evs, P ev) (log : List Syscall) :
    ∀ ev ∈ (forEach f evs log).1, Q ev := by
  induction evs generalizing log with
  | nil => simp [forEach]
  | cons e evs ih =>
    intro ev hev
    rcases List.mem_cons.1 hev with rfl | hev
    · exact hf e log (h e (by simp))
    · exact ih (fun e' he' => h e' (by simp [he'])) _ ev hev

theorem length_forEach (f : Evsel → List Syscall → Evsel × List Syscall) (evs : List Evsel) (log : List Syscall) :
    (forEach f evs log).1.length = evs.length := by
  induction evs generalizing log with
  | nil => rfl
  | cons e evs ih => simp [forEach, ih]

private theorem openThreads_ok {sys : Sys} {attr : Attr} {pids : List Int} {opened l : List ThreadData}
    {log log' : List Syscall} (h : openThreads sys attr pids opened log = (.ok l, log')) :
    l.length = opened.length + pids.length := by
  induction pids generalizing opened log with
  | nil =>
    cases h
    rfl
  | cons pid pids ih =>
    unfold openThreads at h
    simp only at h
    split at h
    · cases h
    · have hlen := ih h
      simp only [List.length_append, List.length_singleton] at hlen
      rw [hlen, List.length_cons]
      omega

theorem evselOpen_sized {sys : Sys} {threads : ThreadMap} {ev : Evsel} {log : List Syscall}
    (hen : ev.isEnable = false) (hcl : ev.isOpen = false) :
    (evselOpen sys threads ev log).2.1.Sized threads.pids.length := by
  intro hstate
  unfold evselOpen at hstate ⊢
  split
  · rename_i hz
    simp [hz, hen, hcl] at hstate
  · rename_i hz
    simp only [hz] at hstate
    split
    · rename_i l log₁ ho
      exact ⟨l, rfl, by simpa using openThreads_ok ho⟩
    · rename_i err log₁ ho
      simp [ho, hen] at hstate

private theorem length_enableLoop (sys : Sys) (done l : List ThreadData) (log : List Syscall) :
    (enableLoop sys done l log).2.1.length = done.length + l.length := by
  induction l generalizing done log with
  | nil => rfl
  | cons data rest ih =>
    unfold enableLoop
    simp only
    split
    · rw [ih, List.length_append, List.length_singleton, List.length_cons]
      omega
    · split
      · rw [ih, List.length_append, List.length_singleton, List.length_cons]
        omega
      · rw [List.length_append, List.length_cons, List.length_cons]

theorem evselEnable_sized {sys : Sys} {n : Nat} {ev : Evsel} {log : List Syscall} (h : ev.Sized n) :
    (evselEnable sys ev log).2.1.Sized n := by
  unfold evselEnable
  split
  · exact h
  · rename_i ho
    split
    · exact h
    · obtain ⟨l, hl, hn⟩ := h (.inl (by simpa using ho))
      have hlen : (enableLoop sys [] (ev.perThread.getD []) log).2.1.length = n := by
        rw [length_enableLoop, hl]
        simpa using hn
      simp only
      split
      · exact fun _ => ⟨_, rfl, hlen⟩
      · exact fun _ => ⟨_, rfl, hlen⟩

/-- After `prof_evlist__start` on new events, every open event has an entry for each thread. -/
theorem evlistStart_sized {sys : Sys} {el : Evlist} {threads : ThreadMap} {log : List Syscall}
    (hmap : el.threads = some threads) (hnew : ∀ ev ∈ el.entries, ev.isOpen = false ∧ ev.isEnable = false) :
    (evlistStart sys el log).2.1.threads = some threads ∧
      (∀ ev ∈ (evlistStart sys el log).2.1.entries, ev.Sized threads.pids.length) ∧
      (evlistStart sys el log).2.1.entries.length = el.entries.length := by
  unfold evlistStart
  simp only [hmap, length_forEach, and_true]
  refine ⟨trivial, ?_⟩
  have hopened : ∀ ev ∈ (forEach (fun ev log => if ev.isOpen then (ev, log) else (evselOpen sys threads ev log).2)
      el.entries log).1, ev.Sized threads.pids.length := by
    refine forEach_all (fun ev log h => ?_) hnew log
    simp only [h.1, Bool.false_eq_true, ↓reduceIte]
    exact evselOpen_sized h.2 h.1
  have henable : ∀ ev log, ev.Sized threads.pids.length → (evselEnable sys ev log).2.1.Sized threads.pids.length :=
    fun ev log h => evselEnable_sized h
  exact forEach_all henable hopened _

end StubProfile.Profile
