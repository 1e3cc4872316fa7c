import Mathlib.Data.List.Forall2
import StubProfile.Profile.Evsel

/-!
# Opening an event is all or nothing

`prof_evsel__open` retries a `perf_event_open` that ran out of descriptors at most twice for each thread, after raising
the limit, and gives up the whole event at the first thread that fails for good.  What it did is read off the calls it
adds to the log: for each thread that was reached the attempts made for it, and behind them the clean-up.
-/

namespace StubProfile.Profile

/-- The descriptors that were opened, with the threads they were opened for. -/
def openedFds (log : List Syscall) : List (Int × Int) :=
  log.filterMap fun
    | .perfEventOpen _ pid fd => if 0 ≤ fd then some (pid, fd) else none
    | _ => none

def closedFds (log : List Syscall) : List Int :=
  log.filterMap fun
    | .close fd => some fd
    | _ => none

/-- The calls made for one thread: at most `retries` attempts that ran out of descriptors, then the last attempt. -/
def Attempts (attr : Attr) (retries : Nat) (pid fd : Int) (calls : List Syscall) : Prop :=
  ∃ k ≤ retries, calls = List.replicate k (.perfEventOpen attr pid (-emfile)) ++ [.perfEventOpen attr pid fd]

private theorem openedFds_append (log new : List Syscall) : openedFds (log ++ new) = openedFds log ++ openedFds new :=
  List.filterMap_append

private theorem closedFds_append (log new : List Syscall) : closedFds (log ++ new) = closedFds log ++ closedFds new :=
  List.filterMap_append

private theorem Attempts.openedFds {attr : Attr} {retries : Nat} {pid fd : Int} {calls : List Syscall}
    (h : Attempts attr retries pid fd calls) : openedFds calls = if 0 ≤ fd then [(pid, fd)] else [] := by
  obtain ⟨k, -, rfl⟩ := h
  have hretries : Profile.openedFds (List.replicate k (.perfEventOpen attr pid (-emfile))) = [] := by
    simp [Profile.openedFds, emfile]
  rw [openedFds_append, hretries, List.nil_append]
  by_cases hfd : 0 ≤ fd
  · simp [Profile.openedFds, hfd]
  · simp [Profile.openedFds, hfd]

/-! ### One thread -/

private theorem openFd_attempts (sys : Sys) (attr : Attr) (pid : Int) (retries : Nat) (log : List Syscall) :
    ∃ calls, (openFd sys attr pid retries log).2 = log ++ calls ∧
      Attempts attr retries pid (openFd sys attr pid retries log).1 calls := by
  induction retries generalizing log with
  | zero => exact ⟨_, rfl, 0, Nat.le_refl 0, rfl⟩
  | succ retries ih =>
    unfold openFd
    simp only
    split
    · rename_i hmore
      obtain ⟨calls, hlog, k, hk, hcalls⟩ := ih (log ++ [.perfEventOpen attr pid (sys.perfEventOpen log.length)])
      refine ⟨.perfEventOpen attr pid (-emfile) :: calls, ?_, k + 1, Nat.succ_le_succ hk, ?_⟩
      · rw [hlog, hmore.1, List.append_assoc, List.singleton_append]
      · rw [hcalls, List.replicate_succ, List.cons_append]
    · exact ⟨_, rfl, 0, Nat.zero_le _, rfl⟩

/-! ### The loop over the threads -/

private theorem closeOpened_fds {opened : List ThreadData} (hopen : ∀ data ∈ opened, 0 ≤ data.fd) (log : List Syscall) :
    ∃ cleanup, closeOpened opened log = log ++ cleanup ∧ closedFds cleanup = (opened.map (·.fd)).reverse ∧
      openedFds cleanup = [] := by
  refine ⟨_, rfl, ?_⟩
  have hrev : ∀ data ∈ opened.reverse, 0 ≤ data.fd := fun data hd => hopen data (List.mem_reverse.1 hd)
  rw [← List.map_reverse]
  generalize opened.reverse = l at hrev
  induction l with
  | nil => exact ⟨rfl, rfl⟩
  | cons data l ih =>
    have hfd : ¬ data.fd < 0 := Int.not_lt.2 (hrev data (by simp))
    obtain ⟨hclosed, hopened⟩ := ih fun d hd => hrev d (by simp [hd])
    rw [List.flatMap_cons, closedFds_append, openedFds_append, hclosed, hopened, if_neg hfd]
    exact ⟨rfl, rfl⟩

/-- What the loop leaves: `calls` are the attempts for the threads it reached, and either every thread has its
descriptor, or all that were opened are closed again. -/
inductive LoopResult (pids : List Int) (opened : List ThreadData) (log : List Syscall) (calls : List (List Syscall)) :
    Except Int (List ThreadData) × List Syscall → Prop
  | all (new : List ThreadData) (hnew : new.length = pids.length)
      (hfds : openedFds calls.flatten = pids.zip (new.map (·.fd))) :
      LoopResult pids opened log calls (.ok (opened ++ new), log ++ calls.flatten)
  | undone (err : Int) (herr : err < 0) (new : List ThreadData) (hopen : ∀ data ∈ new, 0 ≤ data.fd)
      (hfds : (openedFds calls.flatten).map (·.2) = new.map (·.fd)) :
      LoopResult pids opened log calls (.error err, closeOpened (opened ++ new) (log ++ calls.flatten))

private theorem openThreads_result (sys : Sys) (attr : Attr) (pids : List Int) (opened : List ThreadData)
    (log : List Syscall) :
    ∃ tried rest calls, pids = tried ++ rest ∧
      List.Forall₂ (fun pid c => ∃ fd, Attempts attr 2 pid fd c) tried calls ∧
      LoopResult pids opened log calls (openThreads sys attr pids opened log) := by
  induction pids generalizing opened log with
  | nil =>
    refine ⟨[], [], [], rfl, .nil, ?_⟩
    have hres : LoopResult [] opened log [] (.ok (opened ++ []), log ++ [].flatten) := .all [] rfl rfl
    simpa [openThreads] using hres
  | cons pid pids ih =>
    obtain ⟨c, hlog, hatt⟩ := openFd_attempts sys attr pid 2 log
    unfold openThreads
    simp only
    split
    · rename_i hneg
      refine ⟨[pid], pids, [c], rfl, .cons ⟨_, hatt⟩ .nil, ?_⟩
      have hnone : openedFds c = [] := by rw [hatt.openedFds, if_neg (Int.not_le.2 hneg)]
      have hres : LoopResult (pid :: pids) opened log [c] (.error (openFd sys attr pid 2 log).1,
          closeOpened (opened ++ []) (log ++ [c].flatten)) := .undone _ hneg [] (by simp) (by simp [hnone])
      rw [hlog]
      simpa using hres
    · rename_i hpos
      have hone : openedFds c = [(pid, (openFd sys attr pid 2 log).1)] := by
        rw [hatt.openedFds, if_pos (Int.not_lt.1 hpos)]
      obtain ⟨tried, rest, calls, hsplit, hall, hres⟩ :=
        ih (opened ++ [⟨(openFd sys attr pid 2 log).1, 0, false⟩]) (openFd sys attr pid 2 log).2
      refine ⟨pid :: tried, rest, c :: calls, by rw [hsplit, List.cons_append], .cons ⟨_, hatt⟩ hall, ?_⟩
      generalize openThreads sys attr pids _ _ = r at hres
      have hflat : openedFds (c :: calls).flatten =
          (pid, (openFd sys attr pid 2 log).1) :: openedFds calls.flatten := by
        rw [List.flatten_cons, openedFds_append, hone, List.singleton_append]
      cases hres with
      | all new hnew hfds =>
        rw [hlog, List.append_assoc, List.append_assoc, ← List.flatten_cons]
        exact .all _ (by simp [hnew]) (by rw [hflat, hfds]; rfl)
      | undone err herr new hopen hfds =>
        rw [hlog, List.append_assoc, List.append_assoc, ← List.flatten_cons]
        refine .undone err herr _ ?_ (by rw [hflat, List.map_cons, hfds]; rfl)
        intro data hd
        rcases List.mem_cons.1 hd with rfl | hd
        · exact Int.not_lt.1 hpos
        · exact hopen data hd

/-! ### The event -/

/-- What a call of `prof_evsel__open` may leave behind.  `calls` are the attempts for the threads it reached, at most
two retries for each, and `cleanup` is what it did behind them. -/
def OpenOutcome (threads : ThreadMap) (ev : Evsel) (log : List Syscall) (r : Int × Evsel × List Syscall) : Prop :=
  ∃ tried rest calls cleanup, threads.pids = tried ++ rest ∧
    List.Forall₂ (fun pid c => ∃ fd, Attempts ev.attr 2 pid fd c) tried calls ∧
    r.2.2 = log ++ calls.flatten ++ cleanup ∧
    -- one open descriptor for each thread, or every opened descriptor closed again, from the last one down
    ((r.1 = 0 ∧ r.2.1.isOpen = true ∧ cleanup = [] ∧
        ∃ l, r.2.1.perThread = some l ∧ l.length = threads.pids.length ∧
          openedFds calls.flatten = threads.pids.zip (l.map (·.fd))) ∨
      (r.1 < 0 ∧ r.2.1.isOpen = false ∧ r.2.1.perThread = none ∧ openedFds cleanup = [] ∧
        closedFds cleanup = ((openedFds calls.flatten).map (·.2)).reverse))

/-- `prof_evsel__open` on a closed event, whatever the system calls return. -/
theorem evselOpen_allOrNothing (sys : Sys) (threads : ThreadMap) (ev : Evsel) (log : List Syscall)
    (hclosed : ev.isOpen = false) : OpenOutcome threads ev log (evselOpen sys threads ev log) := by
  unfold evselOpen
  split
  · have henomem : -enomem < 0 := by decide
    exact ⟨[], threads.pids, [], [], rfl, .nil, by simp, .inr ⟨henomem, hclosed, rfl, rfl, rfl⟩⟩
  · obtain ⟨tried, rest, calls, hsplit, hall, hres⟩ := openThreads_result sys ev.attr threads.pids [] log
    generalize openThreads sys ev.attr threads.pids [] log = r at hres
    cases hres with
    | all new hnew hfds =>
      exact ⟨tried, rest, calls, [], hsplit, hall, by simp, .inl ⟨rfl, rfl, rfl, new, rfl, hnew, hfds⟩⟩
    | undone err herr new hopen hfds =>
      obtain ⟨cleanup, hclean, hclose, hno⟩ := closeOpened_fds hopen (log ++ calls.flatten)
      refine ⟨tried, rest, calls, cleanup, hsplit, hall, hclean, .inr ⟨herr, rfl, rfl, hno, ?_⟩⟩
      rw [hclose, hfds]

/-- The first thread gets a descriptor, the second one runs out of them although the limit is raised twice. -/
def scarceSys : Sys := ⟨fun n => if n = 0 then 5 else -emfile, fun _ => true, fun _ => true, fun _ => true, fun _ => 1,
  fun _ => true⟩

theorem evselOpen_allOrNothing_scarce :
    (evselOpen scarceSys ⟨[100, 101]⟩ (evselNew [] ⟨0, 0, false, false⟩ 0) []).1 = -emfile ∧
      closedFds (evselOpen scarceSys ⟨[100, 101]⟩ (evselNew [] ⟨0, 0, false, false⟩ 0) []).2.2 = [5] ∧
      OpenOutcome ⟨[100, 101]⟩ (evselNew [] ⟨0, 0, false, false⟩ 0) []
        (evselOpen scarceSys ⟨[100, 101]⟩ (evselNew [] ⟨0, 0, false, false⟩ 0) []) :=
  ⟨by decide, by decide, evselOpen_allOrNothing _ _ _ _ rfl⟩

end StubProfile.Profile
