import StubProfile.Lib.Machine
import StubProfile.Profile.Evsel

/-!
# Enabling and disabling events

What the kernel holds for a descriptor follows from the calls in the log: whether its event is enabled, and how many
control pages are mapped for it.  Two results compare this with the fields of the library:

* `evselEnable_rolledBack_iff`: when a failed `prof_evsel__enable` leaves everything as it was;
* `evlist_commands_iff`: in which sequences of `prof_evlist__start` and `prof_evlist__stop` each call does its work.
-/

namespace StubProfile.Profile

/-- The event of a descriptor, as the kernel has it. -/
structure FdState where
  enabled : Bool
  pages : Nat
deriving DecidableEq, Repr

/-- The effect of a call on the descriptor `fd`.  An event is disabled when it is opened (`attr.disabled`). -/
def FdState.after (fd : Int) (s : FdState) : Syscall → FdState
  | .perfEventOpen _ _ fd' => if fd' = fd then { s with enabled := false } else s
  | .close fd' => if fd' = fd then { s with enabled := false } else s
  | .enable fd' => if fd' = fd then { s with enabled := true } else s
  | .disable fd' => if fd' = fd then { s with enabled := false } else s
  | .mmap fd' ok => if fd' = fd ∧ ok then { s with pages := s.pages + 1 } else s
  | .munmap fd' => if fd' = fd then { s with pages := s.pages - 1 } else s

def fdState (fd : Int) (log : List Syscall) : FdState := log.foldl (FdState.after fd) ⟨false, 0⟩

private theorem fdState_append (fd : Int) (log new : List Syscall) :
    fdState fd (log ++ new) = new.foldl (FdState.after fd) (fdState fd log) := List.foldl_append

private theorem fdState_replicate_disable (fd : Int) (n : Nat) (s : FdState) :
    (List.replicate (n + 1) (Syscall.disable fd)).foldl (FdState.after fd) s = ⟨false, s.pages⟩ := by
  induction n generalizing s with
  | zero => simp [FdState.after]
  | succ n ih =>
    rw [List.replicate_succ, List.foldl_cons, ih]
    simp [FdState.after]

private theorem fdState_replicate_disable_ne {fd fd' : Int} (h : fd' ≠ fd) (n : Nat) (s : FdState) :
    (List.replicate n (Syscall.disable fd')).foldl (FdState.after fd) s = s := by
  induction n with
  | zero => rfl
  | succ n ih => simpa [List.replicate_succ, FdState.after, h] using ih

/-! ### A failed `prof_evsel__enable` -/

/-- An open event that is not enabled: no page is mapped, and the kernel has its descriptors disabled. -/
structure Evsel.Idle (ev : Evsel) (l : List ThreadData) (log : List Syscall) : Prop where
  isOpen : ev.isOpen = true
  isEnable : ev.isEnable = false
  perThread : ev.perThread = some l
  idle : ∀ data ∈ l, 0 ≤ data.fd → data.mmPage = false ∧ (fdState data.fd log).enabled = false

/-- When `prof_evsel__enable` returns -1, the event is as before the call, and for the kernel its descriptors are
disabled with the pages they had. -/
def RolledBack (ev : Evsel) (l : List ThreadData) (log : List Syscall) (r : Int × Evsel × List Syscall) : Prop :=
  r.1 = -1 → r.2.1 = ev ∧ ∀ data ∈ l, 0 ≤ data.fd →
    (fdState data.fd r.2.2).enabled = false ∧ (fdState data.fd r.2.2).pages = (fdState data.fd log).pages

/-- The number of threads for which the event has a descriptor. -/
def nbFd (l : List ThreadData) : Nat := l.countP fun data => 0 ≤ data.fd

private theorem enableLoop_fst_iff (sys : Sys) (done l : List ThreadData) (log : List Syscall) :
    (enableLoop sys done l log).1 = true ↔ ∀ k < nbFd l, sys.mmap (log.length + 2 * k + 1) = true := by
  induction l generalizing done log with
  | nil => simp [enableLoop, nbFd]
  | cons data rest ih =>
    unfold enableLoop
    simp only
    split
    · rename_i hfd
      have hcount : nbFd (data :: rest) = nbFd rest := List.countP_cons_of_neg (by simpa using hfd)
      rw [ih, hcount]
    · rename_i hfd
      have hcount : nbFd (data :: rest) = nbFd rest + 1 := List.countP_cons_of_pos (by simpa using hfd)
      rw [hcount]
      split
      · rename_i hok
        rw [ih]
        constructor
        · intro h k hk
          cases k with
          | zero => simpa using hok
          | succ k =>
            have := h k (by omega)
            simp only [List.length_append, List.length_singleton] at this
            rwa [show log.length + 1 + 1 + 2 * k + 1 = log.length + 2 * (k + 1) + 1 by omega] at this
        · intro h k hk
          have := h (k + 1) (by omega)
          simp only [List.length_append, List.length_singleton]
          rwa [show log.length + 2 * (k + 1) + 1 = log.length + 1 + 1 + 2 * k + 1 by omega] at this
      · rename_i hfail
        simp only [Bool.false_eq_true, false_iff, not_forall]
        exact ⟨0, by omega, by simpa using hfail⟩

private theorem enableLoop_skip (sys : Sys) {skip : List ThreadData} (hskip : ∀ data ∈ skip, data.fd < 0)
    (done rest : List ThreadData) (log : List Syscall) :
    enableLoop sys done (skip ++ rest) log = enableLoop sys (done ++ skip) rest log := by
  induction skip generalizing done with
  | nil => simp
  | cons data skip ih =>
    rw [List.cons_append, enableLoop, if_pos (hskip data (by simp)), ih (fun d hd => hskip d (by simp [hd])),
      List.append_assoc, List.singleton_append]

/-- The loop never goes back to an entry behind it, not even when it fails. -/
private theorem enableLoop_done (sys : Sys) (done l : List ThreadData) (log : List Syscall) :
    ∃ l', (enableLoop sys done l log).2.1 = done ++ l' := by
  induction l generalizing done log with
  | nil => exact ⟨[], by simp [enableLoop]⟩
  | cons data rest ih =>
    unfold enableLoop
    simp only
    split
    · obtain ⟨l', hl'⟩ := ih (done ++ [data]) log
      exact ⟨data :: l', by rw [hl', List.append_assoc, List.singleton_append]⟩
    · split
      · obtain ⟨l', hl'⟩ := ih (done ++ [{ data with mmPage := true, hwcIndex := sys.pageIndex (log.length + 1) }])
          (log ++ [.enable data.fd] ++ [.mmap data.fd true])
        refine ⟨{ data with mmPage := true, hwcIndex := sys.pageIndex (log.length + 1) } :: l', ?_⟩
        simpa using hl'
      · exact ⟨_, rfl⟩

private theorem exists_first_fd (l : List ThreadData) :
    (∀ data ∈ l, data.fd < 0) ∨
      ∃ skip data rest, l = skip ++ data :: rest ∧ (∀ d ∈ skip, d.fd < 0) ∧ 0 ≤ data.fd := by
  induction l with
  | nil => exact .inl (by simp)
  | cons data l ih =>
    by_cases hfd : data.fd < 0
    · rcases ih with hall | ⟨skip, d, rest, rfl, hskip, hd⟩
      · exact .inl (by simpa [hfd] using hall)
      · exact .inr ⟨data :: skip, d, rest, rfl, by simpa [hfd] using hskip, hd⟩
    · exact .inr ⟨[], data, l, rfl, by simp, Int.not_lt.1 hfd⟩

private theorem evselEnable_of_idle (sys : Sys) {ev : Evsel} {l : List ThreadData} {log : List Syscall}
    (h : ev.Idle l log) :
    evselEnable sys ev log =
      if (enableLoop sys [] l log).1 then
        (0, { ev with perThread := some (enableLoop sys [] l log).2.1, isEnable := true }, (enableLoop sys [] l log).2.2)
      else (-1, { ev with perThread := some (enableLoop sys [] l log).2.1 }, (enableLoop sys [] l log).2.2) := by
  simp [evselEnable, h.isOpen, h.isEnable, h.perThread]

/-- The loop at `out_failed` always works on the entry that failed, so it undoes everything only if there is nothing
to undo for the threads before. -/
theorem evselEnable_rolledBack_iff (sys : Sys) {ev : Evsel} {l : List ThreadData} {log : List Syscall}
    (h : ev.Idle l log) :
    RolledBack ev l log (evselEnable sys ev log) ↔
      sys.mmap (log.length + 1) = false ∨ ∀ k < nbFd l, sys.mmap (log.length + 2 * k + 1) = true := by
  rw [← enableLoop_fst_iff sys [] l log, evselEnable_of_idle sys h]
  rcases exists_first_fd l with hnone | ⟨skip, data, rest, rfl, hskip, hfd⟩
  · have hok : (enableLoop sys [] l log).1 = true := by
      rw [enableLoop_fst_iff]
      intro k hk
      obtain ⟨d, hd, hpos⟩ := List.countP_pos_iff.1 (Nat.zero_lt_of_lt hk)
      have := hnone d hd
      simp only [decide_eq_true_eq] at hpos
      omega
    simp [hok, RolledBack]
  · by_cases hok : (enableLoop sys [] (skip ++ data :: rest) log).1 = true
    · simp [hok, RolledBack]
    · simp only [hok, Bool.false_eq_true, ↓reduceIte, or_false]
      have hpage : data.mmPage = false := (h.idle data (by simp) hfd).1
      rw [enableLoop_skip sys hskip, List.nil_append, enableLoop, if_neg (Int.not_lt.2 hfd)]
      cases hfirst : sys.mmap (log.length + 1) with
      | true =>
        -- the page of this thread stays mapped
        simp only [reduceCtorEq, iff_false]
        intro hback
        have hev := (hback rfl).1
        simp only [List.length_append, List.length_singleton, hfirst, ↓reduceIte] at hev
        obtain ⟨l', hl'⟩ := enableLoop_done sys
          (skip ++ [{ data with mmPage := true, hwcIndex := sys.pageIndex (log.length + 1) }]) rest
          (log ++ [.enable data.fd] ++ [.mmap data.fd true])
        have hper := congrArg Evsel.perThread hev
        rw [h.perThread] at hper
        simp only [hl', Option.some.injEq] at hper
        simp only [List.append_assoc, List.singleton_append,
          List.append_cancel_left_eq, List.cons.injEq] at hper
        have := congrArg ThreadData.mmPage hper.1
        simp [hpage] at this
      | false =>
        simp only [iff_true]
        intro _
        simp only [List.length_append, List.length_singleton, hfirst, Bool.false_eq_true, ↓reduceIte]
        have hsame : ({ data with mmPage := false } : ThreadData) = data := by rw [← hpage]
        refine ⟨by rw [hsame, ← h.perThread], fun d hd hpos => ?_⟩
        rw [List.append_assoc, fdState_append]
        by_cases heq : data.fd = d.fd
        · rw [heq, List.singleton_append, List.foldl_cons, List.foldl_cons, fdState_replicate_disable]
          simp [FdState.after]
        · rw [List.singleton_append, List.foldl_cons, List.foldl_cons, fdState_replicate_disable_ne heq]
          simpa [FdState.after, heq] using (h.idle d hd hpos).2

/-- An open event with the given descriptors. -/
def openEvent (fds : List Int) : Evsel :=
  ⟨[], ⟨0, 0, false, false⟩, 0, none, some (fds.map fun fd => ⟨fd, 0, false⟩), true, false⟩

/-- With two threads, when the page of the second one cannot be mapped, the event of the first one stays enabled and
its page stays mapped. -/
theorem evselEnable_keeps_first_thread :
    (openEvent [5, 6]).Idle [⟨5, 0, false⟩, ⟨6, 0, false⟩] [] ∧
      fdState 5 (evselEnable { goodSys with mmap := fun n => n ≠ 3 } (openEvent [5, 6]) []).2.2 = ⟨true, 1⟩ ∧
      ¬ RolledBack (openEvent [5, 6]) [⟨5, 0, false⟩, ⟨6, 0, false⟩] []
        (evselEnable { goodSys with mmap := fun n => n ≠ 3 } (openEvent [5, 6]) []) := by
  refine ⟨⟨rfl, rfl, rfl, by decide⟩, by decide, fun h => ?_⟩
  have hoff := ((h (by decide)).2 ⟨5, 0, false⟩ (by simp) (by decide)).1
  revert hoff
  decide

/-- The first thread has no descriptor, and the page of the second one cannot be mapped. -/
theorem evselEnable_rolledBack_first_fails :
    (evselEnable { goodSys with mmap := fun _ => false } (openEvent [-1, 6, 7]) []).1 = -1 ∧
      RolledBack (openEvent [-1, 6, 7]) [⟨-1, 0, false⟩, ⟨6, 0, false⟩, ⟨7, 0, false⟩] []
        (evselEnable { goodSys with mmap := fun _ => false } (openEvent [-1, 6, 7]) []) :=
  ⟨by decide, (evselEnable_rolledBack_iff _ ⟨rfl, rfl, rfl, by decide⟩).2 (.inl rfl)⟩

/-! ### Sequences of `prof_evlist__start` and `prof_evlist__stop` -/

/-- Every system call succeeds. -/
def Sys.Grants (sys : Sys) : Prop := ∀ n, 0 ≤ sys.perfEventOpen n ∧ sys.mmap n = true ∧ sys.zalloc n = true

/-- An event of a list on which nothing was called yet. -/
def Evsel.New (ev : Evsel) : Prop := ev.isOpen = false ∧ ev.isEnable = false ∧ ev.perThread = none

/-- The event is open for `n` threads, and every descriptor is enabled with its control page mapped. -/
def Evsel.On (n : Nat) (log : List Syscall) (ev : Evsel) : Prop :=
  ev.isOpen = true ∧ ev.isEnable = true ∧ ∃ l, ev.perThread = some l ∧ l.length = n ∧ ∀ data ∈ l,
    0 ≤ data.fd ∧ data.mmPage = true ∧ (fdState data.fd log).enabled = true ∧ 0 < (fdState data.fd log).pages

/-- Every descriptor of the event is disabled and unmapped. -/
def Evsel.Off (log : List Syscall) (ev : Evsel) : Prop :=
  ev.isEnable = false ∧ ∀ l, ev.perThread = some l → ∀ data ∈ l, 0 ≤ data.fd →
    data.mmPage = false ∧ (fdState data.fd log).enabled = false ∧ (fdState data.fd log).pages = 0

inductive Command where
  | start | stop
deriving DecidableEq, Repr

/-- An event list, the calls made so far and the last command. -/
structure Session where
  el : Evlist
  log : List Syscall
  last : Option Command

def commandStep (sys : Sys) (s : Session) : Command → Except Empty Session
  | .start => .ok ⟨(evlistStart sys s.el s.log).2.1, (evlistStart sys s.el s.log).2.2, some .start⟩
  | .stop => .ok ⟨(evlistStop s.el s.log).1, (evlistStop s.el s.log).2, some .stop⟩

/-- The last command did its work on every event. -/
def Session.Done (threads : ThreadMap) (s : Session) : Prop :=
  match s.last with
  | none => True
  | some .start => ∀ ev ∈ s.el.entries, ev.On threads.pids.length s.log
  | some .stop => ∀ ev ∈ s.el.entries, ev.Off s.log

/-- A call that takes nothing away from a descriptor. -/
def Enabling (c : Syscall) : Prop := ∃ fd, c = .enable fd ∨ c = .mmap fd true

private theorem fdState_enabling {new : List Syscall} (h : ∀ c ∈ new, Enabling c) (fd : Int) (s : FdState) :
    (s.enabled = true → (new.foldl (FdState.after fd) s).enabled = true) ∧
      s.pages ≤ (new.foldl (FdState.after fd) s).pages := by
  induction new generalizing s with
  | nil => exact ⟨id, Nat.le_refl _⟩
  | cons c new ih =>
    have hc : (s.enabled = true → (s.after fd c).enabled = true) ∧ s.pages ≤ (s.after fd c).pages := by
      obtain ⟨fd', rfl | rfl⟩ := h c (by simp)
      · by_cases hfd : fd' = fd
        · simp [FdState.after, hfd]
        · simp [FdState.after, hfd]
      · by_cases hfd : fd' = fd
        · simp [FdState.after, hfd]
        · simp [FdState.after, hfd]
    obtain ⟨h1, h2⟩ := ih (fun c' hc' => h c' (by simp [hc'])) (s.after fd c)
    exact ⟨fun hs => h1 (hc.1 hs), Nat.le_trans hc.2 h2⟩

private theorem Evsel.On.append {n : Nat} {log new : List Syscall} {ev : Evsel} (h : ev.On n log)
    (hnew : ∀ c ∈ new, Enabling c) : ev.On n (log ++ new) := by
  obtain ⟨hopen, hen, l, hl, hlen, hall⟩ := h
  refine ⟨hopen, hen, l, hl, hlen, fun data hd => ?_⟩
  obtain ⟨hfd, hpage, hon, hpages⟩ := hall data hd
  rw [fdState_append]
  obtain ⟨h1, h2⟩ := fdState_enabling hnew data.fd (fdState data.fd log)
  exact ⟨hfd, hpage, h1 hon, Nat.lt_of_lt_of_le hpages h2⟩

/-- With every page mapped, the loop turns each entry on. -/
private theorem enableLoop_on {sys : Sys} (hsys : sys.Grants) (done l : List ThreadData) (log : List Syscall)
    (hfd : ∀ data ∈ l, 0 ≤ data.fd) :
    ∃ l' new, enableLoop sys done l log = (true, done ++ l', log ++ new) ∧ (∀ c ∈ new, Enabling c) ∧
      l'.length = l.length ∧ ∀ data ∈ l', 0 ≤ data.fd ∧ data.mmPage = true ∧
        (fdState data.fd (log ++ new)).enabled = true ∧ 0 < (fdState data.fd (log ++ new)).pages := by
  induction l generalizing done log with
  | nil => exact ⟨[], [], by simp [enableLoop], by simp, rfl, by simp⟩
  | cons data rest ih =>
    have hpos : 0 ≤ data.fd := hfd data (by simp)
    obtain ⟨l', new, hloop, hnew, hlen, hall⟩ :=
      ih (done ++ [{ data with mmPage := true, hwcIndex := sys.pageIndex (log.length + 1) }])
        (log ++ [.enable data.fd] ++ [.mmap data.fd true]) fun d hd => hfd d (by simp [hd])
    refine ⟨{ data with mmPage := true, hwcIndex := sys.pageIndex (log.length + 1) } :: l',
      [.enable data.fd, .mmap data.fd true] ++ new, ?_, ?_, by simp [hlen], ?_⟩
    · rw [enableLoop, if_neg (Int.not_lt.2 hpos)]
      simpa [(hsys _).2.1] using hloop
    · intro c hc
      rcases List.mem_append.1 hc with hc | hc
      · exact ⟨data.fd, by simpa using hc⟩
      · exact hnew c hc
    · have hlog : log ++ [.enable data.fd] ++ [.mmap data.fd true] ++ new =
          log ++ ([.enable data.fd, .mmap data.fd true] ++ new) := by simp
      intro d hd
      rcases List.mem_cons.1 hd with rfl | hd
      · rw [← List.append_assoc, fdState_append]
        obtain ⟨h1, h2⟩ := fdState_enabling hnew data.fd (fdState data.fd (log ++ [.enable data.fd, .mmap data.fd true]))
        have hnow : (fdState data.fd (log ++ [.enable data.fd, .mmap data.fd true])).enabled = true ∧
            0 < (fdState data.fd (log ++ [.enable data.fd, .mmap data.fd true])).pages := by
          simp [fdState_append, FdState.after]
        exact ⟨hpos, rfl, h1 hnow.1, Nat.lt_of_lt_of_le hnow.2 h2⟩
      · rw [← hlog]
        exact hall d hd

private theorem openThreads_granted {sys : Sys} (hsys : sys.Grants) (attr : Attr) (pids : List Int)
    (opened : List ThreadData) (log : List Syscall) :
    ∃ l log', openThreads sys attr pids opened log = (.ok (opened ++ l), log') ∧ l.length = pids.length ∧
      ∀ data ∈ l, 0 ≤ data.fd := by
  induction pids generalizing opened log with
  | nil => exact ⟨[], log, by simp [openThreads], rfl, by simp⟩
  | cons pid pids ih =>
    have hfd : 0 ≤ (openFd sys attr pid 2 log).1 := by
      have hfirst := (hsys log.length).1
      have hne : sys.perfEventOpen log.length ≠ -emfile := by simp only [emfile]; omega
      simpa [openFd, hne] using hfirst
    obtain ⟨l, log', hopen, hlen, hall⟩ :=
      ih (opened ++ [⟨(openFd sys attr pid 2 log).1, 0, false⟩]) (openFd sys attr pid 2 log).2
    refine ⟨⟨(openFd sys attr pid 2 log).1, 0, false⟩ :: l, log', ?_, by simp [hlen], ?_⟩
    · rw [openThreads, if_neg (Int.not_lt.2 hfd), hopen, List.append_assoc, List.singleton_append]
    · intro data hd
      rcases List.mem_cons.1 hd with rfl | hd
      · exact hfd
      · exact hall data hd

private theorem forEach_eq_self {f : Evsel → List Syscall → Evsel × List Syscall} {evs : List Evsel}
    (h : ∀ ev ∈ evs, ∀ log, f ev log = (ev, log)) (log : List Syscall) : forEach f evs log = (evs, log) := by
  induction evs with
  | nil => rfl
  | cons ev evs ih => rw [forEach, h ev (by simp), ih fun e he => h e (by simp [he])]

/-- Turning the events on one after the other: what is on stays on. -/
private theorem forEach_on {P : Evsel → Prop} {n : Nat} {f : Evsel → List Syscall → Evsel × List Syscall}
    (hf : ∀ ev log, P ev → ∃ new, (f ev log).2 = log ++ new ∧ (∀ c ∈ new, Enabling c) ∧
      (f ev log).1.On n (log ++ new)) {evs : List Evsel} (h : ∀ ev ∈ evs, P ev) (log : List Syscall) :
    ∃ new, (forEach f evs log).2 = log ++ new ∧ (∀ c ∈ new, Enabling c) ∧
      ∀ ev ∈ (forEach f evs log).1, ev.On n (log ++ new) := by
  induction evs generalizing log with
  | nil => exact ⟨[], by simp [forEach], by simp, by simp [forEach]⟩
  | cons e evs ih =>
    obtain ⟨new₁, hlog₁, hnew₁, hon₁⟩ := hf e log (h e (by simp))
    obtain ⟨new₂, hlog₂, hnew₂, hon₂⟩ := ih (fun e' he' => h e' (by simp [he'])) (log ++ new₁)
    refine ⟨new₁ ++ new₂, ?_, ?_, ?_⟩
    · rw [forEach, hlog₁, hlog₂, List.append_assoc]
    · intro c hc
      rcases List.mem_append.1 hc with hc | hc
      · exact hnew₁ c hc
      · exact hnew₂ c hc
    · rw [forEach, hlog₁, ← List.append_assoc]
      intro ev hev
      rcases List.mem_cons.1 hev with rfl | hev
      · exact hon₁.append hnew₂
      · exact hon₂ ev hev

/-- The event is open for `n` threads and waits to be enabled. -/
def Evsel.Waiting (n : Nat) (ev : Evsel) : Prop :=
  ev.isOpen = true ∧ ev.isEnable = false ∧ ∃ l, ev.perThread = some l ∧ l.length = n ∧ ∀ data ∈ l, 0 ≤ data.fd

private theorem evselOpen_waiting {sys : Sys} (hsys : sys.Grants) {ev : Evsel} (hnew : ev.New) (threads : ThreadMap)
    (log : List Syscall) : (evselOpen sys threads ev log).2.1.Waiting threads.pids.length := by
  obtain ⟨l, log', hopen, hlen, hfd⟩ := openThreads_granted hsys ev.attr threads.pids [] log
  rw [List.nil_append] at hopen
  unfold evselOpen
  rw [(hsys log.length).2.2, hopen]
  exact ⟨rfl, hnew.2.1, l, rfl, hlen, hfd⟩

private theorem evselEnable_on {sys : Sys} (hsys : sys.Grants) {n : Nat} {ev : Evsel} (hw : ev.Waiting n)
    (log : List Syscall) :
    ∃ new, (evselEnable sys ev log).2.2 = log ++ new ∧ (∀ c ∈ new, Enabling c) ∧
      (evselEnable sys ev log).2.1.On n (log ++ new) := by
  obtain ⟨hopen, hen, l, hl, hlen, hfd⟩ := hw
  obtain ⟨l', new, hloop, hnew, hlen', hall⟩ := enableLoop_on hsys [] l log hfd
  have heq : evselEnable sys ev log = (0, { ev with perThread := some l', isEnable := true }, log ++ new) := by
    simp [evselEnable, hopen, hen, hl, hloop]
  rw [heq]
  exact ⟨new, rfl, hnew, hopen, rfl, l', rfl, hlen'.trans hlen, hall⟩

private theorem evlistStart_new {sys : Sys} (hsys : sys.Grants) {el : Evlist} {threads : ThreadMap}
    (hmap : el.threads = some threads) (hnew : ∀ ev ∈ el.entries, ev.New) (log : List Syscall) :
    ∀ ev ∈ (evlistStart sys el log).2.1.entries, ev.On threads.pids.length (evlistStart sys el log).2.2 := by
  simp only [evlistStart, hmap]
  have hopen : ∀ (ev : Evsel) (log : List Syscall), ev.New →
      (if ev.isOpen then (ev, log) else (evselOpen sys threads ev log).2).1.Waiting threads.pids.length := by
    intro ev log hev
    rw [if_neg (by simp [hev.1])]
    exact evselOpen_waiting hsys hev threads log
  obtain ⟨new, hlog, -, hon⟩ := forEach_on (fun ev log hw => evselEnable_on hsys hw log)
    (forEach_all hopen hnew log) _
  rw [hlog]
  exact hon

private theorem evlistStart_on {sys : Sys} {el : Evlist} {n : Nat} {log : List Syscall} (hmap : el.threads.isSome)
    (hon : ∀ ev ∈ el.entries, ev.On n log) : (evlistStart sys el log).2 = (el, log) := by
  obtain ⟨threads, hth⟩ := Option.isSome_iff_exists.1 hmap
  have hopen : ∀ ev ∈ el.entries, ∀ log', (if ev.isOpen then (ev, log') else (evselOpen sys threads ev log').2) =
      (ev, log') := fun ev hev log' => if_pos (hon ev hev).1
  have henable : ∀ ev ∈ el.entries, ∀ log', (evselEnable sys ev log').2 = (ev, log') := fun ev hev log' => by
    simp [evselEnable, (hon ev hev).1, (hon ev hev).2.1]
  simp only [evlistStart, hth]
  rw [forEach_eq_self hopen, forEach_eq_self henable, ← hth]

private theorem evlistStop_new {el : Evlist} (hnew : ∀ ev ∈ el.entries, ev.New) (log : List Syscall) :
    evlistStop el log = (el, log) := by
  simp only [evlistStop]
  rw [forEach_eq_self fun ev hev log' => by simp [evselDisable, (hnew ev hev).2.1]]

/-- `prof_evsel__disable` does not clear `is_enable`. -/
private theorem evlistStop_enabled {el : Evlist} (hen : ∀ ev ∈ el.entries, ev.isEnable = true) (log : List Syscall) :
    ∀ ev ∈ (evlistStop el log).1.entries, ev.isEnable = true :=
  forEach_all (fun ev log h => by simp [evselDisable, h]) hen log

private theorem evlistStart_threads (sys : Sys) (el : Evlist) (log : List Syscall) :
    (evlistStart sys el log).2.1.threads = el.threads ∧
      (evlistStart sys el log).2.1.entries.length = el.entries.length := by
  unfold evlistStart
  split
  · exact ⟨rfl, rfl⟩
  · exact ⟨rfl, by simp only [length_forEach]⟩

/-! The commands from a list that is started, and from a new one. -/

section Commands

variable {sys : Sys} {threads : ThreadMap}

private theorem always_empty {s : Session} (hmap : s.el.threads = some threads) (hempty : s.el.entries = [])
    (cmds : List Command) : Machine.Always (commandStep sys) (Session.Done threads) s cmds := by
  have hdone : ∀ s : Session, s.el.entries = [] → s.Done threads := by
    intro s hs
    unfold Session.Done
    split <;> simp [hs]
  induction cmds generalizing s with
  | nil => exact hdone s hempty
  | cons c cmds ih =>
    refine ⟨hdone s hempty, fun s' hs => ?_⟩
    cases c with
    | start =>
      cases hs
      have hkeep := evlistStart_threads sys s.el s.log
      exact ih (hkeep.1.trans hmap) (List.length_eq_zero_iff.1 (by rw [hkeep.2, hempty, List.length_nil]))
    | stop =>
      cases hs
      exact ih hmap (List.length_eq_zero_iff.1 (by simp [evlistStop, length_forEach, hempty]))

private theorem always_started {s : Session} (hmap : s.el.threads = some threads) (hne : s.el.entries ≠ [])
    (hlast : s.last = some .start) (hon : ∀ ev ∈ s.el.entries, ev.On threads.pids.length s.log)
    (cmds : List Command) :
    Machine.Always (commandStep sys) (Session.Done threads) s cmds ↔ .stop ∉ cmds := by
  have hdone : s.Done threads := by
    simp only [Session.Done, hlast]
    exact hon
  induction cmds with
  | nil => simpa [Machine.Always] using hdone
  | cons c cmds ih =>
    cases c with
    | start =>
      have hsame : commandStep sys s .start = .ok s := by
        simp only [commandStep, evlistStart_on (by simp [hmap]) hon]
        rw [← hlast]
      simp [Machine.Always, hsame, hdone, ih]
    | stop =>
      -- the flag of the first event is still set
      simp only [List.mem_cons, true_or, not_true_eq_false, iff_false]
      rintro ⟨-, hall⟩
      have hP := hall _ rfl
      obtain ⟨ev, hev⟩ := List.exists_mem_of_length_pos
        (l := (evlistStop s.el s.log).1.entries) (by simpa [evlistStop, length_forEach] using List.length_pos_iff.2 hne)
      have hset := evlistStop_enabled (fun e he => (hon e he).2.1) s.log ev hev
      have hoff : Session.Done threads ⟨(evlistStop s.el s.log).1, (evlistStop s.el s.log).2, some .stop⟩ := by
        cases cmds with
        | nil => exact hP
        | cons c cmds => exact hP.1
      have := (hoff ev hev).1
      simp [hset] at this

private theorem always_new (hsys : sys.Grants) {s : Session} (hmap : s.el.threads = some threads)
    (hne : s.el.entries ≠ [])
    (hlast : s.last ≠ some .start) (hnew : ∀ ev ∈ s.el.entries, ev.New) (cmds : List Command) :
    Machine.Always (commandStep sys) (Session.Done threads) s cmds ↔
      cmds.Pairwise fun c d => c = .start → d = .start := by
  have hdone : s.Done threads := by
    unfold Session.Done
    split
    · trivial
    · rename_i hstart
      exact absurd hstart hlast
    · intro ev hev
      exact ⟨(hnew ev hev).2.1, fun l hl => by simp [(hnew ev hev).2.2] at hl⟩
  induction cmds generalizing s with
  | nil => simpa [Machine.Always] using hdone
  | cons c cmds ih =>
    cases c with
    | stop =>
      have hsame : commandStep sys s .stop = .ok ⟨s.el, s.log, some .stop⟩ := by
        simp only [commandStep, evlistStop_new hnew]
      have hdone' : Session.Done threads ⟨s.el, s.log, some .stop⟩ := fun ev hev =>
        ⟨(hnew ev hev).2.1, fun l hl => by simp [(hnew ev hev).2.2] at hl⟩
      have ih' := ih (s := ⟨s.el, s.log, some .stop⟩) hmap hne (by simp) hnew hdone'
      simp [Machine.Always, hsame, hdone, ih']
    | start =>
      have hkeep := evlistStart_threads sys s.el s.log
      have hon := evlistStart_new hsys hmap hnew s.log
      have hne' : (evlistStart sys s.el s.log).2.1.entries ≠ [] := by
        rw [← List.length_pos_iff, hkeep.2, List.length_pos_iff]
        exact hne
      have hrest : Machine.Always (commandStep sys) (Session.Done threads)
          ⟨(evlistStart sys s.el s.log).2.1, (evlistStart sys s.el s.log).2.2, some .start⟩ cmds ↔ .stop ∉ cmds :=
        always_started (hkeep.1.trans hmap) hne' rfl hon cmds
      have hall : (∀ d ∈ cmds, d = Command.start) ↔ .stop ∉ cmds := by
        constructor
        · intro h hmem
          cases h _ hmem
        · intro h d hd
          cases d with
          | start => rfl
          | stop => exact absurd hd h
      have hpair : cmds.Pairwise (fun c d => c = .start → d = .start) ∨ .stop ∈ cmds := by
        by_cases hstop : Command.stop ∈ cmds
        · exact .inr hstop
        · exact .inl (List.pairwise_of_forall_mem_list fun _ _ d hd _ => hall.2 hstop d hd)
      simp only [Machine.Always, commandStep, Except.ok.injEq, forall_eq', hrest, hdone, true_and,
        List.pairwise_cons, forall_const, hall]
      tauto

end Commands

/-- In a sequence of calls that all succeed, each `prof_evlist__start` and `prof_evlist__stop` does its work exactly
if no stop comes after a start, or if there are no events at all. -/
theorem evlist_commands_iff {sys : Sys} (hsys : sys.Grants) (threads : ThreadMap) {entries : List Evsel}
    (hnew : ∀ ev ∈ entries, ev.New) (log : List Syscall) (cmds : List Command) :
    Machine.Always (commandStep sys) (Session.Done threads) ⟨⟨entries, some threads⟩, log, none⟩ cmds ↔
      entries = [] ∨ cmds.Pairwise fun c d => c = .start → d = .start := by
  by_cases hempty : entries = []
  · simp only [hempty, true_or, iff_true]
    exact always_empty rfl rfl cmds
  · simp only [hempty, false_or]
    exact always_new hsys rfl hempty (by simp) hnew cmds

private theorem goodSys_grants : goodSys.Grants := fun n => ⟨Int.natCast_nonneg n, rfl, rfl⟩

theorem evlist_commands_iff_starts :
    (evselNew [] ⟨0, 0, false, false⟩ 0).New ∧
      Machine.Always (commandStep goodSys) (Session.Done ⟨[100, 101]⟩)
        ⟨⟨[evselNew [] ⟨0, 0, false, false⟩ 0], some ⟨[100, 101]⟩⟩, [], none⟩ [.stop, .start, .start] :=
  ⟨⟨rfl, rfl, rfl⟩, (evlist_commands_iff goodSys_grants ⟨[100, 101]⟩ (by simp [Evsel.New, evselNew]) [] _).2
    (.inr (by decide))⟩

/-- After a start and a stop the flag is still set, and the next start leaves the event disabled. -/
theorem stopped_list_stays_disabled :
    ∃ s, Machine.run (commandStep goodSys) ⟨⟨[evselNew [] ⟨0, 0, false, false⟩ 0], some ⟨[100]⟩⟩, [], none⟩
        [.start, .stop] = .ok s ∧ ¬ s.Done ⟨[100]⟩ ∧
      ∃ s', commandStep goodSys s .start = .ok s' ∧ (∀ ev ∈ s'.el.entries, ev.isEnable = true) ∧
        (fdState 0 s'.log).enabled = false := by
  refine ⟨_, rfl, fun h => ?_, _, rfl, by decide, by decide⟩
  have hoff := (h _ (List.mem_singleton_self _)).1
  revert hoff
  decide

end StubProfile.Profile
