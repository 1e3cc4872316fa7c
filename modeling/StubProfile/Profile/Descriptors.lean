import Mathlib.Algebra.Group.Prod
import Mathlib.Algebra.Order.Group.Multiset
import StubProfile.Lib.Resources
import StubProfile.Profile.Lifecycle
import StubProfile.Profile.StartStop

/-!
# The descriptors of the events

The calls of `libprofile` against a kernel that keeps account: which descriptors are open, and which of them have their
control page mapped.  A call on a descriptor that is not open, or an `munmap` of a page that is not mapped, is a fault of
the kernel.

Whatever the kernel answers and in whatever order the threads call the library, it never comes to such a fault, and when
the event list is gone no descriptor is open (`kernel_run`).  The same holds for the event list on its own, started and
stopped any number of times (`kernel_commands`).  Only pages are left behind, when an `mmap` has failed.
-/

namespace StubProfile.Profile

open Machine Resources

/-! ### The kernel -/

inductive KernelFault where
  | badFd (fd : Int)
  | badPage (fd : Int)
deriving DecidableEq, Repr

/-- The open descriptors, and the descriptors of the mapped pages. -/
abbrev Kernel := Multiset Int × Multiset Int

def kernelStep (k : Kernel) : Syscall → Except KernelFault Kernel
  | .perfEventOpen _ _ fd => .ok (if fd < 0 then k else (fd ::ₘ k.1, k.2))
  | .close fd => if fd ∈ k.1 then .ok (k.1.erase fd, k.2) else .error (.badFd fd)
  | .enable fd => if fd ∈ k.1 then .ok k else .error (.badFd fd)
  | .disable fd => if fd ∈ k.1 then .ok k else .error (.badFd fd)
  | .mmap fd ok => if fd ∈ k.1 then .ok (if ok then (k.1, fd ::ₘ k.2) else k) else .error (.badFd fd)
  | .munmap fd => if fd ∈ k.2 then .ok (k.1, k.2.erase fd) else .error (.badPage fd)

variable {fd pid : Int} {attr : Attr}

private theorem turns_open (h : 0 ≤ fd) : Turns kernelStep [.perfEventOpen attr pid fd] 0 ({fd}, 0) := by
  intro r
  have hfd : ¬ fd < 0 := by omega
  simp [run, kernelStep, hfd, Prod.ext_iff]

private theorem turns_open_failed (h : fd < 0) : Turns kernelStep [.perfEventOpen attr pid fd] 0 0 := by
  intro r
  simp [run, kernelStep, h]

private theorem turns_close (fd : Int) (p : Multiset Int) : Turns kernelStep [.close fd] ({fd}, p) (0, p) := by
  intro r
  simp [run, kernelStep, Prod.ext_iff]

private theorem turns_enable (fd : Int) (p : Multiset Int) : Turns kernelStep [.enable fd] ({fd}, p) ({fd}, p) := by
  intro r
  simp [run, kernelStep]

private theorem turns_disable (fd : Int) (p : Multiset Int) : Turns kernelStep [.disable fd] ({fd}, p) ({fd}, p) := by
  intro r
  simp [run, kernelStep]

private theorem turns_mmap (fd : Int) (p : Multiset Int) :
    Turns kernelStep [.mmap fd true] ({fd}, p) ({fd}, {fd} + p) := by
  intro r
  simp [run, kernelStep, Prod.ext_iff]

private theorem turns_mmap_failed (fd : Int) (p : Multiset Int) :
    Turns kernelStep [.mmap fd false] ({fd}, p) ({fd}, p) := by
  intro r
  simp [run, kernelStep]

private theorem turns_munmap (fd : Int) (q : Multiset Int) : Turns kernelStep [.munmap fd] (q, {fd}) (q, 0) := by
  intro r
  simp [run, kernelStep, Prod.ext_iff]

private theorem turns_replicate_disable (fd : Int) (n : Nat) (p : Multiset Int) :
    Turns kernelStep (List.replicate n (.disable fd)) ({fd}, p) ({fd}, p) := by
  induction n with
  | zero => exact Turns.nil _
  | succ n ih => exact (turns_disable fd p).append ih

/-! ### What an event holds -/

def ThreadData.page (data : ThreadData) : Multiset Int := if data.mmPage then {data.fd} else 0

def ThreadData.holds (data : ThreadData) : Kernel := if data.fd < 0 then 0 else ({data.fd}, data.page)

def holdsThreads (l : List ThreadData) : Kernel := (l.map ThreadData.holds).sum

/-- The descriptors and pages of the event. -/
def Evsel.holds (ev : Evsel) : Kernel := if ev.isOpen then holdsThreads (ev.perThread.getD []) else 0

def holdsAll (evs : List Evsel) : Kernel := (evs.map Evsel.holds).sum

@[simp] theorem holdsAll_nil : holdsAll [] = 0 := rfl

/-- An event that is open and not enabled has no page. -/
def Evsel.Clean (ev : Evsel) : Prop :=
  ev.isOpen = true → ev.isEnable = false → ∀ data ∈ ev.perThread.getD [], data.mmPage = false

/-! ### Opening -/

private theorem openFd_turns (sys : Sys) (attr : Attr) (pid : Int) (retries : Nat) (log : List Syscall) :
    ∃ new, (openFd sys attr pid retries log).2 = log ++ new ∧
      Turns kernelStep new 0 (ThreadData.holds ⟨(openFd sys attr pid retries log).1, 0, false⟩) := by
  have hlast : ∀ fd, Turns kernelStep [.perfEventOpen attr pid fd] 0 (ThreadData.holds ⟨fd, 0, false⟩) := by
    intro fd
    by_cases hfd : fd < 0
    · simpa [ThreadData.holds, hfd] using turns_open_failed hfd
    · simpa [ThreadData.holds, ThreadData.page, hfd] using turns_open (by omega)
  induction retries generalizing log with
  | zero => exact ⟨_, rfl, hlast _⟩
  | succ retries ih =>
    unfold openFd
    simp only
    split
    · next hretry =>
      obtain ⟨new, hnew, hturns⟩ := ih (log ++ [.perfEventOpen attr pid (sys.perfEventOpen log.length)])
      have hfd : sys.perfEventOpen log.length < 0 := by
        rw [hretry.1]
        decide
      exact ⟨_, by rw [hnew, List.append_assoc], (turns_open_failed hfd).append hturns⟩
    · exact ⟨_, rfl, hlast _⟩

private theorem closeOpened_turns {opened : List ThreadData} (hpage : ∀ data ∈ opened, data.mmPage = false)
    (log : List Syscall) :
    ∃ new, closeOpened opened log = log ++ new ∧ Turns kernelStep new (holdsThreads opened) 0 := by
  refine ⟨_, rfl, ?_⟩
  have hone : ∀ data ∈ opened.reverse, Turns kernelStep
      (if data.fd < 0 then [] else [.disable data.fd, .close data.fd]) data.holds 0 := by
    intro data hdata
    have hp : data.page = 0 := by simp [ThreadData.page, hpage data (List.mem_reverse.1 hdata)]
    by_cases hfd : data.fd < 0
    · simpa [ThreadData.holds, hfd] using Turns.nil (0 : Kernel)
    · rw [if_neg hfd, ThreadData.holds, if_neg hfd, hp]
      exact (turns_disable data.fd 0).append (turns_close data.fd 0)
  have hall := turns_flatMap opened.reverse hone
  simpa [holdsThreads, List.sum_reverse] using hall

private theorem openThreads_turns (sys : Sys) (attr : Attr) (pids : List Int) (opened : List ThreadData)
    (hpage : ∀ data ∈ opened, data.mmPage = false) (log : List Syscall) :
    ∃ new, (openThreads sys attr pids opened log).2 = log ++ new ∧
      match (openThreads sys attr pids opened log).1 with
      | .ok l => (∀ data ∈ l, data.mmPage = false) ∧ Turns kernelStep new (holdsThreads opened) (holdsThreads l)
      | .error _ => Turns kernelStep new (holdsThreads opened) 0 := by
  induction pids generalizing opened log with
  | nil => exact ⟨[], by simp [openThreads], hpage, Turns.nil _⟩
  | cons pid pids ih =>
    obtain ⟨new, hnew, hturns⟩ := openFd_turns sys attr pid 2 log
    have hframe := hturns.frame (holdsThreads opened)
    rw [zero_add] at hframe
    unfold openThreads
    simp only
    split
    · next hfd =>
      obtain ⟨new', hnew', hturns'⟩ := closeOpened_turns hpage (openFd sys attr pid 2 log).2
      refine ⟨new ++ new', by rw [hnew', hnew, List.append_assoc], ?_⟩
      simp only [ThreadData.holds, hfd, if_true, zero_add] at hframe
      exact hframe.append hturns'
    · have hpage' : ∀ data ∈ opened ++ [⟨(openFd sys attr pid 2 log).1, 0, false⟩], data.mmPage = false := by
        intro data hdata
        rcases List.mem_append.1 hdata with hdata | hdata
        · exact hpage data hdata
        · rw [List.mem_singleton.1 hdata]
      obtain ⟨new', hnew', hresult⟩ := ih _ hpage' (openFd sys attr pid 2 log).2
      have hholds : holdsThreads (opened ++ [⟨(openFd sys attr pid 2 log).1, 0, false⟩]) =
          ThreadData.holds ⟨(openFd sys attr pid 2 log).1, 0, false⟩ + holdsThreads opened := by
        simp [holdsThreads, add_comm]
      refine ⟨new ++ new', by rw [hnew', hnew, List.append_assoc], ?_⟩
      rw [hholds] at hresult
      cases hr : (openThreads sys attr pids (opened ++ [⟨(openFd sys attr pid 2 log).1, 0, false⟩])
        (openFd sys attr pid 2 log).2).1 with
      | ok l =>
        simp only [hr] at hresult
        exact ⟨hresult.1, hframe.append hresult.2⟩
      | error e =>
        simp only [hr] at hresult
        exact hframe.append hresult

/-! ### One event -/

/-- The calls between the two logs turn what the first events hold into what the second ones hold, except that pages may
be left behind: not if they were clean and no `mmap` fails (`granted`), and then they stay clean. -/
def Accounts (granted : Prop) (evs evs' : List Evsel) (log log' : List Syscall) : Prop :=
  ∃ new left, log' = log ++ new ∧ Turns kernelStep new (holdsAll evs) (holdsAll evs' + (0, left)) ∧
    (granted → (∀ ev ∈ evs, ev.Clean) → left = 0 ∧ ∀ ev ∈ evs', ev.Clean)

variable {granted : Prop} {evs evs₁ evs₂ : List Evsel} {ev ev' : Evsel} {log log₁ log₂ : List Syscall} {sys : Sys}

private theorem turns_left_nothing {new : List Syscall} {a b : Kernel} (h : Turns kernelStep new a b) :
    Turns kernelStep new a (b + ((0, 0) : Kernel)) := by
  rw [show ((0, 0) : Kernel) = 0 from rfl, add_zero]
  exact h

private theorem Accounts.refl (evs : List Evsel) (log : List Syscall) : Accounts granted evs evs log log :=
  ⟨[], 0, by simp, turns_left_nothing (Turns.nil _), fun _ hclean => ⟨rfl, hclean⟩⟩

private theorem Accounts.trans (h : Accounts granted evs evs₁ log log₁) (h' : Accounts granted evs₁ evs₂ log₁ log₂) :
    Accounts granted evs evs₂ log log₂ := by
  obtain ⟨new, left, rfl, hturns, hclean⟩ := h
  obtain ⟨new', left', rfl, hturns', hclean'⟩ := h'
  refine ⟨new ++ new', left + left', List.append_assoc _ _ _, ?_, fun hg hc => ?_⟩
  · have hsum : holdsAll evs₂ + (0, left') + (0, left) = holdsAll evs₂ + ((0, left + left') : Kernel) := by
      simp only [Prod.ext_iff, Prod.fst_add, Prod.snd_add, add_zero, true_and]
      abel
    rw [← hsum]
    exact hturns.append (hturns'.frame (0, left))
  · obtain ⟨rfl, hc₁⟩ := hclean hg hc
    obtain ⟨rfl, hc₂⟩ := hclean' hg hc₁
    exact ⟨rfl, hc₂⟩

/-- The events one after the other. -/
private theorem Accounts.cons (h : Accounts granted [ev] [ev'] log log₁) (h' : Accounts granted evs evs₁ log₁ log₂) :
    Accounts granted (ev :: evs) (ev' :: evs₁) log log₂ := by
  obtain ⟨new, left, rfl, hturns, hclean⟩ := h
  obtain ⟨new', left', rfl, hturns', hclean'⟩ := h'
  refine ⟨new ++ new', left + left', List.append_assoc _ _ _, ?_, fun hg hc => ?_⟩
  · have hcons : ∀ (ev : Evsel) evs, holdsAll (ev :: evs) = holdsAll [ev] + holdsAll evs := by simp [holdsAll]
    have hmid : holdsAll [ev'] + (0, left) + holdsAll evs = holdsAll evs + (holdsAll [ev'] + ((0, left) : Kernel)) :=
      add_comm _ _
    have hsum : holdsAll evs₁ + (0, left') + (holdsAll [ev'] + (0, left)) =
        holdsAll [ev'] + holdsAll evs₁ + ((0, left + left') : Kernel) := by
      have hleft : ((0, left + left') : Kernel) = (0, left) + (0, left') := by simp
      rw [hleft]
      abel
    have hfirst := hturns.frame (holdsAll evs)
    rw [hmid] at hfirst
    rw [hcons ev, hcons ev', ← hsum]
    exact hfirst.append (hturns'.frame _)
  · obtain ⟨rfl, hc₁⟩ := hclean hg fun e he => hc e (by simp [List.mem_singleton.1 he])
    obtain ⟨rfl, hc₂⟩ := hclean' hg fun e he => hc e (by simp [he])
    refine ⟨rfl, fun e he => ?_⟩
    rcases List.mem_cons.1 he with rfl | he
    · exact hc₁ e (by simp)
    · exact hc₂ e he

private theorem forEach_accounts {P : Evsel → Prop} {f : Evsel → List Syscall → Evsel × List Syscall}
    (hf : ∀ ev log, P ev → Accounts granted [ev] [(f ev log).1] log (f ev log).2) (h : ∀ ev ∈ evs, P ev)
    (log : List Syscall) : Accounts granted evs (forEach f evs log).1 log (forEach f evs log).2 := by
  induction evs generalizing log with
  | nil => exact Accounts.refl [] log
  | cons ev evs ih => exact (hf ev log (h ev (by simp))).cons (ih (fun e he => h e (by simp [he])) _)

private theorem accounts_single {new : List Syscall} (left : Multiset Int) (hlog : log₁ = log ++ new)
    (hturns : Turns kernelStep new ev.holds (ev'.holds + (0, left)))
    (hclean : granted → ev.Clean → left = 0 ∧ ev'.Clean) : Accounts granted [ev] [ev'] log log₁ := by
  refine ⟨new, left, hlog, by simpa [holdsAll] using hturns, fun hg hc => ?_⟩
  obtain ⟨hleft, hc'⟩ := hclean hg (hc ev (by simp))
  exact ⟨hleft, by simpa using hc'⟩

private theorem holds_of_closed (h : ev.isOpen = false) : ev.holds = 0 := by simp [Evsel.holds, h]

private theorem clean_of_closed (h : ev.isOpen = false) : ev.Clean := fun hopen => by simp [h] at hopen

private theorem evselOpen_accounts (threads : ThreadMap) (hopen : ev.isOpen = false) (log : List Syscall) :
    Accounts granted [ev] [(evselOpen sys threads ev log).2.1] log (evselOpen sys threads ev log).2.2 := by
  unfold evselOpen
  split
  · have hclosed : Evsel.holds { ev with threads := some threads, perThread := none } = 0 := holds_of_closed hopen
    refine accounts_single 0 (List.append_nil log).symm ?_ fun _ _ => ⟨rfl, clean_of_closed hopen⟩
    rw [holds_of_closed hopen, hclosed]
    exact turns_left_nothing (Turns.nil 0)
  · obtain ⟨new, hlog, hresult⟩ := openThreads_turns sys ev.attr threads.pids [] (by simp) log
    cases hr : openThreads sys ev.attr threads.pids [] log with
    | mk r log₁ =>
      simp only [hr] at hlog hresult
      cases r with
      | ok l =>
        refine accounts_single 0 hlog ?_ fun _ _ => ⟨rfl, fun _ _ => hresult.1⟩
        rw [holds_of_closed hopen]
        exact turns_left_nothing hresult.2
      | error e =>
        refine accounts_single 0 hlog ?_ fun _ _ => ⟨rfl, clean_of_closed rfl⟩
        rw [holds_of_closed hopen]
        exact turns_left_nothing hresult

/-! ### Enabling -/

private theorem enable_turns {data data' : ThreadData} (hfd : ¬ data.fd < 0) (hfd' : data'.fd = data.fd)
    (hpage : data'.mmPage = true) :
    Turns kernelStep [.enable data.fd, .mmap data.fd true] data.holds (data'.holds + (0, data.page)) := by
  have hholds : data'.holds + ((0, data.page) : Kernel) = ({data.fd}, {data.fd} + data.page) := by
    simp [ThreadData.holds, ThreadData.page, hfd, hfd', hpage]
  rw [hholds, ThreadData.holds, if_neg hfd]
  exact (turns_enable data.fd data.page).append (turns_mmap data.fd data.page)

private theorem enable_failed_turns {data : ThreadData} (hfd : ¬ data.fd < 0) (n : Nat) :
    Turns kernelStep (.enable data.fd :: .mmap data.fd false :: List.replicate n (.disable data.fd)) data.holds
      (ThreadData.holds { data with mmPage := false } + (0, data.page)) := by
  have hholds : ThreadData.holds { data with mmPage := false } + ((0, data.page) : Kernel) = ({data.fd}, data.page) := by
    simp [ThreadData.holds, ThreadData.page, hfd]
  rw [hholds, ThreadData.holds, if_neg hfd]
  exact (turns_enable data.fd data.page).append
    ((turns_mmap_failed data.fd data.page).append (turns_replicate_disable data.fd n data.page))

private theorem enableLoop_turns (sys : Sys) (done l : List ThreadData) (log : List Syscall) :
    ∃ l' new left, (enableLoop sys done l log).2.1 = done ++ l' ∧ (enableLoop sys done l log).2.2 = log ++ new ∧
      Turns kernelStep new (holdsThreads l) (holdsThreads l' + (0, left)) ∧
      ((∀ n, sys.mmap n = true) →
        (enableLoop sys done l log).1 = true ∧ ((∀ data ∈ l, data.mmPage = false) → left = 0)) := by
  induction l generalizing done log with
  | nil =>
    exact ⟨[], [], 0, by simp [enableLoop], by simp [enableLoop], turns_left_nothing (Turns.nil _), by simp [enableLoop]⟩
  | cons data rest ih =>
    have hcons : ∀ (d : ThreadData) l, holdsThreads (d :: l) = d.holds + holdsThreads l := by simp [holdsThreads]
    unfold enableLoop
    split
    · next hfd =>
      obtain ⟨l', new, left, hl', hlog, hturns, hgranted⟩ := ih (done ++ [data]) log
      have hzero : data.holds = 0 := by simp [ThreadData.holds, hfd]
      refine ⟨data :: l', new, left, by simp [hl'], hlog, ?_, fun hg => ⟨(hgranted hg).1, fun hp => ?_⟩⟩
      · rw [hcons, hcons, hzero, zero_add, zero_add]
        exact hturns
      · exact (hgranted hg).2 fun d hd => hp d (by simp [hd])
    · next hfd =>
      simp only
      split
      · -- the page is mapped; one that was mapped before is lost
        generalize hdata : ThreadData.mk data.fd (sys.pageIndex (log ++ [Syscall.enable data.fd]).length) true = data'
        have hturns₁ : Turns kernelStep [.enable data.fd, .mmap data.fd true] data.holds (data'.holds + (0, data.page)) :=
          enable_turns hfd (by rw [← hdata]) (by rw [← hdata])
        obtain ⟨l', new, left, hl', hlog, hturns, hgranted⟩ := ih (done ++ [data'])
          (log ++ [.enable data.fd] ++ [.mmap data.fd true])
        refine ⟨data' :: l', [.enable data.fd, .mmap data.fd true] ++ new, data.page + left,
          by rw [hl', List.append_assoc, List.singleton_append], by rw [hlog]; simp, ?_,
          fun hg => ⟨(hgranted hg).1, fun hp => ?_⟩⟩
        · have hmid : data'.holds + (0, data.page) + holdsThreads rest =
              holdsThreads rest + (data'.holds + ((0, data.page) : Kernel)) := add_comm _ _
          have hsum : holdsThreads l' + (0, left) + (data'.holds + (0, data.page)) =
              data'.holds + holdsThreads l' + ((0, data.page + left) : Kernel) := by
            have hpages : ((0, data.page + left) : Kernel) = (0, data.page) + (0, left) := by simp
            rw [hpages]
            abel
          have hfirst := hturns₁.frame (holdsThreads rest)
          rw [hmid] at hfirst
          rw [hcons, hcons, ← hsum]
          exact hfirst.append (hturns.frame _)
        · simp [ThreadData.page, hp data (by simp), (hgranted hg).2 fun d hd => hp d (by simp [hd])]
      · next hmmap =>
        refine ⟨{ data with mmPage := false } :: rest, _, data.page, rfl, List.append_assoc _ _ _, ?_,
          fun hg => absurd (hg _) hmmap⟩
        have hfailed := (enable_failed_turns hfd (done.length + 1)).frame (holdsThreads rest)
        rw [hcons, hcons]
        rw [add_right_comm] at hfailed
        exact hfailed

private theorem evselEnable_accounts (sys : Sys) (ev : Evsel) (log : List Syscall) :
    Accounts (∀ n, sys.mmap n = true) [ev] [(evselEnable sys ev log).2.1] log (evselEnable sys ev log).2.2 := by
  unfold evselEnable
  split
  · exact Accounts.refl _ _
  · next hopen =>
    split
    · exact Accounts.refl _ _
    · next hen =>
      simp only [Bool.not_eq_true', Bool.not_eq_false] at hopen
      obtain ⟨l', new, left, hl', hlog, hturns, hgranted⟩ := enableLoop_turns sys [] (ev.perThread.getD []) log
      rw [List.nil_append] at hl'
      have hholds : ∀ b, Evsel.holds { ev with perThread := some l', isEnable := b } = holdsThreads l' := by
        simp [Evsel.holds, hopen]
      have hholds₀ : ev.holds = holdsThreads (ev.perThread.getD []) := by simp [Evsel.holds, hopen]
      simp only
      split
      · refine accounts_single left hlog ?_ fun hg hc =>
          ⟨(hgranted hg).2 (hc hopen (by simpa using hen)), fun _ hoff => ?_⟩
        · rw [hl', hholds, hholds₀]
          exact hturns
        · cases hoff
      · next hfail =>
        refine accounts_single left hlog ?_ fun hg hc => absurd (hgranted hg).1 hfail
        rw [hl', show Evsel.holds { ev with perThread := some l' } = holdsThreads l' from hholds ev.isEnable, hholds₀]
        exact hturns

/-! ### Disabling and closing -/

/-- An enabled event is open, as long as it is not deleted. -/
def Evsel.Enabled (ev : Evsel) : Prop := ev.isEnable = true → ev.isOpen = true

private theorem disable_turns (data : ThreadData) :
    Turns kernelStep
      (if data.fd < 0 then [] else (if data.mmPage then [.munmap data.fd] else []) ++ [.disable data.fd]) data.holds
      (ThreadData.holds (if data.fd < 0 then data else { data with mmPage := false })) := by
  by_cases hfd : data.fd < 0
  · simp only [hfd, if_true]
    exact Turns.nil _
  · simp only [hfd, if_false, ThreadData.holds, ThreadData.page, Bool.false_eq_true]
    refine Turns.append ?_ (turns_disable data.fd 0)
    cases data.mmPage with
    | true => exact turns_munmap data.fd {data.fd}
    | false => exact Turns.nil _

private theorem evselDisable_turns {l : List ThreadData} (hopen : ev.isOpen = true) (hen : ev.isEnable = true)
    (hl : ev.perThread.getD [] = l) (log : List Syscall) :
    ∃ new, (evselDisable ev log).2 = log ++ new ∧ Turns kernelStep new ev.holds (evselDisable ev log).1.holds ∧
      (evselDisable ev log).1.perThread.getD [] = disableThreads l ∧ (evselDisable ev log).1.isOpen = true := by
  unfold evselDisable
  simp only [hen, Bool.not_true, Bool.false_eq_true, if_false]
  have hthreads : (ev.perThread.map disableThreads).getD [] = disableThreads l := by
    rw [← hl]
    cases ev.perThread <;> rfl
  refine ⟨_, rfl, ?_, hthreads, hopen⟩
  have hall := turns_flatMap l fun data _ => disable_turns data
  rw [hl, Evsel.holds, if_pos hopen, hl, Evsel.holds, if_pos hopen, hthreads]
  simpa [holdsThreads, disableThreads, Function.comp_def] using hall

private theorem evselDisable_accounts (hen : ev.Enabled) (log : List Syscall) :
    Accounts granted [ev] [(evselDisable ev log).1] log (evselDisable ev log).2 := by
  by_cases hon : ev.isEnable = true
  · obtain ⟨new, hlog, hturns, -, -⟩ := evselDisable_turns (hen hon) hon rfl log
    refine accounts_single 0 hlog (turns_left_nothing hturns) fun _ _ => ⟨rfl, fun _ hoff => ?_⟩
    simp [evselDisable, hon] at hoff
  · rw [evselDisable, if_pos (by simpa using hon)]
    exact Accounts.refl _ _

private theorem close_turns (data : ThreadData) :
    Turns kernelStep (if data.fd < 0 then [] else [.close data.fd]) data.holds (0, data.holds.2) := by
  by_cases hfd : data.fd < 0
  · simp only [hfd, if_true, ThreadData.holds]
    exact Turns.nil _
  · simp only [hfd, if_false, ThreadData.holds]
    exact turns_close data.fd data.page

/-- The descriptors are closed, and the pages that are still mapped are left. -/
private theorem turns_closeThreads (l : List ThreadData) :
    Turns kernelStep (l.flatMap fun data => if data.fd < 0 then [] else [.close data.fd]) (holdsThreads l)
      (0, (holdsThreads l).2) := by
  have hsum : (l.map fun data => ((0, data.holds.2) : Kernel)).sum = (0, (holdsThreads l).2) := by
    unfold holdsThreads
    induction l with
    | nil => rfl
    | cons data l ih => simp [ih]
  rw [← hsum]
  exact turns_flatMap l fun data _ => close_turns data

private theorem holdsThreads_snd {l : List ThreadData} (h : ∀ data ∈ l, ¬ data.fd < 0 → data.mmPage = false) :
    (holdsThreads l).2 = 0 := by
  unfold holdsThreads
  induction l with
  | nil => rfl
  | cons data l ih =>
    have hzero : data.holds.2 = 0 := by
      by_cases hfd : data.fd < 0
      · simp [ThreadData.holds, hfd]
      · simp [ThreadData.holds, ThreadData.page, hfd, h data (by simp) hfd]
    simp [hzero, ih fun d hd => h d (by simp [hd])]

private theorem evselClose_isOpen (ev : Evsel) (log : List Syscall) : (evselClose ev log).1.isOpen = false := by
  unfold evselClose
  split
  · next hopen => simpa using hopen
  · rfl

private theorem evselClose_accounts (ev : Evsel) (log : List Syscall) :
    Accounts granted [ev] [(evselClose ev log).1] log (evselClose ev log).2 := by
  by_cases hopen : ev.isOpen = true
  · have hclosed := evselClose_isOpen ev log
    have hlog : (evselClose ev log).2 = (evselDisable ev log).2 ++
        ((evselDisable ev log).1.perThread.getD []).flatMap fun data => if data.fd < 0 then [] else [.close data.fd] := by
      simp [evselClose, hopen]
    by_cases hon : ev.isEnable = true
    · obtain ⟨new, hnew, hturns, hthreads, hopen'⟩ := evselDisable_turns hopen hon rfl log
      have hoff : ∀ data ∈ disableThreads (ev.perThread.getD []), ¬ data.fd < 0 → data.mmPage = false := by
        intro data hdata hfd
        obtain ⟨d, -, rfl⟩ := List.mem_map.1 hdata
        by_cases hd : d.fd < 0
        · simp [hd] at hfd
        · simp [hd]
      have hholds : (evselDisable ev log).1.holds = holdsThreads (disableThreads (ev.perThread.getD [])) := by
        rw [Evsel.holds, if_pos hopen', hthreads]
      rw [hholds] at hturns
      have hclose := turns_closeThreads (disableThreads (ev.perThread.getD []))
      rw [holdsThreads_snd hoff] at hclose
      refine accounts_single 0 (by rw [hlog, hnew, hthreads, List.append_assoc]) ?_ fun _ _ =>
        ⟨rfl, clean_of_closed hclosed⟩
      rw [holds_of_closed hclosed]
      exact turns_left_nothing (hturns.append hclose)
    · have hsame : evselDisable ev log = (ev, log) := by simp [evselDisable, hon]
      refine accounts_single (holdsThreads (ev.perThread.getD [])).2 (by rw [hlog, hsame]) ?_ fun _ hc =>
        ⟨holdsThreads_snd fun data hdata _ => hc hopen (by simpa using hon) data hdata, clean_of_closed hclosed⟩
      rw [holds_of_closed hclosed, zero_add, Evsel.holds, if_pos hopen]
      exact turns_closeThreads (ev.perThread.getD [])
  · rw [evselClose, if_pos (by simpa using hopen)]
    exact Accounts.refl _ _

/-! ### Event lists -/

private theorem evselOpen_enabled {threads : ThreadMap} (hen : ev.Enabled) (hclosed : ev.isOpen = false) :
    (evselOpen sys threads ev log).2.1.Enabled := by
  have hoff : ev.isEnable = false := by
    cases hon : ev.isEnable with
    | false => rfl
    | true => simp [hen hon] at hclosed
  unfold evselOpen
  split
  · simp [Evsel.Enabled, hoff]
  · split
    · simp [Evsel.Enabled]
    · simp [Evsel.Enabled, hoff]

private theorem evselEnable_enabled (hen : ev.Enabled) : (evselEnable sys ev log).2.1.Enabled := by
  unfold evselEnable
  split
  · exact hen
  · next hopen =>
    simp only [Bool.not_eq_true', Bool.not_eq_false] at hopen
    split
    · exact hen
    · simp only
      split
      · simp [Evsel.Enabled, hopen]
      · simp [Evsel.Enabled, hopen]

private theorem evselDisable_enabled (hen : ev.Enabled) : (evselDisable ev log).1.Enabled := by
  unfold evselDisable
  split
  · exact hen
  · next hon => exact fun _ => hen (by simpa using hon)

private theorem evlistStart_accounts (sys : Sys) (el : Evlist) (hen : ∀ ev ∈ el.entries, ev.Enabled)
    (log : List Syscall) :
    Accounts (∀ n, sys.mmap n = true) el.entries (evlistStart sys el log).2.1.entries log (evlistStart sys el log).2.2 ∧
      ∀ ev ∈ (evlistStart sys el log).2.1.entries, ev.Enabled := by
  unfold evlistStart
  cases el.threads with
  | none => exact ⟨Accounts.refl _ _, hen⟩
  | some threads =>
    have hopen : ∀ ev log, ev.Enabled →
        Accounts (∀ n, sys.mmap n = true) [ev] [(if ev.isOpen then (ev, log) else (evselOpen sys threads ev log).2).1] log
          (if ev.isOpen then (ev, log) else (evselOpen sys threads ev log).2).2 := by
      intro ev log hev
      split
      · exact Accounts.refl _ _
      · next hclosed => exact evselOpen_accounts threads (by simpa using hclosed) log
    have hopened : ∀ ev ∈ (forEach (fun ev log => if ev.isOpen then (ev, log) else (evselOpen sys threads ev log).2)
        el.entries log).1, ev.Enabled := by
      refine forEach_all (fun ev log hev => ?_) hen log
      split
      · exact hev
      · next hclosed => exact evselOpen_enabled hev (by simpa using hclosed)
    refine ⟨(forEach_accounts hopen hen log).trans ?_, ?_⟩
    · exact forEach_accounts (P := Evsel.Enabled) (fun ev log _ => evselEnable_accounts sys ev log) hopened _
    · exact forEach_all (P := Evsel.Enabled) (fun _ _ hev => evselEnable_enabled hev) hopened _

private theorem evlistStop_accounts {el : Evlist} (hen : ∀ ev ∈ el.entries, ev.Enabled) (log : List Syscall) :
    Accounts granted el.entries (evlistStop el log).1.entries log (evlistStop el log).2 ∧
      ∀ ev ∈ (evlistStop el log).1.entries, ev.Enabled :=
  ⟨forEach_accounts (fun _ log hev => evselDisable_accounts hev log) hen log,
    forEach_all (P := Evsel.Enabled) (fun _ _ hev => evselDisable_enabled hev) hen log⟩

private theorem holdsAll_reverse (evs : List Evsel) : holdsAll evs.reverse = holdsAll evs := by
  rw [holdsAll, List.map_reverse, List.sum_reverse, holdsAll]

/-- Everything is closed. -/
private theorem evlistDelete_accounts (el : Evlist) (log : List Syscall) :
    Accounts granted el.entries [] log (evlistDelete el log) := by
  have hall : Accounts granted el.entries.reverse (forEach evselClose el.entries.reverse log).1 log (evlistDelete el log) :=
    forEach_accounts (P := fun _ => True) (fun ev log _ => evselClose_accounts ev log) (by simp) log
  have hclosed : ∀ ev ∈ (forEach evselClose el.entries.reverse log).1, ev.isOpen = false :=
    forEach_all (P := fun _ => True) (fun ev log _ => evselClose_isOpen ev log) (by simp) log
  obtain ⟨new, left, hlog, hturns, hclean⟩ := hall
  have hnone : holdsAll (forEach evselClose el.entries.reverse log).1 = 0 := by
    refine List.sum_eq_zero fun k hk => ?_
    obtain ⟨ev, hev, rfl⟩ := List.mem_map.1 hk
    exact holds_of_closed (hclosed ev hev)
  refine ⟨new, left, hlog, ?_, fun hg hc => ⟨(hclean hg fun ev hev => hc ev (List.mem_reverse.1 hev)).1, by simp⟩⟩
  rw [holdsAll_reverse, hnone] at hturns
  exact hturns

private theorem accounts_new (h : ∀ ev ∈ evs, ev.isOpen = false) (log : List Syscall) :
    Accounts granted [] evs log log := by
  have hnone : holdsAll evs = 0 := by
    refine List.sum_eq_zero fun k hk => ?_
    obtain ⟨ev, hev, rfl⟩ := List.mem_map.1 hk
    exact holds_of_closed (h ev hev)
  refine ⟨[], 0, by simp, ?_, fun _ _ => ⟨rfl, fun ev hev => clean_of_closed (h ev hev)⟩⟩
  rw [hnone]
  exact turns_left_nothing (Turns.nil 0)

private theorem evlistOfParsed_new (parsed : List (List Char × Attr)) :
    ∀ ev ∈ (evlistOfParsed parsed).entries, ev.isOpen = false ∧ ev.isEnable = false := by
  intro ev hev
  obtain ⟨i, hi, rfl⟩ := List.mem_mapIdx.1 hev
  exact ⟨rfl, rfl⟩

/-! ### Runs of the commands -/

/-- A new list that is started and stopped any number of times and then deleted: the kernel meets no fault, all
descriptors are closed, and no page is left if no `mmap` fails. -/
theorem kernel_commands (sys : Sys) (parsed : List (List Char × Attr)) (threads : ThreadMap) (l : List Command)
    {s : Session} (h : run (commandStep sys) ⟨{ evlistOfParsed parsed with threads := some threads }, [], none⟩ l = .ok s) :
    ∃ left, run kernelStep 0 (evlistDelete s.el s.log) = .ok (0, left) ∧ ((∀ n, sys.mmap n = true) → left = 0) := by
  have hinv : Accounts (∀ n, sys.mmap n = true) [] s.el.entries [] s.log ∧ ∀ ev ∈ s.el.entries, ev.Enabled := by
    refine Reachable.induct (P := fun s => Accounts (∀ n, sys.mmap n = true) [] s.el.entries [] s.log ∧
      ∀ ev ∈ s.el.entries, ev.Enabled) ⟨l, h⟩ ?_ ?_
    · exact ⟨accounts_new (fun ev hev => (evlistOfParsed_new parsed ev hev).1) [],
        fun ev hev hon => by simp [(evlistOfParsed_new parsed ev hev).2] at hon⟩
    · intro s c s' hs hstep
      cases c with
      | start =>
        cases hstep
        obtain ⟨haccounts, hen⟩ := evlistStart_accounts sys s.el hs.2 s.log
        exact ⟨hs.1.trans haccounts, hen⟩
      | stop =>
        cases hstep
        obtain ⟨haccounts, hen⟩ := evlistStop_accounts hs.2 s.log
        exact ⟨hs.1.trans haccounts, hen⟩
  obtain ⟨new, left, hlog, hturns, hclean⟩ := hinv.1.trans (evlistDelete_accounts s.el s.log)
  refine ⟨left, ?_, fun hg => (hclean hg (by simp)).1⟩
  rw [holdsAll_nil, zero_add] at hturns
  rw [hlog, List.nil_append]
  exact hturns.run_eq

/-- Started again after a stop. -/
theorem kernel_commands_restarted :
    ∃ s, run (commandStep goodSys)
        ⟨{ evlistOfParsed [([], ⟨0, 0, false, false⟩)] with threads := some ⟨[100, 101]⟩ }, [], none⟩
        [.start, .stop, .start] = .ok s ∧ run kernelStep 0 (evlistDelete s.el s.log) = .ok (0, 0) := by
  refine ⟨_, rfl, ?_⟩
  obtain ⟨left, hrun, hleft⟩ := kernel_commands goodSys [([], ⟨0, 0, false, false⟩)] ⟨[100, 101]⟩ [.start, .stop, .start] rfl
  rw [hrun, hleft fun _ => rfl]

/-! ### Runs of the process -/

variable {τ : Type} [DecidableEq τ] {gettid : τ → Int} {σ σ' : Process τ} {env : InitEnv}

def Process.events (σ : Process τ) : List Evsel := (σ.evlist.map Evlist.entries).getD []

/-- The account of a process, from its beginning on. -/
structure Accounted (granted : Prop) (σ : Process τ) : Prop where
  accounts : Accounts granted [] σ.events [] σ.log
  enabled : ∀ ev ∈ σ.events, ev.Enabled

private theorem createEvlist_accounts (sys : Sys) (env : InitEnv) (log : List Syscall) :
    Accounts (∀ n, sys.mmap n = true) [] (((createEvlist sys env log).1.map Evlist.entries).getD []) log
        (createEvlist sys env log).2 ∧
      ∀ ev ∈ ((createEvlist sys env log).1.map Evlist.entries).getD [], ev.Enabled := by
  unfold createEvlist
  split
  · exact ⟨Accounts.refl _ _, by simp⟩
  · cases env.parsed with
    | none => exact ⟨evlistDelete_accounts ⟨[], none⟩ log, by simp⟩
    | some parsed =>
      have hnew : Accounts (∀ n, sys.mmap n = true) [] (evlistOfParsed parsed).entries log log :=
        accounts_new (fun ev hev => (evlistOfParsed_new parsed ev hev).1) log
      have hen : ∀ ev ∈ (evlistOfParsed parsed).entries, ev.Enabled :=
        fun ev hev hon => by simp [(evlistOfParsed_new parsed ev hev).2] at hon
      cases threadMapNew env.tasks env.mapOk with
      | none => exact ⟨hnew.trans (evlistDelete_accounts _ log), by simp⟩
      | some threads =>
        obtain ⟨hstart, hen'⟩ := evlistStart_accounts sys
          { evlistOfParsed parsed with threads := some threads } hen log
        simp only
        split
        · exact ⟨(hnew.trans hstart).trans (evlistDelete_accounts _ _), by simp⟩
        · exact ⟨hnew.trans hstart, hen'⟩

omit [DecidableEq τ] in
private theorem accounted_profInit (sys : Sys) (env : InitEnv) :
    Accounted (∀ n, sys.mmap n = true) (profInit sys env (Process.initial τ)).2 := by
  unfold profInit
  split
  · exact ⟨Accounts.refl _ _, by simp [Process.events, Process.initial]⟩
  · obtain ⟨haccounts, hen⟩ := createEvlist_accounts sys env []
    cases hc : createEvlist sys env (Process.initial τ).log with
    | mk el log =>
      rw [show createEvlist sys env [] = (el, log) from hc] at haccounts hen
      cases el with
      | none => exact ⟨haccounts, hen⟩
      | some el => exact ⟨haccounts, hen⟩

/-- Only `prof_exit` makes system calls on the events. -/
private theorem step_log {a : Call τ} (h : step gettid σ a = .ok σ') :
    (σ'.evlist = σ.evlist ∧ σ'.log = σ.log) ∨ ∃ t, σ' = profExit t σ := by
  cases a with
  | countEnter t k func e =>
    have hgate : ∀ σ : Process τ, (σ.gate t func).evlist = σ.evlist ∧ (σ.gate t func).log = σ.log := by
      intro σ
      unfold Process.gate
      split
      · exact ⟨rfl, rfl⟩
      · exact ⟨rfl, rfl⟩
    obtain ⟨-, rfl⟩ | ⟨-, -, rfl⟩ | ⟨-, -, -, ti, -, rfl⟩ := countEnter_cases h
    · exact .inl ⟨rfl, rfl⟩
    · exact .inl (hgate σ)
    · exact .inl (hgate (σ.setTInfo t ti))
  | countRead t pmc =>
    obtain ⟨-, rfl⟩ | ⟨func, el, buf, -, -, -, rfl⟩ := countRead_cases h
    · exact .inl ⟨rfl, rfl⟩
    · exact .inl ⟨rfl, rfl⟩
  | threadExit t =>
    cases h
    exact .inl ⟨rfl, rfl⟩
  | exit t =>
    cases h
    exact .inr ⟨t, rfl⟩

private theorem Accounted.step (h : Accounted granted σ) {a : Call τ} (hs : step gettid σ a = .ok σ') :
    Accounted granted σ' := by
  obtain ⟨hel, hlog⟩ | ⟨t, rfl⟩ := step_log hs
  · have hevents : σ'.events = σ.events := by rw [Process.events, Process.events, hel]
    exact ⟨by rw [hevents, hlog]; exact h.accounts, by rw [hevents]; exact h.enabled⟩
  · cases hel : σ.evlist with
    | none =>
      have hsame : (profExit t σ).evlist = σ.evlist ∧ (profExit t σ).log = σ.log := by
        simp [profExit, Process.setTInfo, hel]
      have hevents : (profExit t σ).events = σ.events := by rw [Process.events, Process.events, hsame.1]
      exact ⟨by rw [hevents, hsame.2]; exact h.accounts, by rw [hevents]; exact h.enabled⟩
    | some el =>
      have hgone : (profExit t σ).evlist = none ∧ (profExit t σ).log = evlistDelete el σ.log := by
        simp [profExit, Process.setTInfo, hel]
      have hevents : (profExit t σ).events = [] := by rw [Process.events, hgone.1]; rfl
      have hentries : σ.events = el.entries := by rw [Process.events, hel]; rfl
      refine ⟨?_, by simp [hevents]⟩
      rw [hevents, hgone.2]
      exact h.accounts.trans (hentries ▸ evlistDelete_accounts el σ.log)

/-- From `prof_init` on, whether it succeeds or not, and in every run of the threads: the kernel meets no fault, the open
descriptors are those of the event list, none is open when the list is gone, and then no page is mapped either if no
`mmap` fails. -/
theorem kernel_run (sys : Sys) (env : InitEnv) (gettid : τ → Int) (calls : List (Call τ))
    (h : run (step gettid) (profInit sys env (Process.initial τ)).2 calls = .ok σ) :
    ∃ k, run kernelStep 0 σ.log = .ok k ∧ k.1 = (holdsAll σ.events).1 ∧
      (σ.evlist = none → k.1 = 0 ∧ ((∀ n, sys.mmap n = true) → k.2 = 0)) := by
  have hinv : Accounted (∀ n, sys.mmap n = true) σ :=
    Reachable.induct ⟨calls, h⟩ (accounted_profInit sys env) fun _ _ _ hs hstep => hs.step hstep
  obtain ⟨new, left, hlog, hturns, hclean⟩ := hinv.accounts
  rw [List.nil_append] at hlog
  refine ⟨holdsAll σ.events + (0, left), by rw [hlog]; exact hturns.run_eq, by simp, fun hnone => ?_⟩
  have hevents : σ.events = [] := by rw [Process.events, hnone]; rfl
  refine ⟨by simp [hevents], fun hg => ?_⟩
  simp [hevents, (hclean hg (by simp)).1]

/-- The page of the second thread cannot be mapped: the descriptors are closed at the end, but the page of the first
thread is left. -/
theorem kernel_run_page_left :
    ∃ σ k, run (step fun _ : Unit => 100)
        (profInit { goodSys with mmap := fun n => n ≠ 5 } oneEvent (Process.initial Unit)).2 [.exit ()] = .ok σ ∧
      run kernelStep 0 σ.log = .ok k ∧ k.1 = 0 ∧ k.2 = {0} := by
  obtain ⟨k, hk, -, hnone⟩ := kernel_run { goodSys with mmap := fun n => n ≠ 5 } oneEvent (fun _ : Unit => 100) [.exit ()] rfl
  refine ⟨_, k, rfl, hk, (hnone rfl).1, ?_⟩
  cases hk
  rfl

end StubProfile.Profile
