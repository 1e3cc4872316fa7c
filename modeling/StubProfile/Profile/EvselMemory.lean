import StubProfile.Lib.Objects
import StubProfile.Profile.Evsel

/-!
# The events in memory

`struct prof_evsel` with its pointers: the name, the thread map and the array `per_thread` are objects of their own, and
the functions of `evsel.c` go through the array by the number of threads of a map.  To go beyond its end is a fault.

On an event whose array has an entry for each thread they do what the functions on values do, leave the objects of the
other events alone and lose no array (`Acted`).
-/

namespace StubProfile.Profile

open Objects LinkRing
open scoped List

/-- `struct prof_evsel`, without the links and the back pointer to the event list. -/
structure EvselCell where
  name : Option Nat
  attr : Attr
  idx : Nat
  threads : Option Nat
  perThread : Option Nat
  isOpen : Bool
  isEnable : Bool

/-- The objects that the events point to, and the system calls so far. -/
structure EvMem where
  strings : Store (List Char)
  maps : Store ThreadMap
  arrays : Store (List ThreadData)
  log : List Syscall

def threadMapNr (maps : Store ThreadMap) : Option Nat → Except LinkRing.Fault Nat
  | none => .ok 1
  | some a => do
    let map ← maps.load (some a)
    return map.pids.length

/-- A loop over the given entries of an array. -/
def EvMem.each (f : ThreadData → ThreadData × List Syscall) (p : Option Nat) (threads : List Nat) (m : EvMem) :
    Except LinkRing.Fault EvMem := do
  let r ← threads.foldlM (updateAt f p) (m.arrays, m.log)
  return { m with arrays := r.1, log := r.2 }

/-! ### Disabling and closing -/

/-- The body of the loop of `prof_evsel__disable`, and of the one at `out_failed` in `prof_evsel__enable`. -/
def disableTurn (data : ThreadData) : ThreadData × List Syscall :=
  if data.fd < 0 then (data, [])
  else ({ data with mmPage := false }, (if data.mmPage then [.munmap data.fd] else []) ++ [.disable data.fd])

def EvselCell.disable (ev : EvselCell) (nthreads : Nat) (m : EvMem) : Except LinkRing.Fault (EvselCell × EvMem) := do
  if !ev.isEnable then return (ev, m)
  else
    let m ← m.each disableTurn ev.perThread (List.range nthreads)
    return ({ ev with isEnable := true }, m)

def closeTurn (data : ThreadData) : ThreadData × List Syscall :=
  if data.fd < 0 then (data, []) else ({ data with fd := -1 }, [.close data.fd])

/-- The call in `prof_evsel__close`. -/
def EvselCell.disableEnabled (ev : EvselCell) (nthreads : Nat) (m : EvMem) :
    Except LinkRing.Fault (EvselCell × EvMem) :=
  if ev.isEnable then ev.disable nthreads m else .ok (ev, m)

def EvselCell.close (ev : EvselCell) (m : EvMem) : Except LinkRing.Fault (EvselCell × EvMem) := do
  if !ev.isOpen then return (ev, m)
  else
    let nthreads ← threadMapNr m.maps ev.threads
    let r ← ev.disableEnabled nthreads m
    let m ← r.2.each closeTurn r.1.perThread (List.range nthreads)
    return ({ r.1 with isOpen := false }, m)

/-- The call in `prof_evsel__delete`. -/
def EvselCell.closeOpen (ev : EvselCell) (m : EvMem) : Except LinkRing.Fault (EvselCell × EvMem) :=
  if ev.isOpen then ev.close m else .ok (ev, m)

/-- `prof_evsel__delete` up to the `free` of the event itself. -/
def EvselCell.delete (ev : EvselCell) (m : EvMem) : Except LinkRing.Fault EvMem := do
  let r ← ev.closeOpen m
  let strings ← r.2.strings.release r.1.name
  let arrays ← r.2.arrays.release r.1.perThread
  return { r.2 with strings := strings, arrays := arrays }

/-! ### Opening and enabling -/

/-- The body of the clean-up loop of `prof_evsel__open`. -/
def undoTurn (data : ThreadData) : ThreadData × List Syscall :=
  if data.fd < 0 then (data, []) else ({ data with fd := -1 }, [.disable data.fd, .close data.fd])

/-- The loop of `prof_evsel__open` from the entry `thread` on, with the clean-up if a descriptor cannot be opened. -/
def openFrom (sys : Sys) (attr : Attr) (p : Option Nat) :
    List Int → Nat → EvMem → Except LinkRing.Fault (Int × EvMem)
  | [], _, m => .ok (0, m)
  | pid :: pids, thread, m => do
    let r := openFd sys attr pid 2 m.log
    let info ← m.arrays.loadAt p thread
    let arrays ← m.arrays.storeAt p thread { info with fd := if r.1 < 0 then -1 else r.1 }
    if r.1 < 0 then
      let m ← EvMem.each undoTurn p (List.range thread).reverse { m with arrays := arrays, log := r.2 }
      let arrays ← m.arrays.release p
      return (r.1, { m with arrays := arrays })
    else openFrom sys attr p pids (thread + 1) { m with arrays := arrays, log := r.2 }

/-- `prof_evsel__open` with a thread map, as `prof_evlist__start` calls it. -/
def EvselCell.open (sys : Sys) (threads : Nat) (ev : EvselCell) (m : EvMem) :
    Except LinkRing.Fault (Int × EvselCell × EvMem) := do
  let map ← m.maps.load (some threads)
  if !sys.zalloc m.log.length then return (-enomem, { ev with threads := some threads, perThread := none }, m)
  else
    let p := m.arrays.next
    let arrays := m.arrays.alloc (List.replicate map.pids.length ⟨0, 0, false⟩)
    let r ← openFrom sys ev.attr (some p) map.pids 0 { m with arrays := arrays }
    if r.1 < 0 then return (r.1, { ev with threads := some threads, perThread := none, isOpen := false }, r.2)
    else return (0, { ev with threads := some threads, perThread := some p, isOpen := true }, r.2)

/-- The loop of `prof_evsel__enable` over the `n` entries from `thread` on.  At `out_failed` the loop goes to `thread`
and stays with the entry of `thread`. -/
def enableFrom (sys : Sys) (p : Option Nat) : Nat → Nat → EvMem → Except LinkRing.Fault (Bool × EvMem)
  | 0, _, m => .ok (true, m)
  | n + 1, thread, m => do
    let data ← m.arrays.loadAt p thread
    if data.fd < 0 then enableFrom sys p n (thread + 1) m
    else
      let log := m.log ++ [.enable data.fd]
      if sys.mmap log.length then
        let arrays ← m.arrays.storeAt p thread { data with mmPage := true, hwcIndex := sys.pageIndex log.length }
        enableFrom sys p n (thread + 1) { m with arrays := arrays, log := log ++ [.mmap data.fd true] }
      else
        let arrays ← m.arrays.storeAt p thread { data with mmPage := false }
        let m ← EvMem.each disableTurn p (List.replicate (thread + 1) thread)
          { m with arrays := arrays, log := log ++ [.mmap data.fd false] }
        return (false, m)

def EvselCell.enable (sys : Sys) (ev : EvselCell) (nthreads : Nat) (m : EvMem) :
    Except LinkRing.Fault (Int × EvselCell × EvMem) := do
  if !ev.isOpen then return (1, ev, m)
  else if ev.isEnable then return (0, ev, m)
  else
    let r ← enableFrom sys ev.perThread nthreads 0 m
    if r.1 then return (0, { ev with isEnable := true }, r.2) else return (-1, ev, r.2)

/-! ### The event that a structure stands for -/

structure EvselCell.Reads (c : EvselCell) (m : EvMem) (ev : Evsel) : Prop where
  name : ∃ a, c.name = some a ∧ m.strings.obj a = some ev.name
  attr : c.attr = ev.attr
  idx : c.idx = ev.idx
  threads : c.threads.map m.maps.obj = ev.threads.map some
  perThread : c.perThread.map m.arrays.obj = ev.perThread.map some
  isOpen : c.isOpen = ev.isOpen
  isEnable : c.isEnable = ev.isEnable

/-- A function was called for the event `c`, with the result `r`; the arrays `rest` are those of the other events. -/
structure Acted (rest : List Nat) (c : EvselCell) (m : EvMem) (r : Evsel × List Syscall) (c' : EvselCell) (m' : EvMem) :
    Prop where
  reads : c'.Reads m' r.1
  log : m'.log = r.2
  strings : m'.strings = m.strings
  maps : m'.maps = m.maps
  name : c'.name = c.name
  owned : m'.arrays.Owned (c'.perThread.toList ++ rest)
  kept : ∀ a ∈ rest, m'.arrays.obj a = m.arrays.obj a

variable {c c' : EvselCell} {m m' : EvMem} {ev : Evsel} {l : List ThreadData} {map : ThreadMap} {rest : List Nat}
  {a n : Nat} {sys : Sys}

private theorem EvselCell.Reads.array (hr : c.Reads m ev) (hl : ev.perThread = some l) :
    ∃ a, c.perThread = some a ∧ m.arrays.obj a = some l := by
  have hp := hr.perThread
  rw [hl] at hp
  exact Option.map_eq_some_iff.1 hp

private theorem EvselCell.Reads.threadMap (hr : c.Reads m ev) (hmap : ev.threads = some map) :
    ∃ a, c.threads = some a ∧ m.maps.obj a = some map := by
  have hp := hr.threads
  rw [hmap] at hp
  exact Option.map_eq_some_iff.1 hp

theorem acted_refl (hr : c.Reads m ev) (ho : m.arrays.Owned (c.perThread.toList ++ rest)) :
    Acted rest c m (ev, m.log) c m := ⟨hr, rfl, rfl, rfl, rfl, ho, fun _ _ => rfl⟩

/-- The array of the event is written, and its flags. -/
private theorem acted_put (hr : c.Reads m ev) (ho : m.arrays.Owned (c.perThread.toList ++ rest))
    (hp : c.perThread = some a)
    (ha : m.arrays.obj a = some l) (l' : List ThreadData) (log : List Syscall) (isOpen isEnable : Bool) :
    Acted rest c m ({ ev with perThread := some l', isOpen := isOpen, isEnable := isEnable }, log)
      { c with isOpen := isOpen, isEnable := isEnable } { m with arrays := m.arrays.put a l', log := log } := by
  refine ⟨⟨hr.name, hr.attr, hr.idx, hr.threads, ?_, rfl, rfl⟩, rfl, rfl, rfl, rfl, ho.put a l', fun b hb => ?_⟩
  · simp only [hp, Option.map_some, Store.obj_put ha]
  · have hne : b ≠ a := by
      have hnodup := ho.nodup
      rw [hp, Option.toList_some, List.singleton_append, List.nodup_cons] at hnodup
      exact ne_of_mem_of_not_mem hb hnodup.1
    exact Store.obj_put_of_ne hne l'

private theorem EvMem.each_range (f : ThreadData → ThreadData × List Syscall) (ha : m.arrays.obj a = some l) :
    m.each f (some a) (List.range l.length) = .ok { m with
      arrays := m.arrays.put a (l.map fun data => (f data).1)
      log := m.log ++ l.flatMap fun data => (f data).2 } := by
  simp [EvMem.each, foldlM_updateAt_range m.log ha]

private theorem fst_disableTurn : (fun data => (disableTurn data).1) =
    fun data : ThreadData => if data.fd < 0 then data else { data with mmPage := false } := by
  funext data
  unfold disableTurn
  split <;> rfl

private theorem snd_disableTurn : (fun data => (disableTurn data).2) = fun data : ThreadData =>
    if data.fd < 0 then [] else (if data.mmPage then [.munmap data.fd] else []) ++ [.disable data.fd] := by
  funext data
  unfold disableTurn
  split <;> rfl

private theorem fst_closeTurn : (fun data => (closeTurn data).1) =
    fun data : ThreadData => if data.fd < 0 then data else { data with fd := -1 } := by
  funext data
  unfold closeTurn
  split <;> rfl

private theorem snd_closeTurn : (fun data => (closeTurn data).2) =
    fun data : ThreadData => if data.fd < 0 then [] else [.close data.fd] := by
  funext data
  unfold closeTurn
  split <;> rfl

private theorem snd_undoTurn : (fun data => (undoTurn data).2) =
    fun data : ThreadData => if data.fd < 0 then [] else [.disable data.fd, .close data.fd] := by
  funext data
  unfold undoTurn
  split <;> rfl

theorem EvselCell.Reads.disable (hr : c.Reads m ev) (ho : m.arrays.Owned (c.perThread.toList ++ rest))
    (hsized : ev.isEnable = true → ∃ l, ev.perThread = some l ∧ l.length = n) :
    ∃ c' m', c.disable n m = .ok (c', m') ∧ Acted rest c m (evselDisable ev m.log) c' m' := by
  have hen := hr.isEnable
  cases h : ev.isEnable with
  | false =>
    rw [h] at hen
    refine ⟨c, m, by simp [EvselCell.disable, hen], ?_⟩
    simpa [evselDisable, h] using acted_refl hr ho
  | true =>
    rw [h] at hen
    obtain ⟨l, hl, rfl⟩ := hsized h
    obtain ⟨a, hp, ha⟩ := hr.array hl
    have hcall : c.disable l.length m = .ok ({ c with isEnable := true }, { m with
        arrays := m.arrays.put a (l.map fun data => (disableTurn data).1)
        log := m.log ++ l.flatMap fun data => (disableTurn data).2 }) := by
      simp [EvselCell.disable, hen, hp, EvMem.each_range disableTurn ha]
    refine ⟨_, _, hcall, ?_⟩
    have hacted := acted_put hr ho hp ha (l.map fun data => (disableTurn data).1)
      (m.log ++ l.flatMap fun data => (disableTurn data).2) c.isOpen true
    simpa [evselDisable, h, hl, disableThreads, fst_disableTurn, snd_disableTurn, hr.isOpen] using hacted

theorem threadMapNr_some {maps : Store ThreadMap} (ha : maps.obj a = some map) :
    threadMapNr maps (some a) = .ok map.pids.length := by
  simp [threadMapNr, Store.load_some ha]

private theorem Acted.trans {c₁ c₂ : EvselCell} {m₁ m₂ : EvMem} {r₁ r₂ : Evsel × List Syscall}
    (h₁ : Acted rest c m r₁ c₁ m₁) (h₂ : Acted rest c₁ m₁ r₂ c₂ m₂) : Acted rest c m r₂ c₂ m₂ :=
  ⟨h₂.reads, h₂.log, h₂.strings.trans h₁.strings, h₂.maps.trans h₁.maps, h₂.name.trans h₁.name, h₂.owned,
    fun a ha => (h₂.kept a ha).trans (h₁.kept a ha)⟩

/-- The array of a disabled event has as many entries as before. -/
theorem evselDisable_sized (log : List Syscall) (h : ∃ l, ev.perThread = some l ∧ l.length = n) :
    ∃ l, (evselDisable ev log).1.perThread = some l ∧ l.length = n := by
  obtain ⟨l, hl, rfl⟩ := h
  unfold evselDisable
  split
  · exact ⟨l, hl, rfl⟩
  · exact ⟨disableThreads l, by simp [hl], by simp [disableThreads]⟩

theorem EvselCell.Reads.close (hr : c.Reads m ev) (ho : m.arrays.Owned (c.perThread.toList ++ rest))
    (hsized : ev.isOpen = true → ∃ map l, ev.threads = some map ∧ ev.perThread = some l ∧
      l.length = map.pids.length) :
    ∃ c' m', c.close m = .ok (c', m') ∧ Acted rest c m (evselClose ev m.log) c' m' := by
  have hopen := hr.isOpen
  cases h : ev.isOpen with
  | false =>
    rw [h] at hopen
    refine ⟨c, m, by simp [EvselCell.close, hopen], ?_⟩
    simpa [evselClose, h] using acted_refl hr ho
  | true =>
    rw [h] at hopen
    obtain ⟨map, l, hmap, hl, hlen⟩ := hsized h
    obtain ⟨b, hb, hmaps⟩ := hr.threadMap hmap
    obtain ⟨c₁, m₁, hdisable, hacted⟩ := hr.disable ho (n := map.pids.length) fun _ => ⟨l, hl, hlen⟩
    -- `prof_evsel__disable` makes the same check again
    have hcheck : c.disableEnabled map.pids.length m = .ok (c₁, m₁) := by
      rw [← hdisable, EvselCell.disableEnabled]
      cases hen : c.isEnable with
      | false => simp [EvselCell.disable, hen]
      | true => rfl
    obtain ⟨l₁, hl₁, hlen₁⟩ := evselDisable_sized m.log ⟨l, hl, hlen⟩
    obtain ⟨a, hp, ha⟩ := hacted.reads.array hl₁
    have heach := EvMem.each_range closeTurn ha
    rw [hlen₁] at heach
    have hcall : c.close m = .ok ({ c₁ with isOpen := false }, { m₁ with
        arrays := m₁.arrays.put a (l₁.map fun data => (closeTurn data).1)
        log := m₁.log ++ l₁.flatMap fun data => (closeTurn data).2 }) := by
      simp only [EvselCell.close, hopen, hb, threadMapNr_some hmaps, ok_bind, hcheck, hp, heach]
      rfl
    refine ⟨_, _, hcall, hacted.trans ?_⟩
    have hput := acted_put hacted.reads hacted.owned hp ha (l₁.map fun data => (closeTurn data).1)
      (m₁.log ++ l₁.flatMap fun data => (closeTurn data).2) false c₁.isEnable
    simpa [evselClose, h, hl₁, fst_closeTurn, snd_closeTurn, hacted.log, hacted.reads.isEnable] using hput

/-- The loop over the array does what the loop over the list does. -/
private theorem enableFrom_eq (sys : Sys) (pre : List ThreadData) (ha : m.arrays.obj a = some (pre ++ l)) :
    enableFrom sys (some a) l.length pre.length m = .ok ((enableLoop sys pre l m.log).1, { m with
      arrays := m.arrays.put a (enableLoop sys pre l m.log).2.1
      log := (enableLoop sys pre l m.log).2.2 }) := by
  induction l generalizing pre m with
  | nil =>
    rw [List.append_nil] at ha
    simp [enableFrom, enableLoop, Store.put_self ha]
  | cons data l ih =>
    have hlen : pre.length + 1 = (pre ++ [data]).length := by simp
    simp only [List.length_cons, enableFrom, enableLoop, Store.loadAt_middle ha, ok_bind]
    by_cases hfd : data.fd < 0
    · rw [if_pos hfd, if_pos hfd, hlen, ih _ (by rwa [← List.append_cons])]
    · rw [if_neg hfd, if_neg hfd]
      by_cases hmmap : sys.mmap (m.log ++ [Syscall.enable data.fd]).length
      · rw [if_pos hmmap, if_pos hmmap, Store.storeAt_middle ha, ok_bind]
        generalize hdata : ThreadData.mk data.fd _ true = data'
        have hrest := (Store.obj_put ha (pre ++ data' :: l)).trans (by rw [List.append_cons])
        rw [show pre.length + 1 = (pre ++ [data']).length by simp, ih _ hrest]
        simp only [Store.put_put]
      · rw [if_neg hmmap, if_neg hmmap, Store.storeAt_middle ha, ok_bind]
        generalize hdata : ThreadData.mk data.fd data.hwcIndex false = data'
        have hrest := Store.obj_put ha (pre ++ data' :: l)
        have hturn : disableTurn data' = (data', [.disable data.fd]) := by simp [← hdata, disableTurn, hfd]
        simp [EvMem.each, foldlM_updateAt_replicate _ hrest, hturn]

theorem EvselCell.Reads.enable (hr : c.Reads m ev) (sys : Sys) (ho : m.arrays.Owned (c.perThread.toList ++ rest))
    (hsized : ev.isOpen = true → ∃ l, ev.perThread = some l ∧ l.length = n) :
    ∃ c' m', c.enable sys n m = .ok ((evselEnable sys ev m.log).1, c', m') ∧
      Acted rest c m (evselEnable sys ev m.log).2 c' m' := by
  have hopen := hr.isOpen
  have hen := hr.isEnable
  cases h : ev.isOpen with
  | false =>
    rw [h] at hopen
    refine ⟨c, m, by simp [EvselCell.enable, evselEnable, h, hopen], ?_⟩
    simpa [evselEnable, h] using acted_refl hr ho
  | true =>
    rw [h] at hopen
    cases h' : ev.isEnable with
    | true =>
      rw [h'] at hen
      refine ⟨c, m, by simp [EvselCell.enable, evselEnable, h, hopen, h', hen], ?_⟩
      simpa [evselEnable, h, h'] using acted_refl hr ho
    | false =>
      rw [h'] at hen
      obtain ⟨l, hl, rfl⟩ := hsized h
      obtain ⟨a, hp, ha⟩ := hr.array hl
      have hloop := enableFrom_eq sys [] ha
      have hput := acted_put hr ho hp ha (enableLoop sys [] l m.log).2.1 (enableLoop sys [] l m.log).2.2 true
        (enableLoop sys [] l m.log).1
      rw [List.length_nil, ← hp] at hloop
      have hsame : { c with isOpen := true, isEnable := false } = c := by rw [← hopen, ← hen]
      -- the flag is set exactly if the loop came to its end
      have hcall : c.enable sys l.length m = .ok ((evselEnable sys ev m.log).1,
          { c with isOpen := true, isEnable := (enableLoop sys [] l m.log).1 },
          { m with
            arrays := m.arrays.put a (enableLoop sys [] l m.log).2.1
            log := (enableLoop sys [] l m.log).2.2 }) := by
        cases hok : (enableLoop sys [] l m.log).1 with
        | false => simp [EvselCell.enable, evselEnable, h, hopen, h', hen, hl, hloop, hok, hsame]
        | true => simp [EvselCell.enable, evselEnable, h, hopen, h', hen, hl, hloop, hok]
      have hresult : (evselEnable sys ev m.log).2 =
          ({ ev with
            perThread := some (enableLoop sys [] l m.log).2.1
            isOpen := true
            isEnable := (enableLoop sys [] l m.log).1 }, (enableLoop sys [] l m.log).2.2) := by
        cases hok : (enableLoop sys [] l m.log).1 <;> simp [evselEnable, h, h', hl, hok]
      exact ⟨_, _, hcall, hresult ▸ hput⟩

/-- Every descriptor can be opened. -/
private theorem openFrom_ok {attr : Attr} {pids : List Int} {opened : List ThreadData} {log : List Syscall}
    (ha : m.arrays.obj a = some (opened ++ List.replicate pids.length ⟨0, 0, false⟩))
    (h : openThreads sys attr pids opened m.log = (.ok l, log)) :
    openFrom sys attr (some a) pids opened.length m = .ok (0, { m with arrays := m.arrays.put a l, log := log }) := by
  induction pids generalizing opened m with
  | nil =>
    cases h
    rw [List.length_nil, List.replicate_zero, List.append_nil] at ha
    simp [openFrom, Store.put_self ha]
  | cons pid pids ih =>
    rw [List.length_cons, List.replicate_succ] at ha
    simp only [openThreads] at h
    simp only [openFrom, Store.loadAt_middle ha, Store.storeAt_middle ha, ok_bind]
    generalize openFd sys attr pid 2 m.log = r at h ⊢
    by_cases hfd : r.1 < 0
    · rw [if_pos hfd] at h
      cases h
    · rw [if_neg hfd] at h
      rw [if_neg hfd, if_neg hfd]
      have hrest := (Store.obj_put ha (opened ++ ⟨r.1, 0, false⟩ :: List.replicate pids.length ⟨0, 0, false⟩)).trans
        (by rw [List.append_cons])
      rw [show opened.length + 1 = (opened ++ [ThreadData.mk r.1 0 false]).length by simp, ih hrest h]
      simp only [Store.put_put]

/-- A descriptor cannot be opened: those before it are closed, and the array is freed. -/
private theorem openFrom_error {attr : Attr} {pids : List Int} {opened : List ThreadData} {log : List Syscall}
    {err : Int} (ha : m.arrays.obj a = some (opened ++ List.replicate pids.length ⟨0, 0, false⟩))
    (h : openThreads sys attr pids opened m.log = (.error err, log)) :
    err < 0 ∧
      openFrom sys attr (some a) pids opened.length m = .ok (err, { m with arrays := m.arrays.drop a, log := log }) := by
  induction pids generalizing opened m with
  | nil => cases h
  | cons pid pids ih =>
    rw [List.length_cons, List.replicate_succ] at ha
    simp only [openThreads] at h
    simp only [openFrom, Store.loadAt_middle ha, Store.storeAt_middle ha, ok_bind]
    generalize openFd sys attr pid 2 m.log = r at h ⊢
    by_cases hfd : r.1 < 0
    · rw [if_pos hfd] at h
      cases h
      have hrest := Store.obj_put ha (opened ++ ⟨-1, 0, false⟩ :: List.replicate pids.length ⟨0, 0, false⟩)
      have hloop := foldlM_updateAt_reverse (f := undoTurn) r.2 hrest
      rw [Store.put_put] at hloop
      have hfree := Store.release_some (Store.obj_put ha
        ((opened.map fun data => (undoTurn data).1) ++ ⟨-1, 0, false⟩ :: List.replicate pids.length ⟨0, 0, false⟩))
      rw [if_pos hfd, if_pos hfd]
      refine ⟨hfd, ?_⟩
      simp [EvMem.each, hloop, hfree, Store.drop_put, closeOpened, snd_undoTurn]
    · rw [if_neg hfd] at h
      rw [if_neg hfd, if_neg hfd]
      have hrest := (Store.obj_put ha (opened ++ ⟨r.1, 0, false⟩ :: List.replicate pids.length ⟨0, 0, false⟩)).trans
        (by rw [List.append_cons])
      obtain ⟨hneg, hloop⟩ := ih (m := { m with arrays := m.arrays.put a _, log := r.2 }) hrest h
      rw [List.length_append, List.length_singleton, Store.drop_put] at hloop
      exact ⟨hneg, hloop⟩

/-- The event gets a thread map and another array, or none. -/
private theorem acted_setArray {arrays : Store (List ThreadData)} (p : Option Nat)
    (perThread : Option (List ThreadData))
    (hr : c.Reads m ev) (hmap : m.maps.obj a = some map) (hp : p.map arrays.obj = perThread.map some)
    (ho : arrays.Owned (p.toList ++ rest)) (hkept : ∀ b ∈ rest, arrays.obj b = m.arrays.obj b) (log : List Syscall)
    (isOpen : Bool) :
    Acted rest c m ({ ev with threads := some map, perThread := perThread, isOpen := isOpen }, log)
      { c with threads := some a, perThread := p, isOpen := isOpen } { m with arrays := arrays, log := log } :=
  ⟨⟨hr.name, hr.attr, hr.idx, by simp [hmap], hp, rfl, hr.isEnable⟩, rfl, rfl, rfl, rfl, ho, hkept⟩

/-- An event without an array is opened, or it stays without. -/
theorem EvselCell.Reads.open (hr : c.Reads m ev) (sys : Sys) (ho : m.arrays.Owned (c.perThread.toList ++ rest))
    (hnone : ev.perThread = none) (hmap : m.maps.obj a = some map) :
    ∃ c' m', c.open sys a m = .ok ((evselOpen sys map ev m.log).1, c', m') ∧
      Acted rest c m (evselOpen sys map ev m.log).2 c' m' := by
  have hp : c.perThread = none := by
    have hp := hr.perThread
    rw [hnone, Option.map_none] at hp
    exact Option.map_eq_none_iff.1 hp
  rw [hp, Option.toList_none, List.nil_append] at ho
  have hload := Store.load_some hmap
  cases hz : sys.zalloc m.log.length with
  | false =>
    refine ⟨{ c with threads := some a, perThread := none }, m, by simp [EvselCell.open, evselOpen, hload, hz], ?_⟩
    have hacted := acted_setArray none none hr hmap rfl ho (fun _ _ => rfl) m.log c.isOpen
    simpa [evselOpen, hz, hr.isOpen] using hacted
  | true =>
    have hnew := Store.obj_alloc m.arrays (List.replicate map.pids.length (ThreadData.mk 0 0 false))
    have howned := ho.alloc (List.replicate map.pids.length (ThreadData.mk 0 0 false))
    have hold : ∀ b ∈ rest, (m.arrays.alloc (List.replicate map.pids.length (ThreadData.mk 0 0 false))).obj b =
        m.arrays.obj b := fun b hb => Store.obj_alloc_of_lt (ho.lt_next hb)
    have hne : ∀ b ∈ rest, b ≠ m.arrays.next := fun b hb => Nat.ne_of_lt (ho.lt_next hb)
    generalize hm : m.arrays.alloc (List.replicate map.pids.length ⟨0, 0, false⟩) = arrays at hnew howned hold
    cases hopen : openThreads sys ev.attr map.pids [] m.log with
    | mk result log =>
      cases result with
      | ok l =>
        have hloop := openFrom_ok (m := { m with arrays := arrays }) hnew hopen
        refine ⟨{ c with threads := some a, perThread := some m.arrays.next, isOpen := true },
          { m with arrays := arrays.put m.arrays.next l, log := log }, ?_, ?_⟩
        · rw [← hr.attr, List.length_nil] at hloop
          simp [EvselCell.open, evselOpen, hload, hz, hm, hloop, hopen]
        · have hacted := acted_setArray (some m.arrays.next) (some l) hr hmap
            (by rw [Option.map_some, Store.obj_put hnew, Option.map_some]) (howned.put _ l)
            (fun b hb => (Store.obj_put_of_ne (hne b hb) l).trans (hold b hb)) log true
          simpa [evselOpen, hz, hopen] using hacted
      | error err =>
        obtain ⟨hneg, hloop⟩ := openFrom_error (m := { m with arrays := arrays }) hnew hopen
        refine ⟨{ c with threads := some a, perThread := none, isOpen := false },
          { m with arrays := arrays.drop m.arrays.next, log := log }, ?_, ?_⟩
        · rw [← hr.attr, List.length_nil] at hloop
          simp [EvselCell.open, evselOpen, hload, hz, hm, hloop, hopen, hneg]
        · have hacted := acted_setArray none none hr hmap rfl howned.drop
            (fun b hb => (Function.update_of_ne (hne b hb) ..).trans (hold b hb)) log false
          simpa [evselOpen, hz, hopen] using hacted

end StubProfile.Profile
