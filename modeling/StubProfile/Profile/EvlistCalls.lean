import StubProfile.Profile.LinkedEvlist

/-!
# The calls on the event list with its links

Each function of `evlist.c` does in memory what it does on a list of values.  The functions on events need an array with
an entry for each thread of the map, so a map may be created for a list without one only (`Evsel.Fits`).  The parser of
the events leaves the copy of a name that no structure points to, or faults.
-/

namespace StubProfile.Profile

open Links Objects
open LinkRing (ok_bind pure_eq_ok)
open scoped List

variable {s s' : LinkedEvlist} {ns lost : List Nat} {evs : Nat → Evsel} {n : Nat} {maps : Store ThreadMap}

/-! ### The events of a list -/

/-- An open event has an entry for each thread of the map of the list, and another one has no array. -/
structure Evsel.Fits (threads : Option ThreadMap) (ev : Evsel) : Prop where
  opened : ev.isOpen = true →
    ∃ map l, threads = some map ∧ ev.threads = some map ∧ ev.perThread = some l ∧ l.length = map.pids.length
  closed : ev.isOpen = false → ev.perThread = none ∧ ev.isEnable = false

variable {threads : Option ThreadMap} {map : ThreadMap} {ev : Evsel} {sys : Sys}

private theorem Evsel.Fits.new (name : List Char) (attr : Attr) (idx : Nat) : (evselNew name attr idx).Fits threads :=
  ⟨fun h => absurd h Bool.false_ne_true, fun _ => ⟨rfl, rfl⟩⟩

/-- There is no open event in a list without a map. -/
private theorem Evsel.Fits.setThreads (h : ev.Fits none) : ev.Fits threads := by
  refine ⟨fun hopen => ?_, h.closed⟩
  obtain ⟨map, l, hmap, -⟩ := h.opened hopen
  cases hmap

private theorem Evsel.Fits.openClosed (h : ev.Fits (some map)) (log : List Syscall) :
    (if ev.isOpen then (ev, log) else (evselOpen sys map ev log).2).1.Fits (some map) := by
  cases hopen : ev.isOpen with
  | true => exact h
  | false =>
    obtain ⟨hnone, hen⟩ := h.closed hopen
    have hsized : (evselOpen sys map ev log).2.1.Sized map.pids.length := evselOpen_sized hen hopen
    rw [if_neg Bool.false_ne_true]
    refine ⟨fun hopened => ?_, fun hclosed => ?_⟩
    · obtain ⟨l, hl, hlen⟩ := hsized (.inl hopened)
      have hthreads : (evselOpen sys map ev log).2.1.threads = some map := by
        unfold evselOpen
        split <;> [rfl; (split <;> rfl)]
      exact ⟨map, l, rfl, hthreads, hl, hlen⟩
    · unfold evselOpen at hclosed ⊢
      split
      · exact ⟨rfl, hen⟩
      · rename_i hz
        rw [if_neg hz] at hclosed
        cases hthreads : openThreads sys ev.attr map.pids [] log with
        | mk result log' =>
          rw [hthreads] at hclosed
          cases result with
          | ok l => cases hclosed
          | error err => exact ⟨rfl, hen⟩

private theorem Evsel.Fits.enable (h : ev.Fits threads) (log : List Syscall) :
    (evselEnable sys ev log).2.1.Fits threads := by
  have hfields : (evselEnable sys ev log).2.1.isOpen = ev.isOpen ∧ (evselEnable sys ev log).2.1.threads = ev.threads := by
    unfold evselEnable
    split
    · exact ⟨rfl, rfl⟩
    · split
      · exact ⟨rfl, rfl⟩
      · simp only
        split <;> exact ⟨rfl, rfl⟩
  refine ⟨fun hopen => ?_, fun hclosed => ?_⟩
  · rw [hfields.1] at hopen
    obtain ⟨map, l, hmap, hthreads, hl, hlen⟩ := h.opened hopen
    have hsized : (evselEnable sys ev log).2.1.Sized map.pids.length := evselEnable_sized fun _ => ⟨l, hl, hlen⟩
    obtain ⟨l', hl', hlen'⟩ := hsized (.inl (hfields.1.trans hopen))
    exact ⟨map, l', hmap, hfields.2.trans hthreads, hl', hlen'⟩
  · rw [hfields.1] at hclosed
    simpa [evselEnable, hclosed] using h.closed hclosed

private theorem Evsel.Fits.isOpen_of_enabled (h : ev.Fits threads) (hen : ev.isEnable = true) : ev.isOpen = true := by
  by_contra hclosed
  rw [(h.closed (by simpa using hclosed)).2] at hen
  cases hen

private theorem Evsel.Fits.disable (h : ev.Fits threads) (log : List Syscall) :
    (evselDisable ev log).1.Fits threads := by
  cases hen : ev.isEnable with
  | false => simpa [evselDisable, hen] using h
  | true =>
    have hopen := h.isOpen_of_enabled hen
    obtain ⟨map, l, hmap, hthreads, hl, hlen⟩ := h.opened hopen
    obtain ⟨l', hl', hlen'⟩ := evselDisable_sized log ⟨l, hl, hlen⟩
    refine ⟨fun _ => ⟨map, l', hmap, ?_, hl', hlen'⟩, fun hclosed => ?_⟩
    · simpa [evselDisable, hen] using hthreads
    · simp [evselDisable, hen, hopen] at hclosed

private theorem carries_openClosed (sys : Sys) {a : Nat} (hmap : maps.obj a = some map) :
    Carries maps (Evsel.Fits (some map)) (openClosed sys a)
      fun ev log => if ev.isOpen then (ev, log) else (evselOpen sys map ev log).2 := by
  intro c m ev rest hmaps hr hfits ho
  have hopen := hr.isOpen
  cases h : ev.isOpen with
  | true =>
    rw [h] at hopen
    exact ⟨c, m, by simp [openClosed, hopen], by simpa [h] using acted_refl hr ho⟩
  | false =>
    rw [h] at hopen
    obtain ⟨c', m', hcall, hacted⟩ := hr.open sys ho (hfits.closed h).1 (hmaps ▸ hmap)
    exact ⟨c', m', by simp [openClosed, hopen, hcall], by simpa [h] using hacted⟩

private theorem carries_enableOpen (sys : Sys) (map : ThreadMap) :
    Carries maps (Evsel.Fits (some map)) (enableOpen sys map.pids.length) fun ev log => (evselEnable sys ev log).2 := by
  intro c m ev rest hmaps hr hfits ho
  obtain ⟨c', m', hcall, hacted⟩ := hr.enable sys ho fun hopen => by
    obtain ⟨map', l, hmap', -, hl, hlen⟩ := hfits.opened hopen
    obtain rfl := Option.some.inj hmap'
    exact ⟨l, hl, hlen⟩
  exact ⟨c', m', by simp [enableOpen, hcall], hacted⟩

private theorem carries_disable {k : Nat} (hk : ∀ map, threads = some map → map.pids.length = k) :
    Carries maps (Evsel.Fits threads) (fun ev => ev.disable k) evselDisable := by
  intro c m ev rest hmaps hr hfits ho
  refine hr.disable ho fun hen => ?_
  obtain ⟨map, l, hmap, -, hl, hlen⟩ := hfits.opened (hfits.isOpen_of_enabled hen)
  exact ⟨l, hl, hlen.trans (hk map hmap)⟩

private theorem carries_close : Carries maps (Evsel.Fits threads) EvselCell.close evselClose := by
  intro c m ev rest hmaps hr hfits ho
  refine hr.close ho fun hopen => ?_
  obtain ⟨map, l, -, hthreads, hl, hlen⟩ := hfits.opened hopen
  exact ⟨map, l, hthreads, hl, hlen⟩

/-! ### The calls on lists of values -/

/-- The list in memory stands for the list `el`, after the system calls `log`. -/
structure LinkedEvlist.Follows (s : LinkedEvlist) (ns lost : List Nat) (evs : Nat → Evsel) (el : CountedEvlist)
    (log : List Syscall) : Prop where
  holds : s.Holds ns lost evs
  entries : ns.map evs = el.entries
  counted : el.nrEntries = ns.length
  map : s.threads.map s.mem.maps.obj = el.threads.map some
  log_eq : s.mem.log = log
  fits : ∀ ev ∈ el.entries, ev.Fits el.threads

variable {el : CountedEvlist} {log : List Syscall} {str name : List Char} {attr : Attr} {tasks : List Int}
  {allocOk : Bool}

private theorem LinkedEvlist.Follows.fits_evs (h : s.Follows ns lost evs el log) : ∀ n ∈ ns, (evs n).Fits el.threads :=
  fun _ hn => h.fits _ (h.entries ▸ List.mem_map_of_mem hn)

/-- The map of the list. -/
private theorem LinkedEvlist.Follows.threadMap (h : s.Follows ns lost evs el log) (hmap : el.threads = some map) :
    ∃ a, s.threads = some a ∧ s.mem.maps.obj a = some map := by
  have hp := h.map
  rw [hmap] at hp
  exact Option.map_eq_some_iff.1 hp

private theorem LinkedEvlist.Follows.noThreads (h : s.Follows ns lost evs el log) (hmap : el.threads = none) :
    s.threads = none := by
  have hp := h.map
  rw [hmap] at hp
  exact Option.map_eq_none_iff.1 hp

@[simp] theorem whenEnded_some {σ ρ : Type} (s : σ) (f : σ → Except LinkRing.Fault (Option ρ)) :
    whenEnded (.ok (some s)) f = f s := rfl

/-- `prof_evlist__start`. -/
theorem LinkedEvlist.Follows.start (h : s.Follows ns lost evs el log) (sys : Sys) :
    ∃ s' evs', s.start sys = .ok (some ((evlistStart sys el.toEvlist log).1, s')) ∧
      s'.Follows ns lost evs' { el with toEvlist := (evlistStart sys el.toEvlist log).2.1 }
        (evlistStart sys el.toEvlist log).2.2 := by
  cases hmap : el.threads with
  | none =>
    have hstart : evlistStart sys el.toEvlist log = (-1, el.toEvlist, log) := by simp [evlistStart, hmap]
    rw [hstart]
    exact ⟨s, evs, by simp [LinkedEvlist.start, h.noThreads hmap], h⟩
  | some map =>
    obtain ⟨a, hthreads, ha⟩ := h.threadMap hmap
    have hfits := h.fits_evs
    rw [hmap] at hfits
    obtain ⟨s₁, evs₁, hcall₁, h₁, hevs₁, hlog₁, hthreads₁, hmaps₁⟩ :=
      h.holds.forEach false (carries_openClosed sys ha) rfl hfits
    simp only [Bool.false_eq_true, if_false, h.entries, h.log_eq] at hevs₁ hlog₁
    have hfits₁ : ∀ ev ∈ ns.map evs₁, ev.Fits (some map) := by
      rw [hevs₁]
      exact forEach_all (fun ev log hev => hev.openClosed log) (hmap ▸ h.fits) log
    obtain ⟨s₂, evs₂, hcall₂, h₂, hevs₂, hlog₂, hthreads₂, hmaps₂⟩ :=
      h₁.forEach false (carries_enableOpen sys map) rfl fun n hn => hfits₁ _ (List.mem_map_of_mem hn)
    simp only [Bool.false_eq_true, if_false, hlog₁] at hevs₂ hlog₂
    have hstart : evlistStart sys el.toEvlist log = (0, { el.toEvlist with entries := ns.map evs₂ }, s₂.mem.log) := by
      simp only [evlistStart, hmap, hevs₂, hlog₂, hevs₁]
    rw [hstart]
    refine ⟨s₂, evs₂, ?_, h₂, rfl, h.counted, ?_, rfl, ?_⟩
    · simp [LinkedEvlist.start, hthreads, threadMapNr_some ha, hcall₁, hcall₂]
    · rw [hthreads₂, hthreads₁, hmaps₂, hmaps₁]
      exact h.map
    · show ∀ ev ∈ ns.map evs₂, ev.Fits el.threads
      rw [hevs₂, hmap]
      exact forEach_all (fun ev log hev => hev.enable log) hfits₁ _

/-- `prof_evlist__stop`. -/
theorem LinkedEvlist.Follows.stop (h : s.Follows ns lost evs el log) :
    ∃ s' evs', s.stop = .ok (some s') ∧
      s'.Follows ns lost evs' { el with toEvlist := (evlistStop el.toEvlist log).1 } (evlistStop el.toEvlist log).2 := by
  -- the number of threads does not matter to a list without a map
  obtain ⟨k, hnr, hk⟩ : ∃ k, threadMapNr s.mem.maps s.threads = .ok k ∧
      ∀ map, el.threads = some map → map.pids.length = k := by
    cases hmap : el.threads with
    | none => exact ⟨1, by rw [h.noThreads hmap]; rfl, fun _ hmap => by cases hmap⟩
    | some map =>
      obtain ⟨a, hthreads, ha⟩ := h.threadMap hmap
      refine ⟨map.pids.length, by rw [hthreads, threadMapNr_some ha], fun map' hmap' => ?_⟩
      rw [Option.some.inj hmap']
  obtain ⟨s₁, evs₁, hcall, h₁, hevs, hlog, hthreads, hmaps⟩ :=
    h.holds.forEach false (carries_disable hk) rfl h.fits_evs
  simp only [Bool.false_eq_true, if_false, h.entries, h.log_eq] at hevs hlog
  refine ⟨s₁, evs₁, by simp [LinkedEvlist.stop, hnr, hcall], h₁, hevs, h.counted, ?_, hlog, ?_⟩
  · rw [hthreads, hmaps]
    exact h.map
  · exact forEach_all (fun ev log hev => hev.disable log) h.fits log

/-- `prof_evlist__create_threadmap`, for a list without a map. -/
theorem LinkedEvlist.Follows.createThreadmap (h : s.Follows ns lost evs el log) (hnone : el.threads = none)
    (hmap : threadMapNew tasks allocOk = some map) :
    (s.createThreadmap tasks allocOk).2.Follows ns lost evs { el with threads := some map } log := by
  have hthreads := h.noThreads hnone
  have hcall : (s.createThreadmap tasks allocOk).2 =
      { s with threads := some s.mem.maps.next, mem := { s.mem with maps := s.mem.maps.alloc map } } := by
    simp only [LinkedEvlist.createThreadmap, hmap]
  have hmaps := h.holds.maps
  rw [hthreads] at hmaps
  rw [hcall]
  refine ⟨⟨h.holds.links, h.holds.old, h.holds.nrEntries, fun n hn => ?_, h.holds.strings, h.holds.arrays,
    hmaps.alloc map⟩, h.entries, h.counted, ?_, h.log_eq, fun ev hev => ?_⟩
  · have hr := h.holds.reads n hn
    refine hr.frame (fun _ _ => rfl) (fun a ha => ?_) fun _ _ => rfl
    -- the map of the event, if it has one, is not the new one
    have hp := hr.threads
    rw [ha, Option.map_some] at hp
    obtain ⟨map', -, hobj⟩ := Option.map_eq_some_iff.1 hp.symm
    exact Store.obj_alloc_of_lt (Store.lt_next hobj.symm)
  · simp only [Option.map_some, Store.obj_alloc]
  · have hfits := h.fits ev hev
    rw [hnone] at hfits
    exact hfits.setThreads

/-! ### Adding -/

private theorem parsedName_eq (h : evselParse str = some (name, attr)) : parsedName str = name := by
  unfold evselParse at h
  unfold parsedName
  cases hs : strchr ':' str with
  | none =>
    simp only [hs] at h
    cases hp : pmuFind str with
    | none => simp [hp] at h
    | some pmu =>
      simp only [hp, Option.some.injEq, Prod.mk.injEq] at h
      exact h.1
  | some r =>
    obtain ⟨name', rest⟩ := r
    simp only [hs] at h
    cases hp : pmuFind name' with
    | none => simp [hp] at h
    | some pmu =>
      simp only [hp, Option.some.injEq, Prod.mk.injEq] at h
      exact h.1

private theorem parseCopy_some (strings : Store (List Char)) (h : evselParse str = some (name, attr)) :
    parseCopy strings str = .ok (some (strings.next, attr), strings.alloc name) := by
  simp only [parseCopy, h, parsedName_eq h]
  rfl

/-- A name that is not known is read after it was freed. -/
theorem parseCopy_none (strings : Store (List Char)) (h : evselParse str = none) :
    parseCopy strings str = .error .absent := by
  have hnew := Store.obj_alloc strings (parsedName str)
  simp only [parseCopy, h, Store.release_some hnew, ok_bind]
  have hload : ((strings.alloc (parsedName str)).drop strings.next).load (some strings.next) = .error .absent := by
    simp [Store.load, Store.drop]
  rw [hload]
  rfl

/-- The structure of a new event comes to the end of the list. -/
private theorem LinkedEvlist.Follows.add (h : s.Follows ns lost evs el log)
    (hstr : evselParse str = some (name, attr)) :
    ∃ s' evs', s.add str = .ok ((evlistAdd el str).1, s') ∧
      s'.Follows (ns ++ [s.zallocs]) (s.mem.strings.next :: lost) evs' (evlistAdd el str).2 log := by
  have hfresh : s.zallocs ∉ ns := fun hmem => Nat.lt_irrefl _ (h.holds.old _ hmem)
  have hcell : EvPlace.evsel s.zallocs ∉ Links.Lists.cells ⟨[(.head, ns.map .evsel)], []⟩ := by
    simp [Links.Lists.cells, ringCells, hfresh]
  obtain ⟨links₁, h1, hlinks₁⟩ := (h.holds.links.alloc hcell).initListHead
  obtain ⟨links₂, h2, hlinks₂⟩ := (hlinks₁.forget (.loosen _ _ _)).listAddTail
  have hcopy := Store.obj_alloc s.mem.strings name
  have hadd : evlistAdd el str = (1, { el with
      entries := el.entries ++ [evselNew name attr el.nrEntries], nrEntries := el.nrEntries + 1 }) := by
    simp only [evlistAdd, hstr]
  have hcall : s.add str = .ok (1, { s with
      links := links₂
      evsels := Function.update s.evsels s.zallocs
        ⟨some (s.mem.strings.alloc name).next, attr, s.nrEntries, none, none, false, false⟩
      zallocs := s.zallocs + 1
      nrEntries := s.nrEntries + 1
      mem := { s.mem with strings := (s.mem.strings.alloc name).alloc name } }) := by
    simp only [LinkedEvlist.add, parseCopy_some _ hstr, ok_bind, Store.load_some hcopy, h1, h2]
    rfl
  rw [hadd]
  refine ⟨_, Function.update evs s.zallocs (evselNew name attr el.nrEntries), hcall,
    ⟨?_, fun n hn => ?_, ?_, fun n hn => ?_, ?_, ?_, h.holds.maps⟩, ?_, ?_, h.map, h.log_eq, fun ev hev => ?_⟩
  · rw [List.map_append]
    exact hlinks₂
  · obtain hn | hn := List.mem_append.1 hn
    · exact Nat.lt_succ_of_lt (h.holds.old n hn)
    · rw [List.mem_singleton.1 hn]
      exact Nat.lt_succ_self _
  · rw [List.length_append, List.length_singleton, ← h.holds.nrEntries]
  · obtain hn | hn := List.mem_append.1 hn
    · have hne : n ≠ s.zallocs := ne_of_mem_of_not_mem hn hfresh
      simp only [Function.update_of_ne hne]
      refine (h.holds.reads n hn).frame (fun a ha => ?_) (fun _ _ => rfl) fun _ _ => rfl
      obtain ⟨b, hb, hobj⟩ := (h.holds.reads n hn).name
      obtain rfl : a = b := Option.some.inj (ha.symm.trans hb)
      have hlt := Store.lt_next hobj
      exact (Store.obj_alloc_of_lt (Nat.lt_succ_of_lt hlt)).trans (Store.obj_alloc_of_lt hlt)
    · obtain rfl := List.mem_singleton.1 hn
      simp only [Function.update_self]
      exact ⟨⟨_, rfl, Store.obj_alloc _ _⟩, rfl, h.holds.nrEntries.trans h.counted.symm, rfl, rfl, rfl, rfl⟩
  · have howned := (h.holds.strings.alloc name).alloc name
    refine howned.perm ?_
    rw [List.filterMap_append, filterMap_update EvselCell.name hfresh]
    simp only [List.filterMap_cons, Function.update_self, List.filterMap_nil, List.append_assoc, List.singleton_append]
    exact List.perm_middle.trans (List.perm_middle.cons _)
  · rw [List.filterMap_append, filterMap_update EvselCell.perThread hfresh]
    simpa using h.holds.arrays
  · rw [List.map_append, h.holds.nodup.map_update, if_neg hfresh, h.entries]
    simp
  · rw [List.length_append, List.length_singleton, ← h.counted]
  · obtain hev | hev := List.mem_append.1 hev
    · exact h.fits ev hev
    · rw [List.mem_singleton.1 hev]
      exact .new name attr el.nrEntries

theorem addPieces_none {len pos : Nat} {cur : List Char} (h : strchr ',' cur = none) :
    addPieces len pos cur = if pos < len - 1 then [cur] else [] := by
  rw [addPieces]
  split
  · rfl
  · rename_i hsome
    rw [h] at hsome
    cases hsome

private theorem addPieces_some {len pos : Nat} {cur field next : List Char} (h : strchr ',' cur = some (field, next)) :
    addPieces len pos cur = if pos + field.length = len - 1 then field :: if pos < len - 1 then [field] else []
      else field :: addPieces len (pos + field.length + 1) next := by
  rw [addPieces]
  split
  · rename_i hnone
    rw [h] at hnone
    cases hnone
  · rename_i hsome
    rw [h] at hsome
    cases hsome
    rfl

/-- The pieces of the string, one after the other. -/
theorem addFromStr_eq (l : CountedEvlist) (hstr : str ≠ []) :
    Profile.addFromStr l str = addAll (0, l) (addPieces str.length 0 str) := by
  have hloop : ∀ len pos cur added l,
      (if (addLoop len pos cur added l).1 < len - 1 then
        ((addLoop len pos cur added l).2.2.1 +
            (evlistAdd (addLoop len pos cur added l).2.2.2 (addLoop len pos cur added l).2.1).1,
          (evlistAdd (addLoop len pos cur added l).2.2.2 (addLoop len pos cur added l).2.1).2)
      else (addLoop len pos cur added l).2.2) = addAll (added, l) (addPieces len pos cur) := by
    intro len pos cur added l
    fun_induction addLoop len pos cur added l with
    | case1 pos cur added l hnone =>
      rw [addPieces_none hnone]
      split <;> rfl
    | case2 pos cur added l field next hsome r hend =>
      rw [addPieces_some hsome, if_pos hend]
      split <;> rfl
    | case3 pos cur added l field next hsome r hend ih =>
      rw [addPieces_some hsome, if_neg hend]
      exact ih
  have hlen : str.length ≠ 0 := fun hnil => hstr (List.eq_nil_of_length_eq_zero hnil)
  rw [Profile.addFromStr, if_neg hlen, ← hloop]

/-- Pieces that all name events: each leaves the copy of the parser. -/
private theorem LinkedEvlist.Follows.addAll {pieces : List (List Char)} (h : s.Follows ns lost evs el log) (added : Int)
    (hknown : ∀ piece ∈ pieces, (evselParse piece).isSome) :
    ∃ s' ns' copies evs', pieces.foldlM LinkedEvlist.addPiece (added, s) =
        .ok ((Profile.addAll (added, el) pieces).1, s') ∧
      s'.Follows (ns ++ ns') (copies ++ lost) evs' (Profile.addAll (added, el) pieces).2 log ∧
      copies.length = ns'.length := by
  induction pieces generalizing s ns lost evs el added with
  | nil => exact ⟨s, [], [], evs, rfl, by simpa [Profile.addAll] using h, rfl⟩
  | cons piece pieces ih =>
    obtain ⟨⟨name, attr⟩, hpiece⟩ := Option.isSome_iff_exists.1 (hknown piece List.mem_cons_self)
    obtain ⟨s₁, evs₁, hadd, h₁⟩ := h.add hpiece
    obtain ⟨s₂, ns₂, copies, evs₂, hloop, h₂, hlen⟩ :=
      ih h₁ (added + (evlistAdd el piece).1) fun p hp => hknown p (List.mem_cons_of_mem _ hp)
    refine ⟨s₂, s.zallocs :: ns₂, copies ++ [s.mem.strings.next], evs₂, ?_, ?_, by simp [hlen]⟩
    · rw [List.foldlM_cons, LinkedEvlist.addPiece, hadd]
      exact hloop
    · rw [List.append_assoc] at h₂ ⊢
      exact h₂

/-- The strings change, but not the names of the events. -/
private theorem LinkedEvlist.Follows.setStrings {strings : Store (List Char)} {lost' : List Nat}
    (h : s.Follows ns lost evs el log)
    (howned : strings.Owned (ns.filterMap (fun n => (s.evsels n).name) ++ lost'))
    (hkept : ∀ a ∈ ns.filterMap (fun n => (s.evsels n).name), strings.obj a = s.mem.strings.obj a) :
    ({ s with mem := { s.mem with strings := strings } } : LinkedEvlist).Follows ns lost' evs el log := by
  refine ⟨⟨h.holds.links, h.holds.old, h.holds.nrEntries, fun n hn => ?_, howned, h.holds.arrays, h.holds.maps⟩,
    h.entries, h.counted, h.map, h.log_eq, h.fits⟩
  exact (h.holds.reads n hn).frame (fun a ha => hkept a (List.mem_filterMap.2 ⟨n, hn, ha⟩)) (fun _ _ => rfl)
    fun _ _ => rfl

/-- `prof_evlist__add_from_str` for a string whose pieces all name events. -/
theorem LinkedEvlist.Follows.addFromStr (h : s.Follows ns lost evs el log)
    (hknown : ∀ piece ∈ addPieces str.length 0 str, (evselParse piece).isSome) :
    ∃ s' ns' copies evs', s.addFromStr str = .ok ((Profile.addFromStr el str).1, s') ∧
      s'.Follows (ns ++ ns') (copies ++ lost) evs' (Profile.addFromStr el str).2 log ∧
      copies.length = ns'.length := by
  by_cases hstr : str = []
  · refine ⟨s, [], [], evs, ?_, ?_, rfl⟩
    · simp [LinkedEvlist.addFromStr, Profile.addFromStr, hstr]
    · simpa [Profile.addFromStr, hstr] using h
  · have hlen : str.length ≠ 0 := fun hnil => hstr (List.eq_nil_of_length_eq_zero hnil)
    have howned := h.holds.strings
    have htmp := h.setStrings ((howned.alloc str).perm List.perm_middle)
      fun a ha => Store.obj_alloc_of_lt (howned.lt_next (List.mem_append_left _ ha))
    obtain ⟨s₁, ns₁, copies, evs₁, hloop, h₁, hcopies⟩ := htmp.addAll 0 hknown
    -- the copy of the whole string is freed
    have hperm : s.mem.strings.next :: ((ns ++ ns₁).filterMap (fun n => (s₁.evsels n).name) ++ (copies ++ lost)) ~
        (ns ++ ns₁).filterMap (fun n => (s₁.evsels n).name) ++ (copies ++ s.mem.strings.next :: lost) := by
      rw [← List.append_assoc, ← List.append_assoc]
      exact List.perm_middle.symm
    obtain ⟨strings, hfree, howned₁, hkept⟩ := (h₁.holds.strings.perm hperm).release
    rw [addFromStr_eq el hstr]
    refine ⟨_, ns₁, copies, evs₁, ?_, h₁.setStrings howned₁ fun a ha => hkept a (List.mem_append_left _ ha), hcopies⟩
    simp only [LinkedEvlist.addFromStr, if_neg hlen, hloop, hfree, ok_bind]
    rfl

/-! ### Deleting -/

/-- The structures `ns` are left of a list whose events are closed and whose map is freed. -/
structure LinkedEvlist.Closed (s : LinkedEvlist) (ns lost : List Nat) (log : List Syscall) : Prop where
  links : Links.Represents ⟨[(.head, ns.map .evsel)], []⟩ s.links
  isOpen : ∀ n ∈ ns, (s.evsels n).isOpen = false
  strings : s.mem.strings.Owned (ns.filterMap (fun n => (s.evsels n).name) ++ lost)
  arrays : s.mem.arrays.Owned (ns.filterMap fun n => (s.evsels n).perThread)
  maps : s.mem.maps.Owned []
  log_eq : s.mem.log = log

/-- The map is gone, but a closed event does not look at it. -/
private theorem LinkedEvlist.Closed.deleteEvsel (h : s.Closed (n :: ns) lost log) :
    ∃ s', s.deleteEvsel (.evsel n) = .ok s' ∧ s'.Closed ns lost log := by
  have hlinks : Links.Represents ⟨[(.head, [] ++ .evsel n :: ns.map .evsel)], []⟩ s.links := h.links
  obtain ⟨links₁, h1, hlinks₁⟩ := hlinks.listDelInit
  obtain ⟨links₂, h2, hlinks₂⟩ := (hlinks₁.forget (.loosen _ _ _)).free
  have hstrings := h.strings
  have harrays := h.arrays
  rw [filterMap_cons_toList, List.append_assoc] at hstrings
  rw [filterMap_cons_toList] at harrays
  obtain ⟨strings, hname, hstrings', -⟩ := hstrings.release_toList
  obtain ⟨arrays, harray, harrays', -⟩ := harrays.release_toList
  have hclosed : (s.evsels n).closeOpen s.mem = .ok (s.evsels n, s.mem) := by
    rw [EvselCell.closeOpen, h.isOpen n List.mem_cons_self]
    rfl
  refine ⟨{ s with links := links₂, mem := { s.mem with strings := strings, arrays := arrays } }, ?_, hlinks₂,
    fun b hb => h.isOpen b (List.mem_cons_of_mem _ hb), hstrings', harrays', h.maps, h.log_eq⟩
  simp only [LinkedEvlist.deleteEvsel, h1, EvselCell.delete, hclosed, hname, harray, h2, ok_bind, pure_eq_ok]

/-- The structures that are left, by their places. -/
def ClosedAt (lost : List Nat) (log : List Syscall) (xs : List EvPlace) (s : LinkedEvlist) : Prop :=
  ∃ ns, xs = ns.map .evsel ∧ s.Closed ns lost log

/-- The loop takes the first structure out of those that are left. -/
private theorem LinkedEvlist.Closed.deleteAll (h : s.Closed ns lost log) (fuel : Nat) (hfuel : ns.length < fuel) :
    ∃ s', listForEachSafe LinkedEvlist.links LinkedEvlist.deleteEvsel .head fuel s = .ok (some s') ∧
      s'.Closed [] lost log := by
  have hlinks : ∀ xs s, ClosedAt lost log xs s →
      ∃ rings loose, Links.Represents ⟨(.head, xs) :: rings, loose⟩ s.links := by
    intro xs s hs
    obtain ⟨ns, rfl, hs⟩ := hs
    exact ⟨[], [], hs.links⟩
  have hbody : ∀ e xs s, ClosedAt lost log (e :: xs) s → ∃ s', s.deleteEvsel e = .ok s' ∧ ClosedAt lost log xs s' := by
    intro e xs s hs
    obtain ⟨ns, heq, hs⟩ := hs
    obtain ⟨n, ns, rfl, rfl, rfl⟩ := List.map_eq_cons_iff.1 heq.symm
    obtain ⟨s', hcall, hs'⟩ := hs.deleteEvsel
    exact ⟨s', hcall, ns, rfl, hs'⟩
  rw [← List.length_map EvPlace.evsel] at hfuel
  obtain ⟨s', hloop, ns', hnil, h'⟩ := listForEachSafe_rule hlinks hbody ⟨ns, rfl, h⟩ hfuel
  obtain rfl := List.map_eq_nil_iff.1 hnil.symm
  exact ⟨s', hloop, h'⟩

private theorem isOpen_evselClose (ev : Evsel) (log : List Syscall) : (evselClose ev log).1.isOpen = false := by
  unfold evselClose
  split
  · rename_i hclosed
    simpa using hclosed
  · rfl

/-- Everything is freed but the strings `lost`. -/
structure LinkedEvlist.Freed (s : LinkedEvlist) (lost : List Nat) : Prop where
  links : ∀ p, s.links.live p = false
  maps : s.mem.maps.Owned []
  arrays : s.mem.arrays.Owned []
  strings : s.mem.strings.Owned lost

/-- `prof_evlist__delete` frees the list and what it owns. -/
theorem LinkedEvlist.Follows.delete (h : s.Follows ns lost evs el log) :
    ∃ s', s.delete = .ok (some s') ∧ s'.mem.log = evlistDelete el.toEvlist log ∧ s'.Freed lost := by
  obtain ⟨s₁, evs₁, hclose, h₁, hevs, hlog, hthreads, hmaps⟩ := h.holds.forEach true carries_close rfl h.fits_evs
  simp only [if_true, h.log_eq] at hevs hlog
  have hlog' : s₁.mem.log = evlistDelete el.toEvlist log := by
    rw [hlog, List.map_reverse, h.entries]
    rfl
  have hclosed : ∀ n ∈ ns, (s₁.evsels n).isOpen = false := by
    intro n hn
    rw [(h₁.reads n hn).isOpen]
    have hall : ∀ ev ∈ ns.reverse.map evs₁, ev.isOpen = false := by
      rw [hevs]
      exact forEach_all (P := fun _ => True) (fun ev log _ => isOpen_evselClose ev log) (fun _ _ => trivial) log
    exact hall _ (List.mem_map_of_mem (List.mem_reverse.2 hn))
  have howned := h₁.maps
  rw [← List.append_nil s₁.threads.toList] at howned
  obtain ⟨maps, hfree, hmaps', -⟩ := howned.release_toList
  have hstart : ({ s₁ with threads := none, mem := { s₁.mem with maps := maps } } : LinkedEvlist).Closed ns lost
      (evlistDelete el.toEvlist log) := ⟨h₁.links, hclosed, h₁.strings, h₁.arrays, hmaps', hlog'⟩
  obtain ⟨s₂, hloop, h₂⟩ := hstart.deleteAll (s₁.nrEntries + 1) (by rw [h₁.nrEntries]; exact Nat.lt_succ_self _)
  obtain ⟨links, hhead, hlinks'⟩ := (h₂.links.forget (.loosen _ _ _)).free
  refine ⟨{ s₂ with links := links, nrEntries := 0 }, ?_, h₂.log_eq, fun p => ?_, h₂.maps, h₂.arrays, h₂.strings⟩
  · simp only [LinkedEvlist.delete, hclose, whenEnded_some, LinkedEvlist.deleteClosed, hfree, ok_bind, hloop, hhead]
    rfl
  · have hlive := hlinks'.live p
    simpa [Links.Lists.cells] using hlive

end StubProfile.Profile
