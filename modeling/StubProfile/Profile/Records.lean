import StubProfile.Lib.Machine
import StubProfile.Profile.Process

/-!
# The records of a thread

Every counting call of a `RUNNING` thread adds one record for each event to the buffer, and `prof_thread_exit`
writes what is in the buffer.  When the buffer is full `__read_count` starts over at its first record; the `fwrite`
that should come before is commented out.  The file so gets the records since the last time the buffer was full
(`Recording.threadExit`), and nothing is lost exactly if that never happened, and if no call was made before the
`prof_count_pre` that initialises the thread (`noSampleLost_iff`).
-/

namespace StubProfile.Profile

open Machine WrapBuffer

variable {τ : Type} [DecidableEq τ] {gettid : τ → Int} {σ σ' : Process τ} {t : τ} {sys : Sys} {env : InitEnv} {el : Evlist}

/-- A counting call with what the hardware counters show in it. -/
structure CountCall where
  kind : Kind
  func : UInt32
  pmc : Nat → UInt64

/-- The steps of one counting call; the calls of `__init_thread` succeed. -/
def CountCall.steps (t : τ) (c : CountCall) : List (Call τ) :=
  [.countEnter t c.kind c.func ⟨true, true⟩, .countRead t c.pmc]

/-- The records of one call, from the event with the number `i` on. -/
def CountCall.records (c : CountCall) (i : Nat) (evs : List Evsel) : List Record :=
  (evs.zipIdx i).map fun p => ⟨c.func.toUInt16, UInt8.ofNat p.2, if p.1.isEnable then c.pmc p.2 else 0⟩

def written (ops : List FileOp) : List Record :=
  ops.flatMap fun op => match op with
    | .write records => records
    | .close => []

/-- When `prof_thread_exit` returns, the data file holds one record for each call and event, in order. -/
def NoSampleLost (gettid : τ → Int) (σ : Process τ) (t : τ) (calls : List CountCall) : Prop :=
  ∃ el σ' ops, σ.evlist = some el ∧
    run (step gettid) σ (calls.flatMap (CountCall.steps t) ++ [.threadExit t]) = .ok σ' ∧
    (σ'.tinfo t).output = some ops ∧ written ops = calls.flatMap fun c => c.records 0 el.entries

/-! ### One counting call -/

private theorem length_records (c : CountCall) (i : Nat) (evs : List Evsel) : (c.records i evs).length = evs.length := by
  simp [CountCall.records]

private theorem length_flatMap_records (calls : List CountCall) (evs : List Evsel) :
    (calls.flatMap fun c => c.records 0 evs).length = calls.length * evs.length := by
  induction calls with
  | nil => simp
  | cons c calls ih =>
    rw [List.flatMap_cons, List.length_append, ih, length_records, List.length_cons, Nat.succ_mul, Nat.add_comm]

/-- With an entry for the thread in every enabled event, the loop of `__read_count` pushes the records. -/
theorem readCount_ok {n : Nat} {tid : Int} {evs : List Evsel} (hs : ∀ ev ∈ evs, ev.Sized n) (h0 : 0 ≤ tid)
    (hn : tid < n) (c : CountCall) (i : Nat) (buf : Buf Record) :
    readCount c.func c.pmc tid i evs buf = .ok (pushAll profRecordCache buf (c.records i evs)) := by
  induction evs generalizing i buf with
  | nil => rfl
  | cons ev evs ih =>
    have hread : evselRdpmc ev tid (c.pmc i) = .ok (if ev.isEnable then c.pmc i else 0) := by
      unfold evselRdpmc
      by_cases hen : ev.isEnable = true
      · obtain ⟨l, hl, hlen⟩ := hs ev (by simp) (.inr hen)
        have hlt : tid < l.length := by omega
        simp [hen, hl, h0, hlt]
      · simp [hen]
    unfold readCount
    simp only [hread]
    rw [ih fun e he => hs e (by simp [he])]
    rfl

/-- The thread is running and its buffer is as the records `recs` leave it. -/
structure Recording (el : Evlist) (σ : Process τ) (t : τ) (recs : List Record) : Prop where
  evlist : σ.evlist = some el
  running : (σ.tinfo t).state = .running
  outside : σ.pc t = .outside
  sized : ∃ n : Nat, (∀ ev ∈ el.entries, ev.Sized n) ∧ 0 ≤ (σ.tinfo t).tid ∧ (σ.tinfo t).tid < n
  output : (σ.tinfo t).output = some []
  holds : Holds profRecordCache (σ.tinfo t).buf recs

private theorem profRecordCache_pos : 0 < profRecordCache := by decide

/-- The second half of a counting call, from a state that would be recording but for the program counter. -/
private theorem Recording.read {recs : List Record} (h : Recording el σ t recs) (gettid : τ → Int) (c : CountCall) :
    ∃ σ', step gettid (σ.setPc t (.reading c.func)) (.countRead t c.pmc) = .ok σ' ∧
      Recording el σ' t (recs ++ c.records 0 el.entries) := by
  obtain ⟨n, hs, h0, hn⟩ := h.sized
  have hread := readCount_ok hs h0 hn c 0 (σ.tinfo t).buf
  refine ⟨((σ.setPc t (.reading c.func)).setTInfo t
    { σ.tinfo t with buf := pushAll profRecordCache (σ.tinfo t).buf (c.records 0 el.entries) }).setPc t .outside, ?_, ?_⟩
  · simp only [step, countRead, Process.setPc, Function.update_self, h.evlist, hread]
  · refine ⟨h.evlist, ?_, ?_, ⟨n, hs, ?_⟩, ?_, ?_⟩
    · simpa [Process.setPc, Process.setTInfo] using h.running
    · simp [Process.setPc]
    · simpa [Process.setPc, Process.setTInfo] using And.intro h0 hn
    · simpa [Process.setPc, Process.setTInfo] using h.output
    · simpa [Process.setPc, Process.setTInfo] using h.holds.pushAll profRecordCache_pos (c.records 0 el.entries)

private theorem Recording.call {recs : List Record} (h : Recording el σ t recs) (gettid : τ → Int) (c : CountCall) :
    ∃ σ', run (step gettid) σ (c.steps t) = .ok σ' ∧ Recording el σ' t (recs ++ c.records 0 el.entries) := by
  obtain ⟨σ', hread, hrec⟩ := h.read gettid c
  have henter : step gettid σ (.countEnter t c.kind c.func ⟨true, true⟩) = .ok (σ.setPc t (.reading c.func)) := by
    simp [step, countEnter, Process.gate, h.outside, h.running]
  refine ⟨σ', ?_, hrec⟩
  unfold CountCall.steps
  rw [run_cons_ok _ henter, run_cons_ok _ hread, run_nil]

/-- The `prof_count_pre` that initialises the thread. -/
private theorem first_call {n : Nat} {threads : ThreadMap} (hel : σ.evlist = some el) (hth : el.threads = some threads)
    (hlen : threads.pids.length = n) (hs : ∀ ev ∈ el.entries, ev.Sized n) (hmem : gettid t ∈ threads.pids)
    (hun : (σ.tinfo t).state = .uninit) (hout : σ.pc t = .outside) (hnb : (σ.tinfo t).buf.nb = 0)
    {c : CountCall} (hk : c.kind = .pre) :
    ∃ σ', run (step gettid) σ (c.steps t) = .ok σ' ∧ Recording el σ' t (c.records 0 el.entries) := by
  have hne := threadMapGetindex_of_mem hmem
  obtain ⟨h0, hn⟩ := threadMapGetindex_bounds hne
  obtain ⟨ti, hti⟩ : ∃ ti, initThread (gettid t) ⟨true, true⟩ σ.evlist (σ.tinfo t) = .ok ti ∧
      ti.state = .running ∧ ti.tid = threadMapGetindex threads (gettid t) ∧ ti.output = some [] ∧ ti.buf.nb = 0 := by
    refine ⟨⟨threadMapGetindex threads (gettid t), .running, some [], true,
      { (σ.tinfo t).buf with cells := fun _ => ⟨0, 0, 0⟩ }⟩, ?_, rfl, rfl, rfl, hnb⟩
    simp [initThread, hel, hth, hne]
  obtain ⟨hinit, hrun, htid, hoff, hbuf⟩ := hti
  have hrec : Recording el (σ.setTInfo t ti) t [] := by
    refine ⟨hel, ?_, hout, ⟨n, hs, ?_⟩, ?_, ?_⟩
    · simpa [Process.setTInfo] using hrun
    · have hbounds : 0 ≤ ti.tid ∧ ti.tid < n := by
        rw [htid]
        omega
      simpa [Process.setTInfo] using hbounds
    · simpa [Process.setTInfo] using hoff
    · simpa [Process.setTInfo] using Holds.empty hbuf
  obtain ⟨σ', hread, hrec'⟩ := hrec.read gettid c
  have henter : step gettid σ (.countEnter t c.kind c.func ⟨true, true⟩) =
      .ok ((σ.setTInfo t ti).setPc t (.reading c.func)) := by
    have hst : ((σ.setTInfo t ti).tinfo t).state = .running := hrec.running
    simp [step, countEnter, Process.gate, hout, hk, hun, hinit, hst]
  refine ⟨σ', ?_, by simpa using hrec'⟩
  unfold CountCall.steps
  rw [run_cons_ok _ henter, run_cons_ok _ hread, run_nil]

/-! ### A sequence of calls -/

private theorem Recording.calls {recs : List Record} (h : Recording el σ t recs) (gettid : τ → Int)
    (calls : List CountCall) :
    ∃ σ', run (step gettid) σ (calls.flatMap (CountCall.steps t)) = .ok σ' ∧
      Recording el σ' t (recs ++ calls.flatMap fun c => c.records 0 el.entries) := by
  induction calls generalizing σ recs with
  | nil => exact ⟨σ, rfl, by simpa using h⟩
  | cons c calls ih =>
    obtain ⟨σ₁, hrun₁, h₁⟩ := h.call gettid c
    obtain ⟨σ₂, hrun₂, h₂⟩ := ih h₁
    refine ⟨σ₂, ?_, by simpa using h₂⟩
    rw [List.flatMap_cons]
    exact run_append_eq_ok.2 ⟨σ₁, hrun₁, hrun₂⟩

/-- A thread that is not initialised ignores `prof_count_post`. -/
private theorem run_posts (hun : (σ.tinfo t).state = .uninit) (hout : σ.pc t = .outside) {posts : List CountCall}
    (hposts : ∀ c ∈ posts, c.kind = .post) :
    run (step gettid) σ (posts.flatMap (CountCall.steps t)) = .ok σ := by
  induction posts with
  | nil => rfl
  | cons c posts ih =>
    have hk : c.kind = .post := hposts c (by simp)
    have henter : step gettid σ (.countEnter t c.kind c.func ⟨true, true⟩) = .ok σ := by
      simp [step, countEnter, Process.gate, hout, hk, hun]
    have hread : step gettid σ (.countRead t c.pmc) = .ok σ := by
      simp [step, countRead, hout]
    rw [List.flatMap_cons]
    refine run_append_eq_ok.2 ⟨σ, ?_, ih fun d hd => hposts d (by simp [hd])⟩
    unfold CountCall.steps
    rw [run_cons_ok _ henter, run_cons_ok _ hread, run_nil]

omit [DecidableEq τ] in
/-- `prof_thread_exit` writes the contents of the buffer. -/
theorem Recording.threadExit {recs : List Record} (h : Recording el σ t recs) :
    ∃ ops, (threadExit (σ.tinfo t)).output = some ops ∧ written ops = (σ.tinfo t).buf.contents := by
  unfold Profile.threadExit
  simp only [h.output]
  split
  · exact ⟨_, rfl, by simp [written]⟩
  · rename_i hnb
    have hzero : (σ.tinfo t).buf.nb = 0 := not_not.1 hnb
    exact ⟨_, rfl, by simp [written, Buf.contents, hzero]⟩

private theorem split_at_pre {calls : List CountCall} (h : ∃ c ∈ calls, c.kind = .pre) :
    ∃ posts c rest, calls = posts ++ c :: rest ∧ (∀ d ∈ posts, d.kind = .post) ∧ c.kind = .pre := by
  obtain ⟨c, hc, hk⟩ := h
  obtain ⟨c', posts, rest, hbefore, hk', hsplit, -⟩ :=
    List.exists_of_eraseP hc (p := fun d : CountCall => decide (d.kind = .pre)) (by simpa using hk)
  refine ⟨posts, c', rest, hsplit, fun d hd => ?_, by simpa using hk'⟩
  have hd' := hbefore d hd
  cases hkd : d.kind with
  | pre => simp [hkd] at hd'
  | post => rfl

/-- What the buffer holds at the end is everything exactly if there was nothing to record, or the calls started with
the one that initialises the thread and never filled the buffer. -/
private theorem contents_eq_all_iff {evs : List Evsel} {posts rest : List CountCall} {c : CountCall} {buf : Buf Record}
    (hk : c.kind = .pre) (hposts : ∀ d ∈ posts, d.kind = .post)
    (h : Holds profRecordCache buf ((c :: rest).flatMap fun c => c.records 0 evs)) :
    buf.contents = ((posts ++ c :: rest).flatMap fun c => c.records 0 evs) ↔
      evs.length = 0 ∨ ((posts ++ c :: rest).head?.map CountCall.kind = some .pre ∧
        (posts ++ c :: rest).length * evs.length < profRecordCache) := by
  have hlen := length_flatMap_records (c :: rest) evs
  by_cases hevs : evs.length = 0
  · have hnil : evs = [] := List.length_eq_zero_iff.1 hevs
    subst hnil
    refine ⟨fun _ => .inl rfl, fun _ => ?_⟩
    have hempty : ∀ l : List CountCall, (l.flatMap fun c => c.records 0 []) = [] := by
      intro l
      apply List.length_eq_zero_iff.1
      rw [length_flatMap_records]
      rfl
    rw [h.contents_eq, hempty, hempty, List.drop_nil]
  · cases posts with
    | nil =>
      rw [List.nil_append, h.contents_eq_iff profRecordCache_pos, hlen]
      simp [hevs, hk]
    | cons d posts =>
      have hd : d.kind = .post := hposts d (by simp)
      simp only [List.cons_append, List.head?_cons, Option.map_some, hd, hevs, false_or, Option.some.injEq, reduceCtorEq,
        false_and, iff_false]
      -- the records of the first call are missing
      intro he
      have h1 := congrArg List.length he
      rw [h.contents_eq, List.length_drop, hlen, ← List.cons_append, length_flatMap_records, List.length_append,
        Nat.add_mul, List.length_cons (a := d), Nat.succ_mul] at h1
      omega

/-- What a run of counting calls and `prof_thread_exit` writes: the calls before the one that initialises the thread
leave no records, and of the others the file gets what the buffer holds. -/
theorem dataFile_holds {parsed : List (List Char × Attr)} (h : profInit sys env (Process.initial τ) = (0, σ))
    (hparsed : env.parsed = some parsed) (gettid : τ → Int) (t : τ) (htask : gettid t ∈ env.tasks)
    {calls posts rest : List CountCall} {c : CountCall} (hcalls : calls = posts ++ c :: rest)
    (hposts : ∀ d ∈ posts, d.kind = .post) (hk : c.kind = .pre) :
    ∃ el σ' ops buf, σ.evlist = some el ∧ el.entries.length = parsed.length ∧
      run (step gettid) σ (calls.flatMap (CountCall.steps t) ++ [.threadExit t]) = .ok σ' ∧
      (σ'.tinfo t).output = some ops ∧ written ops = buf.contents ∧
      Holds profRecordCache buf ((c :: rest).flatMap fun c => c.records 0 el.entries) := by
  obtain ⟨el, parsed', hel, hparsed', hth, hsized, hentries, htinfo, hpc⟩ := profInit_ok h
  rw [hparsed] at hparsed'
  cases hparsed'
  have hun : (σ.tinfo t).state = .uninit := by
    rw [htinfo t]
    rfl
  have hnb : (σ.tinfo t).buf.nb = 0 := by
    rw [htinfo t]
    rfl
  obtain ⟨σ₁, hrun₁, hrec₁⟩ := first_call hel hth rfl hsized htask hun (hpc t) hnb hk
  obtain ⟨σ₂, hrun₂, hrec₂⟩ := hrec₁.calls gettid rest
  obtain ⟨ops, hops, hwritten⟩ := hrec₂.threadExit
  refine ⟨el, σ₂.setTInfo t (threadExit (σ₂.tinfo t)), ops, (σ₂.tinfo t).buf, hel, hentries, ?_, ?_, hwritten, ?_⟩
  · rw [hcalls, List.flatMap_append, List.flatMap_cons, List.append_assoc, List.append_assoc]
    refine run_append_eq_ok.2 ⟨σ, run_posts hun (hpc t) hposts, ?_⟩
    exact run_append_eq_ok.2 ⟨σ₁, hrun₁, run_append_eq_ok.2 ⟨σ₂, hrun₂, rfl⟩⟩
  · simpa [Process.setTInfo] using hops
  · simpa using hrec₂.holds

/-- The run is a function of the calls, so the data file is the one of any run of them. -/
private theorem noSampleLost_iff_written {calls : List CountCall} {ops : List FileOp} (hel : σ.evlist = some el)
    (hrun : run (step gettid) σ (calls.flatMap (CountCall.steps t) ++ [.threadExit t]) = .ok σ')
    (hops : (σ'.tinfo t).output = some ops) :
    NoSampleLost gettid σ t calls ↔ written ops = calls.flatMap fun c => c.records 0 el.entries := by
  constructor
  · rintro ⟨el', σ'', ops', hel', hrun', hops', hall⟩
    rw [hel] at hel'
    cases hel'
    rw [hrun] at hrun'
    cases hrun'
    rw [hops] at hops'
    cases hops'
    exact hall
  · intro hall
    exact ⟨el, σ', ops, hel, hrun, hops, hall⟩

/-- The data file of a thread that is initialised by one of its calls is complete exactly if no event was parsed,
or the first call is a `prof_count_pre` and there are fewer than `PROF_RECORD_CACHE` records. -/
theorem noSampleLost_iff {parsed : List (List Char × Attr)} (h : profInit sys env (Process.initial τ) = (0, σ))
    (hparsed : env.parsed = some parsed) (gettid : τ → Int) (t : τ) (htask : gettid t ∈ env.tasks)
    (calls : List CountCall) (hpre : ∃ c ∈ calls, c.kind = .pre) :
    NoSampleLost gettid σ t calls ↔
      parsed.length = 0 ∨ (calls.head?.map CountCall.kind = some .pre ∧
        calls.length * parsed.length < profRecordCache) := by
  obtain ⟨posts, c, rest, rfl, hposts, hk⟩ := split_at_pre hpre
  obtain ⟨el, σ', ops, buf, hel, hentries, hrun, hops, hwritten, hholds⟩ :=
    dataFile_holds h hparsed gettid t htask rfl hposts hk
  rw [noSampleLost_iff_written hel hrun hops, hwritten, contents_eq_all_iff hk hposts hholds, hentries]

/-- Three calls of one thread, one event: three records. -/
theorem noSampleLost_three_calls :
    NoSampleLost (fun _ : Unit => 100) (profInit goodSys oneEvent (Process.initial Unit)).2 ()
      [⟨.pre, 7, fun _ => 5⟩, ⟨.post, 7, fun _ => 9⟩, ⟨.pre, 8, fun _ => 11⟩] := by
  have hinit : profInit goodSys oneEvent (Process.initial Unit) =
      (0, (profInit goodSys oneEvent (Process.initial Unit)).2) := rfl
  have hparsed : oneEvent.parsed = some [("cycles".toList, ⟨0, 0, false, false⟩)] := rfl
  apply (noSampleLost_iff hinit hparsed _ () (by decide) _ ⟨_, List.mem_cons_self, rfl⟩).2
  exact .inr ⟨rfl, by decide⟩

/-- As many calls as the buffer has cells, and one event: the last record sets the count back to 0, and
`prof_thread_exit` writes nothing. -/
theorem full_buffer_not_written :
    ∃ σ' ops, run (step fun _ : Unit => 100) (profInit goodSys oneEvent (Process.initial Unit)).2
        ((List.replicate profRecordCache (⟨.pre, 7, fun _ => 5⟩ : CountCall)).flatMap (CountCall.steps ()) ++
          [.threadExit ()]) = .ok σ' ∧
      (σ'.tinfo ()).output = some ops ∧ written ops = [] ∧
      ¬ NoSampleLost (fun _ : Unit => 100) (profInit goodSys oneEvent (Process.initial Unit)).2 ()
        (List.replicate profRecordCache ⟨.pre, 7, fun _ => 5⟩) := by
  have hinit : profInit goodSys oneEvent (Process.initial Unit) =
      (0, (profInit goodSys oneEvent (Process.initial Unit)).2) := rfl
  have hparsed : oneEvent.parsed = some [("cycles".toList, ⟨0, 0, false, false⟩)] := rfl
  have hsplit : List.replicate profRecordCache (⟨.pre, 7, fun _ => 5⟩ : CountCall) =
      [] ++ ⟨.pre, 7, fun _ => 5⟩ :: List.replicate (profRecordCache - 1) ⟨.pre, 7, fun _ => 5⟩ := by
    rw [List.nil_append, ← List.replicate_succ, Nat.sub_add_cancel profRecordCache_pos]
  obtain ⟨el, σ', ops, buf, hel, hentries, hrun, hops, hwritten, hholds⟩ :=
    dataFile_holds hinit hparsed (fun _ => 100) () (by decide) hsplit (fun _ hd => absurd hd List.not_mem_nil) rfl
  rw [List.nil_append] at hsplit
  rw [← hsplit] at hholds
  have hlen := length_flatMap_records (List.replicate profRecordCache ⟨.pre, 7, fun _ => 5⟩) el.entries
  rw [hentries, List.length_replicate, List.length_singleton, Nat.mul_one] at hlen
  have hnone : written ops = [] := by
    rw [hwritten, hholds.contents_eq, hlen, Nat.mod_self, Nat.sub_zero]
    exact List.drop_of_length_le (Nat.le_of_eq hlen)
  refine ⟨σ', ops, hrun, hops, hnone, ?_⟩
  rw [noSampleLost_iff_written hel hrun hops, hnone]
  intro hall
  rw [← hall] at hlen
  exact absurd hlen (by decide)

end StubProfile.Profile
