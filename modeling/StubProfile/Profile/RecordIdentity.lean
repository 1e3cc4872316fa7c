import StubProfile.Profile.OutputFile

/-!
# What a record says

A record has the function in 16 bits and the position of the event in 8 bits, while the functions are numbered with an
`unsigned` and the list of events has any length.  Each counting call that samples, samples all events.  So the records
of a run tell the functions and events apart exactly if the functions differ in their low 16 bits and there are at most
256 events (`records_identified_iff`).
-/

namespace StubProfile.Profile

open Machine WrapBuffer

variable {τ : Type} [DecidableEq τ] {gettid : τ → Int} {σ σ' : Process τ} {t : τ} {el : Evlist}

/-! ### The samples of a run -/

/-- A record with what it is for: the argument of the counting call, and the position of the event in the list. -/
structure Sample where
  func : UInt32
  event : Nat
  record : Record
deriving DecidableEq, Repr

/-- The records of one call with their function and event. -/
def CountCall.samples (c : CountCall) (evs : List Evsel) : List Sample :=
  (c.records 0 evs).mapIdx fun i record => ⟨c.func, i, record⟩

private theorem CountCall.map_record_samples (c : CountCall) (evs : List Evsel) :
    (c.samples evs).map Sample.record = c.records 0 evs :=
  List.ext_getElem (by simp [CountCall.samples]) (by simp [CountCall.samples])

/-- The samples that one step of the process stores. -/
def stepSamples (σ : Process τ) : Call τ → List Sample
  | .countRead t pmc =>
    match σ.pc t, σ.evlist with
    | .reading func, some el => CountCall.samples ⟨.pre, func, pmc⟩ el.entries
    | _, _ => []
  | _ => []

/-- They are what the step pushes into the buffer of the thread. -/
theorem countRead_stores {pmc : Nat → UInt64} (h : countRead t pmc σ = .ok σ') :
    (σ'.tinfo t).buf =
      pushAll profRecordCache (σ.tinfo t).buf ((stepSamples σ (.countRead t pmc)).map Sample.record) := by
  obtain ⟨hpc, hσ'⟩ | ⟨func, el, buf, hpc, hel, hread, hσ'⟩ := countRead_cases h
  · subst hσ'
    simp [stepSamples, hpc, pushAll]
  · subst hσ'
    have hbuf := readCount_eq_ok (c := ⟨.pre, func, pmc⟩) hread
    simp [stepSamples, hpc, hel, Process.setPc, Process.setTInfo, CountCall.map_record_samples, hbuf]

/-- The process with the samples of all threads so far. -/
def sampledStep (gettid : τ → Int) (s : Process τ × List Sample) (c : Call τ) : Except Fault (Process τ × List Sample) :=
  match step gettid s.1 c with
  | .ok σ' => .ok (σ', s.2 ++ stepSamples s.1 c)
  | .error e => .error e

/-- Samples for different functions or different events differ in their records. -/
def Identified (samples : List Sample) : Prop :=
  ∀ a ∈ samples, ∀ b ∈ samples, a.func ≠ b.func ∨ a.event ≠ b.event →
    (a.record.funcIdx, a.record.evIdx) ≠ (b.record.funcIdx, b.record.evIdx)

/-! ### Which samples there are -/

/-- The samples are those of whole calls with `n` events, cut to the width of a record. -/
structure SampledBy (n : Nat) (samples : List Sample) : Prop where
  funcIdx : ∀ a ∈ samples, a.record.funcIdx = a.func.toUInt16
  evIdx : ∀ a ∈ samples, a.record.evIdx = UInt8.ofNat a.event
  event_lt : ∀ a ∈ samples, a.event < n
  all_events : ∀ a ∈ samples, ∀ i < n, ∃ b ∈ samples, b.func = a.func ∧ b.event = i

private theorem SampledBy.nil (n : Nat) : SampledBy n [] := ⟨by simp, by simp, by simp, by simp⟩

private theorem SampledBy.append {n : Nat} {l l' : List Sample} (h : SampledBy n l) (h' : SampledBy n l') :
    SampledBy n (l ++ l') := by
  refine ⟨fun a ha => ?_, fun a ha => ?_, fun a ha => ?_, fun a ha i hi => ?_⟩
  · exact (List.mem_append.1 ha).elim (h.funcIdx a) (h'.funcIdx a)
  · exact (List.mem_append.1 ha).elim (h.evIdx a) (h'.evIdx a)
  · exact (List.mem_append.1 ha).elim (h.event_lt a) (h'.event_lt a)
  · obtain ha | ha := List.mem_append.1 ha
    · obtain ⟨b, hb, hsame⟩ := h.all_events a ha i hi
      exact ⟨b, List.mem_append_left _ hb, hsame⟩
    · obtain ⟨b, hb, hsame⟩ := h'.all_events a ha i hi
      exact ⟨b, List.mem_append_right _ hb, hsame⟩

private theorem SampledBy.samples (c : CountCall) (evs : List Evsel) : SampledBy evs.length (c.samples evs) := by
  have hmem : ∀ a ∈ c.samples evs, a.func = c.func ∧ a.event < evs.length ∧ a.record.funcIdx = a.func.toUInt16 ∧
      a.record.evIdx = UInt8.ofNat a.event := by
    intro a ha
    obtain ⟨i, hi, rfl⟩ := List.mem_mapIdx.1 ha
    simpa [CountCall.records] using hi
  refine ⟨fun a ha => (hmem a ha).2.2.1, fun a ha => (hmem a ha).2.2.2, fun a ha => (hmem a ha).2.1, ?_⟩
  intro a ha i hi
  have hlt : i < (c.records 0 evs).length := by simpa [CountCall.records] using hi
  exact ⟨⟨c.func, i, (c.records 0 evs)[i]⟩, List.mem_mapIdx.2 ⟨i, hlt, rfl⟩, (hmem a ha).1.symm, rfl⟩

/-- A step keeps the event list or deletes it. -/
private theorem step_evlist {c : Call τ} (h : step gettid σ c = .ok σ') : σ'.evlist = σ.evlist ∨ σ'.evlist = none := by
  cases c with
  | countEnter t k func env =>
    obtain ⟨-, rfl⟩ | ⟨-, -, rfl⟩ | ⟨-, -, -, ti, -, rfl⟩ := countEnter_cases h
    · exact .inl rfl
    · exact .inl (σ.gate_evlist t func)
    · exact .inl ((σ.setTInfo t ti).gate_evlist t func)
  | countRead t pmc =>
    obtain ⟨-, rfl⟩ | ⟨func, el, buf, -, -, -, rfl⟩ := countRead_cases h
    · exact .inl rfl
    · exact .inl rfl
  | threadExit t =>
    cases h
    exact .inl rfl
  | exit t =>
    cases h
    exact .inr (profExit_frame t σ).1

omit [DecidableEq τ] in
private theorem stepSamples_sampledBy (hel : σ.evlist = some el ∨ σ.evlist = none) (c : Call τ) :
    SampledBy el.entries.length (stepSamples σ c) := by
  cases c with
  | countRead t pmc =>
    simp only [stepSamples]
    split
    · rename_i func el' hpc hel'
      obtain rfl : el' = el := by simpa [hel'] using hel
      exact SampledBy.samples _ _
    · exact SampledBy.nil _
  | countEnter t k func env => exact SampledBy.nil _
  | threadExit t => exact SampledBy.nil _
  | exit t => exact SampledBy.nil _

private theorem sampledBy_run {l : List (Call τ)} {s s' : Process τ × List Sample}
    (hel : s.1.evlist = some el ∨ s.1.evlist = none) (hs : SampledBy el.entries.length s.2)
    (hrun : run (sampledStep gettid) s l = .ok s') : SampledBy el.entries.length s'.2 := by
  induction l generalizing s with
  | nil =>
    cases hrun
    exact hs
  | cons c l ih =>
    obtain ⟨s₁, hstep, hrest⟩ := run_cons_eq_ok.1 hrun
    unfold sampledStep at hstep
    cases hcall : step gettid s.1 c with
    | error e => simp [hcall] at hstep
    | ok σ₁ =>
      simp only [hcall, Except.ok.injEq] at hstep
      subst hstep
      refine ih ?_ (hs.append (stepSamples_sampledBy hel c)) hrest
      obtain hkept | hnone := step_evlist hcall
      · simpa only [hkept] using hel
      · exact .inr hnone

/-! ### The width of the fields -/

private theorem uint8_ofNat_inj {i j : Nat} (hi : i < 256) (hj : j < 256) (h : UInt8.ofNat i = UInt8.ofNat j) :
    i = j := by
  have := congrArg UInt8.toNat h
  rwa [UInt8.toNat_ofNat', UInt8.toNat_ofNat', Nat.mod_eq_of_lt hi, Nat.mod_eq_of_lt hj] at this

private theorem SampledBy.identified_iff {n : Nat} {samples : List Sample} (h : SampledBy n samples) :
    Identified samples ↔ (samples = [] ∨ n ≤ 256) ∧
      ∀ a ∈ samples, ∀ b ∈ samples, a.func.toUInt16 = b.func.toUInt16 → a.func = b.func := by
  constructor
  · intro hid
    constructor
    · by_contra hno
      obtain ⟨hne, hmany⟩ := not_or.1 hno
      -- the events 0 and 256 of some call
      obtain ⟨a, ha⟩ := List.exists_mem_of_ne_nil _ hne
      obtain ⟨b, hb, hfunc, hevent⟩ := h.all_events a ha 0 (by omega)
      obtain ⟨b', hb', hfunc', hevent'⟩ := h.all_events a ha 256 (by omega)
      refine hid b hb b' hb' (.inr (by omega)) ?_
      rw [h.funcIdx b hb, h.funcIdx b' hb', h.evIdx b hb, h.evIdx b' hb', hfunc, hfunc', hevent, hevent']
      rfl
    · intro a ha b hb hlow
      by_contra hne
      -- the sample of the other function for the same event
      obtain ⟨b', hb', hfunc, hevent⟩ := h.all_events b hb a.event (h.event_lt a ha)
      refine hid a ha b' hb' (.inl (by rwa [hfunc])) ?_
      rw [h.funcIdx a ha, h.funcIdx b' hb', h.evIdx a ha, h.evIdx b' hb', hfunc, hevent, hlow]
  · intro hsmall a ha b hb hdiff hsame
    obtain ⟨hevents, hfuncs⟩ := hsmall
    have hn : n ≤ 256 := hevents.resolve_left fun hnil => by simp [hnil] at ha
    rw [h.funcIdx a ha, h.funcIdx b hb, h.evIdx a ha, h.evIdx b hb, Prod.mk.injEq] at hsame
    have hfunc := hfuncs a ha b hb hsame.1
    have ha' := h.event_lt a ha
    have hb' := h.event_lt b hb
    exact hdiff.elim (fun hne => hne hfunc) fun hne => hne (uint8_ofNat_inj (by omega) (by omega) hsame.2)

/-- Along every run after a successful `prof_init`, the records tell the functions and the events apart exactly if the
functions sampled differ in their low 16 bits and, when anything was sampled, there are at most 256 events. -/
theorem records_identified_iff (gettid : τ → Int) (sys : Sys) (env : InitEnv) (σ : Process τ)
    (hinit : profInit sys env (Process.initial τ) = (0, σ)) (parsed : List (List Char × Attr))
    (hparsed : env.parsed = some parsed) (l : List (Call τ)) (σ' : Process τ) (samples : List Sample)
    (hrun : run (sampledStep gettid) (σ, []) l = .ok (σ', samples)) :
    Identified samples ↔ (samples = [] ∨ parsed.length ≤ 256) ∧
      ∀ a ∈ samples, ∀ b ∈ samples, a.func.toUInt16 = b.func.toUInt16 → a.func = b.func := by
  obtain ⟨el, parsed', hel, hparsed', -, -, hlen, -, -⟩ := profInit_ok hinit
  obtain rfl : parsed' = parsed := Option.some.inj (hparsed'.symm.trans hparsed)
  have h := sampledBy_run (.inl hel) (SampledBy.nil _) hrun
  rw [hlen] at h
  exact h.identified_iff

/-- Two threads, two functions and one event. -/
theorem records_identified_two :
    ∃ σ', run (sampledStep fun b : Bool => if b then 101 else 100)
        ((profInit goodSys oneEvent (Process.initial Bool)).2, [])
        [.countEnter true .pre 7 ⟨true, true⟩, .countEnter false .pre 8 ⟨true, true⟩, .countRead true fun _ => 5,
          .countRead false fun _ => 6] = .ok (σ', [⟨7, 0, ⟨7, 0, 5⟩⟩, ⟨8, 0, ⟨8, 0, 6⟩⟩]) ∧
      Identified [⟨7, 0, ⟨7, 0, 5⟩⟩, ⟨8, 0, ⟨8, 0, 6⟩⟩] := by
  have hinit : profInit goodSys oneEvent (Process.initial Bool) =
      (0, (profInit goodSys oneEvent (Process.initial Bool)).2) := rfl
  refine ⟨_, rfl, ?_⟩
  apply (records_identified_iff (fun b : Bool => if b then 101 else 100) goodSys oneEvent _ hinit _ rfl
    [.countEnter true .pre 7 ⟨true, true⟩, .countEnter false .pre 8 ⟨true, true⟩, .countRead true fun _ => 5,
      .countRead false fun _ => 6] _ _ rfl).2
  exact ⟨.inr (by decide), by decide⟩

/-- The functions 1 and 65537 have the same records. -/
theorem records_same_low_bits :
    ∃ σ', run (sampledStep fun b : Bool => if b then 101 else 100)
        ((profInit goodSys oneEvent (Process.initial Bool)).2, [])
        [.countEnter true .pre 1 ⟨true, true⟩, .countRead true fun _ => 5, .countEnter true .pre 65537 ⟨true, true⟩,
          .countRead true fun _ => 6] = .ok (σ', [⟨1, 0, ⟨1, 0, 5⟩⟩, ⟨65537, 0, ⟨1, 0, 6⟩⟩]) ∧
      ¬ Identified [⟨1, 0, ⟨1, 0, 5⟩⟩, ⟨65537, 0, ⟨1, 0, 6⟩⟩] := by
  refine ⟨_, rfl, fun h => ?_⟩
  exact h ⟨1, 0, ⟨1, 0, 5⟩⟩ (.head _) ⟨65537, 0, ⟨1, 0, 6⟩⟩ (.tail _ (.head _)) (.inl (by decide)) rfl

end StubProfile.Profile
