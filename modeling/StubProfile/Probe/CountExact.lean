import StubProfile.Lib.Machine
import StubProfile.Lib.Table
import StubProfile.Probe.Cases
import StubProfile.Tools.TargetRange

/-!
# From the target indices to the counters

The instrumenter computes the range of the target indices and has the program pass it to `funcc_init`; a thread
that is initialised after that makes its counting calls with these indices.  The index of a call is an `unsigned`,
but `funcc_init` keeps the range in two `uint16_t`, and `funcc_data_init` sizes the block from those.

`CountExact` says what the counters should hold.  A whole counting call of an idle thread adds one to the counter
`FUNC_IDX` of its block or faults (`run_countCall`), so a sequence of calls is a sequence of updates of a table
(`run_countCalls`), and the counts are right exactly when every target has a counter in the block
(`countExact_iff_fits`).  What that means for the indices is arithmetic on the truncated range (`fits_iff`).
-/

namespace StubProfile.Probe

open Machine Table Tools

variable {τ φ : Type} [DecidableEq τ] {σ σ' : State τ} {t u : τ} {m : Bool} {targets : List (TargetFunc φ)}

/-- The steps of one whole counting call.  The outcome of `malloc` is not used by a thread that is initialised. -/
def countCall (t : τ) (c : Kind × UInt32) : List (Call τ) :=
  [.countEnter t c.1 c.2 true, .countStep t, .countStep t, .countStep t]

/-- The library was initialised by `t₀` with the range of the targets, and then `t` successfully (unless it is
`t₀` itself, whose initialisation is part of `funcc_init`). -/
def InitialisedFor (targets : List (TargetFunc φ)) (t : τ) (σ : State τ) : Prop :=
  (σ.info t).state = .idle ∧ ∃ t₀ m₀ m, run (step funccHooks) (State.initial τ)
    [.funccInit t₀ (calculateRange targets).min (calculateRange targets).max m₀, .probeThreadInit t m] = .ok σ

/-- For every sequence of counting calls an initialised thread makes with the target indices, the accesses are
inside the block, the two counts of each index are the numbers of its calls, and different indices have different
counters. -/
def CountExact (t : τ) (targets : List (TargetFunc φ)) : Prop :=
  ∀ σ, InitialisedFor targets t σ →
    ∀ calls : List (Kind × UInt32), (∀ c ∈ calls, ∃ f ∈ targets, f.index = c.2) →
      (∀ c ∈ calls, funcIdx σ.idxRange c.2 < nbCounter σ.idxRange) ∧
      (∃ σ' p, run (step funccHooks) σ (calls.flatMap (countCall t)) = .ok σ' ∧ (σ'.info t).data = some p ∧
        ∀ f ∈ targets, ∃ c, (σ'.heap p)[(funcIdx σ'.idxRange f.index).toNat]? = some c ∧
          c.preCount.toNat = calls.count (.pre, f.index) % 2 ^ 64 ∧
          c.postCount.toNat = calls.count (.post, f.index) % 2 ^ 64) ∧
      ∀ f ∈ targets, ∀ g ∈ targets, f.index ≠ g.index →
        funcIdx σ.idxRange f.index ≠ funcIdx σ.idxRange g.index

/-- The targets for which the counts come out right: there are none, all indices fit in 16 bits, or `lo` and `hi`
are the smallest and the largest index and the truncated range is not used (`hi` looks like `UINT16_MAX`, so no
thread is ever initialised) or is so far off that the size of the block wraps round to almost 4 GiB, which are
enough by accident. -/
def IndicesFit (targets : List (TargetFunc φ)) : Prop :=
  targets = [] ∨ (∀ f ∈ targets, f.index.toNat < 2 ^ 16) ∨
    ∃ lo ∈ targets, ∃ hi ∈ targets, (∀ f ∈ targets, lo.index ≤ f.index ∧ f.index ≤ hi.index) ∧
      (hi.index.toNat % 2 ^ 16 = 65535 ∨
        (hi.index.toNat % 2 ^ 16 + 1 < lo.index.toNat % 2 ^ 16 ∧
          hi.index.toNat ≤ 2 ^ 28 + hi.index.toNat % 2 ^ 16))

/-! ### One counting call -/

/-- A thread whose initialisation has just succeeded. -/
structure Ready (σ : State τ) (t : τ) (p : Nat) : Prop where
  idle : (σ.info t).state = .idle
  data : (σ.info t).data = some p
  alive : p ∉ σ.freed
  outside : σ.pc t = .outside

def State.withBlock (σ : State τ) (p : Nat) (counters : List FunccCounter) : State τ :=
  { σ with heap := Function.update σ.heap p counters }

private theorem Ready.enter {p : Nat} (h : Ready σ t p) (k : Kind) (func : UInt32) :
    step funccHooks σ (.countEnter t k func true) = .ok (σ.setPc t (.entering k func)) := by
  simp [step, funccCountEnter, h.outside, h.idle]

private theorem step_entering {k : Kind} {func : UInt32} :
    step funccHooks (σ.setPc t (.entering k func)) (.countStep t) =
      .ok ((σ.setState t .running).setPc t (.counting k func)) := by
  simp [step, funccCountStep, State.setPc, State.setState]

private theorem setState_back (hidle : (σ.info t).state = .idle) :
    Function.update (Function.update σ.info t { σ.info t with state := .running }) t
      { σ.info t with state := .idle } = σ.info := by
  rw [Function.update_idem, ← hidle]
  exact Function.update_eq_self t σ.info

private theorem setPc_back {p : Pc} (hout : σ.pc t = .outside) :
    Function.update (Function.update σ.pc t p) t .outside = σ.pc := by
  rw [Function.update_idem, ← hout]
  exact Function.update_eq_self t σ.pc

/-- A whole counting call adds one to a counter of the block. -/
theorem run_countCall {p : Nat} (h : Ready σ t p) (c : Kind × UInt32)
    (hlt : (funcIdx σ.idxRange c.2).toNat < (σ.heap p).length) :
    run (step funccHooks) σ (countCall t c) =
      .ok (σ.withBlock p ((σ.heap p).modify (funcIdx σ.idxRange c.2).toNat (FunccCounter.bump c.1))) := by
  unfold countCall
  rw [run_cons_ok _ (h.enter c.1 c.2), run_cons_ok _ step_entering]
  have hinc : step funccHooks ((σ.setState t .running).setPc t (.counting c.1 c.2)) (.countStep t) =
      .ok (((σ.withBlock p ((σ.heap p).modify (funcIdx σ.idxRange c.2).toNat (FunccCounter.bump c.1))).setState t
        .running).setPc t .leaving) := by
    simp [step, funccCountStep, increment, State.setState, State.setPc, State.withBlock, h.data, h.alive, hlt]
  rw [run_cons_ok _ hinc]
  simp only [run, step, funccCountStep, State.setState, State.setPc, State.withBlock, Function.update_self]
  rw [setState_back h.idle, setPc_back h.outside]

private theorem run_countCall_badIndex {p : Nat} (h : Ready σ t p) (c : Kind × UInt32)
    (hge : (σ.heap p).length ≤ (funcIdx σ.idxRange c.2).toNat) :
    run (step funccHooks) σ (countCall t c) = .error .badIndex := by
  unfold countCall
  rw [run_cons_ok _ (h.enter c.1 c.2), run_cons_ok _ step_entering]
  have hinc : step funccHooks ((σ.setState t .running).setPc t (.counting c.1 c.2)) (.countStep t) =
      .error .badIndex := by
    simp [step, funccCountStep, increment, State.setState, State.setPc, h.data, h.alive, Nat.not_lt.2 hge]
  simp only [run, hinc]

omit [DecidableEq τ] in
private theorem Ready.withBlock {p : Nat} (h : Ready σ t p) (counters : List FunccCounter) :
    Ready (σ.withBlock p counters) t p :=
  ⟨h.idle, h.data, h.alive, h.outside⟩

/-! ### A sequence of counting calls -/

/-- The calls update the block as a table of counters. -/
theorem run_countCalls {p : Nat} (calls : List (Kind × UInt32)) (h : Ready σ t p)
    (hlt : ∀ c ∈ calls, (funcIdx σ.idxRange c.2).toNat < (σ.heap p).length) :
    run (step funccHooks) σ (calls.flatMap (countCall t)) =
      .ok (σ.withBlock p (applyAll (fun c => (funcIdx σ.idxRange c.2).toNat) (fun c => FunccCounter.bump c.1) calls
        (σ.heap p))) := by
  induction calls generalizing σ with
  | nil => simp [applyAll, State.withBlock, Function.update_eq_self]
  | cons c calls ih =>
    rw [List.flatMap_cons]
    apply run_append_eq_ok.2
    refine ⟨_, run_countCall h c (hlt c (by simp)), ?_⟩
    rw [ih (h.withBlock _) ?_]
    · simp [State.withBlock, applyAll_cons]
    · intro d hd
      have := hlt d (by simp [hd])
      simpa [State.withBlock] using this

private theorem foldl_bump (l : List (Kind × UInt32)) (c : FunccCounter) :
    (l.foldl (fun c d => FunccCounter.bump d.1 c) c).preCount =
        c.preCount + UInt64.ofNat (l.countP fun d => d.1 = .pre) ∧
      (l.foldl (fun c d => FunccCounter.bump d.1 c) c).postCount =
        c.postCount + UInt64.ofNat (l.countP fun d => d.1 = .post) := by
  induction l generalizing c with
  | nil => simp
  | cons d l ih =>
    obtain ⟨h1, h2⟩ := ih (FunccCounter.bump d.1 c)
    rw [List.foldl_cons, h1, h2]
    cases hd : d.1 <;>
      simp [FunccCounter.bump, hd, UInt64.ofNat_add, UInt64.add_assoc, UInt64.add_comm]

/-- The updates of the counter of `func` are the calls with `func`, when no other index shares the counter. -/
private theorem countP_filter_eq_count (ix : UInt32 → Nat) (calls : List (Kind × UInt32)) (k : Kind) (func : UInt32)
    (hinj : ∀ c ∈ calls, ix c.2 = ix func → c.2 = func) :
    (calls.filter fun c => ix c.2 = ix func).countP (fun c => c.1 = k) = calls.count (k, func) := by
  rw [List.countP_filter, List.count]
  apply List.countP_congr
  intro c hc
  obtain ⟨k', g⟩ := c
  simp only [Bool.and_eq_true, decide_eq_true_eq, beq_iff_eq, Prod.mk.injEq]
  constructor
  · rintro ⟨hk, hix⟩
    exact ⟨hk, hinj _ hc hix⟩
  · rintro ⟨hk, rfl⟩
    exact ⟨hk, rfl⟩

/-- The counter of `func` after the calls, in a block that starts with zeroes. -/
private theorem counter_applyAll (ix : UInt32 → Nat) {n : Nat} (calls : List (Kind × UInt32)) {func : UInt32}
    (hfunc : ix func < n) (hinj : ∀ c ∈ calls, ix c.2 = ix func → c.2 = func) :
    ∃ c, (applyAll (fun c => ix c.2) (fun c => FunccCounter.bump c.1) calls (List.replicate n ⟨0, 0⟩))[ix func]? =
        some c ∧
      c.preCount.toNat = calls.count (.pre, func) % 2 ^ 64 ∧
      c.postCount.toNat = calls.count (.post, func) % 2 ^ 64 := by
  rw [getElem?_applyAll, List.getElem?_replicate, if_pos hfunc]
  refine ⟨_, rfl, ?_, ?_⟩
  · rw [(foldl_bump _ _).1, countP_filter_eq_count ix calls .pre func hinj]
    simp
  · rw [(foldl_bump _ _).2, countP_filter_eq_count ix calls .post func hinj]
    simp

/-! ### Initialisation -/

/-- The range as `funcc_init` keeps it. -/
def passedRange (targets : List (TargetFunc φ)) : Range :=
  ⟨(calculateRange targets).min.toUInt16, (calculateRange targets).max.toUInt16⟩

private theorem probeThreadInit_ready (h : probeThreadInit funccHooks t m σ = .ok σ') (hrun : σ.InitRuns t)
    (hidle : (σ'.info t).state = .idle) (hfreed : σ.freed = []) (hpc : σ.pc t = .outside) :
    ∃ p, Ready σ' t p ∧ σ'.heap p = List.replicate (dataEntries σ.idxRange) ⟨0, 0⟩ ∧ σ.idxRange.max ≠ 65535 := by
  obtain ⟨-, f2, f3, -, -⟩ := probeThreadInit_frame h
  rcases probeThreadInit_cases h with ⟨hn, -⟩ | ⟨-, σ₁, hg, rfl⟩
  · exact absurd hrun hn
  have hrange : σ₁.idxRange = σ.idxRange := by
    rcases generateTid_cases hg with ⟨-, -, rfl⟩ | ⟨-, rfl⟩ <;> rfl
  cases hready : funccHooks.ready σ₁.idxRange m with
  | false =>
    rw [(createData_of_not_ready hready).1] at hidle
    cases hidle
  | true =>
    simp only [Hooks.ready, funccHooks, funccDataInit] at hready
    split at hready
    · cases hready
    · rename_i hmax
      split at hready
      · rename_i hm
        refine ⟨σ₁.brk, ⟨hidle, ?_, ?_, ?_⟩, ?_, hrange ▸ hmax⟩
        · simp [createData, funccHooks, funccDataInit, hmax, hm, State.setData, State.setState, State.setInited]
        · simp [f2, hfreed]
        · rw [f3, hpc]
        · rw [← hrange]
          simp [createData, funccHooks, funccDataInit, hmax, hm, State.setData, State.setState, State.setInited]
      · cases hready

private theorem InitialisedFor.ready (h : InitialisedFor targets t σ) :
    σ.idxRange = passedRange targets ∧ (passedRange targets).max ≠ 65535 ∧
      ∃ p, Ready σ t p ∧ σ.heap p = List.replicate (dataEntries (passedRange targets)) ⟨0, 0⟩ := by
  obtain ⟨hidle, t₀, m₀, m, hr⟩ := h
  obtain ⟨σ₁, h1, h2⟩ := run_cons_eq_ok.1 hr
  obtain ⟨σ₂, h2, h3⟩ := run_cons_eq_ok.1 h2
  cases h3
  have h1' : probeThreadInit funccHooks t₀ m₀
      { State.initial τ with idxRange := passedRange targets, ctlState := .running } = .ok σ₁ := h1
  have h2' : probeThreadInit funccHooks t m σ₁ = .ok σ := h2
  obtain ⟨f1, f2, f3, f4, f5⟩ := probeThreadInit_frame h1'
  by_cases ht : t = t₀
  · -- the thread was initialised inside `funcc_init`, the second call finds it so
    subst ht
    have hsame : σ = σ₁ := by
      rcases probeThreadInit_cases h2' with ⟨-, rfl⟩ | ⟨hrun, -⟩
      · rfl
      · rcases probeThreadInit_cases h1' with ⟨hn, -⟩ | ⟨-, σ₃, -, rfl⟩
        · exact absurd ⟨rfl, rfl⟩ hn
        · exact absurd hrun.2 (createData_state_ne _ _ _ _)
    subst hsame
    obtain ⟨p, hp, hheap, hmax⟩ := probeThreadInit_ready h1' ⟨rfl, rfl⟩ hidle rfl rfl
    exact ⟨f1, hmax, p, hp, hheap⟩
  · have hrun : σ₁.InitRuns t := by
      refine ⟨f4, ?_⟩
      rw [f5 t ht]
      rfl
    obtain ⟨p, hp, hheap, hmax⟩ := probeThreadInit_ready h2' hrun hidle f2 (by rw [f3]; rfl)
    rw [f1] at hheap hmax
    exact ⟨(probeThreadInit_frame h2').1.trans f1, hmax, p, hp, hheap⟩

/-- Unless the truncated upper bound is `UINT16_MAX`, there is a run that initialises the thread. -/
private theorem exists_initialisedFor (t : τ) (h : (passedRange targets).max ≠ 65535) :
    ∃ σ, InitialisedFor targets t σ := by
  obtain ⟨σ₀, hσ₀⟩ : ∃ σ₀ : State τ,
      σ₀ = { State.initial τ with idxRange := passedRange targets, ctlState := .running } := ⟨_, rfl⟩
  have hready : funccHooks.ready (σ₀.withTid t).idxRange true = true := by
    rw [hσ₀]
    simp [Hooks.ready, funccHooks, funccDataInit, State.withTid, h]
  have hidle := (createData_of_ready (t := t) hready).1
  refine ⟨createData funccHooks t true (σ₀.withTid t), hidle, t, true, true, ?_⟩
  have h1 : step funccHooks (State.initial τ)
      (.funccInit t (calculateRange targets).min (calculateRange targets).max true) =
        .ok (createData funccHooks t true (σ₀.withTid t)) := by
    rw [hσ₀]
    rfl
  have h2 : step funccHooks (createData funccHooks t true (σ₀.withTid t)) (.probeThreadInit t true) =
      .ok (createData funccHooks t true (σ₀.withTid t)) := by
    simp [step, probeThreadInit, hidle]
  rw [run_cons_ok _ h1, run_cons_ok _ h2, run_nil]

/-! ### Which indices have a counter -/

/-- The counter of `func` is below `nb_counter` and inside the block. -/
def Range.Fits (r : Range) (func : UInt32) : Prop :=
  funcIdx r func < nbCounter r ∧ (funcIdx r func).toNat < dataEntries r

private theorem funcIdx_inj {r : Range} {f g : UInt32} (h : funcIdx r f = funcIdx r g) : f = g := by
  unfold funcIdx at h
  exact UInt32.sub_left_inj r.min.toUInt32 |>.1 h

theorem countExact_iff_fits (t : τ) (targets : List (TargetFunc φ)) :
    CountExact t targets ↔
      ((passedRange targets).max ≠ 65535 → ∀ f ∈ targets, (passedRange targets).Fits f.index) := by
  constructor
  · intro h hmax f hf
    obtain ⟨σ, hσ⟩ := exists_initialisedFor t hmax
    obtain ⟨hr, -, p, hp, hheap⟩ := hσ.ready
    obtain ⟨h1, ⟨σ', -, hrun, -⟩, -⟩ := h σ hσ [(.pre, f.index)] (by simpa using ⟨f, hf, rfl⟩)
    rw [hr] at h1
    refine ⟨h1 (.pre, f.index) (by simp), ?_⟩
    by_contra hge
    have hlen : (σ.heap p).length ≤ (funcIdx σ.idxRange f.index).toNat := by
      rw [hheap, hr, List.length_replicate]
      omega
    have hfault := run_countCall_badIndex hp (.pre, f.index) hlen
    simp only [List.flatMap_cons, List.flatMap_nil, List.append_nil] at hrun
    rw [hfault] at hrun
    cases hrun
  · intro h σ hσ calls hcalls
    obtain ⟨hr, hmax, p, hp, hheap⟩ := hσ.ready
    have hfit : ∀ c ∈ calls, (passedRange targets).Fits c.2 := by
      intro c hc
      obtain ⟨f, hf, he⟩ := hcalls c hc
      exact he ▸ h hmax f hf
    refine ⟨fun c hc => hr ▸ (hfit c hc).1, ?_, fun f _ g _ hne he => hne (funcIdx_inj he)⟩
    refine ⟨_, p, run_countCalls calls hp fun c hc => ?_, hp.data, fun f hf => ?_⟩
    · rw [hheap, hr, List.length_replicate]
      exact (hfit c hc).2
    · simp only [State.withBlock, Function.update_self, hheap, hr]
      exact counter_applyAll (fun func => (funcIdx (passedRange targets) func).toNat) calls (h hmax f hf).2
        fun c _ he => funcIdx_inj (UInt32.toNat_inj.1 he)

private theorem fits_iff_lt {r : Range} {f : UInt32} (hf : r.min.toNat ≤ f.toNat) :
    r.Fits f ↔ f.toNat - r.min.toNat < (nbCounter r).toNat ∧ f.toNat - r.min.toNat < dataEntries r := by
  have hle : r.min.toUInt32 ≤ f := by
    rw [UInt32.le_iff_toNat_le, UInt16.toNat_toUInt32]
    exact hf
  have hidx : (funcIdx r f).toNat = f.toNat - r.min.toNat := by
    unfold funcIdx
    rw [UInt32.toNat_sub_of_le _ _ hle, UInt16.toNat_toUInt32]
  unfold Range.Fits
  rw [UInt32.lt_iff_toNat_lt, hidx]

private theorem fits_ordered {r : Range} {f : UInt32} (hr : r.min.toNat ≤ r.max.toNat) (hf : r.min.toNat ≤ f.toNat) :
    r.Fits f ↔ f.toNat ≤ r.max.toNat := by
  have h2 := UInt16.toNat_lt r.max
  rw [fits_iff_lt hf]
  unfold dataEntries dataSize funccThreadSize funccCounterSize
  rw [nbCounter_of_le hr]
  omega

/-- In a range that is out of order `nb_counter` is negative, read as an `unsigned`. -/
private theorem fits_wrapped {r : Range} {f : UInt32} (hr : r.max.toNat < r.min.toNat) (hf : r.min.toNat ≤ f.toNat) :
    r.Fits f ↔ r.max.toNat + 1 < r.min.toNat ∧ f.toNat ≤ 2 ^ 28 + r.max.toNat := by
  have h1 := UInt16.toNat_lt r.min
  rw [fits_iff_lt hf]
  unfold dataEntries dataSize funccThreadSize funccCounterSize
  rw [nbCounter_toNat]
  omega

/-- The range passed to `funcc_init` is that of the smallest and the largest index, in 16 bits. -/
private theorem passedRange_spec (hne : targets ≠ []) (hmax : ∀ f ∈ targets, f.index ≠ uintMax) :
    ∃ lo ∈ targets, ∃ hi ∈ targets, (∀ f ∈ targets, lo.index ≤ f.index ∧ f.index ≤ hi.index) ∧
      (passedRange targets).min.toNat = lo.index.toNat % 2 ^ 16 ∧
      (passedRange targets).max.toNat = hi.index.toNat % 2 ^ 16 := by
  obtain ⟨⟨lo, hlo, hlo'⟩, ⟨hi, hhi, hhi'⟩, hall⟩ := calculateRange_spec hne hmax
  refine ⟨lo, hlo, hi, hhi, ?_, ?_, ?_⟩
  · rw [hlo', hhi']
    exact hall
  · simp only [passedRange, ← hlo', UInt32.toNat_toUInt16]
  · simp only [passedRange, ← hhi', UInt32.toNat_toUInt16]

private theorem fits_iff_indicesFit (hmax : ∀ f ∈ targets, f.index ≠ uintMax) :
    ((passedRange targets).max ≠ 65535 → ∀ f ∈ targets, (passedRange targets).Fits f.index) ↔
      IndicesFit targets := by
  by_cases hne : targets = []
  · subst hne
    exact ⟨fun _ => .inl rfl, fun _ _ f hf => by cases hf⟩
  obtain ⟨lo, hlo, hi, hhi, hall, hmin16, hmax16⟩ := passedRange_spec hne hmax
  have hb : ∀ f ∈ targets, lo.index.toNat ≤ f.index.toNat ∧ f.index.toNat ≤ hi.index.toNat := by
    intro f hf
    rw [← UInt32.le_iff_toNat_le, ← UInt32.le_iff_toNat_le]
    exact hall f hf
  have hsent : (passedRange targets).max = 65535 ↔ hi.index.toNat % 2 ^ 16 = 65535 := by
    rw [← UInt16.toNat_inj, hmax16]
    rfl
  have hge : ∀ f ∈ targets, (passedRange targets).min.toNat ≤ f.index.toNat := by
    intro f hf
    have := (hb f hf).1
    omega
  unfold IndicesFit
  constructor
  · intro h
    by_cases hs : hi.index.toNat % 2 ^ 16 = 65535
    · exact .inr (.inr ⟨lo, hlo, hi, hhi, hall, .inl hs⟩)
    have hfit := h (fun he => hs (hsent.1 he)) hi hhi
    by_cases hord : (passedRange targets).min.toNat ≤ (passedRange targets).max.toNat
    · rw [fits_ordered hord (hge hi hhi), hmax16] at hfit
      refine .inr (.inl fun f hf => ?_)
      have := (hb f hf).2
      omega
    · rw [fits_wrapped (by omega) (hge hi hhi), hmax16, hmin16] at hfit
      exact .inr (.inr ⟨lo, hlo, hi, hhi, hall, .inr hfit⟩)
  · rintro (h | h | ⟨lo', hlo₁, hi', hhi₁, hb', h⟩) hs f hf
    · exact absurd h hne
    · -- the range is kept as it is
      have h1 := h hi hhi
      have h2 := hb f hf
      have h3 := hb lo hlo
      rw [fits_ordered (by omega) (hge f hf), hmax16]
      omega
    · have h1 := UInt32.le_iff_toNat_le.1 (hb' lo hlo).1
      have h2 := UInt32.le_iff_toNat_le.1 (hb' hi hhi).2
      have h3 := hb lo' hlo₁
      have h4 := hb hi' hhi₁
      have h5 := hb f hf
      have hlo₂ : lo'.index.toNat = lo.index.toNat := by omega
      have hhi₂ : hi'.index.toNat = hi.index.toNat := by omega
      rw [hlo₂, hhi₂] at h
      rcases h with h | h
      · exact absurd (hsent.2 h) hs
      · rw [fits_wrapped (by omega) (hge f hf), hmax16, hmin16]
        omega

/-- The counts come out right exactly for the lists of targets that meet `IndicesFit`. -/
theorem countExact_iff (t : τ) (targets : List (TargetFunc φ)) (hmax : ∀ f ∈ targets, f.index ≠ uintMax) :
    CountExact t targets ↔ IndicesFit targets := by
  rw [countExact_iff_fits]
  exact fits_iff_indicesFit hmax

/-- Three targets with small indices. -/
theorem countExact_three_targets :
    CountExact () [(⟨"main", 5⟩ : TargetFunc String), ⟨"parse", 2⟩, ⟨"usage", 9⟩] := by
  apply (countExact_iff () _ ?_).2
  · refine .inr (.inl ?_)
    simp
  · simp [uintMax]

/-- With the targets 0 and 65536 the range passed to `funcc_init` is truncated to 0..0.  A block with one counter
is allocated, and the counting call with the index 65536 writes far behind it. -/
theorem count_outside_block :
    ∃ σ : State Unit, InitialisedFor [(⟨"first", 0⟩ : TargetFunc String), ⟨"last", 65536⟩] () σ ∧
      nbCounter σ.idxRange = 1 ∧ funcIdx σ.idxRange 65536 = 65536 ∧
      run (step funccHooks) σ (countCall () (.pre, 65536)) = .error .badIndex ∧
      ¬ CountExact () [(⟨"first", 0⟩ : TargetFunc String), ⟨"last", 65536⟩] := by
  have hne : (passedRange [(⟨"first", 0⟩ : TargetFunc String), ⟨"last", 65536⟩]).max ≠ 65535 := by decide
  obtain ⟨σ, hσ⟩ := exists_initialisedFor () hne
  obtain ⟨hr, -, p, hp, hheap⟩ := hσ.ready
  have hrange : σ.idxRange = ⟨0, 0⟩ := by
    rw [hr]
    decide
  refine ⟨σ, hσ, ?_, ?_, ?_, ?_⟩
  · rw [hrange]
    decide
  · rw [hrange]
    decide
  · apply run_countCall_badIndex hp
    rw [hheap, hrange, List.length_replicate]
    decide
  · intro h
    have h1 := (h σ hσ [(.pre, 65536)] (by simp)).1 (.pre, 65536) (by simp)
    rw [hrange] at h1
    revert h1
    decide

end StubProfile.Probe
