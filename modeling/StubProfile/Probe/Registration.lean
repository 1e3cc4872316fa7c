import Mathlib.Data.List.Dedup
import Mathlib.Data.List.Nodup
import Mathlib.Data.List.Perm.Subperm
import StubProfile.Probe.Cases

/-!
# Registering threads

`probe_thread_init` gives a thread its number and a slot of `threads[PROBE_THREAD_NB_MAX]`.  Here the calls of many
threads run interleaved: a call is split between the tests, the fetch-and-add with the store behind it, and the rest.
The slot is not read by the other calls, so the store is taken together with the fetch-and-add.

The threads get the numbers 0, 1, 2, … in the order of their fetch-and-adds (`Registration.Ordered`), as `uint8_t` and
without a look at the size of the table.  A thread gets there with its second turn (`Registration.Paced`), so all goes
well exactly if at most `PROBE_THREAD_NB_MAX` threads have two turns.
-/

namespace StubProfile.Probe

variable {τ : Type} [DecidableEq τ] {hk : Hooks} {r : Range}

/-- Where a thread stands in its first call of `probe_thread_init`. -/
inductive InitPc where
  | before
  | generating -- past the test of the `tid`, before the fetch-and-add
  | creating -- before the thread-local data
  | done
deriving DecidableEq, Repr

/-- The library with the calls in progress; `stores` lists the stores to `threads[]`, the threads with their index. -/
structure Registration (τ : Type) where
  lib : State τ
  pos : τ → InitPc
  stores : List (τ × UInt8)

/-- The library has been initialised for the range `r`, and no thread has called it yet. -/
def Registration.start (r : Range) : Registration τ :=
  ⟨{ State.initial τ with ctlState := .running, idxRange := r }, fun _ => .before, []⟩

def Registration.setPos (s : Registration τ) (t : τ) (p : InitPc) : Registration τ :=
  { s with pos := Function.update s.pos t p }

/-- The tests of `probe_thread_init`: where the call goes on. -/
def initTests (σ : State τ) (t : τ) : InitPc :=
  if σ.ctlState ≠ .running then .done
  else if (σ.info t).state ≠ .uninit then .done
  else if (σ.info t).tid > σ.nbThread then .generating
  else .creating

/-- The thread `t` goes on with its call; `m` is the outcome of its `malloc`.  `State.withTid` is the fetch-and-add of
`nb_thread` with the store to `threads[]`, which the source makes without a test of the index. -/
def Registration.step (hk : Hooks) (s : Registration τ) : τ × Bool → Registration τ
  | (t, m) =>
    match s.pos t with
    | .before => s.setPos t (initTests s.lib t)
    | .generating =>
      { s.setPos t .creating with lib := s.lib.withTid t, stores := s.stores ++ [(t, s.lib.nbThread)] }
    | .creating => { s.setPos t .done with lib := createData hk t m s.lib }
    | .done => s

/-- The threads take turns in the order of the list. -/
def Registration.run (hk : Hooks) (s : Registration τ) (turns : List (τ × Bool)) : Registration τ :=
  turns.foldl (Registration.step hk) s

private theorem Registration.run_three (s : Registration τ) (t : τ) (m : Bool) (hbefore : s.pos t = .before) :
    (s.run hk [(t, m), (t, m), (t, m)]).lib =
      match initTests s.lib t with
      | .generating => createData hk t m (s.lib.withTid t)
      | .creating => createData hk t m s.lib
      | _ => s.lib := by
  simp only [Registration.run, List.foldl_cons, List.foldl_nil, Registration.step, hbefore]
  -- after its tests the thread is past the start
  have hpast : initTests s.lib t ≠ .before := by
    unfold initTests
    split_ifs <;> decide
  cases htests : initTests s.lib t with
  | before => exact absurd htests hpast
  | generating => simp [Registration.setPos]
  | creating => simp [Registration.setPos]
  | done => simp [Registration.setPos]

/-- Three turns of one thread in a row are a call of `probe_thread_init`, when there is a slot for it. -/
theorem Registration.run_alone (s : Registration τ) (t : τ) (m : Bool) (hbefore : s.pos t = .before) {σ' : State τ}
    (hcall : probeThreadInit hk t m s.lib = .ok σ') : (s.run hk [(t, m), (t, m), (t, m)]).lib = σ' := by
  rw [s.run_three t m hbefore]
  obtain ⟨hno, rfl⟩ | ⟨⟨hrun, hun⟩, σ₁, hgen, rfl⟩ := probeThreadInit_cases hcall
  · have htests : initTests s.lib t = .done := by
      unfold initTests
      split_ifs with hrun hun
      · rfl
      · rfl
      · exact absurd ⟨not_not.1 hrun, not_not.1 hun⟩ hno
      · exact absurd ⟨not_not.1 hrun, not_not.1 hun⟩ hno
    rw [htests]
  · obtain ⟨htid, -, rfl⟩ | ⟨htid, rfl⟩ := generateTid_cases hgen
    · simp [initTests, hrun, hun, htid]
    · simp [initTests, hrun, hun, UInt8.not_lt.2 htid]

/-! ### The numbers -/

/-- The numbers are handed out in order, modulo 256, and each thread has got at most one. -/
structure Registration.Ordered (s : Registration τ) : Prop where
  counter : s.lib.nbThread = UInt8.ofNat s.stores.length
  numbers : s.stores.map Prod.snd = (List.range s.stores.length).map UInt8.ofNat
  once : (s.stores.map Prod.fst).Nodup
  open_ : ∀ t, s.pos t = .before ∨ s.pos t = .generating → t ∉ s.stores.map Prod.fst

omit [DecidableEq τ] in
private theorem Registration.ordered_start : (Registration.start r : Registration τ).Ordered :=
  ⟨rfl, rfl, List.nodup_nil, fun _ _ => by simp [Registration.start]⟩

private theorem Registration.step_cases (hk : Hooks) (s : Registration τ) (t : τ) (m : Bool) :
    (s.pos t = .before ∧ s.step hk (t, m) = s.setPos t (initTests s.lib t)) ∨
    (s.pos t = .generating ∧ s.step hk (t, m) =
      ⟨s.lib.withTid t, (s.setPos t .creating).pos, s.stores ++ [(t, s.lib.nbThread)]⟩) ∨
    (s.pos t = .creating ∧ s.step hk (t, m) = ⟨createData hk t m s.lib, (s.setPos t .done).pos, s.stores⟩) ∨
    (s.pos t = .done ∧ s.step hk (t, m) = s) := by
  cases hpos : s.pos t with
  | before => exact .inl ⟨rfl, by simp only [Registration.step, hpos]⟩
  | generating => exact .inr (.inl ⟨rfl, by simp only [Registration.step, hpos]⟩)
  | creating =>
    refine .inr (.inr (.inl ⟨rfl, ?_⟩))
    simp only [Registration.step, hpos]
    rfl
  | done => exact .inr (.inr (.inr ⟨rfl, by simp only [Registration.step, hpos]⟩))

/-- A thread that moves on, but not back, keeps out of the threads that may still store. -/
private theorem Registration.pos_of_setPos {s : Registration τ} {t u : τ} {p : InitPc} (hp : p = .creating ∨ p = .done)
    (hu : (s.setPos t p).pos u = .before ∨ (s.setPos t p).pos u = .generating) :
    u ≠ t ∧ (s.pos u = .before ∨ s.pos u = .generating) := by
  have hut : u ≠ t := by
    intro hut
    obtain rfl | rfl := hp <;> simp [Registration.setPos, hut] at hu
  simp only [Registration.setPos, Function.update_of_ne hut] at hu
  exact ⟨hut, hu⟩

private theorem Registration.Ordered.step {s : Registration τ} (h : s.Ordered) (turn : τ × Bool) :
    (s.step hk turn).Ordered := by
  obtain ⟨t, m⟩ := turn
  obtain ⟨hpos, hstep⟩ | ⟨hpos, hstep⟩ | ⟨hpos, hstep⟩ | ⟨-, hstep⟩ := s.step_cases hk t m
  · rw [hstep]
    refine ⟨h.counter, h.numbers, h.once, fun u hu => ?_⟩
    by_cases hut : u = t
    · exact h.open_ u (.inl (hut ▸ hpos))
    · simp only [Registration.setPos, Function.update_of_ne hut] at hu
      exact h.open_ u hu
  · rw [hstep]
    refine ⟨?_, ?_, ?_, fun u hu => ?_⟩
    · simp [State.withTid, h.counter]
    · simp [h.numbers, h.counter, List.range_succ]
    · have hfresh := h.open_ t (.inr hpos)
      rw [List.map_append, List.nodup_append]
      refine ⟨h.once, by simp, fun u hu v hv huv => hfresh ?_⟩
      rw [List.map_singleton, List.mem_singleton] at hv
      rwa [huv, hv] at hu
    · obtain ⟨hut, hu⟩ := Registration.pos_of_setPos (.inl rfl) hu
      simpa [hut] using h.open_ u hu
  · rw [hstep]
    refine ⟨(createData_frame hk t m s.lib).1.trans h.counter, h.numbers, h.once, fun u hu => ?_⟩
    exact h.open_ u (Registration.pos_of_setPos (.inr rfl) hu).2
  · rw [hstep]
    exact h

/-! ### The turns -/

/-- The threads with at least two turns in the schedule `ts`. -/
def twoTurns (ts : List τ) : List τ := ts.dedup.filter fun t => 2 ≤ ts.count t

private theorem mem_twoTurns {ts : List τ} {t : τ} : t ∈ twoTurns ts ↔ 2 ≤ ts.count t := by
  simp only [twoTurns, List.mem_filter, List.mem_dedup, decide_eq_true_eq, and_iff_right_iff_imp]
  exact fun hcount => List.count_pos_iff.1 (by omega)

private theorem nodup_twoTurns (ts : List τ) : (twoTurns ts).Nodup := ts.nodup_dedup.filter _

/-- After the turns of the threads `ts`: a thread does its tests with the first one and its store with the second one.
The tests let a thread pass the store by only when the counter stands at 255. -/
structure Registration.Paced (s : Registration τ) (ts : List τ) : Prop where
  ordered : s.Ordered
  running : s.lib.ctlState = .running
  before : ∀ t, s.pos t = .before ↔ t ∉ ts
  fresh : ∀ t, s.pos t = .before → (s.lib.info t).state = .uninit ∧ (s.lib.info t).tid = 255
  first : ∀ t, s.pos t = .generating → ts.count t = 1
  second : ∀ t ∈ s.stores.map Prod.fst, 2 ≤ ts.count t
  stored : s.stores.length < 255 → ∀ t, s.pos t = .before ∨ s.pos t = .generating ∨ t ∈ s.stores.map Prod.fst

private theorem Registration.paced_start : (Registration.start r : Registration τ).Paced [] where
  ordered := ordered_start
  running := rfl
  before _ := by simp [Registration.start]
  fresh _ _ := ⟨rfl, rfl⟩
  first _ hpos := by simp [Registration.start] at hpos
  second _ hmem := by simp [Registration.start] at hmem
  stored _ _ := .inl rfl

/-- A turn of one thread leaves the others where they are, and undoes no store. -/
private theorem Registration.step_frame (hk : Hooks) (s : Registration τ) (t : τ) (m : Bool) :
    (s.step hk (t, m)).lib.ctlState = s.lib.ctlState ∧ s.stores ⊆ (s.step hk (t, m)).stores ∧
      s.stores.length ≤ (s.step hk (t, m)).stores.length ∧
      ∀ u ≠ t, (s.step hk (t, m)).pos u = s.pos u ∧ (s.step hk (t, m)).lib.info u = s.lib.info u ∧
        (u ∈ (s.step hk (t, m)).stores.map Prod.fst → u ∈ s.stores.map Prod.fst) := by
  obtain ⟨-, hstep⟩ | ⟨-, hstep⟩ | ⟨-, hstep⟩ | ⟨-, hstep⟩ := s.step_cases hk t m
  · rw [hstep]
    exact ⟨rfl, List.Subset.refl _, Nat.le_refl _, fun u hut => ⟨Function.update_of_ne hut _ _, rfl, id⟩⟩
  · rw [hstep]
    refine ⟨rfl, List.subset_append_left _ _, by simp, fun u hut => ?_⟩
    simp [Registration.setPos, State.withTid, hut]
  · rw [hstep]
    refine ⟨(createData_frame hk t m s.lib).2.2.1, List.Subset.refl _, Nat.le_refl _, fun u hut => ?_⟩
    exact ⟨Function.update_of_ne hut _ _, createData_info_other hut, id⟩
  · rw [hstep]
    exact ⟨rfl, List.Subset.refl _, Nat.le_refl _, fun u _ => ⟨rfl, rfl, id⟩⟩

private theorem Registration.Paced.initTests_eq {s : Registration τ} {ts : List τ} {t : τ} (h : s.Paced ts)
    (hpos : s.pos t = .before) : initTests s.lib t = if s.lib.nbThread < 255 then .generating else .creating := by
  obtain ⟨hstate, htid⟩ := h.fresh t hpos
  simp [initTests, h.running, hstate, htid]

/-- What a turn does for the thread itself. -/
private theorem Registration.Paced.turn {s : Registration τ} {ts : List τ} (h : s.Paced ts) (hk : Hooks) (t : τ)
    (m : Bool) : (s.step hk (t, m)).pos t ≠ .before ∧ ((s.step hk (t, m)).pos t = .generating → t ∉ ts) ∧
      (t ∈ (s.step hk (t, m)).stores.map Prod.fst → t ∈ s.stores.map Prod.fst ∨ s.pos t = .generating) ∧
      (s.stores.length < 255 → (s.step hk (t, m)).pos t = .generating ∨ t ∈ (s.step hk (t, m)).stores.map Prod.fst) := by
  obtain ⟨hpos, hstep⟩ | ⟨hpos, hstep⟩ | ⟨hpos, hstep⟩ | ⟨hpos, hstep⟩ := s.step_cases hk t m
  · rw [hstep, h.initTests_eq hpos]
    have hpos' : ∀ p, (s.setPos t p).pos t = p := fun p => Function.update_self _ _ _
    rw [hpos']
    refine ⟨by split <;> decide, fun _ => (h.before t).1 hpos, .inl, fun hfew => .inl (if_pos ?_)⟩
    rw [h.ordered.counter, UInt8.lt_iff_toNat_lt, UInt8.toNat_ofNat']
    exact Nat.lt_of_le_of_lt (Nat.mod_le _ _) hfew
  · rw [hstep]
    simp [Registration.setPos, hpos]
  · rw [hstep]
    refine ⟨by simp [Registration.setPos], by simp [Registration.setPos], .inl, fun hfew => .inr ?_⟩
    simpa [hpos] using h.stored hfew t
  · rw [hstep, hpos]
    refine ⟨by simp, by simp, .inl, fun hfew => .inr ?_⟩
    simpa [hpos] using h.stored hfew t

private theorem Registration.Paced.step {s : Registration τ} {ts : List τ} (h : s.Paced ts) (turn : τ × Bool) :
    (s.step hk turn).Paced (ts ++ [turn.1]) := by
  obtain ⟨t, m⟩ := turn
  obtain ⟨hctl, hkept, hlen, hother⟩ := s.step_frame hk t m
  obtain ⟨hnot, hfirst, hsecond, hstored⟩ := h.turn hk t m
  have hself : (ts ++ [t]).count t = ts.count t + 1 := by simp
  have hcount : ∀ u ≠ t, (ts ++ [t]).count u = ts.count u := fun u hut => by
    simp [Ne.symm hut]
  refine ⟨h.ordered.step (t, m), hctl.trans h.running, fun u => ?_, fun u hu => ?_, fun u hu => ?_, fun u hu => ?_,
    fun hfew u => ?_⟩
  all_goals by_cases hut : u = t
  · subst hut
    simp [hnot]
  · simp [(hother u hut).1, h.before, hut]
  · exact absurd (hut ▸ hu) hnot
  · rw [(hother u hut).2.1]
    exact h.fresh u ((hother u hut).1 ▸ hu)
  · subst hut
    rw [hself, List.count_eq_zero_of_not_mem (hfirst hu)]
  · rw [hcount u hut]
    exact h.first u ((hother u hut).1 ▸ hu)
  · subst hut
    rw [hself]
    obtain hmem | hgen := hsecond hu
    · exact Nat.le_succ_of_le (h.second u hmem)
    · have := h.first u hgen
      omega
  · rw [hcount u hut]
    exact h.second u ((hother u hut).2.2 hu)
  · subst hut
    exact .inr (hstored (by omega))
  · rw [(hother u hut).1]
    exact (h.stored (by omega) u).imp_right (Or.imp_right fun hmem => List.map_subset _ hkept hmem)

private theorem Registration.Paced.run {s : Registration τ} {ts : List τ} (h : s.Paced ts) (turns : List (τ × Bool)) :
    (s.run hk turns).Paced (ts ++ turns.map Prod.fst) := by
  induction turns generalizing s ts with
  | nil => simpa [Registration.run] using h
  | cons turn turns ih => simpa [Registration.run] using ih (h.step turn)

/-- Fewer than 255 stores have been made exactly if that many threads have had two turns. -/
private theorem Registration.Paced.length_le_iff {s : Registration τ} {ts : List τ} (h : s.Paced ts) {n : Nat}
    (hn : n < 255) :
    s.stores.length ≤ n ↔ (twoTurns ts).length ≤ n := by
  constructor
  · intro hfew
    have hsub : twoTurns ts ⊆ s.stores.map Prod.fst := by
      intro t ht
      have hcount := mem_twoTurns.1 ht
      obtain hpos | hpos | hmem := h.stored (by omega) t
      · rw [List.count_eq_zero_of_not_mem ((h.before t).1 hpos)] at hcount
        omega
      · rw [h.first t hpos] at hcount
        omega
      · exact hmem
    have hlen := (List.subperm_of_subset (nodup_twoTurns ts) hsub).length_le
    rw [List.length_map] at hlen
    omega
  · intro hfew
    have hlen := (List.subperm_of_subset h.ordered.once fun t ht => mem_twoTurns.2 (h.second t ht)).length_le
    rw [List.length_map] at hlen
    omega

/-! ### The table -/

/-- Every store is inside of the table, and no two threads have got the same number. -/
def Registration.Safe (s : Registration τ) : Prop :=
  (∀ e ∈ s.stores, e.2.toNat < probeThreadNbMax) ∧ (s.stores.map Prod.snd).Nodup

omit [DecidableEq τ] in
private theorem Registration.Ordered.safe_iff {s : Registration τ} (h : s.Ordered) :
    s.Safe ↔ s.stores.length ≤ probeThreadNbMax := by
  have hmem : ∀ n : UInt8, (∃ e ∈ s.stores, e.2 = n) ↔ ∃ i < s.stores.length, UInt8.ofNat i = n := by
    intro n
    have := congrArg (n ∈ ·) h.numbers
    simpa using this
  constructor
  · intro hsafe
    by_contra hmany
    obtain ⟨e, he, hindex⟩ := (hmem (UInt8.ofNat probeThreadNbMax)).2 ⟨probeThreadNbMax, by omega, rfl⟩
    have := hsafe.1 e he
    rw [hindex] at this
    exact absurd this (by decide)
  · intro hfew
    have hsmall : ∀ i < s.stores.length, (UInt8.ofNat i).toNat = i := by
      intro i hi
      unfold probeThreadNbMax at hfew
      exact Nat.mod_eq_of_lt (show i < 2 ^ 8 by omega)
    refine ⟨fun e he => ?_, ?_⟩
    · obtain ⟨i, hi, hindex⟩ := (hmem e.2).1 ⟨e, he, rfl⟩
      rw [← hindex, hsmall i hi]
      omega
    · rw [h.numbers]
      refine List.Nodup.map_on (fun i hi j hj heq => ?_) List.nodup_range
      rw [← hsmall i (List.mem_range.1 hi), ← hsmall j (List.mem_range.1 hj), heq]

/-- However the threads of a process take turns in their first calls of `probe_thread_init`, no thread stores twice, and
the stores are inside of the table and the numbers distinct exactly if at most 64 threads have two turns. -/
theorem registration_safe_iff (hk : Hooks) (r : Range) (turns : List (τ × Bool)) :
    (((Registration.start r).run hk turns).stores.map Prod.fst).Nodup ∧
      (((Registration.start r).run hk turns).Safe ↔ (twoTurns (turns.map Prod.fst)).length ≤ 64) := by
  have h : ((Registration.start r).run hk turns).Paced (turns.map Prod.fst) := Registration.paced_start.run turns
  exact ⟨h.ordered.once, h.ordered.safe_iff.trans (h.length_le_iff (by decide))⟩

/-- Sixty-five threads, one after the other. -/
def manyThreads : List (Nat × Bool) := (List.range 65).flatMap fun t => [(t, true), (t, true), (t, true)]

/-- The last one stores to `threads[64]`. -/
theorem registration_overflow :
    (64, 64) ∈ ((Registration.start ⟨1, 3⟩).run funccHooks manyThreads).stores ∧
      ¬((Registration.start ⟨1, 3⟩).run funccHooks manyThreads).Safe := by
  have hstore : (64, 64) ∈ ((Registration.start ⟨1, 3⟩).run funccHooks manyThreads).stores := by decide +kernel
  exact ⟨hstore, fun hsafe => absurd (hsafe.1 _ hstore) (by decide)⟩

end StubProfile.Probe
