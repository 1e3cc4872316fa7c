import StubProfile.Lib.Machine
import StubProfile.Probe.Cases

/-!
# The counter report

`funcc_data_free` reports the counters of a thread before it releases them: a line for each function index of the
range, with the index and the two counts.  The loop of `dump_counters` never moves its pointer, so each line has the
counts of the first function, and the report is right exactly if all counters are equal.
-/

namespace StubProfile.Probe

open Machine

variable {τ : Type} [DecidableEq τ] {t : τ} {r : Range} {counters : List FunccCounter}

/-- The report as it is meant: the index of each function with its own counts, in order. -/
def properReport (t : τ) (r : Range) (counters : List FunccCounter) : List (Report τ) :=
  counters.zipIdx.map fun p => ⟨t, UInt32.ofNat (r.min.toNat + p.2), p.1.preCount, p.1.postCount⟩

omit [DecidableEq τ] in
private theorem dumpCounters_eq_iff (hle : r.min ≤ r.max) (hlen : counters.length = r.max.toNat - r.min.toNat + 1)
    (cnt : FunccCounter) :
    dumpCounters t r cnt = properReport t r counters ↔ ∀ c ∈ counters, c = cnt := by
  have hn : (nbCounter r).toNat = counters.length := by rw [nbCounter_of_le hle, hlen]
  have hindex : ∀ i, UInt32.ofNat i + r.min.toUInt32 = UInt32.ofNat (r.min.toNat + i) := by
    intro i
    have hmin : UInt32.ofNat r.min.toNat = r.min.toUInt32 := by
      have hlt : r.min.toNat < 2 ^ 16 := r.min.toNat_lt
      refine UInt32.toNat_inj.1 ?_
      rw [UInt32.toNat_ofNat', UInt16.toNat_toUInt32]
      exact Nat.mod_eq_of_lt (by omega)
    rw [Nat.add_comm, UInt32.ofNat_add, hmin]
  rw [dumpCounters, properReport, hn]
  constructor
  · intro heq c hc
    obtain ⟨i, hi, rfl⟩ := List.getElem_of_mem hc
    have hline := congrArg (·[i]?) heq
    simp only [List.getElem?_map, List.getElem?_range hi, List.getElem?_zipIdx, List.getElem?_eq_getElem hi,
      Option.map_some, Option.some.injEq, Report.mk.injEq] at hline
    obtain ⟨-, -, hpre, hpost⟩ := hline
    generalize counters[i] = c at hpre hpost
    cases c
    cases cnt
    simp only [FunccCounter.mk.injEq]
    exact ⟨hpre.symm, hpost.symm⟩
  · intro hall
    refine List.ext_getElem (by simp) fun i h1 h2 => ?_
    have hi : i < counters.length := by simpa using h1
    have hc := hall counters[i] (List.getElem_mem hi)
    simp only [List.getElem_map, List.getElem_range, List.getElem_zipIdx, hc, hindex, Nat.zero_add]

/-- `funcc_data_free` reports each function of the range with its own counts exactly if all counters of the block are
equal. -/
theorem funccDataFree_reports_iff (σ : State τ) (t : τ) (p : Nat) (hdata : (σ.info t).data = some p)
    (hle : σ.idxRange.min ≤ σ.idxRange.max)
    (hlen : (σ.heap p).length = σ.idxRange.max.toNat - σ.idxRange.min.toNat + 1) :
    (funccDataFree t σ).log = σ.log ++ properReport t σ.idxRange (σ.heap p) ↔
      ∀ c ∈ σ.heap p, ∀ c' ∈ σ.heap p, c = c' := by
  obtain ⟨first, rest, hheap⟩ : ∃ first rest, σ.heap p = first :: rest := by
    cases hheap : σ.heap p with
    | nil => simp [hheap] at hlen
    | cons first rest => exact ⟨first, rest, rfl⟩
  have hlog : (funccDataFree t σ).log = σ.log ++ dumpCounters t σ.idxRange first := by
    simp [funccDataFree, hdata, hheap]
  rw [hlog, List.append_cancel_left_eq, dumpCounters_eq_iff hle hlen, hheap]
  constructor
  · intro hall c hc c' hc'
    rw [hall c hc, hall c' hc']
  · exact fun hall c hc => hall c hc first List.mem_cons_self

/-- The functions 3 and 4 are traced, and after `funcc_init` a thread enters those of the list, one after the other. -/
def reportCalls (entered : List UInt32) : List (Call Unit) :=
  .funccInit () 3 4 true ::
    entered.flatMap fun func => [.countEnter () .pre func true, .countStep (), .countStep (), .countStep ()]

/-- The thread has entered each of the two functions once. -/
theorem funccDataFree_reports_once :
    ∃ σ, run (step funccHooks) (State.initial Unit) (reportCalls [4, 3]) = .ok σ ∧ σ.heap 0 = [⟨1, 0⟩, ⟨1, 0⟩] ∧
      (funccDataFree () σ).log = σ.log ++ properReport () σ.idxRange (σ.heap 0) := by
  refine ⟨_, rfl, rfl, (funccDataFree_reports_iff _ () 0 rfl (by decide) rfl).2 ?_⟩
  decide

/-- The call of the function 4 is not in the report. -/
theorem funccDataFree_reports_first :
    ∃ σ, run (step funccHooks) (State.initial Unit) (reportCalls [4]) = .ok σ ∧
      (σ.info ()).data = some 0 ∧ σ.idxRange = ⟨3, 4⟩ ∧ σ.heap 0 = [⟨0, 0⟩, ⟨1, 0⟩] ∧
      (funccDataFree () σ).log = [⟨(), 3, 0, 0⟩, ⟨(), 4, 0, 0⟩] ∧
      properReport () σ.idxRange (σ.heap 0) = [⟨(), 3, 0, 0⟩, ⟨(), 4, 1, 0⟩] ∧
      (funccDataFree () σ).log ≠ σ.log ++ properReport () σ.idxRange (σ.heap 0) := by
  refine ⟨_, rfl, rfl, rfl, rfl, rfl, rfl, ?_⟩
  decide

end StubProfile.Probe
