import Mathlib.Algebra.Group.Nat.Defs
import StubProfile.Probe.State

/-!
# The functions of `thread.c` and `funccnt.c`

Each function is a state transformer, in the order of the source inside each file.  The caller `t` is explicit,
since the code reaches its own thread through `probe_get_thread()`.  `m` is the outcome of the `malloc` behind
`thread_data_init`.
-/

namespace StubProfile.Probe

variable {τ : Type} [DecidableEq τ]

/-! ### `funccnt.c`: the thread-local counters -/

/-- The macro `FUNC_IDX`: `unsigned int` minus a promoted `uint16_t`. -/
def funcIdx (r : Range) (func : UInt32) : UInt32 := func - r.min.toUInt32

/-- `nb_counter` of `funcc_data_init` and `len` of `dump_counters`: the `int` value `max - min + 1`, stored in an
`unsigned`. -/
def nbCounter (r : Range) : UInt32 := r.max.toUInt32 - r.min.toUInt32 + 1

/-- `sizeof(struct funcc_thread)`: the `state` field, padded to the alignment of the counters. -/
def funccThreadSize : Nat := 8

def funccCounterSize : Nat := 16

/-- `size` of `funcc_data_init`: computed in `size_t` and stored in an `unsigned`. -/
def dataSize (r : Range) : Nat := (funccThreadSize + (nbCounter r).toNat * funccCounterSize) % 2 ^ 32

/-- The number of whole counters that fit in the block of `dataSize` bytes. -/
def dataEntries (r : Range) : Nat := (dataSize r - funccThreadSize) / funccCounterSize

/-- `funcc_data_init` as `thread_data_init`.  The tests of the two states are those its caller
`probe_thread_init` has just made, and its stores to the thread are repeated there. -/
def funccDataInit (r : Range) (m : Bool) : Option (List FunccCounter) :=
  if r.max = 65535 then none
  else if m then some (List.replicate (dataEntries r) ⟨0, 0⟩)
  else none

/-- `dump_counters`: the loop reads `cnt`, the first counter of the block, in every round. -/
def dumpCounters (t : τ) (r : Range) (cnt : FunccCounter) : List (Report τ) :=
  (List.range (nbCounter r).toNat).map fun i =>
    { thread := t, func := UInt32.ofNat i + r.min.toUInt32, pre := cnt.preCount, post := cnt.postCount }

/-- `funcc_data_free`, called on the thread `t`. -/
def funccDataFree (t : τ) (σ : State τ) : State τ :=
  match (σ.info t).data with
  | none => σ
  | some p =>
    { σ.setData t none with
      log := σ.log ++ dumpCounters t σ.idxRange ((σ.heap p).headD default)
      freed := σ.freed ++ [p] }

/-! ### `thread.c` -/

/-- The pointers `thread_global_init` stores in a library built with `USE_FUNCCNT`. -/
def funccHooks : Hooks := ⟨some funccDataInit, true⟩

/-- The body of the loop of `probe_exit`, called on the thread `c`, for the slot `i`. -/
def probeExitVisit (hk : Hooks) (c : τ) (σ : State τ) (i : Nat) : State τ :=
  match σ.threads i with
  | none => σ
  | some u =>
    if (σ.info u).state = .idle then σ
    else
      let σ₁ := if hk.threadDataFree then (funccDataFree c σ).setData u none else σ
      let σ₂ := (σ₁.setState u .uninit).setInited u .none
      { σ₂ with
        threads := Function.update σ₂.threads i none
        nbExit := σ₂.nbExit + 1 }

/-- The loop of `probe_exit` over the slots below `nb_thread`. -/
def probeExitLoop (hk : Hooks) (c : τ) (σ : State τ) : State τ :=
  (List.range σ.nbThread.toNat).foldl (probeExitVisit hk c) σ

/-- `probe_exit`, called on the thread `c`, with its return value. -/
def probeExit (hk : Hooks) (c : τ) (σ : State τ) : State τ × UInt32 :=
  let σ₁ := { σ with ctlState := .exit }
  if σ₁.nbExit = σ₁.nbThread then (σ₁, 0)
  else
    let σ₂ := probeExitLoop hk c σ₁
    if σ₂.nbExit ≥ σ₂.nbThread then ({ σ₂ with ctlState := .uninit }, 0) else (σ₂, 1)

def threadGlobalExit (hk : Hooks) (c : τ) (σ : State τ) : State τ :=
  if σ.ctlState ≠ .uninit then { (probeExit hk c σ).1 with ctlState := .uninit } else σ

/-- The part of `probe_thread_init` that generates the `tid` and fills the slot. -/
def generateTid (t : τ) (σ : State τ) : Except Fault (State τ) :=
  if (σ.info t).tid > σ.nbThread then
    if σ.nbThread.toNat < probeThreadNbMax then
      .ok { σ with
        nbThread := σ.nbThread + 1
        info := Function.update σ.info t { σ.info t with tid := σ.nbThread }
        threads := Function.update σ.threads σ.nbThread.toNat (some t) }
    else .error .tableOverflow
  else .ok σ

/-- The part of `probe_thread_init` that creates the thread-local data. -/
def createData (hk : Hooks) (t : τ) (m : Bool) (σ : State τ) : State τ :=
  match hk.threadDataInit with
  | none => (σ.setState t .idle).setInited t .succeeded
  | some dataInit =>
    match dataInit σ.idxRange m with
    | some counters =>
      { ((σ.setData t (some σ.brk)).setState t .idle).setInited t .succeeded with
        heap := Function.update σ.heap σ.brk counters
        brk := σ.brk + 1 }
    | none =>
      { ((σ.setData t none).setState t .error).setInited t .failed with
        nbExit := σ.nbExit + 1 }

/-- `probe_thread_init`, called on the thread `t`. -/
def probeThreadInit (hk : Hooks) (t : τ) (m : Bool) (σ : State τ) : Except Fault (State τ) :=
  if σ.ctlState ≠ .running then .ok σ
  else if (σ.info t).state ≠ .uninit then .ok σ
  else
    match generateTid t σ with
    | .ok σ₁ => .ok (createData hk t m σ₁)
    | .error e => .error e

/-! ### `funccnt.c`: initialisation and counting -/

/-- `funcc_init`: the arguments are truncated to the `uint16_t` fields of `idx_range`. -/
def funccInit (hk : Hooks) (t : τ) (min max : UInt32) (m : Bool) (σ : State τ) : Except Fault (State τ) :=
  if σ.ctlState ≠ .uninit then .ok σ
  else probeThreadInit hk t m { σ with idxRange := ⟨min.toUInt16, max.toUInt16⟩, ctlState := .running }

/-- The gate of `funcc_count_pre` and `funcc_count_post`: an uninitialised thread is initialised and goes on
whatever came of it, an idle one goes on, any other returns. -/
def funccCountEnter (hk : Hooks) (t : τ) (k : Kind) (func : UInt32) (m : Bool) (σ : State τ) :
    Except Fault (State τ) :=
  if (σ.info t).state = .uninit then
    match probeThreadInit hk t m σ with
    | .ok σ₁ => .ok (σ₁.setPc t (.entering k func))
    | .error e => .error e
  else if (σ.info t).state ≠ .idle then .ok σ
  else .ok (σ.setPc t (.entering k func))

/-- `pre_count++` or `post_count++` on one counter. -/
def FunccCounter.bump (k : Kind) (c : FunccCounter) : FunccCounter :=
  match k with
  | .pre => { c with preCount := c.preCount + 1 }
  | .post => { c with postCount := c.postCount + 1 }

/-- The increment `info->counters[FUNC_IDX(func)]`. -/
def increment (t : τ) (k : Kind) (func : UInt32) (σ : State τ) : Except Fault (State τ) :=
  match (σ.info t).data with
  | none => .error .nullData
  | some p =>
    if p ∈ σ.freed then .error .freedData
    else if (funcIdx σ.idxRange func).toNat < (σ.heap p).length then
      .ok { σ with
        heap := Function.update σ.heap p ((σ.heap p).modify (funcIdx σ.idxRange func).toNat (FunccCounter.bump k)) }
    else .error .badIndex

/-- The rest of a counting call, up to the next store to `thread->state`. -/
def funccCountStep (t : τ) (σ : State τ) : Except Fault (State τ) :=
  match σ.pc t with
  | .outside => .ok σ
  | .entering k func => .ok ((σ.setState t .running).setPc t (.counting k func))
  | .counting k func =>
    match increment t k func σ with
    | .ok σ₁ => .ok (σ₁.setPc t .leaving)
    | .error e => .error e
  | .leaving => .ok ((σ.setState t .idle).setPc t .outside)

/-! ### The library as a machine -/

/-- A step of the process: a call of the library by a thread, the counting calls split at their state changes.
The calls that are no counting calls can be injected into a thread that is stopped anywhere. -/
inductive Call (τ : Type) where
  | funccInit (t : τ) (min max : UInt32) (m : Bool)
  | threadGlobalExit (t : τ)
  | probeThreadInit (t : τ) (m : Bool)
  | probeExit (t : τ)
  | countEnter (t : τ) (k : Kind) (func : UInt32) (m : Bool)
  | countStep (t : τ)

/-- A thread inside a counting call cannot start another one. -/
def step (hk : Hooks) (σ : State τ) : Call τ → Except Fault (State τ)
  | .funccInit t min max m => funccInit hk t min max m σ
  | .threadGlobalExit t => .ok (threadGlobalExit hk t σ)
  | .probeThreadInit t m => probeThreadInit hk t m σ
  | .probeExit t => .ok (probeExit hk t σ).1
  | .countEnter t k func m => if σ.pc t = .outside then funccCountEnter hk t k func m σ else .ok σ
  | .countStep t => funccCountStep t σ

end StubProfile.Probe
