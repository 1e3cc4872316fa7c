import Mathlib.Logic.Function.Basic
import Mathlib.Tactic.Common

/-!
# The data of the probe library

`libprobe` is loaded into the traced process.  It keeps one control block for the process (`global_ctl` in
`thread.c`), one record for each thread (the thread-local `localinfo`), and the range of function indices the
counters are laid out for (`idx_range` in `funccnt.c`).  A counter block is reached through the `data` pointer of
its thread; here a pointer is the number of the block, blocks are numbered in the order they are allocated, and
`freed` lists the calls of `free`.

Threads are the elements of an arbitrary type `τ`.  The `pid` fields only go into log lines and are left out, and
of the log lines themselves only the counter report of `dump_counters` is kept.
-/

namespace StubProfile.Probe

/-- The `PROBE_STATE_*` values of `thread.h`, used both for the library and for each thread. -/
inductive ProbeState where
  | uninit | idle | error | running | exit
deriving DecidableEq, Repr

/-- `struct range` of `libprobe/util.h`. -/
structure Range where
  min : UInt16
  max : UInt16
deriving DecidableEq, Repr

structure FunccCounter where
  preCount : UInt64
  postCount : UInt64
deriving DecidableEq, Repr, Inhabited

/-- `struct thread_info`; `data` is the number of a counter block. -/
structure ThreadInfo where
  tid : UInt8
  state : ProbeState
  data : Option Nat
deriving DecidableEq, Repr

/-- The two counting functions, `funcc_count_pre` and `funcc_count_post`. -/
inductive Kind where
  | pre | post
deriving DecidableEq, Repr

/-- Where a thread stands in a counting call.  The call is split at its stores to `thread->state`. -/
inductive Pc where
  | outside -- not in a counting call
  | entering (k : Kind) (func : UInt32) -- past the gate, before `thread->state = PROBE_STATE_RUNNING`
  | counting (k : Kind) (func : UInt32) -- before the increment
  | leaving -- past the increment, before `thread->state = PROBE_STATE_IDLE`
deriving DecidableEq, Repr

/-- Ghost: how the initialisation of a thread ended. -/
inductive InitStatus where
  | none -- never initialised, or destroyed since
  | succeeded
  | failed
deriving DecidableEq, Repr

/-- One line of the counter report: `func[%u]: pre %lu, post %lu`. -/
structure Report (τ : Type) where
  thread : τ
  func : UInt32
  pre : UInt64
  post : UInt64
deriving DecidableEq, Repr

/-- What the process does instead of a step when the C code is undefined. -/
inductive Fault where
  | nullData -- the data pointer of the thread is `NULL`
  | freedData -- the counter block was released
  | badIndex -- the counter is outside the block
  | tableOverflow -- the slot is outside `threads[PROBE_THREAD_NB_MAX]`
deriving DecidableEq, Repr

def probeThreadNbMax : Nat := 64

/-- The function pointers of `struct thread_ctl`, fixed by the constructor `thread_global_init`.
`threadDataInit` is taken at its declared type: given the index range and whether `malloc` succeeds, it returns the
counters of a new block or `NULL`.  `threadDataFree` says whether the destructor (`funcc_data_free`) is set. -/
structure Hooks where
  threadDataInit : Option (Range → Bool → Option (List FunccCounter))
  threadDataFree : Bool

/-- The state of the library in the traced process. -/
structure State (τ : Type) where
  ctlState : ProbeState -- `global_ctl.state`
  nbThread : UInt8
  nbExit : UInt8
  threads : Nat → Option τ -- `global_ctl.threads[]`
  idxRange : Range
  info : τ → ThreadInfo -- `localinfo` of each thread
  pc : τ → Pc
  heap : Nat → List FunccCounter -- the counters of each block
  brk : Nat -- the number of blocks allocated so far
  freed : List Nat -- the blocks passed to `free`, in order
  log : List (Report τ)
  inited : τ → InitStatus

/-- The state at program start: the initialisers of `global_ctl`, `localinfo` and `idx_range`. -/
def State.initial (τ : Type) : State τ where
  ctlState := .uninit
  nbThread := 0
  nbExit := 0
  threads := fun _ => none
  idxRange := ⟨0, 65535⟩
  info := fun _ => ⟨255, .uninit, none⟩
  pc := fun _ => .outside
  heap := fun _ => []
  brk := 0
  freed := []
  log := []
  inited := fun _ => .none

variable {τ : Type} [DecidableEq τ]

def State.setState (σ : State τ) (t : τ) (s : ProbeState) : State τ :=
  { σ with info := Function.update σ.info t { σ.info t with state := s } }

def State.setData (σ : State τ) (t : τ) (p : Option Nat) : State τ :=
  { σ with info := Function.update σ.info t { σ.info t with data := p } }

def State.setPc (σ : State τ) (t : τ) (p : Pc) : State τ :=
  { σ with pc := Function.update σ.pc t p }

def State.setInited (σ : State τ) (t : τ) (i : InitStatus) : State τ :=
  { σ with inited := Function.update σ.inited t i }

/-- The thread is initialised and not destroyed: its state is `IDLE` or `RUNNING`. -/
def State.Live (σ : State τ) (t : τ) : Prop :=
  (σ.info t).state = .idle ∨ (σ.info t).state = .running

def State.HoldsTid (σ : State τ) (t : τ) : Prop := (σ.info t).tid ≠ 255

/-- Some slot of `threads[]` points to the thread. -/
def State.Registered (σ : State τ) (t : τ) : Prop := ∃ i, σ.threads i = some t

end StubProfile.Probe
